/-
# LlmEngine.Tokenizer.Pieces — encoding without buffers and capacities.

The spans of `merge_fragment` stand for pieces of text (`mergeFragment_pieces`), the fragments of
`next_fragment` tile the text (`fragments_flatten`), and `eng_bpe_encode` of ordinary text is the
concatenation of what its fragments give, if that fits the capacity (`engBpeEncode_eq`).

* `Contig` says that the spans lie one behind the other; joining two keeps it, and joins the pieces (`map_joinAt`).
  So the merging of spans is the merging of texts (`catRank`).
* `emitPieces_eq` takes the capacity out: the ids of the pieces, if they fit.
* `nextFragment_advances`: a fragment takes something and not more than there is; by `Lib.Tiling` the loop then cuts
  the text into fragments.
* `textIds` is the result without any buffer, and `engBpeEncode_eq` the code's.
-/
import LlmEngine.Lib.Tiling
import LlmEngine.Tokenizer.Encode

namespace LlmEngine.Tokenizer

open LlmEngine.Lib
open LlmEngine.Lib.LittleEndian

/-! ## Spans and pieces -/

/-- The rank of two adjacent texts: that of their concatenation. -/
def catRank (b : EngBpe) (x y : Bytes) : Option Nat := mapGet b.merge (x ++ y)

/-- The pieces a fragment is merged into. -/
def pieces (b : EngBpe) (frag : Bytes) : List Bytes :=
  PairMerge.run (· ++ ·) (catRank b) (frag.map b2u)

/-- Each symbol starts where the one before it ends. -/
def Contig : Nat → List Sym → Prop
  | _, [] => True
  | off, x :: xs => x.off = off ∧ Contig (off + x.len) xs

section Spans

variable {b : EngBpe} {buf : Bytes}

theorem contig_joinAt (l : List Sym) : ∀ {off : Nat} (i : Nat), Contig off l →
    Contig off (PairMerge.joinAt Sym.join i l) := by
  induction l with
  | nil =>
      intro off i _
      cases i <;> trivial
  | cons x xs ih =>
      intro off i h
      cases i with
      | succ i => exact ⟨h.1, ih i h.2⟩
      | zero =>
          cases xs with
          | nil => exact h
          | cons y rest =>
              obtain ⟨hx, -, hrest⟩ := h
              refine ⟨hx, ?_⟩
              show Contig (off + (x.len + y.len)) rest
              rw [← Nat.add_assoc]
              exact hrest

/-- Two spans that follow each other are one span. -/
theorem text_join {x y : Sym} (h : y.off = x.off + x.len) :
    (x.join y).text buf = x.text buf ++ y.text buf := by
  unfold Sym.text Sym.join
  rw [List.take_add, List.drop_drop, h]

theorem rankAt_text (l : List Sym) : ∀ {off : Nat} (i : Nat), Contig off l →
    PairMerge.rankAt (catRank b) (l.map (Sym.text buf)) i = PairMerge.rankAt (symRank b buf) l i := by
  induction l with
  | nil =>
      intro off i _
      cases i <;> rfl
  | cons x xs ih =>
      intro off i h
      cases i with
      | succ i =>
          rw [List.map_cons, PairMerge.rankAt_succ, PairMerge.rankAt_succ]
          exact ih i h.2
      | zero =>
          cases xs with
          | nil => rfl
          | cons y rest =>
              obtain ⟨hx, hy, -⟩ := h
              show mapGet b.merge (x.text buf ++ y.text buf) = mapGet b.merge ((x.join y).text buf)
              rw [text_join (by rw [hy, hx])]

theorem map_joinAt (l : List Sym) : ∀ {off : Nat} (i : Nat), Contig off l →
    (PairMerge.joinAt Sym.join i l).map (Sym.text buf) =
      PairMerge.joinAt (· ++ ·) i (l.map (Sym.text buf)) := by
  induction l with
  | nil =>
      intro off i _
      cases i <;> rfl
  | cons x xs ih =>
      intro off i h
      cases i with
      | succ i =>
          show x.text buf :: _ = x.text buf :: _
          rw [ih i h.2]
      | zero =>
          cases xs with
          | nil => rfl
          | cons y rest =>
              obtain ⟨hx, hy, -⟩ := h
              show (x.join y).text buf :: _ = (x.text buf ++ y.text buf) :: _
              rw [text_join (by rw [hy, hx])]

theorem symsOf_contig (cs : Bytes) : ∀ w : Nat, Contig w (symsOf w cs) := by
  induction cs with
  | nil => intro w; trivial
  | cons c cs ih => intro w; exact ⟨rfl, ih _⟩

theorem symsOf_text (cs : Bytes) : ∀ pre : Bytes,
    (symsOf pre.length cs).map (Sym.text (pre ++ cs.flatMap b2u)) = cs.map b2u := by
  induction cs with
  | nil => intro pre; rfl
  | cons c cs ih =>
      intro pre
      have hrest := ih (pre ++ b2u c)
      rw [List.length_append, List.append_assoc] at hrest
      simp only [symsOf, List.map_cons, List.flatMap_cons]
      rw [hrest]
      congr 1
      unfold Sym.text
      simp

/-- **What `merge_fragment` ends with**, read off the buffer. -/
theorem mergeFragment_pieces (b : EngBpe) (frag : Bytes) :
    (PairMerge.run Sym.join (symRank b (frag.flatMap b2u)) (symsOf 0 frag)).map
      (Sym.text (frag.flatMap b2u)) = pieces b frag := by
  rw [PairMerge.run_map (I := Contig 0) (fun l i h _ => contig_joinAt l i h)
    (fun l i h => rankAt_text l i h) (fun l i h _ => map_joinAt l i h) (symsOf_contig frag 0)]
  have hsyms := symsOf_text frag []
  rw [List.nil_append] at hsyms
  unfold pieces
  rw [← hsyms]
  rfl

/-- Where `merge_fragment` joins, in order. -/
theorem mergeFragment_joined (b : EngBpe) (frag : Bytes) :
    PairMerge.joined Sym.join (symRank b (frag.flatMap b2u)) (symsOf 0 frag) =
      PairMerge.joined (· ++ ·) (catRank b) (frag.map b2u) := by
  rw [PairMerge.joined_map (I := Contig 0) (fun l i h _ => contig_joinAt l i h)
    (fun l i h => rankAt_text l i h) (fun l i h _ => map_joinAt l i h) (symsOf_contig frag 0)]
  have hsyms := symsOf_text frag []
  rw [List.nil_append] at hsyms
  rw [← hsyms]
  rfl

end Spans

/-! ## One fragment -/

/-- The ids of a fragment, whatever the capacity. -/
def fragIds (b : EngBpe) (frag : Bytes) : Option (List Nat) :=
  if frag.length > 1024 ∨ (frag.flatMap b2u).length > 4096 then none
  else (pieces b frag).mapM (mapGet b.vocab)

/-- The rest of a list, if it fits behind `n` ids. -/
def fitting (cap : Int) (n : Nat) (ids : List Nat) : Prop := ids = [] ∨ (n + ids.length : Int) ≤ cap

instance (cap : Int) (n : Nat) (ids : List Nat) : Decidable (fitting cap n ids) :=
  inferInstanceAs (Decidable (_ ∨ _))

theorem emitPieces_eq (b : EngBpe) (cap : Int) (ps : List Bytes) : ∀ out : List Nat,
    emitPieces b cap ps out = (ps.mapM (mapGet b.vocab)).bind fun ids =>
      if fitting cap out.length ids then some (out ++ ids) else none := by
  induction ps with
  | nil =>
      intro out
      simp [emitPieces, fitting]
  | cons p ps ih =>
      intro out
      rw [emitPieces, List.mapM_cons]
      cases hp : mapGet b.vocab p with
      | none => simp
      | some id =>
          simp only [ih]
          cases hps : ps.mapM (mapGet b.vocab) with
          | none => simp
          | some ids =>
              by_cases hcap : (out.length : Int) ≥ cap
              · have hno : ¬ fitting cap out.length (id :: ids) := by
                  rintro (h | h)
                  · exact absurd h (by simp)
                  · rw [List.length_cons] at h
                    omega
                simp [hcap, hno]
              · have hiff : fitting cap (out.length + 1) ids ↔
                    fitting cap out.length (id :: ids) := by
                  unfold fitting
                  rw [List.length_cons]
                  constructor
                  · rintro (rfl | h)
                    · right
                      simp
                      omega
                    · right
                      omega
                  · rintro (h | h)
                    · exact absurd h (by simp)
                    · right
                      omega
                simp [hcap, hiff]

theorem encodeFragment_eq (b : EngBpe) (cap : Int) (frag : Bytes) (out : List Nat) :
    encodeFragment b cap frag out = (fragIds b frag).bind fun ids =>
      if fitting cap out.length ids then some (out ++ ids) else none := by
  unfold encodeFragment fragIds mergeFragment
  rw [mergeFragment_pieces, emitPieces_eq]
  by_cases hlong : frag.length > 1024
  · simp [hlong]
  · by_cases hbuf : (frag.flatMap b2u).length > 4096
    · rw [if_neg hlong, if_pos hbuf, if_pos (.inr hbuf)]
      rfl
    · rw [if_neg hlong, if_neg hbuf, if_neg (by simp only [not_or]; exact ⟨hlong, hbuf⟩)]

/-! ## The text -/

section Fragments

theorem reach_le (p : UInt8 → Bool) (s : Bytes) : reach p s ≤ s.length :=
  List.Sublist.length_le (List.takeWhile_sublist p)

theorem contractionAt_le {s : Bytes} {l : Nat} (h : contractionAt s = some l) :
    0 < l ∧ l ≤ s.length := by
  unfold contractionAt at h
  obtain ⟨w, hfind, rfl⟩ := Option.map_eq_some_iff.mp h
  have hall : ∀ w ∈ contractions, 0 < w.length := by decide
  have hpos := hall w (List.mem_of_find?_eq_some hfind)
  have hbeq := List.find?_some hfind
  have hlen := congrArg List.length (beq_iff_eq.mp hbeq)
  rw [List.length_map, List.length_take] at hlen
  omega

theorem spaceFragment_le {s : Bytes} (hs : s ≠ []) :
    0 < spaceFragment s ∧ spaceFragment s ≤ s.length := by
  have hpos := List.length_pos_of_ne_nil hs
  have hblank := reach_le isBlank s
  have hnl := reach_le isNewline (s.drop (reach isBlank s))
  rw [List.length_drop] at hnl
  unfold spaceFragment
  simp only
  split_ifs <;> omega

theorem punctFragment_le (c : UInt8) (rest : Bytes) :
    0 < punctFragment c rest ∧ punctFragment c rest ≤ (c :: rest).length := by
  unfold punctFragment
  simp only
  split_ifs with hspace hw hw
  · -- a space, then punctuation
    have hpunct := reach_le isPunct ((c :: rest).drop 1)
    have hnl := reach_le isNewline ((c :: rest).drop (1 + reach isPunct ((c :: rest).drop 1)))
    simp only [List.length_drop, List.length_cons] at hpunct hnl ⊢
    omega
  · exact spaceFragment_le (by simp)
  · simp
  · have hpunct := reach_le isPunct ((c :: rest).drop 0)
    have hnl := reach_le isNewline ((c :: rest).drop (0 + reach isPunct ((c :: rest).drop 0)))
    simp only [List.length_drop, List.length_cons] at hpunct hnl ⊢
    omega
  · exact spaceFragment_le (by simp)
  · simp

/-- **A fragment takes something, and not more than there is.** -/
theorem nextFragment_advances : Tiling.Advances nextFragment := by
  intro s hs
  cases s with
  | nil => exact absurd rfl hs
  | cons c rest =>
      rw [nextFragment]
      split
      · next l hl =>
          split_ifs at hl
          obtain ⟨hpos, hle⟩ := contractionAt_le hl
          rw [List.length_cons]
          omega
      · simp only
        have hletters := reach_le isLetter
          ((c :: rest).drop (if !isLetter c && !isDigit c && !isNewline c then 1 else 0))
        rw [List.length_drop] at hletters
        have hlen : 0 < (c :: rest).length := by simp
        split_ifs with hlead hw hd hw hd
        · rw [if_pos hlead] at hletters
          omega
        · omega
        · exact punctFragment_le c rest
        · rw [if_neg hlead] at hletters
          omega
        · omega
        · exact punctFragment_le c rest

/-- The fragments of a text. -/
def fragments (s : Bytes) : List Bytes := Tiling.tiling nextFragment s

theorem fragments_flatten (s : Bytes) : (fragments s).flatten = s :=
  Tiling.tiling_flatten nextFragment_advances s

theorem fragments_step {s : Bytes} (hs : s ≠ []) :
    fragments s = s.take (nextFragment s) :: fragments (s.drop (nextFragment s)) :=
  Tiling.tiling_step nextFragment_advances hs

end Fragments

/-! ## Ordinary text -/

/-- The ids of a text, whatever the capacity. -/
def textIds (b : EngBpe) (s : Bytes) : Option (List Nat) :=
  ((fragments s).mapM (fragIds b)).map List.flatten

/-- What is written behind `out`, if there is anything and it fits. -/
def appendFitting (cap : Int) (out : List Nat) (ids : Option (List Nat)) : Option (List Nat) :=
  ids.bind fun ids => if fitting cap out.length ids then some (out ++ ids) else none

section Plain

variable {b : EngBpe} {cap : Int}

theorem textIds_nil : textIds b [] = some [] := rfl

theorem textIds_step {s : Bytes} (hs : s ≠ []) : textIds b s =
    (fragIds b (s.take (nextFragment s))).bind fun ids =>
      (textIds b (s.drop (nextFragment s))).map (ids ++ ·) := by
  unfold textIds
  rw [fragments_step hs, List.mapM_cons]
  cases fragIds b (s.take (nextFragment s)) with
  | none => rfl
  | some ids =>
      cases (fragments (s.drop (nextFragment s))).mapM (fragIds b) with
      | none => rfl
      | some rest => rfl

/-- Writing in two steps is writing at once. -/
theorem appendFitting_nil {cap : Int} {x : Option (List Nat)} {ids : List Nat} :
    appendFitting cap [] x = some ids ↔ x = some ids ∧ (ids = [] ∨ (ids.length : Int) ≤ cap) := by
  cases x with
  | none => simp [appendFitting]
  | some xs =>
      have hroom : fitting cap 0 xs ↔ xs = [] ∨ (xs.length : Int) ≤ cap := by
        unfold fitting
        simp
      have happ : appendFitting cap [] (some xs) = if fitting cap 0 xs then some xs else none := rfl
      rw [happ]
      by_cases hfit : fitting cap 0 xs
      · rw [if_pos hfit, Option.some.injEq]
        constructor
        · rintro rfl
          exact ⟨rfl, hroom.mp hfit⟩
        · exact fun h => h.1
      · rw [if_neg hfit]
        refine iff_of_false (by simp) ?_
        rintro ⟨heq, hle⟩
        obtain rfl := Option.some.inj heq
        exact hfit (hroom.mpr hle)

theorem appendFitting_append (out : List Nat) (x y : Option (List Nat)) :
    ((appendFitting cap out x).bind fun out' => appendFitting cap out' y) =
      appendFitting cap out (x.bind fun ids => y.map (ids ++ ·)) := by
  cases x with
  | none => rfl
  | some xs =>
      cases y with
      | none =>
          simp only [appendFitting, Option.bind_some, Option.bind_none, Option.map_none]
          cases (if fitting cap out.length xs then some (out ++ xs) else none) <;> rfl
      | some ys =>
          simp only [appendFitting, Option.bind_some, Option.map_some]
          by_cases hx : fitting cap out.length xs
          · rw [if_pos hx, Option.bind_some, List.append_assoc]
            have hiff : fitting cap (out ++ xs).length ys ↔ fitting cap out.length (xs ++ ys) := by
              unfold fitting at *
              rw [List.length_append, List.length_append, List.append_eq_nil_iff]
              rcases hx with rfl | hx
              · simp
              · constructor
                · rintro (rfl | hy)
                  · right
                    simpa using hx
                  · right
                    push_cast at hy ⊢
                    omega
                · rintro (⟨-, rfl⟩ | hy)
                  · left
                    rfl
                  · right
                    push_cast at hy ⊢
                    omega
            simp only [hiff]
          · rw [if_neg hx, Option.bind_none, if_neg]
            unfold fitting at *
            rw [List.length_append, List.append_eq_nil_iff]
            rintro (⟨rfl, -⟩ | hy)
            · exact hx (.inl rfl)
            · exact hx (.inr (by push_cast at hy; omega))

theorem encodeFragment_append (frag : Bytes) (out : List Nat) :
    encodeFragment b cap frag out = appendFitting cap out (fragIds b frag) :=
  encodeFragment_eq b cap frag out

/-- **The loop over ordinary text**, with rounds enough. -/
theorem encodeLoop_plain : ∀ (n : Nat) (s : Bytes) (out : List Nat), s.length ≤ n →
    encodeLoop b cap false n s out = appendFitting cap out (textIds b s) := by
  intro n
  induction n with
  | zero =>
      intro s out hs
      have hnil : s = [] := List.length_eq_zero_iff.mp (by omega)
      subst hnil
      simp [encodeLoop, textIds_nil, appendFitting, fitting]
  | succ n ih =>
      intro s out hs
      cases s with
      | nil => simp [encodeLoop, textIds_nil, appendFitting, fitting]
      | cons c rest =>
          have hadv := nextFragment_advances (c :: rest) (by simp)
          rw [encodeLoop, textIds_step (by simp), ← appendFitting_append]
          simp only [Bool.false_and, Bool.false_eq_true, if_false, encodeFragment_append]
          cases appendFitting cap out (fragIds b ((c :: rest).take (nextFragment (c :: rest)))) with
          | none => rfl
          | some out' =>
              rw [Option.bind_some]
              exact ih _ out' (by rw [List.length_drop]; omega)

/-- **`eng_bpe_encode` of ordinary text.** -/
theorem engBpeEncode_eq (b : EngBpe) (text : Bytes) (cap : Int) :
    engBpeEncode b text cap false = appendFitting cap [] (textIds b text) :=
  encodeLoop_plain text.length text [] (Nat.le_refl _)

end Plain

end LlmEngine.Tokenizer
