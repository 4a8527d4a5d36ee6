/-
# LlmEngine.Tokenizer.Special — encoding with special tokens.

`eng_bpe_encode` looks for the next special token from every position anew and encodes one fragment
of the text before it.  `Cut` says where a text is cut; the ids are those of the chunks with the
special ids between them (`encodeLoop_cut`).

* `specialAt` takes the longest of those that stand at a place, by a fold over the list (`specialAt_eq`).
* Searching from a later position finds the same token, only nearer (`nextSpecial_drop`), so the search that is
  repeated for each fragment always comes to the same one.
* `encodeLoop_last` is the text behind the last special token, `encodeLoop_chunk` one chunk with the token behind it,
  and `encodeLoop_cut` the induction on the cuts.

Which cuts a text has is `Tokenizer.Splitting`'s.
-/
import LlmEngine.Tokenizer.RoundTrip

namespace LlmEngine.Tokenizer

open LlmEngine.Lib
open LlmEngine.Lib.LittleEndian

/-! ## Looking for a special token -/

section Scan

variable {b : EngBpe}

/-- The text of a token. -/
def EngBpe.text (b : EngBpe) (id : Nat) : Bytes := b.tok.getD id []

/-- The special token that starts here. -/
def startsAt (b : EngBpe) : Bytes → Option (Nat × Nat)
  | [] => none
  | c :: rest => if b.specFirst c then specialAt b (c :: rest) else none

theorem nextSpecial_cons (c : UInt8) (rest : Bytes) (j : Nat) :
    nextSpecial b (c :: rest) j = match startsAt b (c :: rest) with
      | some (id, l) => some (j, id, l)
      | none => nextSpecial b rest (j + 1) := rfl

/-- Places are counted from the outset. -/
theorem nextSpecial_offset (s : Bytes) : ∀ j : Nat,
    nextSpecial b s j = (nextSpecial b s 0).map fun r => (j + r.1, r.2) := by
  induction s with
  | nil => intro j; rfl
  | cons c rest ih =>
      intro j
      rw [nextSpecial_cons, nextSpecial_cons]
      cases startsAt b (c :: rest) with
      | some r => rfl
      | none =>
          simp only
          rw [ih (j + 1), ih (0 + 1), Option.map_map]
          congr 1
          funext r
          simp only [Function.comp]
          congr 1
          omega

/-- Text in which nothing starts is passed over. -/
theorem nextSpecial_append (u v : Bytes)
    (hu : ∀ x y, u = x ++ y → y ≠ [] → startsAt b (y ++ v) = none) :
    nextSpecial b (u ++ v) 0 = (nextSpecial b v 0).map fun r => (u.length + r.1, r.2) := by
  induction u with
  | nil =>
      rw [List.nil_append, List.length_nil]
      cases nextSpecial b v 0 <;> simp
  | cons c u ih =>
      have hc := hu [] (c :: u) rfl (by simp)
      rw [List.cons_append] at hc
      rw [List.cons_append, nextSpecial_cons, hc]
      simp only
      rw [nextSpecial_offset, ih fun x y hxy hy => hu (c :: x) y (by rw [hxy]; rfl) hy,
        Option.map_map]
      congr 1
      funext r
      simp only [Function.comp, List.length_cons]
      congr 1
      omega

/-- Further on, the next special token is the same, and nearer. -/
theorem nextSpecial_drop (s : Bytes) : ∀ {k j id l : Nat}, nextSpecial b s 0 = some (j, id, l) →
    k ≤ j → nextSpecial b (s.drop k) 0 = some (j - k, id, l) := by
  induction s with
  | nil => intro k j id l h _; exact absurd h (by simp [nextSpecial])
  | cons c rest ih =>
      intro k j id l h hk
      cases k with
      | zero => exact h
      | succ k =>
          rw [nextSpecial_cons] at h
          cases hst : startsAt b (c :: rest) with
          | some r =>
              rw [hst] at h
              simp only [Option.some.injEq, Prod.mk.injEq] at h
              omega
          | none =>
              rw [hst] at h
              simp only at h
              rw [nextSpecial_offset] at h
              obtain ⟨⟨j', id', l'⟩, hrest, heq⟩ := Option.map_eq_some_iff.mp h
              simp only [Prod.mk.injEq] at heq
              obtain ⟨rfl, rfl, rfl⟩ := heq
              rw [List.drop_succ_cons, ih hrest (by omega)]
              congr 2
              omega

theorem nextSpecial_drop_none (s : Bytes) : ∀ k : Nat, nextSpecial b s 0 = none →
    nextSpecial b (s.drop k) 0 = none := by
  induction s with
  | nil => intro k h; rw [List.drop_nil]; exact h
  | cons c rest ih =>
      intro k h
      cases k with
      | zero => exact h
      | succ k =>
          rw [nextSpecial_cons] at h
          cases hst : startsAt b (c :: rest) with
          | some r => simp [hst] at h
          | none =>
              rw [hst] at h
              simp only at h
              rw [nextSpecial_offset, Option.map_eq_none_iff] at h
              exact ih k h

/-- Without special tokens the code does not look. -/
theorem scan_eq (s : Bytes) :
    (if true && !b.spec.isEmpty then nextSpecial b s 0 else none) = nextSpecial b s 0 := by
  cases hspec : b.spec with
  | cons id ids => simp
  | nil =>
      have hnone : ∀ j, nextSpecial b s j = none := by
        induction s with
        | nil => intro j; rfl
        | cons c rest ih =>
            intro j
            have hst : startsAt b (c :: rest) = none := by
              rw [startsAt, specialAt, hspec]
              split_ifs <;> rfl
            rw [nextSpecial_cons, hst]
            exact ih (j + 1)
      rw [hnone]
      simp

/-- One candidate of `specialAt`. -/
def longer (b : EngBpe) (s : Bytes) (best : Option (Nat × Nat)) (id : Nat) : Option (Nat × Nat) :=
  if (b.text id).length ≤ (best.map Prod.snd).getD 0 then best
  else if (b.text id).isPrefixOf s then some (id, (b.text id).length)
  else best

theorem specialAt_eq (s : Bytes) : specialAt b s = b.spec.foldl (longer b s) none := rfl

/-- Candidates that are not in front of the text, or no longer than the best, change nothing. -/
theorem foldl_longer_of_not (s : Bytes) (ids : List Nat) : ∀ best : Option (Nat × Nat),
    (∀ id ∈ ids, b.text id <+: s → (b.text id).length ≤ (best.map Prod.snd).getD 0) →
      ids.foldl (longer b s) best = best := by
  induction ids with
  | nil => intro best _; rfl
  | cons id ids ih =>
      intro best h
      have hone : longer b s best id = best := by
        unfold longer
        split_ifs with hle hpre
        · rfl
        · exact absurd (h id List.mem_cons_self (List.isPrefixOf_iff_prefix.mp hpre)) hle
        · rfl
      rw [List.foldl_cons, hone]
      exact ih best fun id' hid' => h id' (List.mem_cons_of_mem id hid')

theorem specialAt_none {s : Bytes} (h : ∀ id ∈ b.spec, ¬ b.text id <+: s) : specialAt b s = none := by
  rw [specialAt_eq]
  exact foldl_longer_of_not s b.spec none fun id hid hpre => absurd hpre (h id hid)

theorem startsAt_none (s : Bytes) (h : ∀ id ∈ b.spec, ¬ b.text id <+: s) : startsAt b s = none := by
  cases s with
  | nil => rfl
  | cons c rest =>
      rw [startsAt, specialAt_none h]
      split_ifs <;> rfl

/-- The special tokens of a loaded tokenizer, in order, and their first bytes. -/
theorem loaded_spec {g : Formats.Gguf} (h : engBpeFromGguf g = some b) :
    b.spec = (List.range b.tok.length).filter (fun i => engBpeIsSpecial b i && b.text i ≠ []) ∧
      b.specFirst = fun c => b.spec.any fun i => (b.text i).head? == some c := by
  obtain ⟨ktok, hb⟩ := loadedFrom h
  exact ⟨hb.spec, hb.specFirst⟩

end Scan

/-! ## Cutting a text -/

/-- Where a text is cut: the chunks, each with the special token behind it, and the last chunk. -/
inductive Cut (b : EngBpe) : Bytes → List (Bytes × Nat) → Bytes → Prop
  | last {s : Bytes} : nextSpecial b s 0 = none → Cut b s [] s
  | marked {t rest : Bytes} {id : Nat} {cs : List (Bytes × Nat)} {fin : Bytes} :
      nextSpecial b (t ++ (b.text id ++ rest)) 0 = some (t.length, id, (b.text id).length) →
      b.text id ≠ [] → Cut b rest cs fin → Cut b (t ++ (b.text id ++ rest)) ((t, id) :: cs) fin

/-- The ids of the chunks and of the special tokens. -/
def cutIds (b : EngBpe) : List (Bytes × Nat) → Bytes → Option (List Nat)
  | [], fin => textIds b fin
  | (t, id) :: cs, fin => (textIds b t).bind fun xs => (cutIds b cs fin).map (xs ++ id :: ·)

section Loop

variable {b : EngBpe} {cap : Int}

theorem appendFitting_one (out : List Nat) (id : Nat) : appendFitting cap out (some [id]) =
    if out.length ≥ cap then none else some (out ++ [id]) := by
  have hfit : fitting cap out.length [id] ↔ ¬ (out.length : Int) ≥ cap := by
    simp only [fitting, List.cons_ne_nil, false_or, List.length_singleton]
    omega
  simp only [appendFitting, Option.bind_some, hfit]
  split_ifs <;> rfl

/-- A text in which no special token starts. -/
theorem encodeLoop_last : ∀ (n : Nat) (s : Bytes) (out : List Nat), s.length ≤ n →
    nextSpecial b s 0 = none →
    encodeLoop b cap true n s out = appendFitting cap out (textIds b s) := by
  intro n
  induction n with
  | zero =>
      intro s out hs _
      have hnil : s = [] := List.length_eq_zero_iff.mp (by omega)
      subst hnil
      simp [encodeLoop, textIds_nil, appendFitting, fitting]
  | succ n ih =>
      intro s out hs hnone
      cases s with
      | nil => simp [encodeLoop, textIds_nil, appendFitting, fitting]
      | cons c rest =>
          have hadv := nextFragment_advances (c :: rest) (by simp)
          rw [encodeLoop, scan_eq, hnone, textIds_step (by simp), ← appendFitting_append]
          simp only [encodeFragment_append]
          cases appendFitting cap out (fragIds b ((c :: rest).take (nextFragment (c :: rest)))) with
          | none => rfl
          | some out' =>
              rw [Option.bind_some]
              exact ih _ out' (by rw [List.length_drop]; omega) (nextSpecial_drop_none _ _ hnone)

/-- A chunk, fragment by fragment, then its special token, then what `R` says of the rest. -/
theorem encodeLoop_chunk {rest m : Bytes} {id : Nat} {R : Option (List Nat)} (hm : m ≠ [])
    (hrest : ∀ n out, rest.length ≤ n → encodeLoop b cap true n rest out = appendFitting cap out R) :
    ∀ (n : Nat) (t : Bytes) (out : List Nat), (t ++ (m ++ rest)).length ≤ n →
      nextSpecial b (t ++ (m ++ rest)) 0 = some (t.length, id, m.length) →
      encodeLoop b cap true n (t ++ (m ++ rest)) out =
        appendFitting cap out ((textIds b t).bind fun xs => R.map (xs ++ id :: ·)) := by
  have hpos := List.length_pos_of_ne_nil hm
  intro n
  induction n with
  | zero =>
      intro t out hlen _
      rw [List.length_append, List.length_append] at hlen
      omega
  | succ n ih =>
      intro t out hlen hnext
      rw [List.length_append, List.length_append] at hlen
      cases t with
      | nil =>
          -- the special token stands here
          rw [List.nil_append] at hnext ⊢
          obtain ⟨c, m', rfl⟩ := List.exists_cons_of_ne_nil hm
          rw [List.cons_append, encodeLoop, scan_eq, ← List.cons_append, hnext]
          simp only [List.length_nil]
          rw [List.drop_left' rfl, hrest n _ (by simp at hlen ⊢; omega), textIds_nil, Option.bind_some]
          have happ : ((appendFitting cap out (some [id])).bind fun out' => appendFitting cap out' R) =
              appendFitting cap out ((some [id]).bind fun ids => R.map (ids ++ ·)) :=
            appendFitting_append out (some [id]) R
          rw [Option.bind_some, appendFitting_one] at happ
          refine Eq.trans ?_ happ
          split_ifs <;> rfl
      | cons c t =>
          have hadv := nextFragment_advances (c :: t) (by simp)
          have htake : (c :: t ++ (m ++ rest)).take (t.length + 1) = c :: t :=
            List.take_left' (by simp)
          rw [List.cons_append, encodeLoop, scan_eq, ← List.cons_append, hnext, List.length_cons]
          simp only [htake, encodeFragment_append]
          have hsplit : ((textIds b (c :: t)).bind fun xs => R.map (xs ++ id :: ·)) =
              (fragIds b ((c :: t).take (nextFragment (c :: t)))).bind fun ids =>
                ((textIds b ((c :: t).drop (nextFragment (c :: t)))).bind fun xs =>
                  R.map (xs ++ id :: ·)).map (ids ++ ·) := by
            rw [textIds_step (s := c :: t) (by simp), Option.bind_assoc]
            congr 1
            funext ids
            cases textIds b ((c :: t).drop (nextFragment (c :: t))) with
            | none => rfl
            | some xs =>
                cases R with
                | none => rfl
                | some ys => simp
          rw [hsplit, ← appendFitting_append]
          cases appendFitting cap out (fragIds b ((c :: t).take (nextFragment (c :: t)))) with
          | none => rfl
          | some out' =>
              simp only [Option.bind_some]
              have hdrop : (c :: t ++ (m ++ rest)).drop (nextFragment (c :: t)) =
                  (c :: t).drop (nextFragment (c :: t)) ++ (m ++ rest) :=
                List.drop_append_of_le_length hadv.2
              have hnear := nextSpecial_drop _ hnext hadv.2
              rw [hdrop, ← List.length_drop] at hnear
              rw [hdrop]
              apply ih _ out' _ hnear
              rw [List.length_append, List.length_append, List.length_drop]
              omega

/-- **Encoding with special tokens** is encoding what the text is cut into. -/
theorem encodeLoop_cut {s : Bytes} {cs : List (Bytes × Nat)} {fin : Bytes} (h : Cut b s cs fin) :
    ∀ (n : Nat) (out : List Nat), s.length ≤ n →
      encodeLoop b cap true n s out = appendFitting cap out (cutIds b cs fin) := by
  induction h with
  | last hnone => exact fun n out hn => encodeLoop_last n _ out hn hnone
  | marked hnext hne _ ih => exact fun n out hn => encodeLoop_chunk hne ih n _ out hn hnext

end Loop

end LlmEngine.Tokenizer
