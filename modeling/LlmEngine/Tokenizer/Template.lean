/-
# LlmEngine.Tokenizer.Template — a template of fixed texts, contents and tags, cut by the scan.

`eng_bpe_encode` with special tokens scans a rendered template from the left and takes, at each place
where special tokens stand, the longest of them.  Which tokens these are depends on the whole text: a
token may stand inside a fixed text of the template, reach from a text into the tag behind it, or go
on behind a tag.  Building the prompt piece by piece takes the tags, and nothing else, as they are.

This module says when the two come to the same ids, for any template that is a list of stretches (a
fixed text, a content, a tag) with a last fixed text behind them:

* `specials` is what the scan takes from a text, and `Spelled` says of a fixed text that cutting its
  special tokens out first changes nothing: merging its fragments makes the same pieces;
* ids stand for the text they are stored with, so two lists of ids that agree behind texts of equal
  length agree piece by piece (`append_inj_spelling`);
* a token that reaches from a content into a tag is none of the pieces of that content, since a text
  is never longer than its byte-mapped form unless it ends in bytes from 0x80 on (`mapped_past`);
* so where the ids agree, the scan has taken the tag behind the first stretch and, inside the fixed
  text in front of it, what it takes from that text alone (`line_cut`), and from there on the argument
  repeats (`stretches_iff`).

The contents contain no special token's text, which is what a caller of the chat is promised to give.
-/
import LlmEngine.Tokenizer.Chat
import LlmEngine.Tokenizer.Pretoken
import LlmEngine.Tokenizer.Splitting

namespace LlmEngine.Tokenizer

open LlmEngine.Lib
open LlmEngine.Lib.LittleEndian
open LlmEngine.Formats

/-! ## The special tokens of a text -/

/-- What the scan takes in at most `n` rounds. -/
def specialsFrom (b : EngBpe) : Nat → Bytes → List (Bytes × Nat) × Bytes
  | 0, s => ([], s)
  | n + 1, s =>
      match nextSpecial b s 0 with
      | none => ([], s)
      | some (j, id, l) =>
          ((s.take j, id) :: (specialsFrom b n (s.drop (j + l))).1, (specialsFrom b n (s.drop (j + l))).2)

/-- The special tokens that the scan takes from a text, each with the stretch before it, and the
stretch behind the last. -/
def specials (b : EngBpe) (s : Bytes) : List (Bytes × Nat) × Bytes := specialsFrom b s.length s

section Scan

variable {g : Gguf} {b : EngBpe}

theorem specialsFrom_cut {s : Bytes} {cs : List (Bytes × Nat)} {fin : Bytes} (h : Cut b s cs fin) :
    ∀ n : Nat, s.length ≤ n → specialsFrom b n s = (cs, fin) := by
  induction h with
  | last hnone =>
      intro n _
      cases n with
      | zero => rfl
      | succ n => rw [specialsFrom, hnone]
  | @marked t rest id cs fin hnext hne _ ih =>
      intro n hn
      have hpos := List.length_pos_of_ne_nil hne
      simp only [List.length_append] at hn
      cases n with
      | zero => omega
      | succ n =>
          have hdrop : (t ++ (b.text id ++ rest)).drop (t.length + (b.text id).length) = rest := by
            rw [← List.drop_drop, List.drop_left' rfl, List.drop_left' rfl]
          rw [specialsFrom, hnext]
          simp only [hdrop, ih n (by omega), List.take_left' rfl]

/-- **What the scan takes is what occurs.** -/
theorem Occurs.specials_eq (hb : engBpeFromGguf g = some b) {s : Bytes} {cs : List (Bytes × Nat)} {fin : Bytes}
    (h : Occurs b s cs fin) : specials b s = (cs, fin) :=
  specialsFrom_cut (h.cut hb) s.length (Nat.le_refl _)

theorem occurs_specials (hb : engBpeFromGguf g = some b) (s : Bytes) :
    Occurs b s (specials b s).1 (specials b s).2 := by
  obtain ⟨cs, fin, hocc⟩ := exists_occurs hb s.length s (Nat.le_refl _)
  rw [hocc.specials_eq hb]
  exact hocc

theorem EngBpe.Starts.append {s : Bytes} (h : b.Starts s) (v : Bytes) : b.Starts (s ++ v) := by
  obtain ⟨id, hid, hfront⟩ := h
  exact ⟨id, hid, hfront.trans (List.prefix_append _ _)⟩

/-- Fewer bytes behind it leave the longest the longest. -/
theorem EngBpe.LongestAt.shrink {s v : Bytes} {id : Nat} (h : b.LongestAt (s ++ v) id) (hs : b.text id <+: s) :
    b.LongestAt s id :=
  ⟨h.found, hs, fun i hi hfront => h.longest i hi (hfront.trans (List.prefix_append _ _)), h.first⟩

/-- The text is its stretches and special tokens. -/
theorem Occurs.behind {s : Bytes} {xs ys : List (Bytes × Nat)} {t fin : Bytes} {id : Nat}
    (h : Occurs b s (xs ++ (t, id) :: ys) fin) : ∃ rest,
      s = xs.flatMap (fun p => p.1 ++ b.text p.2) ++ (t ++ (b.text id ++ rest)) ∧ Occurs b rest ys fin := by
  induction xs generalizing s with
  | nil =>
      cases h with
      | next _ _ hrest => exact ⟨_, rfl, hrest⟩
  | cons x xs ih =>
      cases h with
      | @next t' rest' id' _ _ _ _ hrest =>
          obtain ⟨rest, rfl, hocc⟩ := ih hrest
          exact ⟨rest, by simp, hocc⟩

theorem Occurs.text_eq {s : Bytes} {cs : List (Bytes × Nat)} {fin : Bytes} (h : Occurs b s cs fin) :
    s = cs.flatMap (fun p => p.1 ++ b.text p.2) ++ fin := by
  induction h with
  | last _ => rfl
  | next _ _ _ ih =>
      rw [List.flatMap_cons, List.append_assoc, List.append_assoc, ← ih]

end Scan

/-! ## Ids and the text they stand for -/

/-- The pieces that merging makes of a text. -/
def textPieces (b : EngBpe) (s : Bytes) : List Bytes := (fragments s).flatMap (pieces b)

/-- The pieces of the stretches, with the special tokens between them. -/
def markedPieces (b : EngBpe) : List (Bytes × Nat) → Bytes → List Bytes
  | [], fin => textPieces b fin
  | (t, id) :: cs, fin => textPieces b t ++ b.text id :: markedPieces b cs fin

/-- Cutting the special tokens out of a text first changes nothing: merging makes each of them too,
and each has the id that its text has. -/
def Spelled (b : EngBpe) (s : Bytes) : Prop :=
  markedPieces b (specials b s).1 (specials b s).2 = textPieces b s ∧
    ∀ p ∈ (specials b s).1, engBpeFind b (b.text p.2) = some p.2

instance (b : EngBpe) (s : Bytes) : Decidable (Spelled b s) := inferInstanceAs (Decidable (_ ∧ _))

/-- The stored texts of ids, one after the other. -/
def spelling (b : EngBpe) (ids : List Nat) : Bytes := ids.flatMap b.text

/-- Ids that a text of theirs is found by. -/
def Found (b : EngBpe) (ids : List Nat) : Prop := ∀ id ∈ ids, engBpeFind b (b.text id) = some id

@[simp] theorem spelling_nil (b : EngBpe) : spelling b [] = [] := rfl

@[simp] theorem spelling_cons (b : EngBpe) (id : Nat) (ids : List Nat) :
    spelling b (id :: ids) = b.text id ++ spelling b ids := rfl

@[simp] theorem spelling_append (b : EngBpe) (xs ys : List Nat) :
    spelling b (xs ++ ys) = spelling b xs ++ spelling b ys := List.flatMap_append

section Ids

variable {g : Gguf} {b : EngBpe}

theorem text_of_find (hb : engBpeFromGguf g = some b) {s : Bytes} {id : Nat} (h : engBpeFind b s = some id) :
    b.text id = s := by
  rw [EngBpe.text, List.getD_eq_getElem?_getD, tok_of_get hb h]
  rfl

/-- Ids found by their texts are told apart by them. -/
theorem Found.eq_of_texts {xs ys : List Nat} (hx : Found b xs) (hy : Found b ys)
    (h : xs.map b.text = ys.map b.text) : xs = ys := by
  have hfind : ∀ zs : List Nat, Found b zs → (zs.map b.text).map (engBpeFind b) = zs.map some := by
    intro zs hz
    rw [List.map_map]
    exact List.map_congr_left hz
  have hsome : xs.map some = ys.map some := by
    rw [← hfind xs hx, h, hfind ys hy]
  exact List.map_injective_iff.mpr (Option.some_injective Nat) hsome

theorem found_of_mapM (hb : engBpeFromGguf g = some b) (ps : List Bytes) : ∀ {ids : List Nat},
    ps.mapM (engBpeFind b) = some ids → ids.map b.text = ps ∧ Found b ids := by
  induction ps with
  | nil =>
      intro ids h
      obtain rfl := Option.some.inj h
      exact ⟨rfl, fun id hid => absurd hid List.not_mem_nil⟩
  | cons p ps ih =>
      intro ids h
      rw [List.mapM_cons] at h
      obtain ⟨id, hid, hrest⟩ := Option.bind_eq_some_iff.mp h
      obtain ⟨ids', hids', heq⟩ := Option.bind_eq_some_iff.mp hrest
      obtain rfl := Option.some.inj heq
      obtain ⟨hmap, hfound⟩ := ih hids'
      have htext := text_of_find hb hid
      refine ⟨by rw [List.map_cons, hmap, htext], List.forall_mem_cons.mpr ⟨?_, hfound⟩⟩
      rw [htext, hid]

theorem fragIds_mapM {frag : Bytes} {ids : List Nat} (h : fragIds b frag = some ids) :
    (pieces b frag).mapM (engBpeFind b) = some ids := by
  unfold fragIds at h
  split_ifs at h
  exact h

/-- **The ids of a text** are those of its pieces. -/
theorem textIds_texts (hb : engBpeFromGguf g = some b) (s : Bytes) : ∀ {ids : List Nat},
    textIds b s = some ids → ids.map b.text = textPieces b s ∧ Found b ids := by
  unfold textIds textPieces
  induction fragments s with
  | nil =>
      intro ids h
      obtain rfl := Option.some.inj h
      exact ⟨rfl, fun id hid => absurd hid List.not_mem_nil⟩
  | cons f fs ih =>
      intro ids h
      rw [List.mapM_cons] at h
      obtain ⟨lists, hlists, rfl⟩ := Option.map_eq_some_iff.mp h
      obtain ⟨xs, hxs, hrest⟩ := Option.bind_eq_some_iff.mp hlists
      obtain ⟨ys, hys, heq⟩ := Option.bind_eq_some_iff.mp hrest
      obtain rfl := Option.some.inj heq
      obtain ⟨hmap, hfound⟩ := found_of_mapM hb _ (fragIds_mapM hxs)
      obtain ⟨hmap', hfound'⟩ := ih (by rw [hys]; rfl)
      rw [List.flatten_cons, List.map_append, hmap, hmap', List.flatMap_cons]
      exact ⟨rfl, List.forall_mem_append.mpr ⟨hfound, hfound'⟩⟩

theorem cutIds_marked {t fin : Bytes} {id : Nat} {cs : List (Bytes × Nat)} {y : List Nat}
    (h : cutIds b ((t, id) :: cs) fin = some y) : ∃ a y', textIds b t = some a ∧
      cutIds b cs fin = some y' ∧ y = a ++ id :: y' := by
  obtain ⟨a, ha, hrest⟩ := Option.bind_eq_some_iff.mp h
  obtain ⟨y', hy', rfl⟩ := Option.map_eq_some_iff.mp hrest
  exact ⟨a, y', ha, hy', rfl⟩

theorem cutIds_texts (hb : engBpeFromGguf g = some b) {fin : Bytes} (cs : List (Bytes × Nat)) : ∀ {ids : List Nat},
    cutIds b cs fin = some ids → ids.map b.text = markedPieces b cs fin ∧
      (Found b ids ↔ ∀ p ∈ cs, engBpeFind b (b.text p.2) = some p.2) := by
  induction cs with
  | nil =>
      intro ids h
      obtain ⟨hmap, hfound⟩ := textIds_texts hb fin h
      exact ⟨hmap, fun _ p hp => absurd hp List.not_mem_nil, fun _ => hfound⟩
  | cons c cs ih =>
      intro ids h
      obtain ⟨t, id⟩ := c
      obtain ⟨a, y, ha, hy, rfl⟩ := cutIds_marked h
      obtain ⟨hmap, hfound⟩ := textIds_texts hb t ha
      obtain ⟨hmap', hiff⟩ := ih hy
      rw [List.map_append, List.map_cons, hmap, hmap', markedPieces, List.forall_mem_cons, ← hiff]
      refine ⟨rfl, ?_⟩
      unfold Found
      rw [List.forall_mem_append, List.forall_mem_cons]
      exact and_iff_right hfound

/-- **Cut first or merged as it is**: the same ids, exactly when the text is spelled out. -/
theorem spelled_iff (hb : engBpeFromGguf g = some b) {s : Bytes} {xs ys : List Nat} (hx : textIds b s = some xs)
    (hy : cutIds b (specials b s).1 (specials b s).2 = some ys) : ys = xs ↔ Spelled b s := by
  obtain ⟨hmap, hfound⟩ := textIds_texts hb s hx
  obtain ⟨hmap', hiff⟩ := cutIds_texts hb _ hy
  unfold Spelled
  rw [← hiff, ← hmap, ← hmap']
  constructor
  · rintro rfl
    exact ⟨rfl, hfound⟩
  · rintro ⟨htexts, hfound'⟩
    exact hfound'.eq_of_texts hfound htexts

theorem flatMap_text (ids : List Nat) : spelling b ids = (ids.map b.text).flatten := List.flatMap_def

/-- Ids of ordinary text spell its mapped bytes. -/
theorem spelling_textIds (hb : engBpeFromGguf g = some b) {s : Bytes} {ids : List Nat} (h : textIds b s = some ids) :
    spelling b ids = s.flatMap b2u := by
  have hfrag : ∀ f, (pieces b f).flatten = f.flatMap b2u := by
    intro f
    obtain ⟨gs, hps, rfl⟩ := pieces_grouped b f
    rw [hps]
    clear hps
    induction gs with
    | nil => rfl
    | cons q gs ih =>
        rw [List.map_cons, List.flatten_cons, ih, List.flatten_cons, List.flatMap_append]
  have hall : ∀ fs : List Bytes, (fs.flatMap (pieces b)).flatten = fs.flatten.flatMap b2u := by
    intro fs
    induction fs with
    | nil => rfl
    | cons f fs ih =>
        rw [List.flatMap_cons, List.flatten_append, hfrag, ih, List.flatten_cons, List.flatMap_append]
  rw [flatMap_text, (textIds_texts hb s h).1, textPieces, hall, fragments_flatten]

theorem b2u_ne_nil (c : UInt8) : b2u c ≠ [] := by
  unfold b2u
  simp only
  split_ifs <;> simp

theorem piece_ne_nil {frag p : Bytes} (h : p ∈ pieces b frag) : p ≠ [] := by
  have hkeep : ∀ q ∈ pieces b frag, q ≠ [] := by
    apply PairMerge.run_keeps (I := fun l => ∀ q ∈ l, q ≠ [])
    · intro l i hl _
      exact PairMerge.joinAt_forall (fun p q hp _ => by simp [hp]) l i hl
    · intro q hq
      obtain ⟨c, -, rfl⟩ := List.mem_map.mp hq
      exact b2u_ne_nil c
  exact hkeep p h

/-- No id of ordinary text stands for nothing. -/
theorem text_ne_nil (hb : engBpeFromGguf g = some b) {s : Bytes} {ids : List Nat} (h : textIds b s = some ids) :
    ∀ id ∈ ids, b.text id ≠ [] := by
  intro id hid
  have hmem : b.text id ∈ textPieces b s := by
    rw [← (textIds_texts hb s h).1]
    exact List.mem_map_of_mem hid
  obtain ⟨f, -, hp⟩ := List.mem_flatMap.mp hmem
  exact piece_ne_nil hp

/-- Two ways to go on behind texts of one length, none of the ids standing for nothing. -/
theorem append_inj_spelling {xs ys us vs : List Nat} (hx : ∀ id ∈ xs, b.text id ≠ []) (hy : ∀ id ∈ ys, b.text id ≠ [])
    (hlen : (spelling b xs).length = (spelling b ys).length) (h : xs ++ us = ys ++ vs) : xs = ys ∧ us = vs := by
  have hnil : ∀ zs : List Nat, (∀ id ∈ zs, b.text id ≠ []) → (spelling b zs).length = 0 → zs = [] := by
    intro zs hz hzero
    cases zs with
    | nil => rfl
    | cons z zs =>
        have hpos := List.length_pos_of_ne_nil (hz z List.mem_cons_self)
        rw [spelling_cons, List.length_append] at hzero
        omega
  rcases List.append_eq_append_iff.mp h with ⟨zs, rfl, rfl⟩ | ⟨zs, rfl, rfl⟩
  · rw [spelling_append, List.length_append] at hlen
    obtain rfl := hnil zs (fun id hid => hy id (List.mem_append_right _ hid)) (by omega)
    simp
  · rw [spelling_append, List.length_append] at hlen
    obtain rfl := hnil zs (fun id hid => hx id (List.mem_append_right _ hid)) (by omega)
    simp

end Ids


/-! ## Mapped text -/

theorem b2u_shape (c : UInt8) :
    (b2u c = [c] ∧ c < 0x80 ∧ c ≠ 10) ∨ ((b2u c).length = 2 ∧ ∀ d ∈ b2u c, 0x80 ≤ d) := by
  have hall : ∀ n < 256, (b2u (UInt8.ofNat n) = [UInt8.ofNat n] ∧ UInt8.ofNat n < 0x80 ∧ UInt8.ofNat n ≠ 10) ∨
      ((b2u (UInt8.ofNat n)).length = 2 ∧ ((b2u (UInt8.ofNat n)).all fun d => decide (0x80 ≤ d)) = true) := by
    decide +kernel
  have hc := hall c.toNat c.toNat_lt
  rw [UInt8.ofNat_toNat] at hc
  exact hc.imp_right (And.imp_right fun h d hd => of_decide_eq_true (List.all_eq_true.mp h d hd))

/-- **Where mapped text goes on behind the text itself**, there are only bytes from 0x80 on.  Along the
text, `a` is how far the mapped bytes are ahead. -/
theorem mapped_past (s : Bytes) : ∀ a r : Bytes, (∀ c ∈ a, 0x80 ≤ c) → s ++ r = a ++ s.flatMap b2u →
    ∀ c ∈ r, 0x80 ≤ c := by
  induction s with
  | nil =>
      intro a r ha h
      rw [List.nil_append, List.flatMap_nil, List.append_nil] at h
      rw [h]
      exact ha
  | cons c s ih =>
      intro a r ha h
      rw [List.flatMap_cons] at h
      cases a with
      | nil =>
          rw [List.nil_append] at h
          rcases b2u_shape c with ⟨hone, -, -⟩ | ⟨htwo, hhigh⟩
          · rw [hone] at h
            exact ih [] r ha (List.cons.inj h).2
          · match hb : b2u c, htwo with
            | [d, e], _ =>
                rw [hb] at h hhigh
                exact ih [e] r (fun x hx => hhigh x (List.mem_cons_of_mem d hx)) (List.cons.inj h).2
      | cons d a =>
          rw [List.cons_append, List.cons_append, ← List.append_assoc] at h
          obtain ⟨rfl, hrest⟩ := List.cons.inj h
          refine ih (a ++ b2u c) r (List.forall_mem_append.mpr ⟨fun x hx => ha x (List.mem_cons_of_mem _ hx), ?_⟩) hrest
          rcases b2u_shape c with ⟨-, hlow, -⟩ | ⟨-, hhigh⟩
          · exact absurd (ha c List.mem_cons_self) (UInt8.not_le.mpr hlow)
          · exact hhigh

theorem newline_not_mapped (s : Bytes) : (10 : UInt8) ∉ s.flatMap b2u := by
  intro h
  obtain ⟨c, -, hc⟩ := List.mem_flatMap.mp h
  rcases b2u_shape c with ⟨hone, -, hne⟩ | ⟨-, hhigh⟩
  · rw [hone, List.mem_singleton] at hc
    exact hne hc.symm
  · exact absurd (hhigh 10 hc) (by decide)

theorem mapped_self {w : Bytes} (hw : ∀ c ∈ w, b2u c = [c]) : w.flatMap b2u = w := by
  induction w with
  | nil => rfl
  | cons c w ih =>
      rw [List.flatMap_cons, hw c List.mem_cons_self, ih fun d hd => hw d (List.mem_cons_of_mem c hd)]
      rfl

/-! ## A stretch up to its tag -/

section Line

variable {g : Gguf} {b : EngBpe}

/-- A tag: a special token, found by its text, that starts with an ASCII byte. -/
structure IsTag (b : EngBpe) (m : Bytes) (id : Nat) : Prop where
  found : engBpeFind b m = some id
  special : engBpeIsSpecial b id = true
  lead : ∃ c m', m = c :: m' ∧ c < 0x80

theorem IsTag.findable (hb : engBpeFromGguf g = some b) {m : Bytes} {id : Nat} (h : IsTag b m id) :
    b.Findable id := by
  obtain ⟨c, m', rfl, -⟩ := h.lead
  refine ⟨(List.getElem?_eq_some_iff.mp (tok_of_get hb h.found)).1, h.special, ?_⟩
  rw [text_of_find hb h.found]
  exact List.cons_ne_nil c m'

theorem not_starts_nil : ¬ b.Starts [] := by
  rintro ⟨id, hid, hfront⟩
  exact hid.nonempty (List.prefix_nil.mp hfront)

/-- Ids that agree: behind a part of the text of `A` the next one is the next of `A`. -/
theorem past_text {A T x y : List Nat} {tid id : Nat} {t s : Bytes} (h : A ++ tid :: x = T ++ id :: y)
    (hA : spelling b A = (t ++ s).flatMap b2u) (hT : spelling b T = t.flatMap b2u) (hs : s ≠ []) :
    ∃ A', A = T ++ id :: A' ∧ y = A' ++ tid :: x ∧ b.text id ++ spelling b A' = s.flatMap b2u := by
  have hpos := List.length_pos_of_ne_nil hs
  have hmapped := length_le_mapped s
  rw [List.flatMap_append, ← hT] at hA
  rcases List.append_eq_append_iff.mp h with ⟨zs, rfl, -⟩ | ⟨zs, rfl, htail⟩
  · have hlen := congrArg List.length hA
    simp only [spelling_append, List.length_append] at hlen
    omega
  · rw [spelling_append] at hA
    have hzs := List.append_cancel_left hA
    cases zs with
    | nil =>
        rw [← hzs] at hmapped
        simp at hmapped
        exact absurd hmapped hs
    | cons z zs =>
        obtain ⟨rfl, rfl⟩ := List.cons.inj htail
        exact ⟨zs, rfl, rfl, hzs⟩

/-- Behind all of it the next one is the tag. -/
theorem at_tag {A T x y : List Nat} {tid id : Nat} (h : A ++ tid :: x = T ++ id :: y)
    (hA : spelling b A = spelling b T) (htid : b.text tid ≠ []) (hid : b.text id ≠ []) :
    A = T ∧ tid = id ∧ x = y := by
  have hlen := congrArg List.length hA
  have hpos := List.length_pos_of_ne_nil htid
  have hpos' := List.length_pos_of_ne_nil hid
  rcases List.append_eq_append_iff.mp h with ⟨zs, rfl, htail⟩ | ⟨zs, rfl, htail⟩
  · cases zs with
    | nil => simpa using htail
    | cons z zs =>
        obtain ⟨rfl, -⟩ := List.cons.inj htail
        simp only [spelling_append, spelling_cons, List.length_append] at hlen
        omega
  · cases zs with
    | nil => simpa [eq_comm] using htail
    | cons z zs =>
        obtain ⟨rfl, -⟩ := List.cons.inj htail
        simp only [spelling_append, spelling_cons, List.length_append] at hlen
        omega

/-- **No piece reaches into the tag**: a special token that merging makes of the text in front of an
ASCII byte lies within that text, and has no newline in it. -/
theorem taken_inside {m rest s r v : Bytes} (hr : ∃ c r', r = c :: r' ∧ c < 0x80) (h : m ++ rest = s ++ r)
    (hm : m ++ v = s.flatMap b2u) : ∃ s', s = m ++ s' ∧ rest = s' ++ r ∧ 10 ∉ m := by
  obtain ⟨c, r, rfl, hc⟩ := hr
  have hnl : 10 ∉ m := by
    intro hmem
    apply newline_not_mapped s
    rw [← hm]
    exact List.mem_append_left v hmem
  rcases List.append_eq_append_iff.mp h with ⟨z, rfl, hrest⟩ | ⟨z, rfl, htail⟩
  · exact ⟨z, rfl, hrest, hnl⟩
  · cases z with
    | nil => exact ⟨[], by simp, by simpa using htail.symm, hnl⟩
    | cons d z =>
        obtain ⟨rfl, -⟩ := List.cons.inj htail
        have hhigh := mapped_past s [] (c :: (z ++ v)) (fun x hx => absurd hx List.not_mem_nil) (by simpa using hm)
        exact absurd (hhigh c List.mem_cons_self) (UInt8.not_le.mpr hc)

/-- A line's newline, or nothing at all in front of the tag. -/
def EndsLine (w nl content : Bytes) : Prop := nl = [10] ∨ (nl = [] ∧ w = [] ∧ content = [])

/-- A special token without a newline stands in the word, when the content has none. -/
theorem in_word {w nl content t s : Bytes} {id : Nat} (hclear : ¬ b.text id <:+: content) (hid : b.Findable id)
    (hnl : 10 ∉ b.text id) (hshape : EndsLine w nl content)
    (h : w ++ (nl ++ content) = t ++ (b.text id ++ s)) :
    ∃ w', w = t ++ (b.text id ++ w') ∧ s = w' ++ (nl ++ content) := by
  obtain ⟨d, m, htext⟩ := List.exists_cons_of_ne_nil hid.nonempty
  rcases hshape with rfl | ⟨rfl, rfl, rfl⟩
  · rcases List.append_eq_append_iff.mp h with ⟨z, -, hz⟩ | ⟨z, rfl, hz⟩
    · -- in the content or on the newline
      cases z with
      | nil =>
          rw [htext] at hz hnl
          obtain ⟨rfl, -⟩ := List.cons.inj hz
          exact absurd List.mem_cons_self hnl
      | cons e z =>
          have hcontent : content = z ++ (b.text id ++ s) := (List.cons.inj hz).2
          exact absurd ⟨z, s, by rw [hcontent, List.append_assoc]⟩ hclear
    · rcases List.append_eq_append_iff.mp hz with ⟨z', rfl, rfl⟩ | ⟨z', hm, hz'⟩
      · exact ⟨z', rfl, rfl⟩
      · cases z' with
        | nil => exact ⟨[], by simp [hm], by simpa using hz'.symm⟩
        | cons e z' =>
            obtain ⟨rfl, -⟩ := List.cons.inj hz'
            exact absurd (by rw [hm]; exact List.mem_append_right z List.mem_cons_self) hnl
  · rw [htext] at h
    simp at h

/-- **The scan up to the tag.**  Where the ids are those of the text in front of the tag, the tag's and
`x`, the scan has taken the tag, before it only what it takes from the word, and `x` behind it. -/
theorem line_cut (hb : engBpeFromGguf g = some b) {tag : Bytes} {tid : Nat} (htag : IsTag b tag tid)
    {nl content : Bytes} (hclear : ∀ id, b.Findable id → ¬ b.text id <:+: content) {s : Bytes}
    {cs : List (Bytes × Nat)} {fin : Bytes} (hocc : Occurs b s cs fin) : ∀ {w R : Bytes} {A x : List Nat},
    s = w ++ (nl ++ content) ++ (tag ++ R) → (∀ c ∈ w, b2u c = [c]) → EndsLine w nl content →
    cutIds b cs fin = some (A ++ tid :: x) → spelling b A = (w ++ (nl ++ content)).flatMap b2u →
    ∃ cw fw cs', Occurs b (w ++ nl) cw (fw ++ nl) ∧ fw <:+ w ∧
      cs = cw ++ (fw ++ (nl ++ content), tid) :: cs' ∧ Occurs b R cs' fin ∧
      cutIds b cw (fw ++ (nl ++ content)) = some A ∧ cutIds b cs' fin = some x := by
  have htext := text_of_find hb htag.found
  have hfindable := htag.findable hb
  induction hocc with
  | last hno =>
      intro w R A x hs _ _ _ _
      exact absurd ⟨tid, hfindable, by rw [htext]; exact List.prefix_append tag R⟩ (hno _ _ hs)
  | @next t rest id cs fin hbefore hlong hrest ih =>
      intro w R A x hs hw hshape hcut hspell
      obtain ⟨T, y, hT, hy, heq⟩ := cutIds_marked hcut
      -- the special token starts no later than the tag
      obtain ⟨s, hline, hfront⟩ : ∃ s, w ++ (nl ++ content) = t ++ s ∧ b.text id ++ rest = s ++ (tag ++ R) := by
        rcases List.append_eq_append_iff.mp hs with ⟨z, hz, hz'⟩ | ⟨z, hz, hz'⟩
        · exact ⟨z, hz, hz'⟩
        · rcases eq_or_ne z [] with rfl | hz0
          · exact ⟨[], by simpa using hz.symm, by simpa using hz'.symm⟩
          · refine absurd ⟨tid, hfindable, ?_⟩ (hbefore _ z hz hz0)
            rw [htext, ← hz']
            exact List.prefix_append tag R
      rw [hline] at hspell
      have hTs := spelling_textIds hb hT
      rcases eq_or_ne s [] with rfl | hs0
      · -- it is the tag
        rw [List.append_nil] at hline hspell
        obtain ⟨rfl, rfl, rfl⟩ := at_tag heq (hspell.trans hTs.symm) hfindable.nonempty hlong.found.nonempty
        rw [htext, List.nil_append] at hfront
        obtain rfl := List.append_cancel_left hfront
        subst hline
        refine ⟨[], w, cs, .last ?_, List.suffix_rfl, rfl, hrest, hT, hy⟩
        intro u v huv hstarts
        rcases eq_or_ne v [] with rfl | hv
        · exact not_starts_nil hstarts
        · refine hbefore u (v ++ content) ?_ (by simp [hv]) ((hstarts.append content).append _)
          rw [← List.append_assoc, huv, List.append_assoc]
      · -- it is a piece of the text in front of the tag, and stands in the word
        obtain ⟨A, rfl, rfl, hA⟩ := past_text heq hspell hTs hs0
        obtain ⟨c, tag', hlead, hc⟩ := htag.lead
        obtain ⟨s', rfl, rfl, hnl⟩ := taken_inside ⟨c, tag' ++ R, by rw [hlead]; rfl, hc⟩ hfront hA
        obtain ⟨w', rfl, rfl⟩ := in_word (hclear id hlong.found) hlong.found hnl hshape hline
        have hshape' : EndsLine w' nl content := by
          rcases hshape with h | ⟨-, h, -⟩
          · exact .inl h
          · simp [hlong.found.nonempty] at h
        have hself : (b.text id).flatMap b2u = b.text id :=
          mapped_self fun c hc => hw c (by simp [hc])
        rw [List.flatMap_append, hself] at hA
        obtain ⟨cw, fw, cs', hword, hsuf, rfl, hR, hA', hx⟩ := ih rfl (fun c hc => hw c (by simp [hc])) hshape' hy
          (List.append_cancel_left hA)
        have hassoc : t ++ (b.text id ++ w') ++ nl = t ++ (b.text id ++ (w' ++ nl)) := by simp
        have hmore : b.text id ++ (w' ++ (nl ++ content) ++ (tag ++ R)) =
            b.text id ++ (w' ++ nl) ++ (content ++ (tag ++ R)) := by simp
        rw [hmore] at hlong hbefore
        refine ⟨(t, id) :: cw, fw, cs', ?_, ?_, rfl, hR, ?_, hx⟩
        · rw [hassoc]
          refine .next (fun u v huv hv hstarts => hbefore u v huv hv ?_) (hlong.shrink (List.prefix_append _ _)) hword
          have hext := hstarts.append (content ++ (tag ++ R))
          rwa [List.append_assoc] at hext
        · exact hsuf.trans ((List.suffix_append _ _).trans (List.suffix_append _ _))
        · rw [cutIds, hT, Option.bind_some, hA']
          rfl

end Line

/-! ## Behind a word -/

section Seam

variable {g : Gguf} {b : EngBpe}

/-- Text whose fragments are those of two halves. -/
theorem textIds_append {u v : Bytes} (h : fragments (u ++ v) = fragments u ++ fragments v) :
    textIds b (u ++ v) = (textIds b u).bind fun xs => (textIds b v).map (xs ++ ·) := by
  unfold textIds
  rw [h, List.mapM_append]
  cases (fragments u).mapM (fragIds b) with
  | none => rfl
  | some xs =>
      cases (fragments v).mapM (fragIds b) with
      | none => rfl
      | some ys => simp

/-- A word is a fragment, when no letter follows. -/
theorem nextFragment_word {w s : Bytes} (hw : w ≠ []) (hletters : ∀ c ∈ w, isLetter c = true)
    (hs : s.takeWhile isLetter = []) : nextFragment (w ++ s) = w.length := by
  obtain ⟨c, w', rfl⟩ := List.exists_cons_of_ne_nil hw
  have hc := hletters c List.mem_cons_self
  have hquote : c ≠ 39 := by
    rintro rfl
    exact absurd hc (by decide)
  have hreach : reach isLetter (c :: w' ++ s) = (c :: w').length := by
    unfold reach
    rw [List.takeWhile_append_of_pos hletters, hs, List.append_nil]
  rw [List.cons_append, nextFragment, if_neg hquote]
  simp only [hc, Bool.not_true, Bool.false_and, Bool.false_eq_true, if_false, List.drop_zero]
  rw [← List.cons_append, hreach, if_pos (by simp)]
  simp

/-- **A word, and what follows it**, encode apart. -/
theorem textIds_word {w s : Bytes} (hletters : ∀ c ∈ w, isLetter c = true) (hs : s.takeWhile isLetter = []) :
    textIds b (w ++ s) = (textIds b w).bind fun xs => (textIds b s).map (xs ++ ·) := by
  rcases eq_or_ne w [] with rfl | hw
  · rw [List.nil_append, textIds_nil]
    cases textIds b s <;> rfl
  · have hone : textIds b w = (fragIds b w).map (· ++ []) := by
      rw [textIds_step hw]
      have hall := nextFragment_word (s := []) hw hletters rfl
      rw [List.append_nil] at hall
      rw [hall, List.take_of_length_le (Nat.le_refl _), List.drop_of_length_le (Nat.le_refl _), textIds_nil]
      cases fragIds b w <;> rfl
    rw [textIds_step (by simp [hw]), nextFragment_word hw hletters hs, List.take_left' rfl, List.drop_left' rfl, hone]
    cases fragIds b w with
    | none => rfl
    | some xs => simp

/-- Newlines are a fragment as far as they reach. -/
theorem nextFragment_newline {c : UInt8} (hc : isNewline c = true) (s : Bytes) :
    nextFragment (c :: s) = reach isNewline (c :: s) := by
  have hpos : 0 < reach isNewline (c :: s) := by simp [reach, hc]
  have hclass : isLetter c = false ∧ isDigit c = false ∧ isPunct c = false ∧ isBlank c = false ∧
      isSpace c = true ∧ c ≠ 39 ∧ c ≠ 32 := by
    have hcases : c = 13 ∨ c = 10 := by simpa [isNewline] using hc
    rcases hcases with rfl | rfl <;> decide
  obtain ⟨hl, hd, hp, hbl, hsp, hquote, hblank⟩ := hclass
  have hletters : reach isLetter (c :: s) = 0 := by simp [reach, hl]
  have hpunct : reach isPunct (c :: s) = 0 := by simp [reach, hp]
  have hblanks : reach isBlank (c :: s) = 0 := by simp [reach, hbl]
  rw [nextFragment, if_neg hquote]
  simp only [hl, hd, hc, Bool.not_true, Bool.not_false, Bool.and_false, Bool.false_eq_true, if_false,
    List.drop_zero, hletters, Nat.lt_irrefl, punctFragment, hblank, hpunct, and_false, hsp, if_true,
    spaceFragment, hblanks, hpos, Nat.zero_add]

theorem fragIds_nil : fragIds b [] = some [] := rfl

/-- **Text by its leading newlines.** -/
theorem textIds_newlines (s : Bytes) : textIds b s =
    (fragIds b (s.takeWhile isNewline)).bind fun xs =>
      (textIds b (s.dropWhile isNewline)).map (xs ++ ·) := by
  cases s with
  | nil => rfl
  | cons c s =>
      by_cases hc : isNewline c = true
      · rw [textIds_step (by simp), nextFragment_newline hc, take_reach, drop_reach]
      · rw [List.takeWhile_cons_of_neg hc, List.dropWhile_cons_of_neg hc, fragIds_nil]
        cases textIds b (c :: s) <;> rfl

/-- Ids are the ids of the pieces, so the first id has the text of the first piece. -/
theorem fragIds_head (hb : engBpeFromGguf g = some b) {frag : Bytes} {ids : List Nat}
    (h : fragIds b frag = some ids) {p : Bytes} {ps : List Bytes} (hp : pieces b frag = p :: ps) :
    ∃ n ns, ids = n :: ns ∧ b.text n = p := by
  obtain ⟨hmap, -⟩ := found_of_mapM hb _ (fragIds_mapM h)
  rw [hp] at hmap
  obtain ⟨n, ns, rfl, htext, -⟩ := List.map_eq_cons_iff.mp hmap
  exact ⟨n, ns, rfl, htext⟩

/-- The newline of a line is not merged with the newlines in front of the content. -/
def SeamAlone (b : EngBpe) (content : Bytes) : Prop :=
  0 ∉ PairMerge.joined (· ++ ·) (catRank b) ((10 :: content.takeWhile isNewline).map b2u)

instance (b : EngBpe) (content : Bytes) : Decidable (SeamAlone b content) :=
  inferInstanceAs (Decidable (_ ∉ _))

theorem seamAlone_nil : SeamAlone b [] := by
  intro h
  have hnone : PairMerge.choose (catRank b) [b2u 10] = none := rfl
  simp [PairMerge.joined, PairMerge.joins, hnone] at h

/-- Where the newline is left alone, the line and the content encode apart. -/
theorem fragIds_alone {content : Bytes} (h : SeamAlone b content) {ds ds' es : List Nat}
    (hd : fragIds b [10] = some ds) (he : fragIds b (content.takeWhile isNewline) = some es)
    (hd' : fragIds b (10 :: content.takeWhile isNewline) = some ds') : ds' = ds ++ es := by
  have hpieces : pieces b (10 :: content.takeWhile isNewline) =
      b2u 10 :: pieces b (content.takeWhile isNewline) := PairMerge.run_cons h
  have hone : pieces b [10] = [b2u 10] := rfl
  unfold fragIds at hd he hd'
  split_ifs at hd he hd'
  rw [hone] at hd
  rw [hpieces, ← List.singleton_append, List.mapM_append, hd, he] at hd'
  exact (Option.some.inj hd').symm

/-- Where it is merged, the first id is another. -/
theorem fragIds_merged (hb : engBpeFromGguf g = some b) {content : Bytes} (h : ¬ SeamAlone b content)
    {ds ds' : List Nat} (hd : fragIds b [10] = some ds)
    (hd' : fragIds b (10 :: content.takeWhile isNewline) = some ds') :
    ∃ n ns m ms, ds = n :: ns ∧ ds' = m :: ms ∧ n ≠ m := by
  obtain ⟨p, ps, hrun, hgrown⟩ := PairMerge.run_head List.length (fun p q => List.length_append)
    (by simp [List.length_pos_of_ne_nil, b2u_ne_nil]) (not_not.mp h)
  have hone : pieces b [10] = [b2u 10] := rfl
  obtain ⟨n, ns, hds, hn⟩ := fragIds_head hb hd hone
  obtain ⟨m, ms, hds', hm⟩ := fragIds_head hb hd' hrun
  refine ⟨n, ns, m, ms, hds, hds', ?_⟩
  rintro rfl
  rw [hn.symm.trans hm] at hgrown
  exact Nat.lt_irrefl _ hgrown

/-- **At the seam**: behind a line's newline the content encodes as it does alone, exactly when that
newline is left alone. -/
theorem seam_iff (hb : engBpeFromGguf g = some b) {content : Bytes} {ds xs vs : List Nat}
    (hds : textIds b [10] = some ds) (hxs : textIds b content = some xs)
    (hvs : textIds b (10 :: content) = some vs) : vs = ds ++ xs ↔ SeamAlone b content := by
  rw [textIds_newlines, List.takeWhile_cons_of_pos (by decide), List.dropWhile_cons_of_pos (by decide)] at hds hvs
  rw [textIds_newlines] at hxs
  obtain ⟨ds, hds', hnil⟩ := Option.bind_eq_some_iff.mp hds
  obtain ⟨_, hend, rfl⟩ := Option.map_eq_some_iff.mp hnil
  obtain rfl := Option.some.inj hend
  obtain ⟨es, hes, hcontent⟩ := Option.bind_eq_some_iff.mp hxs
  obtain ⟨ts, hts, rfl⟩ := Option.map_eq_some_iff.mp hcontent
  obtain ⟨ds', hds'', hrest⟩ := Option.bind_eq_some_iff.mp hvs
  rw [hts, Option.map_some] at hrest
  obtain rfl := Option.some.inj hrest
  by_cases hseam : SeamAlone b content
  · rw [fragIds_alone hseam hds' hes hds'']
    simp [hseam]
  · obtain ⟨n, ns, m, ms, rfl, rfl, hne⟩ := fragIds_merged hb hseam hds' hds''
    simp [hseam, hne.symm]

/-- Cut in front of a seam, and the rest. -/
theorem cutIds_behind {u v : Bytes} (h : textIds b (u ++ v) = (textIds b u).bind fun us => (textIds b v).map (us ++ ·))
    (cs : List (Bytes × Nat)) :
    cutIds b cs (u ++ v) = (cutIds b cs u).bind fun us => (textIds b v).map (us ++ ·) := by
  induction cs with
  | nil => exact h
  | cons c cs ih =>
      obtain ⟨t, id⟩ := c
      rw [cutIds, cutIds, ih]
      cases textIds b t with
      | none => rfl
      | some xs =>
          cases cutIds b cs u with
          | none => rfl
          | some us =>
              cases textIds b v with
              | none => rfl
              | some vs => simp

/-- Cut up to a special token, and behind it. -/
theorem cutIds_append {t fin : Bytes} {id : Nat} {ys : List (Bytes × Nat)} (cs : List (Bytes × Nat)) :
    cutIds b (cs ++ (t, id) :: ys) fin =
      (cutIds b cs t).bind fun xs => (cutIds b ys fin).map (xs ++ id :: ·) := by
  induction cs with
  | nil => rfl
  | cons c cs ih =>
      obtain ⟨u, i⟩ := c
      rw [List.cons_append, cutIds, cutIds, ih]
      cases textIds b u with
      | none => rfl
      | some us =>
          cases cutIds b cs t with
          | none => rfl
          | some xs =>
              cases cutIds b ys fin with
              | none => rfl
              | some y => simp

theorem cutIds_ne_nil (hb : engBpeFromGguf g = some b) {fin : Bytes} (cs : List (Bytes × Nat)) : ∀ {ids : List Nat},
    (∀ p ∈ cs, b.Findable p.2) → cutIds b cs fin = some ids → ∀ id ∈ ids, b.text id ≠ [] := by
  induction cs with
  | nil => exact fun _ h => text_ne_nil hb h
  | cons c cs ih =>
      intro ids hcs h
      obtain ⟨t, id⟩ := c
      obtain ⟨a, y, ha, hy, rfl⟩ := cutIds_marked h
      rw [List.forall_mem_cons] at hcs
      rw [List.forall_mem_append, List.forall_mem_cons]
      exact ⟨text_ne_nil hb ha, hcs.1.nonempty, ih hcs.2 hy⟩

/-- **A line and its content**, cut in the line and encoded at once, against one after the other. -/
theorem line_iff (hb : engBpeFromGguf g = some b) {w fw content : Bytes} {cw : List (Bytes × Nat)}
    {rs xs a : List Nat} (hw : ∀ c ∈ w, isLetter c = true) (hfw : ∀ c ∈ fw, isLetter c = true)
    (hocc : Occurs b (w ++ [10]) cw (fw ++ [10])) (hrs : textIds b (w ++ [10]) = some rs)
    (hxs : textIds b content = some xs) (ha : cutIds b cw (fw ++ ([10] ++ content)) = some a) :
    a = rs ++ xs ↔ Spelled b (w ++ [10]) ∧ SeamAlone b content := by
  have hnl : ∀ s : Bytes, (10 :: s).takeWhile isLetter = [] := fun s => List.takeWhile_cons_of_neg (by decide)
  rw [textIds_word hw (hnl [])] at hrs
  obtain ⟨ws, hws, hrest⟩ := Option.bind_eq_some_iff.mp hrs
  obtain ⟨ds, hds, rfl⟩ := Option.map_eq_some_iff.mp hrest
  have hcontent := cutIds_behind (textIds_word (b := b) hfw (hnl content)) cw
  obtain ⟨us, hus, hrest'⟩ := Option.bind_eq_some_iff.mp (hcontent.symm.trans ha)
  obtain ⟨vs, hvs, rfl⟩ := Option.map_eq_some_iff.mp hrest'
  have hcut : cutIds b (specials b (w ++ [10])).1 (specials b (w ++ [10])).2 = some (us ++ ds) := by
    rw [hocc.specials_eq hb, cutIds_behind (textIds_word hfw (hnl [])), hus, Option.bind_some, hds]
    rfl
  have hline : textIds b (w ++ [10]) = some (ws ++ ds) := by
    rw [textIds_word hw (hnl []), hws, Option.bind_some, hds]
    rfl
  rw [← spelled_iff hb hline hcut, ← seam_iff hb hds hxs hvs]
  constructor
  · intro heq
    -- behind texts of one length
    have hlen := congrArg (fun ids => (spelling b ids).length) heq
    simp only [spelling_append, List.length_append, spelling_textIds hb hvs, spelling_textIds hb hds,
      spelling_textIds hb hxs, List.flatMap_cons, List.flatMap_nil, List.length_nil] at hlen
    rw [List.append_assoc] at heq
    obtain ⟨rfl, hvs'⟩ := append_inj_spelling (cutIds_ne_nil hb cw hocc.findable hus) (text_ne_nil hb hws)
      (by omega) heq
    exact ⟨rfl, hvs'⟩
  · rintro ⟨hfirst, rfl⟩
    rw [List.append_cancel_right hfirst, List.append_assoc]

end Seam

/-! ## A template -/

/-- A stretch of a template: a fixed text, a content, a tag. -/
structure Stretch where
  fixed : Bytes
  content : Bytes
  tag : Bytes
  deriving DecidableEq, Repr

/-- A template, rendered: its stretches, and a last fixed text. -/
def render : List Stretch → Bytes → Bytes
  | [], last => last
  | st :: sts, last => st.fixed ++ (st.content ++ (st.tag ++ render sts last))

/-- The ids of the fixed texts, the contents and the tags, each for itself. -/
def stretchIds (b : EngBpe) : List Stretch → Bytes → Option (List Nat)
  | [], last => textIds b last
  | st :: sts, last =>
      (textIds b st.fixed).bind fun fs => (textIds b st.content).bind fun xs =>
        (stretchIds b sts last).map fun x => fs ++ (xs ++ (engBpeFind b st.tag).getD 0 :: x)

/-- The template cut at its tags, and each fixed text as it is cut by itself. -/
def cutOf (b : EngBpe) : List Stretch → Bytes → List (Bytes × Nat) × Bytes
  | [], last => specials b last
  | st :: sts, last =>
      ((specials b st.fixed).1 ++
        ((specials b st.fixed).2 ++ st.content, (engBpeFind b st.tag).getD 0) :: (cutOf b sts last).1,
        (cutOf b sts last).2)

/-- A fixed text is a word and its newline, or there is no text at all; the content has no special
token in it; the tag is one. -/
structure Stretch.WellFormed (b : EngBpe) (st : Stretch) : Prop where
  line : ∃ w nl, st.fixed = w ++ nl ∧ (∀ c ∈ w, isLetter c = true ∧ b2u c = [c]) ∧ EndsLine w nl st.content
  clear : ∀ id, b.Findable id → ¬ b.text id <:+: st.content
  tagged : IsTag b st.tag ((engBpeFind b st.tag).getD 0)

section Stretches

variable {g : Gguf} {b : EngBpe}

theorem spelled_nil (b : EngBpe) : Spelled b [] := ⟨rfl, fun _ hp => absurd hp List.not_mem_nil⟩

/-- What is spelled out has its special tokens among the pieces. -/
theorem Spelled.piece {s : Bytes} (h : Spelled b s) : ∀ p ∈ (specials b s).1, b.text p.2 ∈ textPieces b s := by
  have hmarked : ∀ (cs : List (Bytes × Nat)) (fin : Bytes), ∀ p ∈ cs, b.text p.2 ∈ markedPieces b cs fin := by
    intro cs
    induction cs with
    | nil => exact fun _ p hp => absurd hp List.not_mem_nil
    | cons c cs ih =>
        intro fin p hp
        rw [markedPieces]
        rcases List.mem_cons.mp hp with rfl | hp
        · exact List.mem_append_right _ List.mem_cons_self
        · exact List.mem_append_right _ (List.mem_cons_of_mem _ (ih fin p hp))
  intro p hp
  rw [← h.1]
  exact hmarked _ _ p hp

/-- The bytes of a piece are those of a fragment, mapped. -/
theorem mem_textPieces {s p : Bytes} (h : p ∈ textPieces b s) : ∃ f ∈ fragments s, p ⊆ f.flatMap b2u := by
  obtain ⟨f, hf, hpiece⟩ := List.mem_flatMap.mp h
  obtain ⟨gs, hgs, hflat⟩ := pieces_grouped b f
  rw [hgs] at hpiece
  obtain ⟨q, hq, rfl⟩ := List.mem_map.mp hpiece
  refine ⟨f, hf, fun d hd => ?_⟩
  obtain ⟨c, hc, hcd⟩ := List.mem_flatMap.mp hd
  rw [← hflat]
  exact List.mem_flatMap.mpr ⟨c, List.mem_flatten.mpr ⟨q, hq, hc⟩, hcd⟩

theorem Spelled.newline {s : Bytes} (h : Spelled b s) : ∀ p ∈ (specials b s).1, 10 ∉ b.text p.2 := by
  intro p hp hnl
  obtain ⟨f, -, hsub⟩ := mem_textPieces (h.piece p hp)
  exact newline_not_mapped f (hsub hnl)

/-- Behind the last special token of a line stands the end of its word, and its newline. -/
theorem Occurs.line_end {s : Bytes} {cs : List (Bytes × Nat)} {fin : Bytes} (h : Occurs b s cs fin) : ∀ {w : Bytes},
    s = w ++ [10] → (∀ p ∈ cs, 10 ∉ b.text p.2) → ∃ fw, fin = fw ++ [10] ∧ fw <:+ w := by
  induction h with
  | last _ => exact fun hs _ => ⟨_, hs, List.suffix_rfl⟩
  | @next t rest id cs fin _ _ _ ih =>
      intro w hs hcs
      rw [List.forall_mem_cons] at hcs
      rcases List.eq_nil_or_concat' rest with rfl | ⟨rest, c, rfl⟩
      · -- the special token would end in the newline
        rw [List.append_nil] at hs
        have hend := congrArg List.getLast? hs
        rw [List.getLast?_append, List.getLast?_append] at hend
        cases hlast : (b.text id).getLast? with
        | none =>
            rename_i hlong _
            exact absurd (List.getLast?_eq_none_iff.mp hlast) hlong.found.nonempty
        | some c =>
            rw [hlast] at hend
            obtain rfl : c = 10 := by simpa using hend
            exact absurd (List.mem_of_getLast? hlast) hcs.1
      · rw [← List.append_assoc, ← List.append_assoc] at hs
        obtain ⟨hw, hc⟩ := List.append_inj' hs rfl
        obtain rfl : c = 10 := by simpa using hc
        obtain ⟨fw, rfl, hsuf⟩ := ih rfl hcs.2
        exact ⟨fw, rfl, hsuf.trans (hw ▸ List.suffix_append _ _)⟩

/-- Behind the last special token of a fixed text stands the end of its word, and what ends the line. -/
theorem Occurs.fixed_end {w nl content : Bytes} {cs : List (Bytes × Nat)} {fin : Bytes}
    (h : Occurs b (w ++ nl) cs fin) (hend : EndsLine w nl content) (hcs : ∀ p ∈ cs, 10 ∉ b.text p.2) :
    ∃ fw, fin = fw ++ nl ∧ fw <:+ w := by
  rcases hend with rfl | ⟨rfl, rfl, rfl⟩
  · exact h.line_end rfl hcs
  · obtain rfl := (List.append_eq_nil_iff.mp h.text_eq.symm).2
    exact ⟨[], rfl, List.suffix_rfl⟩

/-- **A fixed text and its content**, cut in the fixed text and encoded at once, against one after the other. -/
theorem fixed_iff (hb : engBpeFromGguf g = some b) {w nl fw content : Bytes} {cw : List (Bytes × Nat)}
    {rs xs a : List Nat} (hw : ∀ c ∈ w, isLetter c = true) (hend : EndsLine w nl content) (hsuf : fw <:+ w)
    (hocc : Occurs b (w ++ nl) cw (fw ++ nl)) (hrs : textIds b (w ++ nl) = some rs)
    (hxs : textIds b content = some xs) (ha : cutIds b cw (fw ++ (nl ++ content)) = some a) :
    a = rs ++ xs ↔ Spelled b (w ++ nl) ∧ SeamAlone b content := by
  rcases hend with rfl | ⟨rfl, rfl, rfl⟩
  · exact line_iff hb hw (fun c hc => hw c (hsuf.mem hc)) hocc hrs hxs ha
  · -- there is no text at all
    obtain rfl : cw = [] := congrArg Prod.fst ((hocc.specials_eq hb).symm.trans rfl)
    obtain rfl := List.suffix_nil.mp hsuf
    obtain rfl := Option.some.inj hrs
    obtain rfl := Option.some.inj hxs
    obtain rfl := Option.some.inj ha
    simp [spelled_nil, seamAlone_nil]

/-- **Built piece by piece against scanned as a whole.**  The ids are the same exactly when the scan
takes the tags and, beside them, only what it takes from a fixed text by itself, every fixed text is
spelled out, and no line's newline is merged with those its content starts with. -/
theorem stretches_iff (hb : engBpeFromGguf g = some b) (last : Bytes) (sts : List Stretch) :
    (∀ st ∈ sts, st.WellFormed b) → ∀ {x y : List Nat}, stretchIds b sts last = some x →
    cutIds b (specials b (render sts last)).1 (specials b (render sts last)).2 = some y →
    (x = y ↔ specials b (render sts last) = cutOf b sts last ∧
      (∀ st ∈ sts, Spelled b st.fixed ∧ SeamAlone b st.content) ∧ Spelled b last) := by
  induction sts with
  | nil =>
      intro _ x y hx hy
      rw [eq_comm, spelled_iff hb hx hy]
      simp [render, cutOf]
  | cons st sts ih =>
      intro hwell x y hx hy
      rw [List.forall_mem_cons] at hwell
      obtain ⟨⟨⟨w, nl, hfixed, hword, hend⟩, hclear, htag⟩, hwell'⟩ := hwell
      obtain ⟨rs, hrs, hx⟩ := Option.bind_eq_some_iff.mp hx
      obtain ⟨xs, hxs, hx⟩ := Option.bind_eq_some_iff.mp hx
      obtain ⟨x', hx', rfl⟩ := Option.map_eq_some_iff.mp hx
      have htext := text_of_find hb htag.found
      have hwhole := occurs_specials hb (render (st :: sts) last)
      have hletters : ∀ c ∈ w, isLetter c = true := fun c hc => (hword c hc).1
      rw [List.forall_mem_cons]
      constructor
      · rintro rfl
        rw [← List.append_assoc] at hy
        have hspell : spelling b (rs ++ xs) = (w ++ (nl ++ st.content)).flatMap b2u := by
          rw [spelling_append, spelling_textIds hb hrs, spelling_textIds hb hxs, hfixed]
          simp
        obtain ⟨cw, fw, cs', hocc, hsuf, hcs, hR, ha, hrest⟩ := line_cut hb htag hclear hwhole
          (R := render sts last) (by rw [render, hfixed]; simp) (fun c hc => (hword c hc).2) hend hy hspell
        have hR' := hR.specials_eq hb
        obtain ⟨hcut, hall, hlast⟩ := (ih hwell' hx' (by rw [hR']; exact hrest)).mp rfl
        refine ⟨?_, ⟨?_, hall⟩, hlast⟩
        · refine Prod.ext ?_ ?_
          · rw [hcs, cutOf, hfixed, hocc.specials_eq hb, ← hcut, hR', List.append_assoc]
          · rw [cutOf, ← hcut, hR']
        · rw [hfixed] at hrs ⊢
          exact (fixed_iff hb hletters hend hsuf hocc hrs hxs ha).mp rfl
      · rintro ⟨hcut, ⟨⟨hspelled, hseam⟩, hall⟩, hlast⟩
        -- what the scan takes behind the tag
        have hfix := occurs_specials hb st.fixed
        rw [hcut, cutOf] at hwhole
        obtain ⟨rest, hrest, hR⟩ := hwhole.behind
        obtain rfl : render sts last = rest := by
          have htexts := hfix.text_eq
          rw [htext, render] at hrest
          nth_rewrite 1 [htexts] at hrest
          simpa using hrest
        have hR' := hR.specials_eq hb
        rw [hcut, cutOf, cutIds_append] at hy
        obtain ⟨a, ha, hy⟩ := Option.bind_eq_some_iff.mp hy
        obtain ⟨y', hy', rfl⟩ := Option.map_eq_some_iff.mp hy
        obtain rfl : x' = y' := (ih hwell' hx' (by rw [hR']; exact hy')).mpr ⟨hR', hall, hlast⟩
        rw [hfixed] at hspelled hfix hrs ha
        obtain ⟨fw, hfw, hsuf⟩ := hfix.fixed_end hend hspelled.newline
        rw [hfw] at hfix ha
        rw [List.append_assoc] at ha
        obtain rfl := (fixed_iff hb hletters hend hsuf hfix hrs hxs ha).mpr ⟨hspelled, hseam⟩
        rw [List.append_assoc]

end Stretches

end LlmEngine.Tokenizer
