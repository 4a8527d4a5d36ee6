/-
# LlmEngine.Tokenizer.Splitting — special tokens split the text first.

`Occurs` says which special tokens occur in a text: from the end of the one before, at the first place
where any of them stands, the longest that stands there.  Encoding with special tokens is encoding the
ordinary text between them, each stretch on its own.

* `startsAt_eq_none`, `startsAt_some`: the search in one place finds the longest that stands there, and the first
  listed of those with its text.
* `nextSpecial_occurs`: from any place, it comes to the leftmost.
* `Cut.unique`, `exists_occurs`: every text has a split, and one only.
* `engBpeEncode_splits` puts this before `encodeLoop_cut` (`Tokenizer.Special`).

A token without a text is not found (`EngBpe.Findable`), and of those that share a text only the first
(`EngBpe.LongestAt`).
-/
import LlmEngine.Tokenizer.Special

namespace LlmEngine.Tokenizer

open LlmEngine.Lib
open LlmEngine.Lib.LittleEndian

/-! ## Occurrences -/

/-- A special token with a text. -/
structure EngBpe.Findable (b : EngBpe) (id : Nat) : Prop where
  lt : id < b.tok.length
  special : engBpeIsSpecial b id = true
  nonempty : b.text id ≠ []

/-- Some special token stands in front of the text. -/
def EngBpe.Starts (b : EngBpe) (s : Bytes) : Prop := ∃ id, b.Findable id ∧ b.text id <+: s

/-- The longest that does, and the first listed of those with its text. -/
structure EngBpe.LongestAt (b : EngBpe) (s : Bytes) (id : Nat) : Prop where
  found : b.Findable id
  front : b.text id <+: s
  longest : ∀ i, b.Findable i → b.text i <+: s → (b.text i).length ≤ (b.text id).length
  first : ∀ i, b.Findable i → b.text i = b.text id → id ≤ i

/-- The special tokens that occur in a text, each with the stretch of ordinary text before it, and the
stretch behind the last. -/
inductive Occurs (b : EngBpe) : Bytes → List (Bytes × Nat) → Bytes → Prop
  | last {s : Bytes} : (∀ x y, s = x ++ y → ¬ b.Starts y) → Occurs b s [] s
  | next {t rest : Bytes} {id : Nat} {cs : List (Bytes × Nat)} {fin : Bytes} :
      (∀ x y, t = x ++ y → y ≠ [] → ¬ b.Starts (y ++ (b.text id ++ rest))) →
      b.LongestAt (b.text id ++ rest) id → Occurs b rest cs fin →
      Occurs b (t ++ (b.text id ++ rest)) ((t, id) :: cs) fin

/-- The ids of the stretches, with those of the special tokens between them. -/
def concatenated (encode : Bytes → Option (List Nat)) : List (Bytes × Nat) → Bytes → Option (List Nat)
  | [], fin => encode fin
  | (t, id) :: cs, fin => (encode t).bind fun xs => (concatenated encode cs fin).map (xs ++ id :: ·)

/-! ## What the search finds -/

section Search

variable {b : EngBpe}

/-- The best of the candidates `ids` for the front of `s`. -/
def BestOf (b : EngBpe) (s : Bytes) (ids : List Nat) : Option (Nat × Nat) → Prop
  | none => ∀ i ∈ ids, b.text i ≠ [] → ¬ b.text i <+: s
  | some (id, l) => id ∈ ids ∧ b.text id <+: s ∧ l = (b.text id).length ∧ 0 < l ∧
      ∀ i ∈ ids, b.text i <+: s → (b.text i).length ≤ l ∧ ((b.text i).length = l → id ≤ i)

/-- One more candidate, listed behind the others. -/
theorem BestOf.longer {s : Bytes} {ids : List Nat} {best : Option (Nat × Nat)} (h : BestOf b s ids best) {id : Nat}
    (hid : ∀ i ∈ ids, i < id) : BestOf b s (ids ++ [id]) (longer b s best id) := by
  unfold Tokenizer.longer
  cases best with
  | none =>
      simp only [Option.map_none, Option.getD_none, Nat.le_zero, List.length_eq_zero_iff]
      split_ifs with hempty hfront
      · intro i hi hne
        obtain hi | hi := List.mem_append.mp hi
        · exact h i hi hne
        · obtain rfl := List.mem_singleton.mp hi
          exact absurd hempty hne
      · refine ⟨List.mem_append_right _ (List.mem_singleton_self id), List.isPrefixOf_iff_prefix.mp hfront, rfl,
          List.length_pos_of_ne_nil hempty, fun i hi hi' => ?_⟩
        obtain hi | hi := List.mem_append.mp hi
        · -- none of the earlier ones stands here, unless its text is empty
          by_cases hne : b.text i = []
          · rw [hne]
            have := List.length_pos_of_ne_nil hempty
            exact ⟨Nat.zero_le _, fun h0 => by simp at h0; omega⟩
          · exact absurd hi' (h i hi hne)
        · obtain rfl := List.mem_singleton.mp hi
          exact ⟨Nat.le_refl _, fun _ => Nat.le_refl _⟩
      · intro i hi hne
        obtain hi | hi := List.mem_append.mp hi
        · exact h i hi hne
        · obtain rfl := List.mem_singleton.mp hi
          exact fun hp => hfront (List.isPrefixOf_iff_prefix.mpr hp)
  | some r =>
      obtain ⟨best, l⟩ := r
      obtain ⟨hmem, hfront, rfl, hpos, hall⟩ := h
      simp only [Option.map_some, Option.getD_some]
      split_ifs with hle hnew
      · refine ⟨List.mem_append_left _ hmem, hfront, rfl, hpos, fun i hi hi' => ?_⟩
        obtain hi | hi := List.mem_append.mp hi
        · exact hall i hi hi'
        · obtain rfl := List.mem_singleton.mp hi
          -- of two as long the one with the lower id is kept
          exact ⟨hle, fun _ => (hid _ hmem).le⟩
      · refine ⟨List.mem_append_right _ (List.mem_singleton_self id), List.isPrefixOf_iff_prefix.mp hnew, rfl,
          by omega, fun i hi hi' => ?_⟩
        obtain hi | hi := List.mem_append.mp hi
        · -- the earlier ones are no longer than the old best, which the new one exceeds
          have := (hall i hi hi').1
          exact ⟨by omega, fun heq => by omega⟩
        · obtain rfl := List.mem_singleton.mp hi
          exact ⟨Nat.le_refl _, fun _ => Nat.le_refl _⟩
      · refine ⟨List.mem_append_left _ hmem, hfront, rfl, hpos, fun i hi hi' => ?_⟩
        obtain hi | hi := List.mem_append.mp hi
        · exact hall i hi hi'
        · obtain rfl := List.mem_singleton.mp hi
          exact absurd (List.isPrefixOf_iff_prefix.mpr hi') hnew

theorem foldl_longer {s : Bytes} (ids : List Nat) : ∀ {seen : List Nat} {best : Option (Nat × Nat)},
    BestOf b s seen best → (seen ++ ids).Pairwise (· < ·) →
      BestOf b s (seen ++ ids) (ids.foldl (longer b s) best) := by
  induction ids with
  | nil =>
      intro seen best h _
      rw [List.append_nil]
      exact h
  | cons id ids ih =>
      intro seen best h hsorted
      rw [List.foldl_cons, ← List.singleton_append, ← List.append_assoc]
      rw [← List.singleton_append, ← List.append_assoc] at hsorted
      apply ih (h.longer ?_) hsorted
      intro i hi
      exact (List.pairwise_append.mp (List.pairwise_append.mp hsorted).1).2.2 i hi id (List.mem_singleton_self id)

variable {g : Formats.Gguf}

theorem mem_spec (h : engBpeFromGguf g = some b) {id : Nat} : id ∈ b.spec ↔ b.Findable id := by
  rw [(loaded_spec h).1, List.mem_filter, List.mem_range]
  simp only [Bool.and_eq_true, decide_eq_true_eq]
  exact ⟨fun ⟨hlt, hsp, hne⟩ => ⟨hlt, hsp, hne⟩, fun ⟨hlt, hsp, hne⟩ => ⟨hlt, hsp, hne⟩⟩

theorem specialAt_best (h : engBpeFromGguf g = some b) (s : Bytes) : BestOf b s b.spec (specialAt b s) := by
  have hnone : BestOf b s [] none := fun i hi => absurd hi List.not_mem_nil
  refine foldl_longer b.spec hnone ?_
  rw [List.nil_append, (loaded_spec h).1]
  exact List.pairwise_lt_range.filter _

/-- Equally long texts in front of one are one text. -/
theorem text_eq_of_front {s : Bytes} {i j : Nat} (hi : b.text i <+: s) (hj : b.text j <+: s)
    (hlen : (b.text i).length = (b.text j).length) : b.text i = b.text j :=
  (List.prefix_of_prefix_length_le hi hj hlen.le).eq_of_length hlen

/-- **The search in one place**: nothing, if no special token stands there. -/
theorem startsAt_eq_none (h : engBpeFromGguf g = some b) (s : Bytes) : startsAt b s = none ↔ ¬ b.Starts s := by
  constructor
  · rintro hnone ⟨id, hid, hfront⟩
    cases s with
    | nil => exact hid.nonempty (List.prefix_nil.mp hfront)
    | cons c rest =>
        -- its first byte is in the bitmap
        have hbitmap : b.specFirst c = true := by
          rw [(loaded_spec h).2]
          refine List.any_eq_true.mpr ⟨id, (mem_spec h).mpr hid, ?_⟩
          obtain ⟨v, hv⟩ := hfront
          cases htext : b.text id with
          | nil => exact absurd htext hid.nonempty
          | cons d ds =>
              rw [htext, List.cons_append] at hv
              simp [(List.cons.inj hv).1]
        have hbest := specialAt_best h (c :: rest)
        rw [startsAt, if_pos hbitmap] at hnone
        rw [hnone] at hbest
        exact hbest id ((mem_spec h).mpr hid) hid.nonempty hfront
  · intro hno
    exact startsAt_none s fun id hid hfront => hno ⟨id, (mem_spec h).mp hid, hfront⟩

/-- **Else the longest**, and the first listed of those with its text. -/
theorem startsAt_some (h : engBpeFromGguf g = some b) {s : Bytes} {id l : Nat} (hst : startsAt b s = some (id, l)) :
    b.LongestAt s id ∧ l = (b.text id).length := by
  have hspecial : specialAt b s = some (id, l) := by
    cases s with
    | nil => exact absurd hst (by simp [startsAt])
    | cons c rest =>
        rw [startsAt] at hst
        split_ifs at hst
        exact hst
  have hbest := specialAt_best h s
  rw [hspecial] at hbest
  obtain ⟨hmem, hfront, rfl, hpos, hall⟩ := hbest
  refine ⟨⟨(mem_spec h).mp hmem, hfront, fun i hi hi' => (hall i ((mem_spec h).mpr hi) hi').1, fun i hi heq => ?_⟩, rfl⟩
  exact (hall i ((mem_spec h).mpr hi) (heq ▸ hfront)).2 (by rw [heq])

theorem EngBpe.LongestAt.unique {s : Bytes} {i j : Nat} (hi : b.LongestAt s i) (hj : b.LongestAt s j) : i = j := by
  have heq := text_eq_of_front hi.front hj.front
    (Nat.le_antisymm (hj.longest i hi.found hi.front) (hi.longest j hj.found hj.front))
  exact Nat.le_antisymm (hi.first j hj.found heq.symm) (hj.first i hi.found heq)

theorem startsAt_longest (h : engBpeFromGguf g = some b) {s : Bytes} {id : Nat} (hl : b.LongestAt s id) :
    startsAt b s = some (id, (b.text id).length) := by
  cases hst : startsAt b s with
  | none => exact absurd ⟨id, hl.found, hl.front⟩ ((startsAt_eq_none h s).mp hst)
  | some r =>
      obtain ⟨j, l⟩ := r
      obtain ⟨hj, rfl⟩ := startsAt_some h hst
      rw [hj.unique hl]

/-- The search over the text finds what `Occurs` puts first. -/
theorem nextSpecial_occurs (h : engBpeFromGguf g = some b) {t rest : Bytes} {id : Nat}
    (hbefore : ∀ x y, t = x ++ y → y ≠ [] → ¬ b.Starts (y ++ (b.text id ++ rest)))
    (hl : b.LongestAt (b.text id ++ rest) id) :
    nextSpecial b (t ++ (b.text id ++ rest)) 0 = some (t.length, id, (b.text id).length) := by
  rw [nextSpecial_append t _ fun x y hxy hy => (startsAt_eq_none h _).mpr (hbefore x y hxy hy)]
  have hst := startsAt_longest h hl
  cases hrest : b.text id ++ rest with
  | nil => exact absurd (List.append_eq_nil_iff.mp hrest).1 hl.found.nonempty
  | cons c cs =>
      rw [hrest] at hst
      rw [nextSpecial_cons, hst]
      rfl

theorem nextSpecial_eq_none (h : engBpeFromGguf g = some b) {s : Bytes} (hno : ∀ x y, s = x ++ y → ¬ b.Starts y) :
    nextSpecial b s 0 = none := by
  have happend := nextSpecial_append s [] fun x y hxy _ => by
    rw [List.append_nil]
    exact (startsAt_eq_none h y).mpr (hno x y hxy)
  rw [List.append_nil] at happend
  exact happend

theorem Occurs.cut (h : engBpeFromGguf g = some b) {s : Bytes} {cs : List (Bytes × Nat)} {fin : Bytes}
    (hocc : Occurs b s cs fin) : Cut b s cs fin := by
  induction hocc with
  | last hno => exact .last (nextSpecial_eq_none h hno)
  | next hbefore hl _ ih => exact .marked (nextSpecial_occurs h hbefore hl) hl.found.nonempty ih

theorem Occurs.findable {s : Bytes} {cs : List (Bytes × Nat)} {fin : Bytes} (hocc : Occurs b s cs fin) :
    ∀ x ∈ cs, b.Findable x.2 := by
  induction hocc with
  | last _ => exact fun x hx => absurd hx List.not_mem_nil
  | next _ hl _ ih => exact List.forall_mem_cons.mpr ⟨hl.found, ih⟩

/-- A text is cut in one way. -/
theorem Cut.unique {s : Bytes} {cs cs' : List (Bytes × Nat)} {fin fin' : Bytes} (h : Cut b s cs fin)
    (h' : Cut b s cs' fin') : cs' = cs ∧ fin' = fin := by
  induction h generalizing cs' fin' with
  | last hnone =>
      cases h' with
      | last _ => exact ⟨rfl, rfl⟩
      | marked hnext _ _ => exact absurd (hnone.symm.trans hnext) (by simp)
  | @marked t rest id cs fin hnext hne _ ih =>
      generalize hs : t ++ (b.text id ++ rest) = s at h' hnext
      cases h' with
      | last hnone => exact absurd (hnone.symm.trans hnext) (by simp)
      | @marked t' rest' id' cs' fin' hnext' _ hrest' =>
          have hsame := Option.some.inj (hnext.symm.trans hnext')
          obtain ⟨hlen, hid⟩ := Prod.mk.inj hsame
          obtain rfl := (Prod.mk.inj hid).1
          obtain ⟨rfl, htail⟩ := List.append_inj hs hlen
          obtain rfl := List.append_cancel_left htail
          obtain ⟨rfl, rfl⟩ := ih hrest'
          exact ⟨rfl, rfl⟩

/-- **Every text is split.** -/
theorem exists_occurs (h : engBpeFromGguf g = some b) : ∀ (n : Nat) (s : Bytes), s.length ≤ n →
    ∃ cs fin, Occurs b s cs fin := by
  classical
  intro n
  induction n with
  | zero =>
      intro s hs
      obtain rfl := List.length_eq_zero_iff.mp (Nat.le_zero.mp hs)
      refine ⟨[], [], .last fun x y hxy => ?_⟩
      rintro ⟨id, hid, hfront⟩
      obtain ⟨-, rfl⟩ := List.append_eq_nil_iff.mp hxy.symm
      exact hid.nonempty (List.prefix_nil.mp hfront)
  | succ n ih =>
      intro s hs
      by_cases hex : ∃ k, b.Starts (s.drop k)
      · -- the first place where one stands, and the longest there
        obtain ⟨k, hfirst, hmin⟩ : ∃ k, b.Starts (s.drop k) ∧ ∀ m < k, ¬ b.Starts (s.drop m) :=
          ⟨Nat.find hex, Nat.find_spec hex, fun m hm => Nat.find_min hex hm⟩
        obtain ⟨⟨id, l⟩, hst⟩ := Option.ne_none_iff_exists'.mp
          (fun hnone => (startsAt_eq_none h _).mp hnone hfirst)
        obtain ⟨hl, -⟩ := startsAt_some h hst
        obtain ⟨rest, hrest⟩ := hl.front
        have hsplit : s.take k ++ (b.text id ++ rest) = s := by
          rw [hrest, List.take_append_drop]
        have hpos := List.length_pos_of_ne_nil hl.found.nonempty
        have hlen := congrArg List.length hsplit
        rw [List.length_append, List.length_append] at hlen
        obtain ⟨cs, fin, hocc⟩ := ih rest (by omega)
        have hbefore : ∀ x y, s.take k = x ++ y → y ≠ [] → ¬ b.Starts (y ++ (b.text id ++ rest)) := by
          intro x y hxy hy hstarts
          have hxlen := congrArg List.length hxy
          rw [List.length_append, List.length_take] at hxlen
          have hylen := List.length_pos_of_ne_nil hy
          refine hmin x.length (by omega) ?_
          rw [← hsplit, hxy, List.append_assoc, List.drop_left' rfl]
          exact hstarts
        have hnext := Occurs.next hbefore (hrest ▸ hl) hocc
        rw [hsplit] at hnext
        exact ⟨_, _, hnext⟩
      · refine ⟨[], s, .last fun x y hxy hstarts => hex ⟨x.length, ?_⟩⟩
        rw [hxy, List.drop_left' rfl]
        exact hstarts

end Search

/-! ## Encoding -/

section Concatenated

theorem concatenated_of {encode encode' : Bytes → Option (List Nat)} {n : Nat}
    (h : ∀ t xs, encode t = some xs → xs.length ≤ n → encode' t = some xs) (cs : List (Bytes × Nat)) :
    ∀ {fin : Bytes} {ids : List Nat}, concatenated encode cs fin = some ids → ids.length ≤ n →
      concatenated encode' cs fin = some ids := by
  induction cs with
  | nil => exact fun hids hlen => h _ _ hids hlen
  | cons c cs ih =>
      intro fin ids hids hlen
      obtain ⟨t, id⟩ := c
      rw [concatenated] at hids ⊢
      obtain ⟨xs, hxs, hrest⟩ := Option.bind_eq_some_iff.mp hids
      obtain ⟨ys, hys, rfl⟩ := Option.map_eq_some_iff.mp hrest
      rw [List.length_append, List.length_cons] at hlen
      rw [h t xs hxs (by omega), Option.bind_some, ih hys (by omega)]
      rfl

theorem cutIds_eq (b : EngBpe) (cs : List (Bytes × Nat)) (fin : Bytes) :
    cutIds b cs fin = concatenated (textIds b) cs fin := by
  induction cs with
  | nil => rfl
  | cons c cs ih =>
      rw [cutIds, concatenated, ih]

end Concatenated

/-- **Special tokens split the text first.**  A text has one split into its leftmost, longest special tokens
and the ordinary text between them, and encoding it is encoding each stretch by itself and putting the
special ids between: where the stretches encode and the ids fit, so does the text, to the same ids; and where
the text encodes, so does each stretch with the same room or more. -/
theorem engBpeEncode_splits {g : Formats.Gguf} {b : EngBpe} (h : engBpeFromGguf g = some b) (text : Bytes) :
    ∃ cs fin, Occurs b text cs fin ∧ (∀ cs' fin', Occurs b text cs' fin' → cs' = cs ∧ fin' = fin) ∧
      ∀ (cap capGap : Int) (ids : List Nat),
        (concatenated (fun t => engBpeEncode b t capGap false) cs fin = some ids →
          ids = [] ∨ (ids.length : Int) ≤ cap → engBpeEncode b text cap true = some ids) ∧
        (engBpeEncode b text cap true = some ids → cap ≤ capGap →
          concatenated (fun t => engBpeEncode b t capGap false) cs fin = some ids) := by
  obtain ⟨cs, fin, hocc⟩ := exists_occurs h text.length text (Nat.le_refl _)
  have hcut := hocc.cut h
  refine ⟨cs, fin, hocc, fun cs' fin' hocc' => hcut.unique (hocc'.cut h), fun cap capGap ids => ?_⟩
  have hwhole : engBpeEncode b text cap true = appendFitting cap [] (concatenated (textIds b) cs fin) := by
    rw [← cutIds_eq]
    exact encodeLoop_cut hcut text.length [] (Nat.le_refl _)
  have hgap : ∀ t xs, engBpeEncode b t capGap false = some xs ↔
      textIds b t = some xs ∧ (xs = [] ∨ (xs.length : Int) ≤ capGap) := by
    intro t xs
    rw [engBpeEncode_eq, appendFitting_nil]
  rw [hwhole, appendFitting_nil]
  constructor
  · intro hids hfit
    exact ⟨concatenated_of (fun t xs hxs _ => ((hgap t xs).mp hxs).1) cs hids (Nat.le_refl _), hfit⟩
  · rintro ⟨hids, hfit⟩ hcap
    refine concatenated_of (fun t xs hxs hlen => (hgap t xs).mpr ⟨hxs, ?_⟩) cs hids (Nat.le_refl _)
    obtain rfl | hroom := hfit
    · exact Or.inl (List.length_eq_zero_iff.mp (Nat.le_zero.mp hlen))
    · exact Or.inr (by omega)

/-- Tokens for four bytes, and two special ones of which the first is the start of the second. -/
def markContainer : Formats.Gguf :=
  tableContainer [ascii "a", ascii "<", ascii ">", ascii "!", ascii "<a", ascii "<a>"] [1, 1, 1, 1, 3, 4] [] []

def markBpe : EngBpe := (engBpeFromGguf markContainer).get (by decide +kernel)

/-- `"!<<a>a"`: the longer of the two special tokens, behind `"!<"` and before `"a"`. -/
theorem markBpe_splits : engBpeFromGguf markContainer = some markBpe ∧
    concatenated (fun t => engBpeEncode markBpe t 2 false) [(ascii "!<", 5)] (ascii "a") = some [3, 1, 5, 0] ∧
    engBpeEncode markBpe (ascii "!<<a>a") 4 true = some [3, 1, 5, 0] := by
  have hload : engBpeFromGguf markContainer = some markBpe := (Option.some_get _).symm
  have hfacts : nextSpecial markBpe (ascii "!<" ++ (markBpe.text 5 ++ ascii "a")) 0 =
        some ((ascii "!<").length, 5, (markBpe.text 5).length) ∧
      markBpe.text 5 ≠ [] ∧ nextSpecial markBpe (ascii "a") 0 = none ∧
      concatenated (fun t => engBpeEncode markBpe t 2 false) [(ascii "!<", 5)] (ascii "a") =
        some [3, 1, 5, 0] ∧ ascii "!<" ++ (markBpe.text 5 ++ ascii "a") = ascii "!<<a>a" := by
    decide +kernel
  obtain ⟨hnext, hne, hnone, hgaps, htext⟩ := hfacts
  have hcut := Cut.marked hnext hne (.last hnone)
  rw [htext] at hcut
  obtain ⟨cs, fin, hocc, -, hids⟩ := engBpeEncode_splits hload (ascii "!<<a>a")
  obtain ⟨rfl, rfl⟩ := hcut.unique (hocc.cut hload)
  exact ⟨hload, hgaps, (hids 4 2 _).1 hgaps (Or.inr (by decide))⟩

end LlmEngine.Tokenizer
