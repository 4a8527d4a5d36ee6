/-
# LlmEngine.Lib.Probe — open addressing with linear probing, where the first of equal keys wins.

A table is a list of cells, each free or holding a key with its value.  A key is sought from the cell
its hash names onwards, cyclically, up to the cell that holds it or the first free one.  `seek` counts its
rounds, and has no answer when it has been through the table; a program that would loop there is what the
missing answer stands for.

The invariant is that of linear probing (`Models`): on the way from a key's hash to its cell there is no
free cell and no other copy of it.  A search passes over cells of other keys only (`Passed`), and where it
ends is decided by that (`seek_some`, `seek_none`).

As long as one cell stays free, the table is the association list it was filled from, read with the first
entry winning (`get_fill`), whatever the hash: the hash decides where the time goes and never what is
found.  Without a free cell nothing of the kind holds, except that what is found was put there
(`mem_of_get_fill`).
-/
import Mathlib.Data.List.Basic
import Mathlib.Tactic.Common

namespace LlmEngine.Lib.Probe

variable {K V : Type}

/-- `none` is a free cell. -/
abbrev Cells (K V : Type) := List (Option (K × V))

/-- The cell at `h`, counted cyclically. -/
def cell (t : Cells K V) (h : Nat) : Option (K × V) := (t[h % t.length]?).join

theorem cell_mod (t : Cells K V) (h : Nat) : cell t (h % t.length) = cell t h := by
  unfold cell
  rw [Nat.mod_mod]

/-- One cell of the table changes. -/
theorem cell_set {t : Cells K V} {h : Nat} {o : Option (K × V)} (hlt : h < t.length) (i : Nat) :
    cell (t.set h o) i = if i % t.length = h then o else cell t i := by
  unfold cell
  rw [List.length_set, List.getElem?_set]
  by_cases hi : h = i % t.length
  · subst hi
    simp [hlt]
  · simp [hi, Ne.symm hi]

theorem mem_of_cell {t : Cells K V} {j : Nat} {kv : K × V} (h : cell t j = some kv) : some kv ∈ t := by
  unfold cell at h
  exact List.mem_of_getElem? (Option.join_eq_some_iff.mp h)

variable [DecidableEq K]

/-- The cell that holds `k`, with its value, or the first free one, at most `n` cells from `h` on. -/
def seek (t : Cells K V) (k : K) : Nat → Nat → Option (Nat × Option V)
  | 0, _ => none
  | n + 1, h =>
      match cell t h with
      | none => some (h % t.length, none)
      | some (k', v) => if k' = k then some (h % t.length, some v) else seek t k n (h + 1)

variable (hash : K → Nat)

def get (t : Cells K V) (k : K) : Option V := (seek t k t.length (hash k)).bind Prod.snd

/-- A key that is there already keeps its value. -/
def put (t : Cells K V) (k : K) (v : V) : Cells K V :=
  match seek t k t.length (hash k) with
  | some (h, none) => t.set h (some (k, v))
  | _ => t

/-- The entries, put in turn. -/
def fill (t : Cells K V) (l : List (K × V)) : Cells K V :=
  l.foldl (fun t kv => put hash t kv.1 kv.2) t

/-- What an association list says of a key: its first entry. -/
def first (l : List (K × V)) (k : K) : Option V := (l.find? fun kv => kv.1 = k).map Prod.snd

/-- The first index of a key, counted from `i`. -/
theorem first_zipIdx (l : List K) (s : K) : ∀ i : Nat,
    first (l.zipIdx i) s = (l.findIdx? (· = s)).map (i + ·) := by
  induction l with
  | nil => intro i; rfl
  | cons x xs ih =>
      intro i
      rw [List.zipIdx_cons, List.findIdx?_cons]
      by_cases hx : x = s
      · simp [first, hx]
      · have hstep : first ((x, i) :: xs.zipIdx (i + 1)) s = first (xs.zipIdx (i + 1)) s := by
          simp [first, hx]
        rw [hstep, ih (i + 1)]
        cases xs.findIdx? (· = s) with
        | none => simp [hx]
        | some j =>
            simp [hx]
            omega

/-! ## Seeking -/

section Seek

variable {hash} {t : Cells K V} {k : K}

/-- From `h` on there are `d` cells held by other keys. -/
def Passed (t : Cells K V) (k : K) (h d : Nat) : Prop :=
  ∀ e < d, ∃ k' v', cell t (h + e) = some (k', v') ∧ k' ≠ k

/-- **Where a search ends**: behind cells of other keys, on the key or on a free cell. -/
theorem seek_some {n : Nat} : ∀ {h j : Nat} {o : Option V}, seek t k n h = some (j, o) →
    ∃ d < n, j = (h + d) % t.length ∧ Passed t k h d ∧
      cell t (h + d) = o.map fun v => (k, v) := by
  induction n with
  | zero => intro h j o hs; exact absurd hs (by simp [seek])
  | succ n ih =>
      intro h j o hs
      rw [seek] at hs
      split at hs
      · next hcell =>
          obtain ⟨rfl, rfl⟩ := Prod.mk.inj (Option.some.inj hs)
          exact ⟨0, Nat.succ_pos n, rfl, fun e he => absurd he (Nat.not_lt_zero e), hcell⟩
      · next k' v hcell =>
          split_ifs at hs with hk
          · obtain ⟨rfl, rfl⟩ := Prod.mk.inj (Option.some.inj hs)
            subst hk
            exact ⟨0, Nat.succ_pos n, rfl, fun e he => absurd he (Nat.not_lt_zero e), hcell⟩
          · obtain ⟨d, hd, hj, hpass, hend⟩ := ih hs
            refine ⟨d + 1, by omega, by rw [hj]; congr 1; omega, fun e he => ?_, ?_⟩
            · cases e with
              | zero => exact ⟨k', v, hcell, hk⟩
              | succ e =>
                  have := hpass e (by omega)
                  rwa [show h + (e + 1) = h + 1 + e by omega]
            · rw [show h + (d + 1) = h + 1 + d by omega]
              exact hend

/-- A search that ran out of cells has seen every cell held by another key. -/
theorem seek_none {n : Nat} : ∀ {h : Nat}, seek t k n h = none → Passed t k h n := by
  induction n with
  | zero => intro h _ e he; exact absurd he (Nat.not_lt_zero e)
  | succ n ih =>
      intro h hs e he
      rw [seek] at hs
      split at hs
      · exact absurd hs (by simp)
      · next k' v hcell =>
          split_ifs at hs with hk
          cases e with
          | zero => exact ⟨k', v, hcell, hk⟩
          | succ e =>
              have := ih hs e (by omega)
              rwa [show h + (e + 1) = h + 1 + e by omega]

end Seek

/-! ## The table as an association list -/

/-- `t` is what putting the entries of `l` in turn leaves. -/
structure Models (t : Cells K V) (l : List (K × V)) : Prop where
  /-- the invariant of linear probing -/
  path : ∀ j k v, cell t j = some (k, v) → ∃ d < t.length,
    (hash k + d) % t.length = j % t.length ∧ Passed t k (hash k) d
  stored : ∀ k v, first l k = some v ↔ ∃ j, cell t j = some (k, v)
  taken : t.countP Option.isSome ≤ l.length

section Models

variable {hash} {t : Cells K V} {l : List (K × V)}

theorem first_append (k' k : K) (v : V) : first (l ++ [(k, v)]) k' =
    (first l k').or (if k = k' then some v else none) := by
  unfold first
  rw [List.find?_append]
  cases l.find? fun kv => kv.1 = k' with
  | some kv => rfl
  | none =>
      by_cases hk : k = k'
      · simp [hk]
      · simp [hk]

/-- What a search in a table with a free cell finds. -/
theorem Models.seek_eq (h : Models hash t l) (hroom : l.length < t.length) (k : K) :
    ∃ j, seek t k t.length (hash k) = some (j, first l k) := by
  cases hs : seek t k t.length (hash k) with
  | none =>
      -- every cell would be taken
      exfalso
      have hpass := seek_none hs
      have hall : ∀ o ∈ t, Option.isSome o := by
        intro o ho
        obtain ⟨i, hi, rfl⟩ := List.mem_iff_getElem.mp ho
        obtain ⟨e, he, hmod⟩ : ∃ e < t.length, (hash k + e) % t.length = i := by
          have hlt := Nat.mod_lt (hash k) (Nat.lt_of_le_of_lt (Nat.zero_le _) hroom)
          have hdiv := Nat.mod_add_div (hash k) t.length
          by_cases hle : hash k % t.length ≤ i
          · refine ⟨i - hash k % t.length, by omega, ?_⟩
            rw [show hash k + (i - hash k % t.length) = i + t.length * (hash k / t.length) by omega,
              Nat.add_mul_mod_self_left, Nat.mod_eq_of_lt hi]
          · refine ⟨i + t.length - hash k % t.length, by omega, ?_⟩
            rw [show hash k + (i + t.length - hash k % t.length) =
                i + t.length + t.length * (hash k / t.length) by omega, Nat.add_mul_mod_self_left,
              Nat.add_mod_right, Nat.mod_eq_of_lt hi]
        obtain ⟨k', v', hcell, -⟩ := hpass e he
        unfold cell at hcell
        rw [hmod, List.getElem?_eq_getElem hi] at hcell
        rw [show t[i] = some (k', v') from hcell]
        rfl
      have hcount := List.countP_eq_length.mpr hall
      have htaken := h.taken
      omega
  | some r =>
      obtain ⟨j, o⟩ := r
      obtain ⟨d, hd, hj, hpass, hend⟩ := seek_some hs
      refine ⟨j, ?_⟩
      congr 2
      cases o with
      | some v => exact ((h.stored k v).mpr ⟨hash k + d, hend⟩).symm
      | none =>
          -- were `k` stored, its cell would be on the way, or the free one on its path
          cases hf : first l k with
          | none => rfl
          | some v =>
              exfalso
              obtain ⟨i, hi⟩ := (h.stored k v).mp hf
              obtain ⟨d', -, hd', hpath⟩ := h.path i k v hi
              have hat : cell t (hash k + d') = some (k, v) := by
                rw [← cell_mod, hd', cell_mod]
                exact hi
              rcases Nat.lt_trichotomy d d' with hlt | heq | hgt
              · obtain ⟨_, _, hcell, -⟩ := hpath d hlt
                rw [hend] at hcell
                exact absurd hcell (by simp)
              · rw [← heq, hend] at hat
                exact absurd hat (by simp)
              · obtain ⟨k', v', hcell, hne⟩ := hpass d' hgt
                rw [hat] at hcell
                exact hne (Prod.mk.inj (Option.some.inj hcell)).1.symm

theorem Models.get_eq (h : Models hash t l) (hroom : l.length < t.length) (k : K) :
    get hash t k = first l k := by
  obtain ⟨j, hs⟩ := h.seek_eq hroom k
  unfold get
  rw [hs]
  rfl

/-- **One more entry.** -/
theorem Models.put (h : Models hash t l) (hroom : l.length < t.length) (k : K) (v : V) :
    Models hash (Probe.put hash t k v) (l ++ [(k, v)]) ∧
      (Probe.put hash t k v).length = t.length := by
  obtain ⟨j, hs⟩ := h.seek_eq hroom k
  cases hf : first l k with
  | some w =>
      -- the key is there: nothing changes, and its first entry is still the first
      have hput : Probe.put hash t k v = t := by
        unfold Probe.put
        rw [hs, hf]
      rw [hput]
      refine ⟨⟨h.path, fun k' v' => ?_, ?_⟩, rfl⟩
      · rw [first_append, ← h.stored]
        by_cases hk : k = k'
        · subst hk
          rw [hf]
          rfl
        · simp [hk]
      · have := h.taken
        simp only [List.length_append, List.length_cons, List.length_nil]
        omega
  | none =>
      rw [hf] at hs
      obtain ⟨d, hd, hj, hpass, hend⟩ := seek_some hs
      rw [Option.map_none] at hend
      have hlt : j < t.length := by
        rw [hj]
        exact Nat.mod_lt _ (by omega)
      have hput : Probe.put hash t k v = t.set j (some (k, v)) := by
        unfold Probe.put
        rw [hs]
      have hfree : cell t j = none := by
        rw [hj, cell_mod]
        exact hend
      -- a cell that is taken is not the one that changes
      have hkeep : ∀ {i k' v'}, cell t i = some (k', v') →
          cell (t.set j (some (k, v))) i = some (k', v') := by
        intro i k' v' hi
        rw [cell_set hlt, if_neg, hi]
        intro heq
        rw [← cell_mod, heq, hfree] at hi
        exact absurd hi (by simp)
      have hpassed : ∀ {k' h d}, Passed t k' h d → Passed (t.set j (some (k, v))) k' h d := by
        intro k' h d hp e he
        obtain ⟨k'', v'', hcell, hne⟩ := hp e he
        exact ⟨k'', v'', hkeep hcell, hne⟩
      rw [hput]
      refine ⟨⟨fun i k' v' hi => ?_, fun k' v' => ?_, ?_⟩, List.length_set⟩
      · rw [List.length_set]
        rw [cell_set hlt] at hi
        split_ifs at hi with heq
        · obtain ⟨rfl, rfl⟩ := Prod.mk.inj (Option.some.inj hi)
          exact ⟨d, hd, by rw [← hj, heq], hpassed hpass⟩
        · obtain ⟨d', hd', hmod, hp⟩ := h.path i k' v' hi
          exact ⟨d', hd', hmod, hpassed hp⟩
      · rw [first_append]
        by_cases hk : k = k'
        · subst hk
          rw [hf, Option.none_or, if_pos rfl]
          constructor
          · intro hv
            refine ⟨j, ?_⟩
            rw [cell_set hlt, Nat.mod_eq_of_lt hlt, if_pos rfl, Option.some.inj hv]
          · rintro ⟨i, hi⟩
            rw [cell_set hlt] at hi
            split_ifs at hi with heq
            · rw [(Prod.mk.inj (Option.some.inj hi)).2]
            · exact absurd ((h.stored k v').mpr ⟨i, hi⟩) (by rw [hf]; simp)
        · rw [if_neg hk, Option.or_none, h.stored]
          constructor
          · rintro ⟨i, hi⟩
            exact ⟨i, hkeep hi⟩
          · rintro ⟨i, hi⟩
            rw [cell_set hlt] at hi
            split_ifs at hi with heq
            · exact absurd (Prod.mk.inj (Option.some.inj hi)).1 hk
            · exact ⟨i, hi⟩
      · have hset := List.countP_set (p := Option.isSome) (a := some (k, v)) hlt
        have := h.taken
        have hnone : t[j] = none := by
          unfold cell at hfree
          rw [Nat.mod_eq_of_lt hlt, List.getElem?_eq_getElem hlt] at hfree
          exact hfree
        rw [hset, hnone]
        simp only [List.length_append, List.length_cons, List.length_nil, Option.isSome_none,
          Option.isSome_some, if_true]
        simp
        omega

theorem Models.fill (h : Models hash t l) : ∀ es : List (K × V), (l ++ es).length < t.length →
    Models hash (Probe.fill hash t es) (l ++ es) ∧ (Probe.fill hash t es).length = t.length := by
  intro es
  induction es generalizing t l with
  | nil =>
      intro _
      rw [List.append_nil]
      exact ⟨h, rfl⟩
  | cons e es ih =>
      intro hroom
      rw [List.length_append, List.length_cons] at hroom
      obtain ⟨hput, hlen⟩ := h.put (by omega) e.1 e.2
      have hrest := ih hput (by
        rw [hlen]
        simp only [List.length_append, List.length_cons, List.length_nil]
        omega)
      rw [List.append_assoc, hlen] at hrest
      exact hrest

end Models

theorem models_empty (n : Nat) : Models hash (List.replicate n none : Cells K V) [] := by
  have hfree : ∀ j, cell (List.replicate n none : Cells K V) j = none := by
    intro j
    unfold cell
    rw [List.getElem?_replicate]
    split_ifs <;> rfl
  refine ⟨fun j k v h => ?_, fun k v => ?_, ?_⟩
  · rw [hfree] at h
    exact absurd h (by simp)
  · simp [first, hfree]
  · rw [List.countP_replicate]
    simp

/-- **A table with a free cell is the list it was filled from**, the first of equal keys winning. -/
theorem get_fill {n : Nat} (l : List (K × V)) (hroom : l.length < n) (k : K) :
    get hash (fill hash (List.replicate n none) l) k = first l k := by
  have hlen : (List.replicate n none : Cells K V).length = n := List.length_replicate
  obtain ⟨hmodels, hlen'⟩ := (models_empty hash n).fill l (by rw [hlen]; exact hroom)
  exact hmodels.get_eq (by rw [hlen', hlen]; exact hroom) k

/-! ## What a table holds was put there

Whatever the table's size. -/

section Holds

variable {hash} {t : Cells K V} {k : K} {v : V}

theorem mem_of_get (h : get hash t k = some v) : some (k, v) ∈ t := by
  obtain ⟨⟨j, o⟩, hs, ho⟩ := Option.bind_eq_some_iff.mp h
  obtain ⟨d, -, -, -, hend⟩ := seek_some hs
  simp only at ho
  subst ho
  exact mem_of_cell hend

theorem mem_put {kv : K × V} (h : some kv ∈ put hash t k v) : some kv ∈ t ∨ kv = (k, v) := by
  unfold put at h
  split at h
  · rcases List.mem_or_eq_of_mem_set h with hmem | heq
    · exact .inl hmem
    · exact .inr (Option.some.inj heq)
  · exact .inl h

theorem mem_fill {kv : K × V} (l : List (K × V)) :
    ∀ {t : Cells K V}, some kv ∈ fill hash t l → some kv ∈ t ∨ kv ∈ l := by
  induction l with
  | nil => intro t h; exact .inl h
  | cons e es ih =>
      intro t h
      rcases ih h with hput | hmem
      · rcases mem_put hput with hmem | rfl
        · exact .inl hmem
        · exact .inr List.mem_cons_self
      · exact .inr (List.mem_cons_of_mem e hmem)

end Holds

/-- What is found in a filled table is one of its entries. -/
theorem mem_of_get_fill {n : Nat} {l : List (K × V)} {k : K} {v : V}
    (h : get hash (fill hash (List.replicate n none) l) k = some v) : (k, v) ∈ l := by
  rcases mem_fill l (mem_of_get h) with hmem | hmem
  · exact absurd (List.eq_of_mem_replicate hmem) (by simp)
  · exact hmem

end LlmEngine.Lib.Probe
