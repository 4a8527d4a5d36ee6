/-
# LlmEngine.Lib.Rank — taking the least candidate again and again.

A finite set of candidates is ordered by an injective `age`.  Whoever takes the least remaining one
each time holds, after any number of takes, the candidates of lowest rank: a candidate has been taken
iff fewer candidates precede it than were taken (`Taken.mem_iff`).

The state of such a selection is only the set of what was taken (`Taken`): nothing below something taken
is left.  It starts empty and grows by a least remaining candidate (`Taken.start`, `Taken.insert`), which is
all that a loop with a scan in it has to show.  The order of the takes is not part of it.

In a list, taking out a least entry is one step of sorting it (`insertionSort_least`); this is for a loop
that fills its output in the order of the takes.
-/
import Mathlib.Data.Finset.Card
import Mathlib.Data.List.Sort
import Mathlib.Data.Finset.Filter
import Mathlib.Order.Basic

namespace LlmEngine.Lib

open scoped List

variable {α β : Type} [LinearOrder β]

/-- The candidates that go before `x`. -/
def preceding (age : α → β) (candidates : Finset α) (x : α) : Finset α :=
  candidates.filter fun t => age t < age x

/-- `taken` came from the candidates, the least first. -/
structure Taken (age : α → β) (candidates taken : Finset α) : Prop where
  subset : taken ⊆ candidates
  lower : ∀ s ∈ taken, ∀ t ∈ candidates, age t < age s → t ∈ taken

variable {age : α → β} {candidates taken : Finset α}

theorem Taken.start (age : α → β) (candidates : Finset α) : Taken age candidates ∅ where
  subset := Finset.empty_subset _
  lower := fun s hs => absurd hs (Finset.notMem_empty s)

/-- One more take. -/
theorem Taken.insert [DecidableEq α] (h : Taken age candidates taken) {s : α} (hs : s ∈ candidates)
    (hleast : ∀ t ∈ candidates, t ∉ taken → age s ≤ age t) :
    Taken age candidates (insert s taken) where
  subset := by
    intro t ht
    rcases Finset.mem_insert.mp ht with rfl | ht
    · exact hs
    · exact h.subset ht
  lower := by
    intro x hx t ht hlt
    by_contra hnot
    have htaken : t ∉ taken := fun hmem => hnot (Finset.mem_insert_of_mem hmem)
    rcases Finset.mem_insert.mp hx with rfl | hx
    · exact absurd (hleast t ht htaken) (not_le.mpr hlt)
    · exact htaken (h.lower x hx t ht hlt)

/-- **A candidate is taken iff fewer precede it than were taken.** -/
theorem Taken.mem_iff (h : Taken age candidates taken) (hinj : Function.Injective age) {x : α}
    (hx : x ∈ candidates) : x ∈ taken ↔ (preceding age candidates x).card < taken.card := by
  constructor
  · intro hmem
    -- whoever precedes `x` is taken, and so is `x` itself
    apply Finset.card_lt_card
    refine ⟨fun t ht => ?_, fun hsub => ?_⟩
    · obtain ⟨ht, hlt⟩ := Finset.mem_filter.mp ht
      exact h.lower x hmem t ht hlt
    · exact lt_irrefl _ (Finset.mem_filter.mp (hsub hmem)).2
  · intro hcard
    by_contra hnot
    -- everything taken precedes `x`, which would be next at the earliest
    have hsub : taken ⊆ preceding age candidates x := by
      intro t ht
      refine Finset.mem_filter.mpr ⟨h.subset ht, ?_⟩
      rcases lt_trichotomy (age t) (age x) with hlt | heq | hgt
      · exact hlt
      · exact absurd (hinj heq ▸ ht) hnot
      · exact absurd (h.lower t ht x hx hgt) hnot
    exact absurd (Finset.card_le_card hsub) (not_le.mpr hcard)

/-- A least entry of a list is the first one of the sorted list. -/
theorem insertionSort_least {γ : Type} [DecidableEq γ] (r : γ → γ → Prop) [DecidableRel r] [Std.Total r]
    [IsTrans γ r] [Std.Antisymm r] {l : List γ} {m : γ} (hm : m ∈ l) (hleast : ∀ x ∈ l, r m x) :
    l.insertionSort r = m :: (l.erase m).insertionSort r := by
  have hperm : l.insertionSort r ~ m :: (l.erase m).insertionSort r :=
    (List.perm_insertionSort r l).trans ((List.perm_cons_erase hm).trans
      ((List.perm_insertionSort r (l.erase m)).symm.cons m))
  apply hperm.eq_of_pairwise' (List.pairwise_insertionSort r l)
  refine List.pairwise_cons.mpr ⟨fun x hx => ?_, List.pairwise_insertionSort r _⟩
  exact hleast x (List.mem_of_mem_erase ((List.mem_insertionSort r).mp hx))

end LlmEngine.Lib
