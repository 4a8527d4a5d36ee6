/-
# LlmEngine.Lib.ForLoop — counted loops with a step, and how two of them are compared.

`forStep step bound i a body` is `for (; i < bound; i += step) a = body(a, i)`: it returns what the
body has made of `a` and the index the loop stopped at, which is where the tail loop behind a vector
loop goes on.  A stride is not zero; the strides that occur have their instances here.

Two loops are compared, and one loop is unrolled, by three rules:

* `forStep_rel`: two loops over the same indices whose bodies keep a relation between their states end
  in related states, at the same index;
* `forStep_cell`: where an iteration touches its own cell of an array alone, a cell sees its own
  iteration only;
* `fills_forStep`: a loop that writes one cell after the other writes them all.

`Fills lo hi f` is what a loop does that writes `f` into the cells from `lo` to `hi` and no other; two that
follow each other make one (`Fills.trans`), so a loop in strides and its tail fill what the plain loop fills.
-/
import Mathlib.Algebra.GroupWithZero.Nat
import Mathlib.Tactic.Common

namespace LlmEngine.Lib

/-! ## Strides -/

instance neZero_one : NeZero 1 := ⟨by decide⟩

instance neZero_four : NeZero 4 := ⟨by decide⟩

instance neZero_eight : NeZero 8 := ⟨by decide⟩

instance neZero_sixteen : NeZero 16 := ⟨by decide⟩

instance neZero_thirtyTwo : NeZero 32 := ⟨by decide⟩

instance neZero_sixtyFour : NeZero 64 := ⟨by decide⟩

instance neZero_twoFiftySix : NeZero 256 := ⟨by decide⟩

/-! ## Loops -/

variable {α β : Type}

def forStep (step : Nat) [NeZero step] (bound i : Nat) (a : α) (body : α → Nat → α) : α × Nat :=
  if i < bound then forStep step bound (i + step) (body a i) body else (a, i)
termination_by bound - i
decreasing_by
  have := Nat.pos_of_neZero step
  omega

variable {step : Nat} [NeZero step] {bound i : Nat}

theorem forStep_of_lt (h : i < bound) (a : α) (body : α → Nat → α) :
    forStep step bound i a body = forStep step bound (i + step) (body a i) body := by
  rw [forStep, if_pos h]

theorem forStep_of_ge (h : bound ≤ i) (a : α) (body : α → Nat → α) : forStep step bound i a body = (a, i) := by
  rw [forStep, if_neg (Nat.not_lt.mpr h)]

/-- **Simulation**: bodies that keep a relation, over the same indices. -/
theorem forStep_rel (step : Nat) [NeZero step] {R : α → β → Prop} {body : α → Nat → α} {body' : β → Nat → β}
    (hbody : ∀ i a b, i < bound → R a b → R (body a i) (body' b i)) (i : Nat) (a : α) (b : β) (h : R a b) :
    R (forStep step bound i a body).1 (forStep step bound i b body').1 ∧
      (forStep step bound i a body).2 = (forStep step bound i b body').2 := by
  have hstep := Nat.pos_of_neZero step
  by_cases hlt : i < bound
  · rw [forStep_of_lt hlt, forStep_of_lt hlt]
    exact forStep_rel step hbody (i + step) (body a i) (body' b i) (hbody i a b hlt h)
  · rw [forStep_of_ge (Nat.not_lt.mp hlt), forStep_of_ge (Nat.not_lt.mp hlt)]
    exact ⟨h, rfl⟩
termination_by bound - i

/-- **One cell of an array**: where iteration `k` touches cell `k` alone, cell `j` sees iteration `j`. -/
theorem forStep_cell {m : Nat} (body : α → Nat → α) (j : Nat) (f : α → β) (g : β → β)
    (hbody : ∀ a k, f (body a k) = if k = j then g (f a) else f a) (i : Nat) (a : α) :
    f (forStep 1 m i a body).1 = if i ≤ j ∧ j < m then g (f a) else f a := by
  by_cases hlt : i < m
  · rw [forStep_of_lt hlt, forStep_cell body j f g hbody (i + 1), hbody]
    by_cases hij : i = j
    · subst hij
      rw [if_pos rfl, if_neg (by omega), if_pos (by omega)]
    · rw [if_neg hij]
      by_cases hin : i ≤ j ∧ j < m
      · rw [if_pos hin, if_pos (by omega)]
      · rw [if_neg hin, if_neg (by omega)]
  · rw [forStep_of_ge (Nat.not_lt.mp hlt), if_neg (by omega)]
termination_by m - i

/-! ## Filling an array -/

/-- `a'` is `a` with the cells `lo ≤ i < hi` set to `f i`. -/
def Fills (lo hi : Nat) (f : Nat → α) (a a' : Nat → α) : Prop :=
  ∀ i, a' i = if lo ≤ i ∧ i < hi then f i else a i

variable {lo mid hi : Nat} {f : Nat → α} {a a' a'' : Nat → α}

theorem Fills.none (h : hi ≤ lo) : Fills lo hi f a a := fun i => by rw [if_neg (by omega)]

theorem Fills.trans (h : Fills lo mid f a a') (h' : Fills mid hi f a' a'') (hlo : lo ≤ mid)
    (hhi : mid ≤ hi) : Fills lo hi f a a'' := by
  intro i
  rw [h' i, h i]
  split_ifs <;> first | rfl | omega

/-- What is written is known on the cells only. -/
theorem Fills.congr {g : Nat → α} (h : Fills lo hi f a a') (hfg : ∀ i, lo ≤ i → i < hi → f i = g i) :
    Fills lo hi g a a' := by
  intro i
  rw [h i]
  split_ifs with hin
  · exact hfg i hin.1 hin.2
  · rfl

/-- One cell. -/
theorem fills_update (a : Nat → α) (lo : Nat) (f : Nat → α) :
    Fills lo (lo + 1) f a (Function.update a lo (f lo)) := by
  intro i
  rw [Function.update_apply]
  split_ifs with h h' h'
  · rw [h]
  · omega
  · omega
  · rfl

/-- **A loop that writes one cell after the other.** -/
theorem fills_forStep (base : Nat) {bound i : Nat} (hi : i ≤ bound) (f : Nat → α) (a : Nat → α) :
    Fills (base + i) (base + bound) f a
      (forStep 1 bound i a fun a i => Function.update a (base + i) (f (base + i))).1 := by
  by_cases hlt : i < bound
  · rw [forStep_of_lt hlt]
    exact (fills_update a (base + i) f).trans (fills_forStep base hlt f _) (by omega) (by omega)
  · rw [forStep_of_ge (Nat.not_lt.mp hlt)]
    exact Fills.none (by omega)
termination_by bound - i

/-- The same, of a run of `m` cells from `base` on. -/
theorem fills_run (base m : Nat) (g : Nat → α) (a : Nat → α) :
    Fills base (base + m) (fun i => g (i - base)) a
      (forStep 1 m 0 a fun a i => Function.update a (base + i) (g i)).1 := by
  have h := fills_forStep base (Nat.zero_le m) (fun i => g (i - base)) a
  simp only [Nat.add_sub_cancel_left, Nat.add_zero] at h
  exact h

end LlmEngine.Lib
