/-
# LlmEngine.Lib.Machine — choice-driven machines and the states they reach.

A component whose next move is decided from outside (a caller, a scheduler, a device) is a partial
function `step : σ → ι → Option σ`: in state `s` the choice `i` either is not enabled (`none`) or
moves to one successor.  Everything nondeterministic is in the choice, so a run is a list of
choices and every interleaving is a list.

`Reaches step guard s₀ s` is reachability along choices that meet `guard` in the state they are
taken from.  The unguarded case is `anyChoice`; a guarded run is what "in every run whose steps all
meet the condition" means.

The one rule is `Reaches.invariant`: what holds initially and survives every guarded step holds in every
state reached.  `run` computes a run from its list of choices, so that a state can be shown to be reached
by evaluation (`reaches_of_run`).  Nothing here names a particular program.
-/
import Mathlib.Tactic.SplitIfs

namespace LlmEngine.Lib

variable {σ ι : Type*}

/-- Reachability along choices that are enabled and meet `guard` where they are taken. -/
inductive Reaches (step : σ → ι → Option σ) (guard : σ → ι → Prop) (s₀ : σ) : σ → Prop
  | start : Reaches step guard s₀ s₀
  | next {s s' : σ} {i : ι} :
      Reaches step guard s₀ s → guard s i → step s i = some s' → Reaches step guard s₀ s'

/-- The guard that excludes nothing. -/
def anyChoice : σ → ι → Prop := fun _ _ => True

/-- **The invariant rule.**  What holds initially and survives every guarded step holds in every
state reached. -/
theorem Reaches.invariant {step : σ → ι → Option σ} {guard : σ → ι → Prop} {s₀ s : σ}
    {P : σ → Prop} (h : Reaches step guard s₀ s) (h₀ : P s₀)
    (hstep : ∀ s i s', P s → guard s i → step s i = some s' → P s') : P s := by
  induction h with
  | start => exact h₀
  | next _ hg hs ih => exact hstep _ _ _ ih hg hs

instance (s : σ) (i : ι) : Decidable (anyChoice s i) := isTrue trivial

/-- Run a list of choices; `none` as soon as one is not enabled or does not meet the guard. -/
def run (step : σ → ι → Option σ) (guard : σ → ι → Prop) [∀ s i, Decidable (guard s i)] :
    σ → List ι → Option σ
  | s, [] => some s
  | s, i :: is => if guard s i then (step s i).bind fun s' => run step guard s' is else none

theorem reaches_of_run {step : σ → ι → Option σ} {guard : σ → ι → Prop}
    [∀ s i, Decidable (guard s i)] {s₀ : σ} :
    ∀ {s s' : σ} (is : List ι), Reaches step guard s₀ s → run step guard s is = some s' →
      Reaches step guard s₀ s'
  | s, s', [], hr, h => by
      simp only [run, Option.some.injEq] at h
      exact h ▸ hr
  | s, s', i :: is, hr, h => by
      unfold run at h
      split_ifs at h with hg
      obtain ⟨t, ht, h⟩ := Option.bind_eq_some_iff.mp h
      exact reaches_of_run is (.next hr hg ht) h

end LlmEngine.Lib
