/-
# LlmEngine.Lib.Tiling — cutting a list into consecutive pieces, front to back.

`next` says how long the piece at the front is.  As long as it always takes something (`Advances`), the
pieces are finitely many, none is empty, and together they are the list: `tiling_ne_nil`,
`tiling_flatten`.

The recursion is on a number of rounds, which the length of the list bounds; more rounds change nothing
(`tiles_enough`).  From then on the rounds are out of sight: `tiling_step` is the equation of the loop, and
`tiling_induction` the induction along it, one piece at a time.

Two cutters whose `next` agree at the front of every list that is left make the same pieces, so a loop that
finds its pieces by scanning and a specification that says what the next piece is can be compared step by
step.
-/
import Mathlib.Data.List.Basic
import Mathlib.Tactic.Common

namespace LlmEngine.Lib.Tiling

variable {α : Type}

/-- At most `n` pieces. -/
def tiles (next : List α → Nat) : Nat → List α → List (List α)
  | n + 1, x :: xs =>
      (x :: xs).take (next (x :: xs)) :: tiles next n ((x :: xs).drop (next (x :: xs)))
  | _, _ => []

def tiling (next : List α → Nat) (s : List α) : List (List α) := tiles next s.length s

/-- A piece takes something, and not more than there is. -/
def Advances (next : List α → Nat) : Prop := ∀ s, s ≠ [] → 0 < next s ∧ next s ≤ s.length

section Tiles

variable {next : List α → Nat}

@[simp] theorem tiles_nil (n : Nat) : tiles next n [] = [] := by
  cases n <;> rfl

/-- More rounds than elements change nothing. -/
theorem tiles_enough (h : Advances next) : ∀ {n m : Nat} {s : List α}, s.length ≤ n → s.length ≤ m →
    tiles next n s = tiles next m s := by
  intro n
  induction n with
  | zero =>
      intro m s hn _
      have hnil : s = [] := List.length_eq_zero_iff.mp (by omega)
      subst hnil
      simp
  | succ n ih =>
      intro m s hn hm
      cases s with
      | nil => simp
      | cons x xs =>
          cases m with
          | zero => simp at hm
          | succ m =>
              have hpos := (h (x :: xs) (by simp)).1
              simp only [tiles]
              rw [ih (m := m)]
              · rw [List.length_drop]
                omega
              · rw [List.length_drop]
                omega

@[simp] theorem tiling_nil : tiling next [] = [] := rfl

theorem tiling_step (h : Advances next) {s : List α} (hs : s ≠ []) :
    tiling next s = s.take (next s) :: tiling next (s.drop (next s)) := by
  cases s with
  | nil => exact absurd rfl hs
  | cons x xs =>
      have hpos := (h (x :: xs) hs).1
      unfold tiling
      rw [List.length_cons, tiles]
      congr 1
      apply tiles_enough h
      · rw [List.length_drop, List.length_cons]
        omega
      · exact Nat.le_refl _

/-- **Induction along the pieces.** -/
theorem tiling_induction (h : Advances next) {M : List α → Prop} (nil : M [])
    (step : ∀ s, s ≠ [] → M (s.drop (next s)) → M s) : ∀ s, M s := by
  intro s
  induction hn : s.length using Nat.strongRecOn generalizing s with
  | ind n ih =>
      by_cases hs : s = []
      · rw [hs]
        exact nil
      · apply step s hs
        have hpos := h s hs
        exact ih _ (by rw [List.length_drop]; omega) _ rfl

theorem tiling_flatten (h : Advances next) (s : List α) : (tiling next s).flatten = s := by
  induction s using tiling_induction h with
  | nil => rfl
  | step s hs ih => rw [tiling_step h hs, List.flatten_cons, ih, List.take_append_drop]

theorem tiling_ne_nil (h : Advances next) (s : List α) : ∀ f ∈ tiling next s, f ≠ [] := by
  induction s using tiling_induction h with
  | nil => simp
  | step s hs ih =>
      intro f hf
      rw [tiling_step h hs] at hf
      rcases List.mem_cons.mp hf with rfl | hmem
      · obtain ⟨hpos, hle⟩ := h s hs
        intro hnil
        have hlen := congrArg List.length hnil
        rw [List.length_take, List.length_nil] at hlen
        omega
      · exact ih f hmem

end Tiles

end LlmEngine.Lib.Tiling
