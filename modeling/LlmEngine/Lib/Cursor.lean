/-
# LlmEngine.Lib.Cursor — what a scanner has before it.

A scanner reads a memory `m` from a position `p` up to an end `fin`.  `rest m fin p` are the bytes it has
not come to yet, as a list:

* a test of the form `p < end && *p == c` is a test of their head (`rest_of_lt`, `rest_of_ge`);
* going on is taking the head off (`step_of_rest`);
* behind a run that is known, the rest is what follows the run (`rest_append`), and a part of what is left
  is found at its offset (`rest_part`).

So a loop over positions is compared with a function of a list of bytes, by induction on the list.  Two
memories that are the same below the end have the same bytes left at every position: nothing behind the
end can matter to what is stated of `rest`.
-/
import Mathlib.Data.List.Basic
import Mathlib.Tactic.Common

namespace LlmEngine.Lib

/-- The bytes from `p` on, up to `fin`. -/
def rest (m : Nat → UInt8) (fin p : Nat) : List UInt8 := (List.range (fin - p)).map fun i => m (p + i)

variable {m : Nat → UInt8} {fin p : Nat}

theorem rest_of_ge (h : fin ≤ p) : rest m fin p = [] := by
  rw [rest, Nat.sub_eq_zero_of_le h]
  rfl

theorem rest_of_lt (h : p < fin) : rest m fin p = m p :: rest m fin (p + 1) := by
  obtain ⟨k, hk⟩ := Nat.exists_eq_add_of_lt h
  have hlen : fin - p = k + 1 := by omega
  have hlen' : fin - (p + 1) = k := by omega
  rw [rest, rest, hlen, hlen', List.range_succ_eq_map, List.map_cons, List.map_map, Nat.add_zero]
  congr 1
  refine List.map_congr_left fun i _ => ?_
  rw [Function.comp_apply, Nat.succ_eq_add_one, Nat.add_assoc, Nat.add_comm 1]

/-- A byte is left: the test succeeds, and the next position has the others. -/
theorem step_of_rest {c : UInt8} {t : List UInt8} (h : rest m fin p = c :: t) :
    p < fin ∧ m p = c ∧ rest m fin (p + 1) = t := by
  by_cases hlt : p < fin
  · rw [rest_of_lt hlt, List.cons.injEq] at h
    exact ⟨hlt, h⟩
  · rw [rest_of_ge (Nat.not_lt.mp hlt)] at h
    exact absurd h.symm (List.cons_ne_nil c t)

theorem end_of_rest (h : rest m fin p = []) : fin ≤ p := by
  by_contra hlt
  rw [rest_of_lt (Nat.not_le.mp hlt)] at h
  exact absurd h (List.cons_ne_nil _ _)

theorem rest_length (m : Nat → UInt8) (fin p : Nat) : (rest m fin p).length = fin - p := by
  rw [rest, List.length_map, List.length_range]

/-- Several bytes on. -/
theorem rest_append {a t : List UInt8} (h : rest m fin p = a ++ t) : rest m fin (p + a.length) = t := by
  induction a generalizing p with
  | nil => exact h
  | cons c a ih =>
      obtain ⟨-, -, hnext⟩ := step_of_rest h
      rw [List.length_cons, Nat.add_comm a.length, ← Nat.add_assoc]
      exact ih hnext

/-- What a part of the memory has left, seen from its own start. -/
theorem rest_part {a t : List UInt8} {off : Nat} (h : rest m fin off = a ++ t) :
    rest (fun i => m (off + i)) a.length 0 = a := by
  induction a generalizing off with
  | nil => rfl
  | cons c a ih =>
      obtain ⟨-, hc, hnext⟩ := step_of_rest h
      rw [List.length_cons, rest_of_lt (Nat.succ_pos _), Nat.add_zero, hc, Nat.zero_add]
      congr 1
      have hshift : rest (fun i => m (off + i)) (a.length + 1) 1 = rest (fun i => m (off + 1 + i)) a.length 0 := by
        rw [rest, rest, Nat.add_sub_cancel, Nat.sub_zero]
        refine List.map_congr_left fun i _ => ?_
        rw [Nat.zero_add, Nat.add_assoc]
      rw [hshift]
      exact ih hnext

end LlmEngine.Lib
