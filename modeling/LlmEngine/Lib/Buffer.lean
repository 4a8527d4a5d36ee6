/-
# LlmEngine.Lib.Buffer — contiguous reads and writes of a buffer.

A buffer is a function of the position, so it has no end: whether an access stays inside what was
allocated is a fact about positions and is proved where the positions are computed.

* `slice buf base n` reads a run of positions, `overwrite buf pos new` writes one.
* What lies below or above the written run is left alone (`overwrite_below`, `overwrite_above`).
* What was written is read back, as far as one reads (`slice_overwrite`).
* A write of a run is a write of its first element and then of the others (`overwrite_cons`), which is how a
  loop that stores element by element meets it.

Two buffers that agree on a run give the same slice of it (`slice_congr`); nothing else of them is seen.
-/
import Mathlib.Data.List.GetD

namespace LlmEngine.Lib.Buffer

variable {α : Type}

/-- The `n` elements from `base` on. -/
def slice (buf : Nat → α) (base n : Nat) : List α := (List.range' base n).map buf

/-- Elements written from position `pos` on. -/
def overwrite (buf : Nat → α) (pos : Nat) (new : List α) : Nat → α :=
  fun p => if p < pos then buf p else new.getD (p - pos) (buf p)

/-! ## Reads -/

theorem slice_length (buf : Nat → α) (base n : Nat) : (slice buf base n).length = n := by
  rw [slice, List.length_map, List.length_range']

theorem slice_succ (buf : Nat → α) (base n : Nat) :
    slice buf base (n + 1) = buf base :: slice buf (base + 1) n := by
  rw [slice, List.range'_succ, List.map_cons, slice]

theorem slice_add (buf : Nat → α) (base m n : Nat) :
    slice buf base (m + n) = slice buf base m ++ slice buf (base + m) n := by
  rw [slice, ← List.range'_append_1, List.map_append, slice, slice]

theorem slice_congr {buf buf' : Nat → α} {base base' n : Nat}
    (h : ∀ j < n, buf' (base' + j) = buf (base + j)) : slice buf' base' n = slice buf base n := by
  induction n generalizing base base' with
  | zero => rfl
  | succ n ih =>
      have hhead : buf' base' = buf base := h 0 (Nat.succ_pos n)
      have hrest : slice buf' (base' + 1) n = slice buf (base + 1) n := by
        apply ih
        intro j hj
        have htail := h (j + 1) (Nat.succ_lt_succ hj)
        rwa [Nat.add_comm j 1, ← Nat.add_assoc, ← Nat.add_assoc] at htail
      rw [slice_succ, slice_succ, hhead, hrest]

theorem slice_getD (buf : Nat → α) (base n : Nat) {j : Nat} (h : j < n) (d : α) :
    (slice buf base n).getD j d = buf (base + j) := by
  rw [List.getD_eq_getElem _ _ (by rw [slice_length]; exact h)]
  unfold slice
  rw [List.getElem_map, List.getElem_range', Nat.one_mul]

/-! ## Writes -/

theorem overwrite_below (buf : Nat → α) {pos p : Nat} (new : List α) (h : p < pos) :
    overwrite buf pos new p = buf p := if_pos h

theorem overwrite_above (buf : Nat → α) {pos p : Nat} (new : List α) (h : pos + new.length ≤ p) :
    overwrite buf pos new p = buf p := by
  unfold overwrite
  rw [if_neg (by omega), List.getD_eq_default _ _ (by omega)]

theorem overwrite_slice (buf src : Nat → α) (pos base : Nat) {n j : Nat} (h : j < n) :
    overwrite buf pos (slice src base n) (pos + j) = src (base + j) := by
  unfold overwrite
  rw [if_neg (by omega), Nat.add_sub_cancel_left, slice_getD src base n h]

theorem overwrite_nil (buf : Nat → α) (pos : Nat) : overwrite buf pos [] = buf := by
  funext p
  by_cases h : p < pos
  · exact overwrite_below buf [] h
  · exact overwrite_above buf [] (by rw [List.length_nil]; omega)

theorem overwrite_singleton (buf : Nat → α) (pos : Nat) (r : α) :
    overwrite buf pos [r] pos = r := by
  unfold overwrite
  rw [if_neg (Nat.lt_irrefl _), Nat.sub_self]
  rfl

theorem overwrite_singleton_ne (buf : Nat → α) {pos p : Nat} (r : α) (h : p ≠ pos) :
    overwrite buf pos [r] p = buf p := by
  rcases Nat.lt_or_gt_of_ne h with h | h
  · exact overwrite_below buf [r] h
  · exact overwrite_above buf [r] h

/-- Writing an element and then the rest from the next position is writing them all. -/
theorem overwrite_cons (buf : Nat → α) (pos : Nat) (r : α) (new : List α) :
    overwrite (overwrite buf pos [r]) (pos + 1) new = overwrite buf pos (r :: new) := by
  funext p
  unfold overwrite
  rcases Nat.lt_trichotomy p pos with h | h | h
  · rw [if_pos (by omega), if_pos h, if_pos h]
  · subst h
    rw [if_pos (by omega), if_neg (by omega), if_neg (by omega), Nat.sub_self]
    rfl
  · obtain ⟨k, rfl⟩ : ∃ k, p = pos + 1 + k := ⟨p - (pos + 1), by omega⟩
    rw [if_neg (by omega), if_neg (by omega), if_neg (by omega),
      show pos + 1 + k - (pos + 1) = k by omega, show pos + 1 + k - pos = k + 1 by omega]
    rfl

/-- What was written is read back. -/
theorem slice_overwrite (buf : Nat → α) (new : List α) : ∀ (pos : Nat) {k : Nat}, k ≤ new.length →
    slice (overwrite buf pos new) pos k = new.take k := by
  induction new generalizing buf with
  | nil =>
      intro pos k hk
      obtain rfl : k = 0 := Nat.le_zero.mp hk
      rfl
  | cons x new ih =>
      intro pos k hk
      cases k with
      | zero => rfl
      | succ k =>
          rw [slice_succ, List.take_succ_cons, ← overwrite_cons,
            ih (overwrite buf pos [x]) (pos + 1) (Nat.le_of_succ_le_succ hk),
            overwrite_below _ _ (Nat.lt_succ_self pos), overwrite_singleton]

end LlmEngine.Lib.Buffer
