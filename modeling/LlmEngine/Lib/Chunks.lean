/-
# LlmEngine.Lib.Chunks — a range worked off in chunks.

`chunks c n r₀` are the starts and lengths of

    for (r = r₀; r < n; r += c)  { len = min(c, n - r); … }

the last chunk being cut to what is left.  None is empty, none leaves the range (`mem_chunks`), and a range
that is not longer than a chunk is one (`chunks_single`).

`Splits F` says of a computation on ranges, which may fail, that a range cut in two gives the two results one
behind the other, and fails when one of them does.  What such a computation gives chunk by chunk does not
depend on the chunks (`Splits.mapM_chunks`): a buffer of any size will do for it.
-/
import Mathlib.Algebra.Order.Ring.Int
import Mathlib.Tactic.Common

namespace LlmEngine.Lib.Chunks

/-- Without a positive length there is no chunk. -/
def chunks (c n r₀ : Int) : List (Int × Int) :=
  if r₀ < n ∧ 0 < c then (r₀, if r₀ + c > n then n - r₀ else c) :: chunks c n (r₀ + c) else []
termination_by (n - r₀).toNat

section Chunks

variable {c n r₀ : Int}

theorem chunks_of_ge (h : n ≤ r₀) : chunks c n r₀ = [] := by
  rw [chunks, if_neg (by omega)]

theorem chunks_of_lt (h : r₀ < n) (hc : 0 < c) :
    chunks c n r₀ = (r₀, if r₀ + c > n then n - r₀ else c) :: chunks c n (r₀ + c) := by
  rw [chunks, if_pos ⟨h, hc⟩]

/-- Every chunk lies in the range, and is no longer than asked for. -/
theorem mem_chunks {c n r₀ : Int} {p : Int × Int} (hp : p ∈ chunks c n r₀) :
    r₀ ≤ p.1 ∧ 0 < p.2 ∧ p.2 ≤ c ∧ p.1 + p.2 ≤ n := by
  by_cases h : r₀ < n ∧ 0 < c
  · rw [chunks_of_lt h.1 h.2] at hp
    rcases List.mem_cons.mp hp with rfl | hrest
    · refine ⟨le_refl r₀, ?_, ?_, ?_⟩ <;> simp only <;> split_ifs <;> omega
    · have := mem_chunks hrest
      omega
  · rw [chunks, if_neg h] at hp
    exact absurd hp List.not_mem_nil
termination_by (n - r₀).toNat

/-- A range no longer than a chunk is one. -/
theorem chunks_single (h : r₀ < n) (hc : n ≤ r₀ + c) : chunks c n r₀ = [(r₀, n - r₀)] := by
  rw [chunks_of_lt h (by omega), chunks_of_ge hc]
  congr 2
  split_ifs <;> omega

end Chunks

/-! ## What does not depend on the chunks -/

/-- The result for a range is that for its two parts, one behind the other. -/
structure Splits {β : Type} (F : Int → Int → Option (List β)) : Prop where
  nil : ∀ r, F r 0 = some []
  split : ∀ r m n, 0 ≤ m → 0 ≤ n → F r (m + n) = (F r m).bind fun x => (F (r + m) n).map (x ++ ·)

/-- **Chunk by chunk or at once.** -/
theorem Splits.mapM_chunks {β : Type} {F : Int → Int → Option (List β)} (h : Splits F) {c n : Int}
    (hc : 0 < c) (r₀ : Int) (hle : r₀ ≤ n) :
    ((chunks c n r₀).mapM fun p => F p.1 p.2).map List.flatten = F r₀ (n - r₀) := by
  by_cases hlast : n ≤ r₀ + c
  · -- nothing is left, or one chunk
    by_cases hend : n ≤ r₀
    · rw [chunks_of_ge hend, show n - r₀ = 0 by omega, h.nil]
      rfl
    · rw [chunks_single (by omega) hlast]
      rw [List.mapM_cons, List.mapM_nil]
      cases F r₀ (n - r₀) with
      | none => rfl
      | some x => simp
  · have hlt : r₀ < n := by omega
    have hnext : r₀ + c ≤ n := by omega
    have hrest := Splits.mapM_chunks h hc (r₀ + c) hnext
    rw [chunks_of_lt hlt hc, if_neg (by omega), show n - r₀ = c + (n - (r₀ + c)) by omega,
      h.split r₀ c _ (by omega) (by omega), ← hrest, List.mapM_cons]
    cases F r₀ c with
    | none => rfl
    | some x =>
        cases (chunks c n (r₀ + c)).mapM fun p => F p.1 p.2 with
        | none => rfl
        | some ys => simp
termination_by (n - r₀).toNat

end LlmEngine.Lib.Chunks
