/-
# LlmEngine.Lib.Int64 — signed arithmetic that wraps around.

`wrap64 i` is the value an `int64_t` holds after an operation whose exact result is `i`, `wrap32 i` that
of an `int`.  The exact value is computed in `Int` and wrapped once, at the end: products may be wrapped
on the way (`wrap64_mul_left`), and inside the range nothing happens (`wrap64_of_range`).

A sum of two values of the range leaves it by one turn at most, which is what `wrap64_turn` and
`wrap64_above` are for.

The second half is about alignment in 64 bits.  An alignment is a power of two exactly when it has no
bit in common with its predecessor (`pow2_of_and_pred`), the test programs make; and a value with the
bits below the power cleared is the multiple of it at or below (`clear_low`), so that a mask and a
rounding down are the same.
-/
import Mathlib.Algebra.GroupWithZero.Nat
import Mathlib.Algebra.Ring.Int.Defs
import Mathlib.Tactic.Common

namespace LlmEngine.Lib

/-- The representative of `i` modulo `2 ^ 64` in `[-2 ^ 63, 2 ^ 63)`. -/
def wrap64 (i : Int) : Int := i.bmod (2 ^ 64)

theorem wrap64_of_range {i : Int} (hlo : -2 ^ 63 ≤ i) (hhi : i < 2 ^ 63) : wrap64 i = i := by
  unfold wrap64
  rw [Int.bmod_eq_of_le]
  · omega
  · omega

/-- A whole turn changes nothing. -/
theorem wrap64_turn (i : Int) : wrap64 (i - 2 ^ 64) = wrap64 i := Int.sub_bmod_right i (2 ^ 64)

/-- One step past the sign. -/
theorem wrap64_above {i : Int} (hlo : 2 ^ 63 ≤ i) (hhi : i < 2 ^ 64 + 2 ^ 63) :
    wrap64 i = i - 2 ^ 64 := by
  rw [← wrap64_turn]
  exact wrap64_of_range (by omega) (by omega)

theorem wrap64_lt (i : Int) : wrap64 i < 2 ^ 63 := by
  have h := Int.bmod_lt (show 0 < 2 ^ 64 by decide) (x := i)
  unfold wrap64
  omega

theorem wrap64_ge (i : Int) : -2 ^ 63 ≤ wrap64 i := by
  have h := Int.le_bmod (show 0 < 2 ^ 64 by decide) (x := i)
  unfold wrap64
  omega

@[simp] theorem wrap64_wrap64 (i : Int) : wrap64 (wrap64 i) = wrap64 i := Int.bmod_bmod

/-- A wrapped factor does not change a wrapped product. -/
theorem wrap64_mul_left (i j : Int) : wrap64 (wrap64 i * j) = wrap64 (i * j) := Int.bmod_mul_bmod

/-- C `int` arithmetic. -/
def wrap32 (i : Int) : Int := i.bmod (2 ^ 32)

theorem wrap32_of_range {i : Int} (hlo : -2 ^ 31 ≤ i) (hhi : i < 2 ^ 31) : wrap32 i = i := by
  unfold wrap32
  rw [Int.bmod_eq_of_le]
  · omega
  · omega

/-- An `int` sum that did not come out negative did not wrap. -/
theorem wrap32_of_nonneg {i : Int} (hlo : -2 ^ 31 ≤ i) (hhi : i < 2 ^ 32) (h : 0 ≤ wrap32 i) :
    wrap32 i = i := by
  unfold wrap32 at *
  rw [Int.bmod_def] at *
  split_ifs at * <;> omega

/-! ## Powers of two and masks -/

theorem ofInt64_toNat {i : Int} (hlo : 0 ≤ i) (hhi : i < 2 ^ 64) :
    (BitVec.ofInt 64 i).toNat = i.toNat := by
  rw [BitVec.toNat_ofInt]
  congr 1
  exact Int.emod_eq_of_lt hlo (by omega)

theorem ofNat64_toInt {n : Nat} (h : n < 2 ^ 63) : (BitVec.ofNat 64 n).toInt = n := by
  have hn : (BitVec.ofNat 64 n).toNat = n := by
    rw [BitVec.toNat_ofNat, Nat.mod_eq_of_lt (by omega)]
  rw [BitVec.toInt_eq_toNat_of_lt (by omega), hn]

/-- `a & (a - 1)` is zero only for a power of two. -/
theorem pow2_of_and_pred {a : Int} (hpos : 0 < a) (hlt : a < 2 ^ 63)
    (h : BitVec.ofInt 64 a &&& BitVec.ofInt 64 (a - 1) = 0) : ∃ k : Nat, k ≤ 62 ∧ a = 2 ^ k := by
  have hnat := congrArg BitVec.toNat h
  rw [BitVec.toNat_and, ofInt64_toNat (by omega) (by omega), ofInt64_toNat (by omega) (by omega),
    show (a - 1).toNat = a.toNat - 1 by omega] at hnat
  obtain ⟨k, hk⟩ := (Nat.and_sub_one_eq_zero_iff_isPowerOfTwo (by omega)).mp hnat
  refine ⟨k, ?_, ?_⟩
  · by_contra hbig
    have hle : 2 ^ 63 ≤ 2 ^ k := Nat.pow_le_pow_right (by decide) (by omega)
    omega
  · have hcast : ((a.toNat : Nat) : Int) = ((2 ^ k : Nat) : Int) := congrArg Nat.cast hk
    rw [Int.toNat_of_nonneg (by omega)] at hcast
    rw [hcast]
    norm_cast

theorem and_pred_of_pow2 {k : Nat} (hk : k ≤ 62) :
    BitVec.ofInt 64 (2 ^ k) &&& BitVec.ofInt 64 (2 ^ k - 1) = 0 := by
  have hpow : 2 ^ k ≤ 2 ^ 62 := Nat.pow_le_pow_right (by decide) hk
  have hpos : 0 < 2 ^ k := Nat.two_pow_pos k
  have hcast : ((2 : Int) ^ k) = ((2 ^ k : Nat) : Int) := by norm_cast
  apply BitVec.eq_of_toNat_eq
  rw [BitVec.toNat_and, hcast, ofInt64_toNat (by omega) (by omega), ofInt64_toNat (by omega) (by omega),
    Int.toNat_natCast, show ((2 ^ k : Nat) - 1 : Int).toNat = 2 ^ k - 1 by omega]
  exact (Nat.and_sub_one_eq_zero_iff_isPowerOfTwo (by omega)).mpr ⟨k, rfl⟩

/-- The bits under a mask and the bits outside it make up the word. -/
theorem mask_split (x m : BitVec 64) : (x &&& ~~~m).toNat + (x &&& m).toNat = x.toNat := by
  have hdisjoint : (x &&& ~~~m) &&& (x &&& m) = 0 := by
    ext i
    simp only [BitVec.getElem_and, BitVec.getElem_not]
    cases x[i] <;> cases m[i] <;> simp
  have hjoin : (x &&& ~~~m) ||| (x &&& m) = x := by
    ext i
    simp only [BitVec.getElem_or, BitVec.getElem_and, BitVec.getElem_not]
    cases x[i] <;> cases m[i] <;> decide
  rw [← BitVec.toNat_add_of_and_eq_zero hdisjoint, BitVec.add_eq_or_of_and_eq_zero _ _ hdisjoint,
    hjoin]

/-- Clearing the bits below a power of two rounds down to a multiple of it. -/
theorem clear_low {i : Int} (hlo : 0 ≤ i) (hhi : i < 2 ^ 63) {k : Nat} (hk : k ≤ 62) :
    (BitVec.ofInt 64 i &&& ~~~ BitVec.ofInt 64 (2 ^ k - 1)).toInt = i / 2 ^ k * 2 ^ k := by
  have hpow : 2 ^ k ≤ 2 ^ 62 := Nat.pow_le_pow_right (by decide) hk
  have hpos : 0 < 2 ^ k := Nat.two_pow_pos k
  have hcast : ((2 : Int) ^ k) = ((2 ^ k : Nat) : Int) := by norm_cast
  have hsplit := mask_split (BitVec.ofInt 64 i) (BitVec.ofInt 64 (2 ^ k - 1))
  have hmask : (BitVec.ofInt 64 (2 ^ k - 1)).toNat = 2 ^ k - 1 := by
    rw [hcast, ofInt64_toNat (by omega) (by omega)]
    omega
  rw [ofInt64_toNat hlo (by omega), BitVec.toNat_and _ (BitVec.ofInt 64 (2 ^ k - 1)), hmask,
    ofInt64_toNat hlo (by omega), Nat.and_two_pow_sub_one_eq_mod] at hsplit
  have hdiv := Nat.div_add_mod i.toNat (2 ^ k)
  have hval : (BitVec.ofInt 64 i &&& ~~~ BitVec.ofInt 64 (2 ^ k - 1)).toNat =
      i.toNat / 2 ^ k * 2 ^ k := by
    rw [Nat.mul_comm]
    omega
  rw [BitVec.toInt_eq_toNat_of_lt (by omega), hval]
  push_cast
  rw [Int.toNat_of_nonneg hlo]

end LlmEngine.Lib
