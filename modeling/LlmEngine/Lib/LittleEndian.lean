/-
# LlmEngine.Lib.LittleEndian — fixed-width little-endian words in a byte string.

A natural number as `k` bytes, least significant first, and back:

    put k n  =  n % 256,  n / 256 % 256,  …        get (put k n)  =  n % 256 ^ k

`word w k` is the value of the first `k` bytes as a word of `w` bits.  A reader that assembles a word by
shifts and ors computes the same (`word32_toNat`, from `shift_or`), and a word of 64 bits is two of 32
with the lower one first (`word64_halves`).

Words in sequence are `putWords` and `words`.  A reader that takes a counted run of them off the front of
a byte string, or refuses when there are too few bytes, is `readWords`; what was put in sequence is read
back, and what follows it is left (`readWords_putWords`).  The bytes a run was read from are determined by
it (`readWords_some`), so such a reader accepts nothing but what a writer could have written.
-/
import Mathlib.Data.List.Basic
import Mathlib.Tactic.Ring

namespace LlmEngine.Lib.LittleEndian

abbrev Bytes := List UInt8

/-- A byte is one of 256. -/
theorem forall_byte {P : UInt8 → Prop} (h : ∀ n < 256, P (UInt8.ofNat n)) (c : UInt8) : P c := by
  have hc := h c.toNat c.toNat_lt
  rwa [UInt8.ofNat_toNat] at hc

/-- The low `k` bytes of `n`. -/
def put : Nat → Nat → Bytes
  | 0, _ => []
  | k + 1, n => UInt8.ofNat n :: put k (n / 256)

/-- The number a byte string stands for. -/
def get : Bytes → Nat
  | [] => 0
  | b :: bs => b.toNat + 256 * get bs

@[simp] theorem put_length (k : Nat) : ∀ n, (put k n).length = k := by
  induction k with
  | zero => intro n; rfl
  | succ k ih =>
      intro n
      rw [put, List.length_cons, ih]

theorem get_put (k : Nat) : ∀ n, get (put k n) = n % 256 ^ k := by
  induction k with
  | zero =>
      intro n
      rw [Nat.pow_zero, Nat.mod_one]
      rfl
  | succ k ih =>
      intro n
      rw [put, get, ih, Nat.pow_succ']
      show n % 256 + 256 * (n / 256 % 256 ^ k) = n % (256 * 256 ^ k)
      rw [Nat.mod_mul]

theorem get_append (a b : Bytes) : get (a ++ b) = get a + 256 ^ a.length * get b := by
  induction a with
  | nil =>
      rw [List.nil_append, List.length_nil, get]
      ring
  | cons x a ih =>
      rw [List.cons_append, get, get, ih, List.length_cons, Nat.pow_succ]
      ring

theorem get_lt (a : Bytes) : get a < 256 ^ a.length := by
  induction a with
  | nil => exact Nat.one_pos
  | cons x a ih =>
      have hx := x.toNat_lt
      rw [get, List.length_cons, Nat.pow_succ]
      omega

theorem drop_put (k n : Nat) (rest : Bytes) : (put k n ++ rest).drop k = rest :=
  List.drop_left' (put_length k n)

/-! ## Words -/

/-- The word at the front. -/
def word (w k : Nat) (bs : Bytes) : BitVec w := BitVec.ofNat w (get (bs.take k))

theorem word_put {w k : Nat} (hw : 256 ^ k = 2 ^ w) (x : BitVec w) (rest : Bytes) :
    word w k (put k x.toNat ++ rest) = x := by
  unfold word
  rw [List.take_left' (put_length k _), get_put, hw, Nat.mod_eq_of_lt x.isLt, BitVec.ofNat_toNat,
    BitVec.setWidth_eq]

/-- Bits joined are bits added, where they do not meet. -/
theorem shift_or {a d i : Nat} (hd : d < 2 ^ i) : a <<< i ||| d = a * 2 ^ i + d := by
  rw [← Nat.shiftLeft_add_eq_or_of_lt hd, Nat.shiftLeft_eq]

theorem word32_toNat (bs : Bytes) : (word 32 4 bs).toNat = get (bs.take 4) := by
  have hlen : (bs.take 4).length ≤ 4 := by
    rw [List.length_take]
    omega
  have hlt : get (bs.take 4) < 2 ^ 32 := Nat.lt_of_lt_of_le (get_lt _) (Nat.pow_le_pow_right (by decide) hlen)
  rw [word, BitVec.toNat_ofNat, Nat.mod_eq_of_lt hlt]

/-- **A word of 64 bits is two of 32**, the lower one first. -/
theorem word64_halves (bs : Bytes) : word 64 8 bs = word 32 4 (bs.drop 4) ++ word 32 4 bs := by
  have hsplit : get (bs.take 8) = get (bs.take 4) + 2 ^ 32 * get ((bs.drop 4).take 4) := by
    have htake : bs.take 8 = bs.take 4 ++ (bs.drop 4).take 4 := List.take_add (i := 4) (j := 4)
    rw [htake, get_append]
    by_cases hlen : 4 ≤ bs.length
    · have hpow : 256 ^ 4 = 2 ^ 32 := by decide
      rw [List.length_take, Nat.min_eq_left hlen, hpow]
    · -- there is no upper half
      rw [List.drop_eq_nil_of_le (by omega), List.take_nil, get, Nat.mul_zero, Nat.mul_zero]
  have hlo := (word 32 4 bs).isLt
  have hhi := (word 32 4 (bs.drop 4)).isLt
  apply BitVec.eq_of_toNat_eq
  rw [BitVec.toNat_append, shift_or hlo, word32_toNat, word32_toNat] at *
  rw [word, BitVec.toNat_ofNat, hsplit, Nat.mod_eq_of_lt (by omega)]
  ring

/-- 32-bit words in sequence. -/
def putWords (xs : List (BitVec 32)) : Bytes := xs.flatMap fun x => put 4 x.toNat

def words : Nat → Bytes → List (BitVec 32)
  | 0, _ => []
  | n + 1, bs => word 32 4 bs :: words n (bs.drop 4)

@[simp] theorem words_length (n : Nat) : ∀ bs, (words n bs).length = n := by
  induction n with
  | zero => intro bs; rfl
  | succ n ih =>
      intro bs
      rw [words, List.length_cons, ih]

theorem putWords_cons (x : BitVec 32) (xs : List (BitVec 32)) :
    putWords (x :: xs) = put 4 x.toNat ++ putWords xs := List.flatMap_cons

@[simp] theorem putWords_length (xs : List (BitVec 32)) : (putWords xs).length = 4 * xs.length := by
  induction xs with
  | nil => rfl
  | cons x xs ih =>
      rw [putWords_cons, List.length_append, put_length, ih, List.length_cons]
      ring

theorem words_putWords (xs : List (BitVec 32)) (rest : Bytes) :
    words xs.length (putWords xs ++ rest) = xs := by
  induction xs with
  | nil => rfl
  | cons x xs ih =>
      rw [putWords_cons, List.append_assoc, List.length_cons, words, word_put (by decide), drop_put, ih]

/-- The `i`-th word stands at byte `4 * i`. -/
theorem word_putWords_drop (xs : List (BitVec 32)) (rest : Bytes) : ∀ {i : Nat}, i < xs.length →
    word 32 4 ((putWords xs ++ rest).drop (4 * i)) = xs.getD i 0 := by
  induction xs with
  | nil => intro i hi; exact absurd hi (Nat.not_lt_zero i)
  | cons x xs ih =>
      intro i hi
      rw [putWords_cons, List.append_assoc]
      cases i with
      | zero => exact word_put (by decide) x _
      | succ i =>
          rw [show 4 * (i + 1) = 4 + 4 * i by omega, ← List.drop_drop, drop_put,
            ih (Nat.lt_of_succ_lt_succ hi), List.getD_cons_succ]

/-! ## A counted read -/

/-- Take `n` words off the front, or refuse when there are not as many. -/
def readWords (n : Nat) (bs : Bytes) : Option (List (BitVec 32) × Bytes) :=
  if 4 * n ≤ bs.length then some (words n bs, bs.drop (4 * n)) else none

/-- **What was put in sequence is read back**, and what follows it is left. -/
theorem readWords_putWords (xs : List (BitVec 32)) (rest : Bytes) :
    readWords xs.length (putWords xs ++ rest) = some (xs, rest) := by
  unfold readWords
  rw [if_pos (by rw [List.length_append, putWords_length]; omega), words_putWords,
    List.drop_left' (putWords_length xs)]

/-- A read that succeeds found all its bytes. -/
theorem readWords_some {n : Nat} {bs rest : Bytes} {xs : List (BitVec 32)}
    (h : readWords n bs = some (xs, rest)) :
    4 * n ≤ bs.length ∧ xs.length = n ∧ rest.length ≤ bs.length := by
  unfold readWords at h
  split_ifs at h with hle
  obtain ⟨rfl, rfl⟩ := Prod.mk.inj (Option.some.inj h)
  refine ⟨hle, words_length n bs, ?_⟩
  rw [List.length_drop]
  exact Nat.sub_le _ _

end LlmEngine.Lib.LittleEndian
