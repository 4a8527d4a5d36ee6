/-
# LlmEngine.Lib.Record — a C structure as the bytes that hold it.

A structure is a run of integer members, each of a fixed width, in two's complement with the least
significant byte first.  Padding is a member like any other, of a value that nobody reads.

Copying the bytes of a structure copies the structure.  That is `decode_encode`: what was written into the
bytes is read back, member by member, whenever every member has room for its value (`Holds`); a member
alone is `getInt_putInt`.  A value without room would come back reduced modulo the width, so `Holds` is not
only enough but also what is needed.

This is how a structure goes through code that knows only its size: a table of metadata kept beside each
slot of a cache, or a header written to a file as it stands in memory.
-/
import LlmEngine.Lib.LittleEndian

namespace LlmEngine.Lib.Record

open LlmEngine.Lib.LittleEndian

/-- `v` is a value of a signed integer of `k` bytes. -/
def Holds (k : Nat) (v : Int) : Prop := -(256 ^ k : Int) ≤ 2 * v ∧ 2 * v < 256 ^ k

instance (k : Nat) (v : Int) : Decidable (Holds k v) := inferInstanceAs (Decidable (_ ∧ _))

/-- A member of `k` bytes. -/
def putInt (k : Nat) (v : Int) : Bytes := put k (v % 256 ^ k).toNat

/-- The value of a member. -/
def getInt (bs : Bytes) : Int := (get bs : Int).bmod (256 ^ bs.length)

@[simp] theorem putInt_length (k : Nat) (v : Int) : (putInt k v).length = k := put_length k _

/-- **A member is read back.** -/
theorem getInt_putInt {k : Nat} {v : Int} (h : Holds k v) : getInt (putInt k v) = v := by
  have hpow : (256 ^ k : Nat) = (256 ^ k : Int) := by push_cast; rfl
  have hpos : (0 : Int) < 256 ^ k := Int.pow_pos (by decide)
  have hmod : ((v % 256 ^ k).toNat : Int) = v % 256 ^ k := Int.toNat_of_nonneg (Int.emod_nonneg v hpos.ne')
  have hget : (get (putInt k v) : Int) = v % (256 ^ k : Nat) := by
    unfold putInt
    rw [get_put, Int.natCast_emod, hmod, hpow, Int.emod_emod_of_dvd _ (dvd_refl _)]
  obtain ⟨hlo, hhi⟩ := h
  unfold getInt
  rw [hget, putInt_length, Int.emod_bmod]
  apply Int.bmod_eq_of_le_mul_two
  · rw [hpow]
    omega
  · rw [hpow]
    omega

/-! ## Structures -/

/-- The members of a structure in order, each with its width. -/
def encode (ms : List (Nat × Int)) : Bytes := ms.flatMap fun m => putInt m.1 m.2

/-- The values of members of the given widths. -/
def decode : List Nat → Bytes → List Int
  | [], _ => []
  | k :: ks, bs => getInt (bs.take k) :: decode ks (bs.drop k)

theorem encode_cons (m : Nat × Int) (ms : List (Nat × Int)) :
    encode (m :: ms) = putInt m.1 m.2 ++ encode ms := List.flatMap_cons

/-- A structure is as long as its members together. -/
theorem encode_length (ms : List (Nat × Int)) : (encode ms).length = (ms.map Prod.fst).sum := by
  induction ms with
  | nil => rfl
  | cons m ms ih => rw [encode_cons, List.length_append, putInt_length, ih, List.map_cons, List.sum_cons]

/-- **What was written into the bytes of a structure is read back**, member by member. -/
theorem decode_encode (ms : List (Nat × Int)) (h : ∀ m ∈ ms, Holds m.1 m.2) :
    decode (ms.map Prod.fst) (encode ms) = ms.map Prod.snd := by
  induction ms with
  | nil => rfl
  | cons m ms ih =>
      obtain ⟨hm, hms⟩ := List.forall_mem_cons.mp h
      rw [List.map_cons, decode, encode_cons, List.take_left' (putInt_length _ _),
        List.drop_left' (putInt_length _ _), getInt_putInt hm, ih hms, List.map_cons]

end LlmEngine.Lib.Record
