/-
# LlmEngine.Lib.ByteMem — words in byte memory.

A memory is a function of the address, an integer, so that pointer arithmetic needs no bounds of its
own.  `le16` and `le32` read little-endian words; `putBytes` stores a run of bytes, `putWords32` an array
of 32-bit words.

Two relations carry what is known of a memory:

* `SameBytes m lo m' lo' n`: the `n` bytes from `lo` in `m` are those from `lo'` in `m'`.  Words read at
  corresponding places are then the same (`SameBytes.word16`, `SameBytes.word32`), and a part of equal runs is
  equal (`SameBytes.part`).
* `Kept m m' lo hi`: outside `[lo, hi)` nothing has changed.

What was stored is read back (`le32_putWords32`), and an address outside the stored range keeps its byte
(`putBytes_kept`), which is the frame of every store.
-/
import Mathlib.Data.Int.Basic
import Mathlib.Tactic.Common

namespace LlmEngine.Lib

abbrev Mem := Int → UInt8

def le16 (m : Mem) (p : Int) : BitVec 16 := (m (p + 1)).toBitVec ++ (m p).toBitVec

def le32 (m : Mem) (p : Int) : BitVec 32 := le16 m (p + 2) ++ le16 m p

/-- Byte `j` of a word. -/
def byteOf (x : BitVec 32) (j : Nat) : UInt8 := UInt8.ofBitVec (x.extractLsb' (8 * j) 8)

/-- `n` bytes from `src` on, stored at `p`. -/
def putBytes (m : Mem) (p n : Int) (src : Mem) : Mem :=
  fun a => if p ≤ a ∧ a < p + n then src (a - p) else m a

/-- `n` words stored at `p`. -/
def putWords32 (m : Mem) (p n : Int) (f : Nat → BitVec 32) : Mem :=
  putBytes m p (4 * n) fun o => byteOf (f (o / 4).toNat) (o % 4).toNat

/-- The two memories have the same bytes on `[lo, hi)`, `m'` from `lo'` on. -/
def SameBytes (m : Mem) (lo : Int) (m' : Mem) (lo' n : Int) : Prop :=
  ∀ j, 0 ≤ j → j < n → m' (lo' + j) = m (lo + j)

theorem putBytes_inside (m : Mem) {p n a : Int} (src : Mem) (hlo : p ≤ a) (hhi : a < p + n) :
    putBytes m p n src a = src (a - p) := if_pos ⟨hlo, hhi⟩

theorem putBytes_outside (m : Mem) {p n a : Int} (src : Mem) (h : a < p ∨ p + n ≤ a) :
    putBytes m p n src a = m a := if_neg (by omega)

/-- Nothing outside `[lo, hi)` was touched. -/
def Kept (m m' : Mem) (lo hi : Int) : Prop := ∀ a, a < lo ∨ hi ≤ a → m' a = m a

theorem Kept.refl (m : Mem) (lo hi : Int) : Kept m m lo hi := fun _ _ => rfl

theorem Kept.trans {m m' m'' : Mem} {lo hi lo' hi' : Int} (h : Kept m m' lo hi) (h' : Kept m' m'' lo' hi')
    {a b : Int} (hlo : a ≤ lo) (hlo' : a ≤ lo') (hhi : hi ≤ b) (hhi' : hi' ≤ b) : Kept m m'' a b := by
  intro p hp
  rw [h' p (by omega), h p (by omega)]

theorem putBytes_kept (m : Mem) (p n : Int) (src : Mem) : Kept m (putBytes m p n src) p (p + n) :=
  fun _ h => putBytes_outside m src h

theorem le16_congr {m m' : Mem} {p p' : Int} (h0 : m' p' = m p) (h1 : m' (p' + 1) = m (p + 1)) :
    le16 m' p' = le16 m p := by
  unfold le16
  rw [h0, h1]

theorem SameBytes.word16 {m m' : Mem} {lo lo' n : Int} (h : SameBytes m lo m' lo' n) {j : Int}
    (hlo : 0 ≤ j) (hhi : j + 2 ≤ n) : le16 m' (lo' + j) = le16 m (lo + j) := by
  apply le16_congr
  · exact h j hlo (by omega)
  · rw [Int.add_assoc, Int.add_assoc]
    exact h (j + 1) (by omega) (by omega)

theorem SameBytes.word32 {m m' : Mem} {lo lo' n : Int} (h : SameBytes m lo m' lo' n) {j : Int}
    (hlo : 0 ≤ j) (hhi : j + 4 ≤ n) : le32 m' (lo' + j) = le32 m (lo + j) := by
  have hhigh := h.word16 (j := j + 2) (by omega) (by omega)
  rw [← Int.add_assoc, ← Int.add_assoc] at hhigh
  unfold le32
  rw [hhigh, h.word16 hlo (by omega)]

/-- A range away from what was touched reads as before. -/
theorem Kept.same {m m' : Mem} {lo hi : Int} (h : Kept m m' lo hi) {p n : Int}
    (hout : p + n ≤ lo ∨ hi ≤ p) : SameBytes m p m' p n := by
  intro j hj hn
  exact h (p + j) (by omega)

theorem SameBytes.trans {m m' m'' : Mem} {lo lo' lo'' n : Int} (h : SameBytes m lo m' lo' n)
    (h' : SameBytes m' lo' m'' lo'' n) : SameBytes m lo m'' lo'' n := by
  intro j hj hn
  rw [h' j hj hn, h j hj hn]

theorem SameBytes.symm {m m' : Mem} {lo lo' n : Int} (h : SameBytes m lo m' lo' n) : SameBytes m' lo' m lo n :=
  fun j hj hn => (h j hj hn).symm

theorem SameBytes.part {m m' : Mem} {lo lo' n : Int} (h : SameBytes m lo m' lo' n) {d n' : Int} (hd : 0 ≤ d)
    (hn : d + n' ≤ n) : SameBytes m (lo + d) m' (lo' + d) n' := by
  intro j hj hlt
  rw [Int.add_assoc, Int.add_assoc]
  exact h (d + j) (by omega) (by omega)

/-- The four bytes of a word make it up. -/
theorem bytes_join (x : BitVec 32) :
    ((byteOf x 3).toBitVec ++ (byteOf x 2).toBitVec) ++
      ((byteOf x 1).toBitVec ++ (byteOf x 0).toBitVec) = x := by
  unfold byteOf
  ext i hi
  simp only [BitVec.getElem_append, BitVec.getElem_extractLsb']
  split_ifs <;> (rw [BitVec.getLsbD_eq_getElem] <;> congr 1 <;> omega)

/-- **A stored word is read back.** -/
theorem le32_putWords32 (m : Mem) (p n : Int) (f : Nat → BitVec 32) {i : Nat} (hi : (i : Int) < n) :
    le32 (putWords32 m p n f) (p + 4 * i) = f i := by
  have hbyte : ∀ (a : Int) (j : Nat), j < 4 → a = p + 4 * i + j →
      putWords32 m p n f a = byteOf (f i) j := by
    rintro a j hj rfl
    unfold putWords32
    rw [putBytes_inside _ _ (by omega) (by omega)]
    have hdiv : ((p + 4 * i + j - p) / 4).toNat = i := by omega
    have hmod : ((p + 4 * i + j - p) % 4).toNat = j := by omega
    rw [hdiv, hmod]
  unfold le32 le16
  rw [hbyte (p + 4 * i + 2 + 1) 3 (by omega) (by omega), hbyte (p + 4 * i + 2) 2 (by omega) (by omega),
    hbyte (p + 4 * i + 1) 1 (by omega) (by omega), hbyte (p + 4 * i) 0 (by omega) (by omega)]
  exact bytes_join (f i)

end LlmEngine.Lib
