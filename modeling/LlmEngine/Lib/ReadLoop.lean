/-
# LlmEngine.Lib.ReadLoop — reading a range of a file in whatever chunks the kernel gives.

A positioned read returns at least one byte before the end of the file, none at or past it, and an
error at a position `off_t` cannot hold.  How long a chunk is, is up to the kernel: it may depend on
the call, and on everything that happened before it.  A `Kernel` is any function that keeps to this;
`Kernel.whole` gives all that is asked for and `Kernel.bytewise` one byte at a time.

The loop that asks for the rest until it is told there is none delivers, whatever the chunks, the part of
the range that lies inside the file (`readLoop_eq`, with `reach` for how long that part is).  Where the
range may lie anywhere:

* what a loop reports as read is in the buffer (`readLoop_prefix`);
* it reports the whole length only where the range lies in the file (`readLoop_full`);
* as far as it has come, the buffer has the file's bytes (`readLoop_covers`), and the rest of it is as it was.

Reads that fail with an error in the middle of a file are not of this kind, and are left to whoever models
a device that gives them.
-/
import LlmEngine.Lib.ByteMem
import LlmEngine.Lib.Int64

namespace LlmEngine.Lib

/-- The content of a file; `off_t` bounds its size. -/
structure FileBytes where
  byte : Nat → UInt8
  size : Nat
  bounded : size < 2 ^ 63

/-- How a kernel answers `pread` on a file of `size` bytes: what the `n`-th call returns for a
position and a byte count. -/
structure Kernel (size : Nat) where
  serve : Nat → Int → Int → Int
  progress : ∀ (n : Nat) (pos count : Int), 0 ≤ pos → pos < size → 0 < count →
    1 ≤ serve n pos count ∧ serve n pos count ≤ count ∧ pos + serve n pos count ≤ size
  ended : ∀ (n : Nat) (pos count : Int), size ≤ pos → serve n pos count = 0
  rejected : ∀ (n : Nat) (pos count : Int), pos < 0 → serve n pos count ≤ 0

/-- The kernel that returns one byte at a time. -/
def Kernel.bytewise (size : Nat) : Kernel size where
  serve := fun _ pos count => if 0 ≤ pos ∧ pos < size ∧ 0 < count then 1 else 0
  progress := by
    intro n pos count hpos hsize hcount
    rw [if_pos ⟨hpos, hsize, hcount⟩]
    omega
  ended := by
    intro n pos count hpos
    rw [if_neg (by omega)]
  rejected := by
    intro n pos count hpos
    split_ifs <;> omega

/-- The kernel that returns all there is. -/
def Kernel.whole (size : Nat) : Kernel size where
  serve := fun _ pos count => if 0 ≤ pos ∧ pos < size ∧ 0 < count then min count (size - pos) else 0
  progress := by
    intro n pos count hpos hsize hcount
    rw [if_pos ⟨hpos, hsize, hcount⟩]
    omega
  ended := by
    intro n pos count hpos
    rw [if_neg (by omega)]
  rejected := by
    intro n pos count hpos
    split_ifs <;> omega

/-- The buffer once `r` bytes from position `pos` on have arrived at `dst`. -/
def FileBytes.arrive (f : FileBytes) (buf : Int → UInt8) (dst pos r : Int) : Int → UInt8 :=
  fun p => if dst ≤ p ∧ p < dst + r then f.byte (pos + (p - dst)).toNat else buf p

/-- `while (got < len) { r = pread(fd, buf + got, len - got, lo + got); if (r <= 0) break; got += r; }`,
from the `n`-th call on. -/
def readLoop (f : FileBytes) (k : Kernel f.size) (lo len : Int) (n : Nat) (got : Int)
    (buf : Int → UInt8) : Int × (Int → UInt8) :=
  if got < len then
    if k.serve n (wrap64 (lo + got)) (len - got) ≤ 0 then (got, buf)
    else
      readLoop f k lo len (n + 1) (got + k.serve n (wrap64 (lo + got)) (len - got))
        (f.arrive buf got (wrap64 (lo + got)) (k.serve n (wrap64 (lo + got)) (len - got)))
  else (got, buf)
termination_by (len - got).toNat
decreasing_by omega

/-- How much of the `len` bytes from `lo` on lies inside the file. -/
def FileBytes.reach (f : FileBytes) (lo len : Int) : Int := min len (max 0 (f.size - lo))

/-- **The chunks do not matter**: the loop ends at the end of the range or of the file, and what it
has put into the buffer is the file's bytes. -/
theorem readLoop_eq (f : FileBytes) (k : Kernel f.size) {lo len : Int} (hlo : 0 ≤ lo) (hmax : lo < 2 ^ 63)
    (n : Nat) (got : Int) (buf : Int → UInt8) (hgot : 0 ≤ got) (hreach : got ≤ f.reach lo len) :
    readLoop f k lo len n got buf = (f.reach lo len,
      fun p => if got ≤ p ∧ p < f.reach lo len then f.byte (lo + p).toNat else buf p) := by
  have hsize := f.bounded
  -- at the end nothing more is written
  have hdone : got = f.reach lo len → (got, buf) = (f.reach lo len,
      fun p => if got ≤ p ∧ p < f.reach lo len then f.byte (lo + p).toNat else buf p) := by
    intro heq
    rw [← heq]
    congr 1
    funext p
    rw [if_neg (by omega)]
  unfold readLoop
  by_cases hlt : got < len
  · rw [if_pos hlt]
    have hpos : wrap64 (lo + got) = lo + got := by
      unfold FileBytes.reach at hreach
      exact wrap64_of_range (by omega) (by omega)
    rw [hpos]
    by_cases heof : lo + got < f.size
    · -- before the end of the file: a chunk arrives and the loop goes on
      obtain ⟨hone, hcount, hend⟩ := k.progress n (lo + got) (len - got) (by omega) heof (by omega)
      rw [if_neg (by omega)]
      have hnext : got + k.serve n (lo + got) (len - got) ≤ f.reach lo len := by
        unfold FileBytes.reach
        omega
      rw [readLoop_eq f k hlo hmax (n + 1) _ _ (by omega) hnext]
      congr 1
      funext p
      unfold FileBytes.arrive
      split_ifs with h₁ h₂ h₃ h₄ h₅
      · rfl
      · omega
      · congr 2
        omega
      · omega
      · omega
      · rfl
    · have hend := k.ended n (lo + got) (len - got) (by omega)
      rw [if_pos (by omega)]
      apply hdone
      unfold FileBytes.reach at hreach ⊢
      omega
  · rw [if_neg hlt]
    apply hdone
    unfold FileBytes.reach at hreach ⊢
    omega
termination_by (len - got).toNat
decreasing_by omega

/-- What was read is never given back. -/
theorem le_readLoop (f : FileBytes) (k : Kernel f.size) (lo len : Int) (n : Nat) (got : Int)
    (buf : Int → UInt8) : got ≤ (readLoop f k lo len n got buf).1 := by
  unfold readLoop
  split_ifs with hlt hstop
  · exact Int.le_refl got
  · have hnext := le_readLoop f k lo len (n + 1) (got + k.serve n (wrap64 (lo + got)) (len - got))
      (f.arrive buf got (wrap64 (lo + got)) (k.serve n (wrap64 (lo + got)) (len - got)))
    omega
  · exact Int.le_refl got
termination_by (len - got).toNat
decreasing_by omega

/-- The bytes of the file, by position. -/
def FileBytes.mem (f : FileBytes) : Mem := fun p => f.byte p.toNat

/-- **What a loop reports is what it has read**, wherever the range lies: the buffer has that many of
the file's bytes, and is as it was behind them. -/
theorem readLoop_prefix (f : FileBytes) (k : Kernel f.size) {lo len : Int} (hmin : -2 ^ 63 ≤ lo)
    (hmax : lo < 2 ^ 63) (hlen : 0 ≤ len) (buf : Int → UInt8) :
    let r := readLoop f k lo len 0 0 buf
    (0 ≤ r.1 ∧ r.1 ≤ len) ∧ r.2 = putBytes buf 0 r.1 fun o => f.mem (lo + o) := by
  by_cases hlo : 0 ≤ lo
  · have hstart : 0 ≤ f.reach lo len ∧ f.reach lo len ≤ len := by
      unfold FileBytes.reach
      omega
    simp only
    rw [readLoop_eq f k hlo hmax 0 0 buf (Int.le_refl 0) hstart.1]
    refine ⟨hstart, ?_⟩
    funext p
    simp only [putBytes, Int.zero_add, Int.sub_zero, FileBytes.mem]
  · -- a negative position is rejected
    have hstop : readLoop f k lo len 0 0 buf = (0, buf) := by
      unfold readLoop
      have hpos : wrap64 (lo + 0) = lo := by
        rw [Int.add_zero]
        exact wrap64_of_range hmin hmax
      rw [hpos, if_pos (k.rejected 0 lo (len - 0) (by omega)), ite_self]
    simp only
    rw [hstop]
    refine ⟨⟨Int.le_refl 0, hlen⟩, ?_⟩
    funext p
    rw [putBytes_outside _ _ (by simp only; omega)]

/-- A loop that reports all it was asked for has read it. -/
theorem readLoop_full (f : FileBytes) (k : Kernel f.size) {lo len : Int} (hmin : -2 ^ 63 ≤ lo)
    (hmax : lo < 2 ^ 63) (hlen : 0 ≤ len) (buf : Int → UInt8)
    (hfull : len ≤ (readLoop f k lo len 0 0 buf).1) :
    (readLoop f k lo len 0 0 buf).2 = putBytes buf 0 len fun o => f.mem (lo + o) := by
  obtain ⟨⟨-, hle⟩, hread⟩ := readLoop_prefix f k hmin hmax hlen buf
  rw [hread, Int.le_antisymm hle hfull]

/-- **As far as a loop reports to have come, the buffer has the file's bytes**, whatever it was asked for. -/
theorem readLoop_covers (f : FileBytes) (k : Kernel f.size) {lo len n : Int} (hlo : 0 ≤ lo) (hmax : lo < 2 ^ 63)
    (buf : Int → UInt8) (hn : n ≤ (readLoop f k lo len 0 0 buf).1) :
    SameBytes f.mem lo (readLoop f k lo len 0 0 buf).2 0 n := by
  intro j hj hlt
  by_cases hlen : len ≤ 0
  · have hstop : readLoop f k lo len 0 0 buf = (0, buf) := by
      unfold readLoop
      rw [if_neg (by omega)]
    rw [hstop] at hn
    simp only at hn
    omega
  · have hstart : 0 ≤ f.reach lo len := by
      unfold FileBytes.reach
      omega
    rw [readLoop_eq f k hlo hmax 0 0 buf (Int.le_refl 0) hstart] at hn ⊢
    simp only at hn ⊢
    rw [if_pos (by omega), Int.zero_add]
    rfl

end LlmEngine.Lib
