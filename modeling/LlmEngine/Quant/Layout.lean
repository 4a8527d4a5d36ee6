/-
# LlmEngine.Quant.Layout — the k-quant blocks, byte for byte (`q4_k.c`, `q6_k.c`).

`packQ4` and `packQ6` are the layouts that the head of each file spells out, written from the fields to
the bytes.  The readers take every field back out: what they make of a packed block is the value the
layout stands for, and no two assignments of the fields have the same bytes.

* `Q4Block` and `Q6Block` are the fields of a block at their widths, so an assignment of them is any block.
* Q4_K splits six-bit scales over two bytes: `getScaleMin_packQ4` puts them together again.
* Q6_K splits its codes over a low and a high plane: `q6Code_packQ6`.
* `packQ4_injective`, `packQ6_injective`: different fields, different bytes.
* `packRow` is a row of blocks, and the element readers of `Quant.Dequant` give its values, whatever lies behind.
-/
import LlmEngine.Quant.Dequant

namespace LlmEngine.Quant

open LlmEngine.Core LlmEngine.Lib LlmEngine.Kernels

/-! ## The layouts -/

/-- The fields of a Q4_K block. -/
@[ext]
structure Q4Block where
  d : BitVec 16
  dmin : BitVec 16
  sc : Fin 8 → BitVec 6
  m : Fin 8 → BitVec 6
  q : Fin 256 → BitVec 4

/-- The fields of a Q6_K block; the scales are signed. -/
@[ext]
structure Q6Block where
  d : BitVec 16
  sc : Fin 16 → BitVec 8
  q : Fin 256 → BitVec 6

/-- A little-endian half word. -/
def halfByte (h : BitVec 16) (o : Nat) : BitVec 8 := h.extractLsb' (8 * o) 8

/-- The low four bits of a six-bit field. -/
def lowFour (a : BitVec 6) : BitVec 4 := a.setWidth 4

/-- The two high bits. -/
def highTwo (a : BitVec 6) : BitVec 2 := (a >>> 4).setWidth 2

/-- A six-bit field in the low bits of a byte, with two bits over it. -/
def withHigh (a : BitVec 6) (c : BitVec 2) : BitVec 8 := a.setWidth 8 ||| c.setWidth 8 <<< 6

/-- Two four-bit fields. -/
def nibblePair (a b : BitVec 4) : BitVec 8 := a.setWidth 8 ||| b.setWidth 8 <<< 4

/-- Four two-bit fields. -/
def highFour (a b c d : BitVec 2) : BitVec 8 :=
  a.setWidth 8 ||| b.setWidth 8 <<< 2 ||| c.setWidth 8 <<< 4 ||| d.setWidth 8 <<< 6

/-- The 144 bytes of a Q4_K block: `d`, `dmin`, twelve bytes of scales and mins, the codes.  The first
four scales and mins are stored plainly in the low bits of scale bytes 0 to 7, the last four are split
between scale bytes 8 to 11 and the tops of the first eight.  A stretch of 32 code bytes holds one
sub-block in the low nibbles and the next one in the high nibbles. -/
def packQ4 (k : Q4Block) (o : Nat) : BitVec 8 :=
  if o < 2 then halfByte k.d o
  else if o < 4 then halfByte k.dmin (o - 2)
  else if o < 8 then withHigh (k.sc (Fin.ofNat 8 (o - 4))) (highTwo (k.sc (Fin.ofNat 8 (o - 4 + 4))))
  else if o < 12 then withHigh (k.m (Fin.ofNat 8 (o - 8))) (highTwo (k.m (Fin.ofNat 8 (o - 8 + 4))))
  else if o < 16 then nibblePair (lowFour (k.sc (Fin.ofNat 8 (o - 12 + 4)))) (lowFour (k.m (Fin.ofNat 8 (o - 12 + 4))))
  else
    let i := (o - 16) / 32 * 64 + (o - 16) % 32
    nibblePair (k.q (Fin.ofNat 256 i)) (k.q (Fin.ofNat 256 (i + 32)))

/-- The 210 bytes of a Q6_K block: for each half of 128 elements 64 bytes with the low four bits of two
codes, then for each half 32 bytes with the high two bits of four codes, 32 elements apart, then the
scales and `d`. -/
def packQ6 (k : Q6Block) (o : Nat) : BitVec 8 :=
  let q := fun i => k.q (Fin.ofNat 256 i)
  if o < 128 then
    let i := o / 64 * 128 + o % 64
    nibblePair (lowFour (q i)) (lowFour (q (i + 64)))
  else if o < 192 then
    let i := (o - 128) / 32 * 128 + (o - 128) % 32
    highFour (highTwo (q i)) (highTwo (q (i + 32))) (highTwo (q (i + 64))) (highTwo (q (i + 96)))
  else if o < 208 then k.sc (Fin.ofNat 16 (o - 192))
  else halfByte k.d (o - 208)

/-! ## Bits -/

theorem half_eq (p : Bytes) (off : Nat) (h : BitVec 16) (h0 : p off = halfByte h 0)
    (h1 : p (off + 1) = halfByte h 1) : half p off = h := by
  unfold half
  rw [h0, h1]
  unfold halfByte
  ext i hi
  simp only [BitVec.getElem_append, BitVec.getElem_extractLsb']
  split_ifs <;> (rw [BitVec.getLsbD_eq_getElem] <;> congr 1 <;> omega)

theorem half_congr {p p' : Bytes} {off : Nat} (h0 : p off = p' off) (h1 : p (off + 1) = p' (off + 1)) :
    half p off = half p' off := by
  unfold half
  rw [h0, h1]

theorem setWidth_inj {m n : Nat} (hmn : m ≤ n) {a b : BitVec m} (h : a.setWidth n = b.setWidth n) : a = b := by
  have hnat := congrArg BitVec.toNat h
  rw [BitVec.toNat_setWidth_of_le hmn, BitVec.toNat_setWidth_of_le hmn] at hnat
  exact BitVec.eq_of_toNat_eq hnat

theorem withHigh_low (a : BitVec 6) (c : BitVec 2) : withHigh a c &&& 63 = a.setWidth 8 := by
  revert a c
  decide +kernel

theorem withHigh_high (a : BitVec 6) (c : BitVec 2) : withHigh a c >>> 6 = c.setWidth 8 := by
  revert a c
  decide +kernel

theorem nibblePair_low (a b : BitVec 4) : nibblePair a b &&& 0x0F = a.setWidth 8 := by
  revert a b
  decide +kernel

theorem nibblePair_high (a b : BitVec 4) : nibblePair a b >>> 4 = b.setWidth 8 := by
  revert a b
  decide +kernel

theorem highFour_at (a b c d : BitVec 2) : (highFour a b c d >>> 0) &&& 3 = a.setWidth 8 ∧
    (highFour a b c d >>> 2) &&& 3 = b.setWidth 8 ∧ (highFour a b c d >>> 4) &&& 3 = c.setWidth 8 ∧
    (highFour a b c d >>> 6) &&& 3 = d.setWidth 8 := by
  revert a b c d
  decide +kernel

/-- A split field is its low four bits and its high two. -/
theorem split_join (a : BitVec 6) :
    (lowFour a).setWidth 8 ||| (highTwo a).setWidth 8 <<< 4 = a.setWidth 8 := by
  revert a
  decide +kernel

/-- The mask, as the readers spell it. -/
theorem mask_eq : ((15 : ℕ) : BitVec 8) = 0x0F := rfl

theorem codeLow_split {a : BitVec 6} (b : BitVec 4) {hi : BitVec 8} {s : Nat}
    (h : (hi >>> s) &&& 3 = (highTwo a).setWidth 8) : codeLow (nibblePair (lowFour a) b) hi s = a.toNat - 32 := by
  unfold codeLow
  rw [h, mask_eq, nibblePair_low, split_join, BitVec.toNat_setWidth_of_le (by decide)]

theorem codeHigh_split {a : BitVec 6} (b : BitVec 4) {hi : BitVec 8} {s : Nat}
    (h : (hi >>> s) &&& 3 = (highTwo a).setWidth 8) : codeHigh (nibblePair b (lowFour a)) hi s = a.toNat - 32 := by
  unfold codeHigh
  rw [h, nibblePair_high, split_join, BitVec.toNat_setWidth_of_le (by decide)]

/-! ## Reading a packed Q4_K block -/

section Q4

variable (k : Q4Block)

theorem packQ4_d : half (packQ4 k) 0 = k.d := half_eq _ _ _ rfl rfl

theorem packQ4_dmin : half (packQ4 k) 2 = k.dmin := half_eq _ _ _ rfl rfl

theorem packQ4_sc {j : Nat} (hj : j < 4) :
    packQ4 k (4 + j) = withHigh (k.sc (Fin.ofNat 8 j)) (highTwo (k.sc (Fin.ofNat 8 (j + 4)))) := by
  unfold packQ4
  rw [if_neg (by omega), if_neg (by omega), if_pos (by omega), Nat.add_sub_cancel_left]

theorem packQ4_m {j : Nat} (hj : j < 4) :
    packQ4 k (8 + j) = withHigh (k.m (Fin.ofNat 8 j)) (highTwo (k.m (Fin.ofNat 8 (j + 4)))) := by
  unfold packQ4
  rw [if_neg (by omega), if_neg (by omega), if_neg (by omega), if_pos (by omega), Nat.add_sub_cancel_left]

theorem packQ4_low {j : Nat} (hj : j < 4) :
    packQ4 k (12 + j) = nibblePair (lowFour (k.sc (Fin.ofNat 8 (j + 4)))) (lowFour (k.m (Fin.ofNat 8 (j + 4)))) := by
  unfold packQ4
  rw [if_neg (by omega), if_neg (by omega), if_neg (by omega), if_neg (by omega), if_pos (by omega),
    Nat.add_sub_cancel_left]

theorem packQ4_q (o : Nat) :
    packQ4 k (16 + o) = nibblePair (k.q (Fin.ofNat 256 (o / 32 * 64 + o % 32)))
      (k.q (Fin.ofNat 256 (o / 32 * 64 + o % 32 + 32))) := by
  unfold packQ4
  rw [if_neg (by omega), if_neg (by omega), if_neg (by omega), if_neg (by omega), if_neg (by omega),
    Nat.add_sub_cancel_left]

/-- **`get_scale_min` takes the fields back out**, plain and split ones. -/
theorem getScaleMin_packQ4 {s : Nat} (hs : s < 8) :
    getScaleMin s (bytesAt (packQ4 k) 4) =
      ((k.sc (Fin.ofNat 8 s)).setWidth 8, (k.m (Fin.ofNat 8 s)).setWidth 8) := by
  unfold getScaleMin bytesAt
  split_ifs with hplain
  · rw [packQ4_sc k hplain, show 4 + (s + 4) = 8 + s by omega, packQ4_m k hplain, withHigh_low, withHigh_low]
  · obtain ⟨j, rfl⟩ : ∃ j, s = j + 4 := ⟨s - 4, by omega⟩
    have hj : j < 4 := by omega
    rw [mask_eq, show 4 + (j + 4 + 4) = 12 + j by omega, show 4 + (j + 4 - 4) = 4 + j by omega,
      show 4 + (j + 4) = 8 + j by omega, packQ4_low k hj, packQ4_sc k hj, packQ4_m k hj, nibblePair_low,
      nibblePair_high, withHigh_high, withHigh_high, split_join, split_join]

/-- The code of element `l` of sub-block `s`, as the readers take it from the block. -/
def q4Code (p : Bytes) (s l : Nat) : BitVec 8 :=
  if s % 2 = 0 then p (16 + (s / 2 * 32 + l)) &&& 0x0F else p (16 + (s / 2 * 32 + l)) >>> 4

theorem q4BlockElem_code {R : Type} [Arith R] (val : BitVec 32 → R) (ofInt : Int → R) (p : Bytes) (s l : Nat) :
    q4BlockElem val ofInt p s l =
      val (engF16ToF32 (half p 0)) * ofInt (getScaleMin s (bytesAt p 4)).1.toNat * ofInt (q4Code p s l).toNat -
        val (engF16ToF32 (half p 2)) * ofInt (getScaleMin s (bytesAt p 4)).2.toNat := rfl

/-! A sub-block is read from the 144 bytes of its block. -/

section

variable {p p' : Bytes} (h : ∀ o < 144, p o = p' o)
include h

theorem getScaleMin_congr {s : Nat} (hs : s < 8) :
    getScaleMin s (bytesAt p 4) = getScaleMin s (bytesAt p' 4) := by
  unfold getScaleMin bytesAt
  rw [h _ (by omega), h _ (by omega), h _ (by omega)]

theorem q4Code_congr {s l : Nat} (hs : s < 8) (hl : l < 32) : q4Code p s l = q4Code p' s l := by
  unfold q4Code
  rw [h _ (by omega)]

theorem q4BlockElem_congr {R : Type} [Arith R] (val : BitVec 32 → R) (ofInt : Int → R) {s l : Nat} (hs : s < 8)
    (hl : l < 32) : q4BlockElem val ofInt p s l = q4BlockElem val ofInt p' s l := by
  rw [q4BlockElem_code, q4BlockElem_code, getScaleMin_congr h hs, q4Code_congr h hs hl,
    half_congr (h 0 (by decide)) (h 1 (by decide)), half_congr (h 2 (by decide)) (h 3 (by decide))]

end

theorem q4Code_packQ4 {s l : Nat} (hl : l < 32) :
    q4Code (packQ4 k) s l = (k.q (Fin.ofNat 256 (s * 32 + l))).setWidth 8 := by
  unfold q4Code
  rw [packQ4_q, show (s / 2 * 32 + l) / 32 = s / 2 by omega, show (s / 2 * 32 + l) % 32 = l by omega]
  split_ifs with heven
  · rw [nibblePair_low, show s / 2 * 64 + l = s * 32 + l by omega]
  · rw [nibblePair_high, show s / 2 * 64 + l + 32 = s * 32 + l by omega]

variable {R : Type} [Arith R] (val : BitVec 32 → R) (ofInt : Int → R)

/-- The value that the layout stands for, at element `i`. -/
def q4Value (i : Nat) : R :=
  val (engF16ToF32 k.d) * ofInt (k.sc (Fin.ofNat 8 (i / 32))).toNat * ofInt (k.q (Fin.ofNat 256 i)).toNat -
    val (engF16ToF32 k.dmin) * ofInt (k.m (Fin.ofNat 8 (i / 32))).toNat

theorem q4BlockElem_packQ4 {s l : Nat} (hs : s < 8) (hl : l < 32) :
    q4BlockElem val ofInt (packQ4 k) s l = q4Value k val ofInt (s * 32 + l) := by
  have hcode : (q4Code (packQ4 k) s l).toNat = (k.q (Fin.ofNat 256 (s * 32 + l))).toNat := by
    rw [q4Code_packQ4 k hl, BitVec.toNat_setWidth_of_le (by decide)]
  rw [q4BlockElem_code, getScaleMin_packQ4 k hs, packQ4_d, packQ4_dmin, hcode,
    BitVec.toNat_setWidth_of_le (by decide), BitVec.toNat_setWidth_of_le (by decide), q4Value,
    show (s * 32 + l) / 32 = s by omega]

/-- No two assignments share their bytes. -/
theorem packQ4_injective {k k' : Q4Block} (h : ∀ o < 144, packQ4 k o = packQ4 k' o) : k = k' := by
  have hscales : ∀ s < 8, k.sc (Fin.ofNat 8 s) = k'.sc (Fin.ofNat 8 s) ∧ k.m (Fin.ofNat 8 s) = k'.m (Fin.ofNat 8 s) := by
    intro s hs
    have hpair := getScaleMin_congr h hs
    rw [getScaleMin_packQ4 k hs, getScaleMin_packQ4 k' hs, Prod.mk.injEq] at hpair
    exact ⟨setWidth_inj (by decide) hpair.1, setWidth_inj (by decide) hpair.2⟩
  have hcodes : ∀ i < 256, k.q (Fin.ofNat 256 i) = k'.q (Fin.ofNat 256 i) := by
    intro i hi
    have hcode := q4Code_congr h (show i / 32 < 8 by omega) (Nat.mod_lt i (show 0 < 32 by decide))
    rw [q4Code_packQ4 k (by omega), q4Code_packQ4 k' (by omega), show i / 32 * 32 + i % 32 = i by omega] at hcode
    exact setWidth_inj (by decide) hcode
  have hd : k.d = k'.d := by
    rw [← packQ4_d, ← packQ4_d k', half_congr (h 0 (by decide)) (h 1 (by decide))]
  have hdmin : k.dmin = k'.dmin := by
    rw [← packQ4_dmin, ← packQ4_dmin k', half_congr (h 2 (by decide)) (h 3 (by decide))]
  refine Q4Block.ext hd hdmin (funext fun s => ?_) (funext fun s => ?_) (funext fun i => ?_)
  · simpa only [Fin.ofNat_val_eq_self] using (hscales s s.isLt).1
  · simpa only [Fin.ofNat_val_eq_self] using (hscales s s.isLt).2
  · simpa only [Fin.ofNat_val_eq_self] using hcodes i i.isLt

end Q4

/-! ## Reading a packed Q6_K block -/

section Q6

variable (k : Q6Block)

theorem packQ6_d : half (packQ6 k) 208 = k.d := half_eq _ _ _ rfl rfl

theorem packQ6_sc {j : Nat} (hj : j < 16) : packQ6 k (192 + j) = k.sc (Fin.ofNat 16 j) := by
  unfold packQ6
  rw [if_neg (by omega), if_neg (by omega), if_pos (by omega), Nat.add_sub_cancel_left]

theorem packQ6_ql {h l : Nat} (hh : h < 2) (hl : l < 64) :
    packQ6 k (64 * h + l) = nibblePair (lowFour (k.q (Fin.ofNat 256 (128 * h + l))))
      (lowFour (k.q (Fin.ofNat 256 (128 * h + l + 64)))) := by
  unfold packQ6
  rw [if_pos (by omega), show (64 * h + l) / 64 * 128 + (64 * h + l) % 64 = 128 * h + l by omega]

theorem packQ6_qh {h l : Nat} (hh : h < 2) (hl : l < 32) :
    packQ6 k (128 + 32 * h + l) = highFour (highTwo (k.q (Fin.ofNat 256 (128 * h + l))))
      (highTwo (k.q (Fin.ofNat 256 (128 * h + l + 32)))) (highTwo (k.q (Fin.ofNat 256 (128 * h + l + 64))))
      (highTwo (k.q (Fin.ofNat 256 (128 * h + l + 96)))) := by
  unfold packQ6
  rw [if_neg (by omega), if_pos (by omega),
    show (128 + 32 * h + l - 128) / 32 * 128 + (128 + 32 * h + l - 128) % 32 = 128 * h + l by omega]

/-- A code is put together from its nibble and its two high bits, and biased. -/
theorem q6Code_packQ6 {h r l : Nat} (hh : h < 2) (hr : r < 4) (hl : l < 32) :
    q6Code (bytesAt (packQ6 k) (64 * h)) (bytesAt (packQ6 k) (128 + 32 * h)) r l =
      (k.q (Fin.ofNat 256 (128 * h + 32 * r + l))).toNat - 32 := by
  obtain ⟨hbits1, hbits2, hbits3, hbits4⟩ := highFour_at (highTwo (k.q (Fin.ofNat 256 (128 * h + l))))
    (highTwo (k.q (Fin.ofNat 256 (128 * h + l + 32)))) (highTwo (k.q (Fin.ofNat 256 (128 * h + l + 64))))
    (highTwo (k.q (Fin.ofNat 256 (128 * h + l + 96))))
  unfold q6Code bytesAt
  rw [packQ6_qh k hh hl, packQ6_ql k hh (show l + 0 < 64 by omega), packQ6_ql k hh (show l + 32 < 64 by omega)]
  split_ifs with h0 h1 h2
  · rw [show 128 * h + 32 * r + l = 128 * h + l by omega]
    exact codeLow_split _ hbits1
  · rw [show 128 * h + 32 * r + l = 128 * h + l + 32 by omega]
    exact codeLow_split _ hbits2
  · rw [show 128 * h + 32 * r + l = 128 * h + l + 64 by omega]
    exact codeHigh_split _ hbits3
  · rw [show 128 * h + 32 * r + l = 128 * h + l + 96 by omega]
    exact codeHigh_split _ hbits4

/-- The scale of element `i`: eight to a half, two to a quarter, one to sixteen elements. -/
def q6Scale (i : Nat) : Nat := 8 * (i / 128) + (i % 32 / 16 + 2 * (i % 128 / 32))

variable {R : Type} [Arith R] (val : BitVec 32 → R) (ofInt : Int → R)

/-- The value that the layout stands for, at element `i`. -/
def q6Value (i : Nat) : R :=
  val (engF16ToF32 k.d) * ofInt (k.sc (Fin.ofNat 16 (q6Scale i))).toInt *
    ofInt ((k.q (Fin.ofNat 256 i)).toNat - 32)

theorem q6BlockElem_packQ6 {h r l : Nat} (hh : h < 2) (hr : r < 4) (hl : l < 32) :
    q6BlockElem val ofInt (packQ6 k) h r l = q6Value k val ofInt (128 * h + 32 * r + l) := by
  unfold q6BlockElem q6Value
  rw [packQ6_d, q6Code_packQ6 k hh hr hl, Nat.add_assoc 192, packQ6_sc k (by omega),
    show 8 * h + (l / 16 + 2 * r) = q6Scale (128 * h + 32 * r + l) by unfold q6Scale; omega]

end Q6

/-! A cell is read from the 210 bytes of its block. -/

section

variable {p p' : Bytes} (hbytes : ∀ o < 210, p o = p' o)
include hbytes

theorem q6Code_congr {h r l : Nat} (hh : h < 2) (hl : l < 32) :
    q6Code (bytesAt p (64 * h)) (bytesAt p (128 + 32 * h)) r l =
      q6Code (bytesAt p' (64 * h)) (bytesAt p' (128 + 32 * h)) r l := by
  unfold q6Code bytesAt
  rw [hbytes (64 * h + (l + 0)) (by omega), hbytes (64 * h + (l + 32)) (by omega),
    hbytes (128 + 32 * h + l) (by omega)]

theorem q6BlockElem_congr {R : Type} [Arith R] (val : BitVec 32 → R) (ofInt : Int → R) {h r l : Nat} (hh : h < 2)
    (hr : r < 4) (hl : l < 32) : q6BlockElem val ofInt p h r l = q6BlockElem val ofInt p' h r l := by
  unfold q6BlockElem
  rw [half_congr (hbytes 208 (by decide)) (hbytes 209 (by decide)), hbytes _ (by omega), q6Code_congr hbytes hh hl]

end

/-- No two assignments share their bytes. -/
theorem packQ6_injective {k k' : Q6Block} (h : ∀ o < 210, packQ6 k o = packQ6 k' o) : k = k' := by
  have hcodes : ∀ i < 256, k.q (Fin.ofNat 256 i) = k'.q (Fin.ofNat 256 i) := by
    intro i hi
    have hhalf : i / 128 < 2 := by omega
    have hquarter : i % 128 / 32 < 4 := by omega
    have hplace : i % 32 < 32 := Nat.mod_lt i (by decide)
    have hcode := q6Code_congr h (r := i % 128 / 32) hhalf hplace
    rw [q6Code_packQ6 k hhalf hquarter hplace, q6Code_packQ6 k' hhalf hquarter hplace,
      show 128 * (i / 128) + 32 * (i % 128 / 32) + i % 32 = i by omega] at hcode
    exact BitVec.eq_of_toNat_eq (by omega)
  have hscales : ∀ j < 16, k.sc (Fin.ofNat 16 j) = k'.sc (Fin.ofNat 16 j) := by
    intro j hj
    rw [← packQ6_sc k hj, ← packQ6_sc k' hj, h _ (by omega)]
  have hd : k.d = k'.d := by
    rw [← packQ6_d, ← packQ6_d k', half_congr (h 208 (by decide)) (h 209 (by decide))]
  refine Q6Block.ext hd (funext fun s => ?_) (funext fun i => ?_)
  · simpa only [Fin.ofNat_val_eq_self] using hscales s s.isLt
  · simpa only [Fin.ofNat_val_eq_self] using hcodes i i.isLt

/-! ## Rows of blocks -/

/-- Packed blocks, one after the other. -/
def packRow {K : Type} (size : Nat) (pack : K → Bytes) (ks : Nat → K) : Bytes := fun o =>
  pack (ks (o / size)) (o % size)

theorem packRow_block {K : Type} {size : Nat} (pack : K → Bytes) (ks : Nat → K) (b : Nat) {o : Nat}
    (ho : o < size) : bytesAt (packRow size pack ks) (b * size) o = pack (ks b) o := by
  have hpos : 0 < size := by omega
  unfold bytesAt packRow
  rw [Nat.add_comm, Nat.add_mul_div_right o b hpos, Nat.add_mul_mod_self_right, Nat.div_eq_of_lt ho,
    Nat.mod_eq_of_lt ho, Nat.zero_add]

section Rows

variable {R : Type} [Arith R] (val : BitVec 32 → R) (ofInt : Int → R)

theorem q4Elem_packRow (ks : Nat → Q4Block) (b : Nat) {i : Nat} (hi : i < 256) :
    q4Elem val ofInt (packRow 144 packQ4 ks) (256 * b + i) = q4Value (ks b) val ofInt i := by
  have hsub : i / 32 < 8 := by omega
  have hplace : i % 32 < 32 := Nat.mod_lt i (by decide)
  rw [show 256 * b + i = b * 256 + i / 32 * 32 + i % 32 by omega, q4Elem_at val ofInt _ hsub hplace,
    q4BlockElem_congr (fun o ho => packRow_block packQ4 ks b ho) val ofInt hsub hplace,
    q4BlockElem_packQ4 _ val ofInt hsub hplace, show i / 32 * 32 + i % 32 = i by omega]

theorem q6Elem_packRow (ks : Nat → Q6Block) (b : Nat) {i : Nat} (hi : i < 256) :
    q6Elem val ofInt (packRow 210 packQ6 ks) (256 * b + i) = q6Value (ks b) val ofInt i := by
  have hhalf : i / 128 < 2 := by omega
  have hquarter : i % 128 / 32 < 4 := by omega
  have hplace : i % 32 < 32 := Nat.mod_lt i (by decide)
  rw [show 256 * b + i = b * 256 + 128 * (i / 128) + (i % 32 + 32 * (i % 128 / 32)) by omega,
    q6Elem_at val ofInt _ hhalf hquarter hplace,
    q6BlockElem_congr (fun o ho => packRow_block packQ6 ks b ho) val ofInt hhalf hquarter hplace,
    q6BlockElem_packQ6 _ val ofInt hhalf hquarter hplace,
    show 128 * (i / 128) + 32 * (i % 128 / 32) + i % 32 = i by omega]

/-- Rows with the same bytes have the same blocks, when no two blocks do. -/
theorem packRow_injective {K : Type} {size : Nat} {pack : K → Bytes}
    (hinj : ∀ {k k' : K}, (∀ o < size, pack k o = pack k' o) → k = k') {ks ks' : Nat → K} {m : Nat}
    (h : ∀ o < size * m, packRow size pack ks o = packRow size pack ks' o) {b : Nat} (hb : b < m) :
    ks b = ks' b := by
  refine hinj fun o ho => ?_
  have hin : b * size + o < size * m := by
    have hmul := Nat.mul_le_mul_left size (Nat.succ_le_of_lt hb)
    rw [Nat.mul_succ, Nat.mul_comm] at hmul
    omega
  rw [← packRow_block pack ks b ho, ← packRow_block pack ks' b ho]
  exact h _ hin

/-- **The k-quant readers decode the documented layout.**  Of any number of packed blocks, each row
function writes at element `i` of block `b` the value the layout stands for, and nothing past the last
block; and rows with the same bytes come from the same blocks. -/
theorem kquants_decode :
    (∀ (ks : Nat → Q4Block) (m : Nat) (out : Vec R),
      (∀ b < m, ∀ i < 256, q4kDequantRow val ofInt out (packRow 144 packQ4 ks) (256 * m) (256 * b + i) =
        q4Value (ks b) val ofInt i) ∧
      (∀ i, 256 * m ≤ i → q4kDequantRow val ofInt out (packRow 144 packQ4 ks) (256 * m) i = out i) ∧
      ∀ ks' : Nat → Q4Block, (∀ o < 144 * m, packRow 144 packQ4 ks o = packRow 144 packQ4 ks' o) →
        ∀ b < m, ks b = ks' b) ∧
    (∀ (ks : Nat → Q6Block) (m : Nat) (out : Vec R),
      (∀ b < m, ∀ i < 256, q6kDequantRow val ofInt out (packRow 210 packQ6 ks) (256 * m) (256 * b + i) =
        q6Value (ks b) val ofInt i) ∧
      (∀ i, 256 * m ≤ i → q6kDequantRow val ofInt out (packRow 210 packQ6 ks) (256 * m) i = out i) ∧
      ∀ ks' : Nat → Q6Block, (∀ o < 210 * m, packRow 210 packQ6 ks o = packRow 210 packQ6 ks' o) →
        ∀ b < m, ks b = ks' b) := by
  refine ⟨fun ks m out => ⟨fun b hb i hi => ?_, fun i hi => ?_, fun ks' h b => packRow_injective packQ4_injective h⟩,
    fun ks m out => ⟨fun b hb i hi => ?_, fun i hi => ?_, fun ks' h b => packRow_injective packQ6_injective h⟩⟩
  · rw [q4kDequantRow_fills val ofInt out _ (256 * m), if_pos (by omega)]
    exact q4Elem_packRow val ofInt ks b hi
  · rw [q4kDequantRow_fills val ofInt out _ (256 * m), if_neg (by omega)]
  · rw [q6kDequantRow_fills val ofInt out _ (256 * m), if_pos (by omega)]
    exact q6Elem_packRow val ofInt ks b hi
  · rw [q6kDequantRow_fills val ofInt out _ (256 * m), if_neg (by omega)]

end Rows

def oneQ4 : Q4Block := ⟨0x3C00, 0x3800, fun _ => 35, fun s => BitVec.ofNat 6 (s + 50), fun i => BitVec.ofNat 4 i⟩

def oneQ6 : Q6Block := ⟨0x3C00, fun s => BitVec.ofNat 8 (s + 250), fun i => BitVec.ofNat 6 i⟩

theorem kquants_decode_two :
    (q4kDequantRow floatVal (↑·) (fun _ => 0) (packRow 144 packQ4 fun _ => oneQ4) (256 * 2) (256 * 1 + 171) = 35 * 11 - 55 / 2 ∧
      q4kDequantRow floatVal (↑·) (fun _ => 7) (packRow 144 packQ4 fun _ => oneQ4) (256 * 2) 600 = 7 ∧
      ∀ ks : Nat → Q4Block, (∀ o < 144 * 2, packRow 144 packQ4 (fun _ => oneQ4) o = packRow 144 packQ4 ks o) →
        ks 1 = oneQ4) ∧
    q6kDequantRow floatVal (↑·) (fun _ => 0) (packRow 210 packQ6 fun _ => oneQ6) (256 * 2) (256 * 1 + 75) = -2 * (11 - 32) ∧
      q6kDequantRow floatVal (↑·) (fun _ => 7) (packRow 210 packQ6 fun _ => oneQ6) (256 * 2) 600 = 7 := by
  obtain ⟨hq4, hq6⟩ := kquants_decode floatVal (fun n => (n : ℚ))
  obtain ⟨hvalue4, -, hinj⟩ := hq4 (fun _ => oneQ4) 2 fun _ => 0
  obtain ⟨hvalue6, -, -⟩ := hq6 (fun _ => oneQ6) 2 fun _ => 0
  refine ⟨⟨?_, ?_, fun ks hks => ?_⟩, ?_, ?_⟩
  · rw [hvalue4 1 (by decide) 171 (by decide)]
    decide +kernel
  · exact (hq4 (fun _ => oneQ4) 2 fun _ => 7).2.1 600 (by decide)
  · exact (hinj ks hks 1 (by decide)).symm
  · rw [hvalue6 1 (by decide) 75 (by decide)]
    decide +kernel
  · exact (hq6 (fun _ => oneQ6) 2 fun _ => 7).2.1 600 (by decide)

end LlmEngine.Quant
