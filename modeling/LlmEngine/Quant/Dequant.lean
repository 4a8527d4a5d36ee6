/-
# LlmEngine.Quant.Dequant — materialising one row (`mxfp4.c`, `q8_0.c`, `q4_k.c`, `q6_k.c`).

The result is over any type of numbers: `val` is the value of a float given as its bits, `ofInt` that of
an integer, and the operators are applied as the source applies them.  Each row function writes the
first elements of its buffer and no other cell, and what it writes at an index is a function of the
row's bytes (`mxfp4Elem`, `q8Elem`, `q4Elem`, `q6Elem`).

* `Fills` (`Lib.ForLoop`) says that a stretch of a buffer was written by a function of the index and nothing else was; each
  row function has a `_fills` lemma.
* The loops go block by block, and within a block in stretches; `fills_loop` is the rule for one level of that.
* Q6_K writes four places of a half in each step (`q6Write_loop`), so its order is not that of the indices.

A row that is no whole number of blocks is written up to the last whole one.
-/
import LlmEngine.Quant.KQuant

namespace LlmEngine.Quant

open LlmEngine.Core LlmEngine.Lib LlmEngine.Kernels

variable {R : Type} [Arith R] (val : BitVec 32 → R) (ofInt : Int → R)

/-- The value of a finite `float`. -/
def floatVal (b : BitVec 32) : ℚ :=
  let e : ℕ := b.toNat / 2 ^ 23 % 256
  let f : ℕ := b.toNat % 2 ^ 23
  let size : ℚ := if e = 0 then (f : ℚ) / (2 ^ 149 : ℕ) else (((2 ^ 23 + f) * 2 ^ e : ℕ) : ℚ) / (2 ^ 150 : ℕ)
  if b.msb then -size else size

example : floatVal 0 = 0 ∧ floatVal 0x3F800000 = 1 ∧ floatVal 0xC0500000 = -13 / 4 := by decide +kernel

/-! ## The code -/

/-- `eng_mxfp4_dequant_row_g`. -/
def engMxfp4DequantRowG (out : Vec R) (w scales : Bytes) (n group : Nat) : Vec R :=
  loop ((n + group - 1) / group) out fun out g =>
    let mult := val (e8m0 (scales g))
    let lo := g * group
    let hi := min (lo + group) n
    (forStep 1 hi lo out fun out i =>
      let byte := w (i / 2)
      let nib := if i % 2 = 1 then byte >>> 4 else byte &&& 0x0F
      Function.update out i (val (e2m1.getD nib.toNat 0) * mult)).1

/-- `q8_0_dequant_row`; its `f16_to_f32` is `eng_f16_to_f32` over again. -/
def q80DequantRow (out : Vec R) (w : Bytes) (n : Nat) : Vec R :=
  (forStep 32 n 0 out fun out off =>
    let blk := bytesAt w (off / 32 * 34)
    let d := val (engF16ToF32 (half blk 0))
    let m := min (n - off) 32
    (forStep 1 m 0 out fun out i =>
      Function.update out (off + i) (d * ofInt (blk (2 + i)).toInt)).1).1

/-- One iteration of the loop over `j` in `q4_k_dequant_row`: a stretch of 64 elements, two sub-blocks. -/
def q4kStretch (d dmin : R) (sc12 qs : Bytes) (y : Nat) (out : Vec R) (j is : Nat) : Vec R :=
  let g1 := getScaleMin (is + 0) sc12
  let d1 := d * ofInt g1.1.toNat
  let m1 := dmin * ofInt g1.2.toNat
  let g2 := getScaleMin (is + 1) sc12
  let d2 := d * ofInt g2.1.toNat
  let m2 := dmin * ofInt g2.2.toNat
  let q := bytesAt qs (j / 64 * 32)
  let out := (forStep 1 32 0 out fun out l =>
    Function.update out (y + j + l) (d1 * ofInt (q l &&& 0x0F).toNat - m1)).1
  (forStep 1 32 0 out fun out l =>
    Function.update out (y + j + 32 + l) (d2 * ofInt (q l >>> 4).toNat - m2)).1

/-- `q4_k_dequant_row`. -/
def q4kDequantRow (out : Vec R) (w : Bytes) (n : Nat) : Vec R :=
  loop (n / 256) out fun out b =>
    let p := bytesAt w (b * 144)
    let d := val (engF16ToF32 (half p 0))
    let dmin := val (engF16ToF32 (half p 2))
    (forStep 64 256 0 (out, 0) fun (s : Vec R × Nat) j =>
      (q4kStretch ofInt d dmin (bytesAt p 4) (bytesAt p 16) (b * 256) s.1 j s.2, s.2 + 2)).1.1

/-- `q6_k_dequant_row`. -/
def q6kDequantRow (out : Vec R) (w : Bytes) (n : Nat) : Vec R :=
  loop (n / 256) out fun out b =>
    let p := bytesAt w (b * 210)
    let d := val (engF16ToF32 (half p 208))
    loop 2 out fun out h =>
      let ql := bytesAt p (64 * h)
      let qh := bytesAt p (128 + 32 * h)
      let sc := bytesAt p (192 + 8 * h)
      let y := b * 256 + 128 * h
      loop 32 out fun out l =>
        let is := l / 16
        let q1 := codeLow (ql (l + 0)) (qh l) 0
        let q2 := codeLow (ql (l + 32)) (qh l) 2
        let q3 := codeHigh (ql (l + 0)) (qh l) 4
        let q4 := codeHigh (ql (l + 32)) (qh l) 6
        let out := Function.update out (y + (l + 0)) (d * ofInt (sc (is + 0)).toInt * ofInt q1)
        let out := Function.update out (y + (l + 32)) (d * ofInt (sc (is + 2)).toInt * ofInt q2)
        let out := Function.update out (y + (l + 64)) (d * ofInt (sc (is + 4)).toInt * ofInt q3)
        Function.update out (y + (l + 96)) (d * ofInt (sc (is + 6)).toInt * ofInt q4)

/-! ## One element -/

/-- The four bits of element `i` of a packed row; the low ones are the even element. -/
def nibbleAt (w : Bytes) (i : Nat) : BitVec 8 := if i % 2 = 1 then w (i / 2) >>> 4 else w (i / 2) &&& 0x0F

/-- Element `i` of an MXFP4 row. -/
def mxfp4Elem (w scales : Bytes) (group i : Nat) : R :=
  val (e2m1.getD (nibbleAt w i).toNat 0) * val (e8m0 (scales (i / group)))

/-- Element `i` of a Q8_0 row. -/
def q8Elem (w : Bytes) (i : Nat) : R :=
  let blk := bytesAt w (i / 32 * 34)
  val (engF16ToF32 (half blk 0)) * ofInt (blk (2 + i % 32)).toInt

/-- Element `l` of sub-block `s` of a Q4_K block. -/
def q4BlockElem (p : Bytes) (s l : Nat) : R :=
  let g := getScaleMin s (bytesAt p 4)
  let byte := p (16 + (s / 2 * 32 + l))
  let q := if s % 2 = 0 then byte &&& 0x0F else byte >>> 4
  val (engF16ToF32 (half p 0)) * ofInt g.1.toNat * ofInt q.toNat -
    val (engF16ToF32 (half p 2)) * ofInt g.2.toNat

/-- Element `i` of a Q4_K row. -/
def q4Elem (w : Bytes) (i : Nat) : R :=
  q4BlockElem val ofInt (bytesAt w (i / 256 * 144)) (i % 256 / 32) (i % 32)

/-- The code at place `l` of quarter `r` of a half. -/
def q6Code (ql qh : Bytes) (r l : Nat) : Int :=
  if r = 0 then codeLow (ql (l + 0)) (qh l) 0
  else if r = 1 then codeLow (ql (l + 32)) (qh l) 2
  else if r = 2 then codeHigh (ql (l + 0)) (qh l) 4
  else codeHigh (ql (l + 32)) (qh l) 6

/-- Element `l` of quarter `r` of half `h` of a Q6_K block. -/
def q6BlockElem (p : Bytes) (h r l : Nat) : R :=
  val (engF16ToF32 (half p 208)) * ofInt (p (192 + 8 * h + (l / 16 + 2 * r))).toInt *
    ofInt (q6Code (bytesAt p (64 * h)) (bytesAt p (128 + 32 * h)) r l)

/-- Element `i` of a Q6_K row. -/
def q6Elem (w : Bytes) (i : Nat) : R :=
  q6BlockElem val ofInt (bytesAt w (i / 256 * 210)) (i % 256 / 128) (i % 128 / 32) (i % 32)

/-! ## What is written -/

omit [Arith R] in
/-- Pieces that are filled one after the other. -/
theorem fills_loop {f : Nat → R} {body : Vec R → Nat → Vec R} (bnd : Nat → Nat) (m : Nat) (out : Vec R)
    (hmono : ∀ b < m, bnd b ≤ bnd (b + 1))
    (hbody : ∀ b < m, ∀ out, Fills (bnd b) (bnd (b + 1)) f out (body out b)) :
    Fills (bnd 0) (bnd m) f out (loop m out body) := by
  have hle : ∀ k ≤ m, bnd 0 ≤ bnd k := by
    intro k
    induction k with
    | zero => intro _; exact Nat.le_refl _
    | succ k ih => intro hk; exact Nat.le_trans (ih (by omega)) (hmono k (by omega))
  induction m with
  | zero => exact Fills.none (Nat.le_refl _)
  | succ m ih =>
      rw [loop_succ]
      exact (ih (fun b hb => hmono b (by omega)) (fun b hb => hbody b (by omega))
        fun k hk => hle k (by omega)).trans (hbody m (by omega) _) (hle m (by omega)) (hmono m (by omega))

/-- A counter that goes along with a loop. -/
theorem loop_counter {α : Type} (g : α → Nat → Nat → α) (k m : Nat) (a : α) :
    loop m (a, 0) (fun (s : α × Nat) i => (g s.1 i s.2, s.2 + k)) =
      (loop m a fun a i => g a i (k * i), k * m) := by
  induction m with
  | zero => rfl
  | succ m ih => rw [loop_succ, ih, loop_succ, Nat.mul_succ]

/-- The groups of a row, the last one perhaps shorter. -/
theorem group_bounds {n group : Nat} (hg : 0 < group) :
    min ((n + group - 1) / group * group) n = n := by
  have hdiv := Nat.div_add_mod (n + group - 1) group
  have hmod := Nat.mod_lt (n + group - 1) hg
  rw [Nat.mul_comm] at hdiv
  omega

theorem engMxfp4DequantRowG_fills (out : Vec R) (w scales : Bytes) (n : Nat) {group : Nat} (hg : 0 < group) :
    Fills 0 n (mxfp4Elem val w scales group) out (engMxfp4DequantRowG val out w scales n group) := by
  have hcount := group_bounds (n := n) hg
  have hfills : Fills (min (0 * group) n) (min ((n + group - 1) / group * group) n)
      (mxfp4Elem val w scales group) out (engMxfp4DequantRowG val out w scales n group) := by
    refine fills_loop (fun g => min (g * group) n) _ out (fun g _ => ?_) (fun g hlt out => ?_)
    · simp only [Nat.succ_mul]
      omega
    · have hstart : g * group < n := by
        have hmul := Nat.mul_le_mul_right group (Nat.succ_le_of_lt hlt)
        have hle := Nat.div_mul_le_self (n + group - 1) group
        rw [Nat.succ_mul] at hmul
        omega
      have hrow := fills_forStep 0 (show g * group ≤ min (g * group + group) n by omega)
        (fun i => val (e2m1.getD (nibbleAt w i).toNat 0) * val (e8m0 (scales g))) out
      simp only [Nat.zero_add] at hrow
      rw [Nat.min_eq_left hstart.le, Nat.succ_mul]
      refine hrow.congr fun i hlo hhi => ?_
      have hgroup : i / group = g := Nat.div_eq_of_lt_le hlo (by
        rw [Nat.succ_mul]
        omega)
      rw [mxfp4Elem, hgroup]
  rw [Nat.zero_mul, Nat.zero_min, hcount] at hfills
  exact hfills

theorem q80DequantRow_fills (out : Vec R) (w : Bytes) (n : Nat) :
    Fills 0 n (q8Elem val ofInt w) out (q80DequantRow val ofInt out w n) := by
  have hcount := group_bounds (n := n) (show 0 < 32 by decide)
  unfold q80DequantRow
  rw [forStep_eq_loop 32 _ ((n + 32 - 1) / 32) 0 out (fun j hj => by omega) (by omega)]
  have hfills : Fills (min (0 * 32) n) (min ((n + 32 - 1) / 32 * 32) n) (q8Elem val ofInt w) out
      (loop ((n + 32 - 1) / 32) out fun out j =>
        (forStep 1 (min (n - (0 + 32 * j)) 32) 0 out fun out i => Function.update out (0 + 32 * j + i)
          (val (engF16ToF32 (half (bytesAt w ((0 + 32 * j) / 32 * 34)) 0)) *
            ofInt (bytesAt w ((0 + 32 * j) / 32 * 34) (2 + i)).toInt)).1) := by
    refine fills_loop (fun j => min (j * 32) n) _ out (fun j _ => by omega) (fun j hj out => ?_)
    have hrow := fills_run (0 + 32 * j) (min (n - (0 + 32 * j)) 32)
      (fun i => val (engF16ToF32 (half (bytesAt w ((0 + 32 * j) / 32 * 34)) 0)) *
        ofInt (bytesAt w ((0 + 32 * j) / 32 * 34) (2 + i)).toInt) out
    rw [show 0 + 32 * j + min (n - (0 + 32 * j)) 32 = min ((j + 1) * 32) n by omega] at hrow
    rw [show min (j * 32) n = 0 + 32 * j by omega]
    refine hrow.congr fun i hlo hhi => ?_
    have hgroup : i / 32 = (0 + 32 * j) / 32 := by omega
    have hplace : i % 32 = i - (0 + 32 * j) := by omega
    rw [q8Elem, hgroup, hplace]
  rw [Nat.zero_mul, Nat.zero_min, hcount] at hfills
  exact hfills

theorem q4Elem_at (w : Bytes) {b s l : Nat} (hs : s < 8) (hl : l < 32) :
    q4Elem val ofInt w (b * 256 + s * 32 + l) = q4BlockElem val ofInt (bytesAt w (b * 144)) s l := by
  unfold q4Elem
  rw [show (b * 256 + s * 32 + l) / 256 = b by omega, show (b * 256 + s * 32 + l) % 256 / 32 = s by omega,
    show (b * 256 + s * 32 + l) % 32 = l by omega]

theorem q4BlockElem_even (p : Bytes) (j l : Nat) : q4BlockElem val ofInt p (2 * j) l =
    val (engF16ToF32 (half p 0)) * ofInt (getScaleMin (2 * j + 0) (bytesAt p 4)).1.toNat *
        ofInt (bytesAt (bytesAt p 16) (64 * j / 64 * 32) l &&& 0x0F).toNat -
      val (engF16ToF32 (half p 2)) * ofInt (getScaleMin (2 * j + 0) (bytesAt p 4)).2.toNat := by
  unfold q4BlockElem
  simp only [bytesAt, Nat.mul_mod_right, if_true, Nat.add_zero,
    Nat.mul_div_cancel_left j (show 0 < 2 by decide), Nat.mul_div_cancel_left j (show 0 < 64 by decide)]

theorem q4BlockElem_odd (p : Bytes) (j l : Nat) : q4BlockElem val ofInt p (2 * j + 1) l =
    val (engF16ToF32 (half p 0)) * ofInt (getScaleMin (2 * j + 1) (bytesAt p 4)).1.toNat *
        ofInt (bytesAt (bytesAt p 16) (64 * j / 64 * 32) l >>> 4).toNat -
      val (engF16ToF32 (half p 2)) * ofInt (getScaleMin (2 * j + 1) (bytesAt p 4)).2.toNat := by
  have hodd : ¬ (2 * j + 1) % 2 = 0 := by omega
  unfold q4BlockElem
  simp only [bytesAt, if_neg hodd, show (2 * j + 1) / 2 = j by omega,
    Nat.mul_div_cancel_left j (show 0 < 64 by decide)]

/-- A run of 32 cells holds a sub-block. -/
theorem fills_subBlock (out : Vec R) (w : Bytes) {b s base : Nat} (hs : s < 8)
    (hbase : base = b * 256 + s * 32) :
    Fills base (base + 32) (q4Elem val ofInt w) out
      (forStep 1 32 0 out fun out l =>
        Function.update out (base + l) (q4BlockElem val ofInt (bytesAt w (b * 144)) s l)).1 := by
  refine (fills_run base 32 _ out).congr fun i hlo hhi => ?_
  rw [← q4Elem_at val ofInt w hs (show i - base < 32 by omega)]
  congr 1
  omega

/-- A stretch is two sub-blocks. -/
theorem q4kStretch_fills (out : Vec R) (w : Bytes) {b j : Nat} (hj : j < 4) :
    Fills (b * 256 + j * 64) (b * 256 + (j + 1) * 64) (q4Elem val ofInt w) out
      (q4kStretch ofInt (val (engF16ToF32 (half (bytesAt w (b * 144)) 0)))
        (val (engF16ToF32 (half (bytesAt w (b * 144)) 2))) (bytesAt (bytesAt w (b * 144)) 4)
        (bytesAt (bytesAt w (b * 144)) 16) (b * 256) out (64 * j) (2 * j)) := by
  unfold q4kStretch
  simp only [← q4BlockElem_even, ← q4BlockElem_odd]
  have hlow := fills_subBlock val ofInt out w (show 2 * j < 8 by omega)
    (show b * 256 + 64 * j = b * 256 + 2 * j * 32 by omega)
  rw [show b * 256 + j * 64 = b * 256 + 64 * j by omega,
    show b * 256 + (j + 1) * 64 = b * 256 + 64 * j + 32 + 32 by omega]
  exact hlow.trans (fills_subBlock val ofInt _ w (show 2 * j + 1 < 8 by omega) (by omega)) (by omega)
    (by omega)

theorem q4kDequantRow_fills (out : Vec R) (w : Bytes) (n : Nat) :
    Fills 0 (n / 256 * 256) (q4Elem val ofInt w) out (q4kDequantRow val ofInt out w n) := by
  have hfills : Fills (0 * 256) (n / 256 * 256) (q4Elem val ofInt w) out (q4kDequantRow val ofInt out w n) := by
    refine fills_loop (fun b => b * 256) _ out (fun b _ => by omega) (fun b _ out => ?_)
    simp only
    rw [forStep_eq_loop 64 _ 4 0 _ (fun j hj => by omega) (by omega)]
    simp only [Nat.zero_add]
    rw [loop_counter (fun out i is => q4kStretch ofInt _ _ _ _ _ out (64 * i) is)]
    have hblock := fills_loop (f := q4Elem val ofInt w) (fun j => b * 256 + j * 64) 4 out (fun j _ => by omega)
      (fun j hj out => q4kStretch_fills val ofInt out w hj)
    rw [Nat.zero_mul, Nat.add_zero, show b * 256 + 4 * 64 = (b + 1) * 256 by omega] at hblock
    exact hblock
  rwa [Nat.zero_mul] at hfills

theorem q6Elem_at (w : Bytes) {b h r l : Nat} (hh : h < 2) (hr : r < 4) (hl : l < 32) :
    q6Elem val ofInt w (b * 256 + 128 * h + (l + 32 * r)) =
      q6BlockElem val ofInt (bytesAt w (b * 210)) h r l := by
  unfold q6Elem
  rw [show (b * 256 + 128 * h + (l + 32 * r)) / 256 = b by omega,
    show (b * 256 + 128 * h + (l + 32 * r)) % 256 / 128 = h by omega,
    show (b * 256 + 128 * h + (l + 32 * r)) % 128 / 32 = r by omega,
    show (b * 256 + 128 * h + (l + 32 * r)) % 32 = l by omega]

/-- What one `l` of a half writes: a cell in each quarter. -/
def q6Write (p : Bytes) (h base : Nat) (out : Vec R) (l : Nat) : Vec R :=
  Function.update (Function.update (Function.update (Function.update out
    (base + (l + 32 * 0)) (q6BlockElem val ofInt p h 0 l))
    (base + (l + 32 * 1)) (q6BlockElem val ofInt p h 1 l))
    (base + (l + 32 * 2)) (q6BlockElem val ofInt p h 2 l))
    (base + (l + 32 * 3)) (q6BlockElem val ofInt p h 3 l)

/-- After `m` of them, the first `m` cells of each quarter are written. -/
theorem q6Write_loop (w : Bytes) {b h : Nat} (hh : h < 2) (m : Nat) (hm : m ≤ 32) (out : Vec R) (i : Nat) :
    loop m out (q6Write val ofInt (bytesAt w (b * 210)) h (b * 256 + 128 * h)) i =
      if b * 256 + 128 * h ≤ i ∧ i < b * 256 + 128 * (h + 1) ∧ i % 32 < m then q6Elem val ofInt w i
      else out i := by
  induction m with
  | zero => rw [loop_zero, if_neg (by omega)]
  | succ m ih =>
      rw [loop_succ]
      unfold q6Write at ih ⊢
      simp only [Function.update_apply, ih (by omega)]
      have hcell : ∀ r < 4, i = b * 256 + 128 * h + (m + 32 * r) →
          q6BlockElem val ofInt (bytesAt w (b * 210)) h r m = q6Elem val ofInt w i := by
        rintro r hr rfl
        exact (q6Elem_at val ofInt w hh hr (by omega)).symm
      by_cases h3 : i = b * 256 + 128 * h + (m + 32 * 3)
      · rw [if_pos h3, hcell 3 (by omega) h3, if_pos (by omega)]
      · rw [if_neg h3]
        by_cases h2 : i = b * 256 + 128 * h + (m + 32 * 2)
        · rw [if_pos h2, hcell 2 (by omega) h2, if_pos (by omega)]
        · rw [if_neg h2]
          by_cases h1 : i = b * 256 + 128 * h + (m + 32 * 1)
          · rw [if_pos h1, hcell 1 (by omega) h1, if_pos (by omega)]
          · rw [if_neg h1]
            by_cases h0 : i = b * 256 + 128 * h + (m + 32 * 0)
            · rw [if_pos h0, hcell 0 (by omega) h0, if_pos (by omega)]
            · rw [if_neg h0]
              split_ifs <;> first | rfl | omega

theorem q6kDequantRow_fills (out : Vec R) (w : Bytes) (n : Nat) :
    Fills 0 (n / 256 * 256) (q6Elem val ofInt w) out (q6kDequantRow val ofInt out w n) := by
  have hfills : Fills (0 * 256) (n / 256 * 256) (q6Elem val ofInt w) out (q6kDequantRow val ofInt out w n) := by
    refine fills_loop (fun b => b * 256) _ out (fun b _ => by omega) (fun b _ out => ?_)
    have hblock : Fills (b * 256 + 128 * 0) (b * 256 + 128 * 2) (q6Elem val ofInt w) out
        (loop 2 out fun out h =>
          loop 32 out (q6Write val ofInt (bytesAt w (b * 210)) h (b * 256 + 128 * h))) := by
      refine fills_loop (fun h => b * 256 + 128 * h) 2 out (fun h _ => by omega) (fun h hh out i => ?_)
      have hhalf := q6Write_loop val ofInt w hh 32 (Nat.le_refl 32) out i (b := b)
      simp only [Nat.mod_lt i (show 0 < 32 by decide), and_true] at hhalf
      exact hhalf
    rw [Nat.mul_zero, Nat.add_zero, show b * 256 + 128 * 2 = (b + 1) * 256 by omega] at hblock
    exact hblock
  rwa [Nat.zero_mul] at hfills

end LlmEngine.Quant
