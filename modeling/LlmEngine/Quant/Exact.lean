/-
# LlmEngine.Quant.Exact — the fused products over exact arithmetic (`quant.c`, `q8_0.c`, `k3_ops.c`).

A fused product keeps the scale of a group out of the group's sum.  Without rounding that is the sum of
the materialised row against the activations: each loop adds the terms of its own elements
(`sum_loop`), and a stretch of them is the stretch of `mxfp4Elem`, `q8Elem`, `q4Elem` or `q6Elem`.

* A registry maps a type to its functions (`EngQuantOps`), and `engMatmulQuant` looks them up; the build decides which
  implementation of a format is registered (`Build`).
* Dot products: `sum_dot8`, `sum_dot4`, and the sixteen accumulators through `sum_lanes`.
* Formats: `mxfp4_exact`, `q80_exact`, `q4k_exact`, `q6k_exact`, each by `sum_blocks` over its blocks with the sum of
  one stretch inside.
* `rowProduct` is the plain product a format's row is compared with.

Activations and scales are the values their bits stand for (`floatVal`).
-/
import LlmEngine.Quant.Dequant
import LlmEngine.Tensor.Dtype
import Mathlib.Algebra.BigOperators.Intervals
import Mathlib.Algebra.BigOperators.Ring.Finset
import Mathlib.Algebra.Order.Field.Rat
import Mathlib.Tactic.Ring

namespace LlmEngine.Quant

open LlmEngine.Core LlmEngine.Lib LlmEngine.Kernels LlmEngine.Tensor

/-! ## The code -/

/-- What the dispatchers ask. -/
structure Build where
  /-- `MXFP4_X86` -/
  mxfp4X86 : Bool
  /-- `eng_kquant_avx2_compiled()` -/
  kquantAvx2 : Bool
  /-- `eng_cpu_has_avx2()` -/
  cpuHasAvx2 : Bool
  /-- `ENG_KQ_SCALAR` is set. -/
  kqScalar : Bool

/-- `EngQuantOps`, as far as products and rows go; `R` is `float` in arithmetic. -/
structure EngQuantOps (D R : Type) where
  dtype : EngDType
  name : String
  dotRow : Bytes → Option Bytes → Vec (BitVec 32) → Nat → D
  dequantRow : Vec R → Bytes → Option Bytes → Nat → Vec R
  rowBytes : Int → Int
  scaleBytes : Int → Int

/-- Why `eng_matmul_quant` returns -1. -/
inductive QuantFail
  /-- `quant: no implementation for %s` -/
  | noImplementation (dt : EngDType)
  /-- `quant: %s cannot express a row of %d elements` -/
  | cannotExpress (name : String) (inn : Int)
  /-- `quant: %s needs an external scale array` -/
  | needsScales (name : String)
  deriving DecidableEq

section

variable {D : Type} [Arith D] {R : Type} [Arith R] (c : Build) (fp : Fpu (BitVec 32) D) (ofIntD : Int → D)
  (val : BitVec 32 → R) (ofInt : Int → R) (stack : Vec (BitVec 32))

/-- The sum of one block of `q8_0_dot_row`: four accumulators and a tail. -/
def dot4 (fma : D → D → D → D) (u v : Nat → D) (n : Nat) : D :=
  let r := forStep 4 (n - 3) 0 (fun _ => (0 : D)) (accumulate fma u v 4)
  let s := r.1
  fmaTail fma u v n r.2 ((s 0 + s 1) + (s 2 + s 3))

/-- `q8_0_dot_row`. -/
def q80DotRow (w : Bytes) (x : Vec (BitVec 32)) (n : Nat) : D :=
  (forStep 32 n 0 0 fun acc off =>
    let blk := bytesAt w (off / 32 * 34)
    let d := fp.wide (engF16ToF32 (half blk 0))
    let m := min (n - off) 32
    acc + dot4 fp.fma (fun i => ofIntD (blk (2 + i)).toInt) (fun i => fp.wide (x (off + i))) m * d).1

/-- `group_dot`. -/
def groupDot : Vec (BitVec 32) → Vec (BitVec 32) → Nat → D :=
  if c.mxfp4X86 && c.cpuHasAvx2 then groupDotAvx2 fp else groupDotRef fp

/-- Whether the dot products of the k-quants take the vector path. -/
def Build.kqVector : Bool := !c.kqScalar && c.kquantAvx2 && c.cpuHasAvx2

/-- `eng_quant_mxfp4`.  A null pointer to the scales comes here with an empty row alone, of which no scale
is read. -/
def engQuantMxfp4 : EngQuantOps D R where
  dtype := .mxfp4
  name := "mxfp4"
  dotRow := fun w scales x n =>
    engMxfp4DotRowG fp (groupDot c fp) stack w (scales.getD fun _ => 0) x n mxfp4Group
  dequantRow := fun out w scales n => engMxfp4DequantRowG val out w (scales.getD fun _ => 0) n mxfp4Group
  rowBytes := blockRowBytes 2 1
  scaleBytes := quantScaleBytes .mxfp4

/-- `eng_quant_q8_0`. -/
def engQuantQ80 : EngQuantOps D R where
  dtype := .q8_0
  name := "q8_0"
  dotRow := fun w _ x n => q80DotRow fp ofIntD w x n
  dequantRow := fun out w _ n => q80DequantRow val ofInt out w n
  rowBytes := blockRowBytes 32 34
  scaleBytes := quantScaleBytes .q8_0

/-- `eng_quant_q4_k`. -/
def engQuantQ4k : EngQuantOps D R where
  dtype := .q4_k
  name := "q4_k"
  dotRow := fun w _ x n => if c.kqVector then engQ4kDotRowAvx2 fp ofIntD w x n else engQ4kDotRowRef fp ofIntD w x n
  dequantRow := fun out w _ n => q4kDequantRow val ofInt out w n
  rowBytes := blockRowBytes 256 144
  scaleBytes := quantScaleBytes .q4_k

/-- `eng_quant_q6_k`. -/
def engQuantQ6k : EngQuantOps D R where
  dtype := .q6_k
  name := "q6_k"
  dotRow := fun w _ x n => if c.kqVector then engQ6kDotRowAvx2 fp ofIntD w x n else engQ6kDotRowRef fp ofIntD w x n
  dequantRow := fun out w _ n => q6kDequantRow val ofInt out w n
  rowBytes := blockRowBytes 256 210
  scaleBytes := quantScaleBytes .q6_k

/-- `REG`. -/
abbrev Registry (D R : Type) := EngDType → Option (EngQuantOps D R)

/-- `eng_quant_register`: a format that is there is not shadowed. -/
def engQuantRegister (reg : Registry D R) (ops : EngQuantOps D R) : Registry D R :=
  if (reg ops.dtype).isSome then reg else Function.update reg ops.dtype (some ops)

/-- `reg_init`. -/
def regInit : Registry D R :=
  [engQuantMxfp4 c fp val stack, engQuantQ80 fp ofIntD val ofInt, engQuantQ4k c fp ofIntD val ofInt,
    engQuantQ6k c fp ofIntD val ofInt].foldl engQuantRegister fun _ => none

/-- `eng_matmul_quant`. -/
def engMatmulQuant (reg : Registry D R) (y x : Vec (BitVec 32)) (W : Bytes) (scales : Option Bytes) (inn rows : Int)
    (dt : EngDType) : Except QuantFail (Vec (BitVec 32)) :=
  match reg dt with
  | none => .error (.noImplementation dt)
  | some q =>
    let rb := q.rowBytes inn
    let sb := q.scaleBytes inn
    if rb < 0 ∨ sb < 0 then .error (.cannotExpress q.name inn)
    else if 0 < sb ∧ scales.isNone then .error (.needsScales q.name)
    else
      .ok (loop rows.toNat y fun y r =>
        let wr := bytesAt W (r * rb.toNat)
        let sr := scales.map fun s => bytesAt s (r * sb.toNat)
        Function.update y r (fp.narrow (q.dotRow wr sr x inn.toNat)))

/-- `k3_matmul_mxfp4`. -/
def k3MatmulMxfp4 (y x : Vec (BitVec 32)) (packed scales : Bytes) (inn rows group : Nat) : Vec (BitVec 32) :=
  let pcols := inn / 2
  let ngrp := (inn + group - 1) / group
  loop rows y fun y r =>
    Function.update y r (fp.narrow (engMxfp4DotRowG fp (groupDot c fp) stack (bytesAt packed (r * pcols))
      (bytesAt scales (r * ngrp)) x inn group))

end

/-! ## Sums along a loop -/

/-- **A loop that adds the terms of one piece after the other** adds them all; `red` is what the
accumulators stand for. -/
theorem sum_loop {α : Type} (red : α → ℚ) {g : α → Nat → α} {f : Nat → ℚ} (bnd : Nat → Nat) (m : Nat) (a : α)
    (hmono : ∀ j < m, bnd j ≤ bnd (j + 1))
    (hbody : ∀ j < m, ∀ a, red (g a j) = red a + ∑ i ∈ Finset.Ico (bnd j) (bnd (j + 1)), f i) :
    red (loop m a g) = red a + ∑ i ∈ Finset.Ico (bnd 0) (bnd m), f i := by
  have hle : ∀ k ≤ m, bnd 0 ≤ bnd k := by
    intro k
    induction k with
    | zero => intro _; exact Nat.le_refl _
    | succ k ih => intro hk; exact Nat.le_trans (ih (by omega)) (hmono k (by omega))
  induction m with
  | zero => rw [loop_zero, Finset.Ico_self, Finset.sum_empty, add_zero]
  | succ m ih =>
      rw [loop_succ, hbody m (by omega), ih (fun j hj => hmono j (by omega)) (fun j hj => hbody j (by omega))
        fun k hk => hle k (by omega), add_assoc,
        Finset.sum_Ico_consecutive f (hle m (by omega)) (hmono m (by omega))]

/-- Pieces of one width. -/
theorem sum_blocks {α : Type} (red : α → ℚ) {g : α → Nat → α} {f : Nat → ℚ} (width m : Nat) (a : α)
    (hbody : ∀ j < m, ∀ a, red (g a j) = red a + ∑ l ∈ Finset.range width, f (width * j + l)) :
    red (loop m a g) = red a + ∑ i ∈ Finset.range (width * m), f i := by
  have hsum := sum_loop red (f := f) (fun j => width * j) m a (fun j _ => Nat.mul_le_mul_left _ (Nat.le_succ j))
    fun j hj a => by
      rw [hbody j hj, Finset.sum_Ico_eq_sum_range, Nat.mul_succ, Nat.add_sub_cancel_left]
  rw [hsum, Nat.mul_zero, Finset.range_eq_Ico]

theorem sum_terms (F : Nat → ℚ) (m : Nat) (a : ℚ) :
    loop m a (fun acc k => acc + F k) = a + ∑ k ∈ Finset.range m, F k := by
  have hsum := sum_blocks (fun acc : ℚ => acc) (g := fun acc k => acc + F k) (f := F) 1 m a fun j _ acc => by
    rw [Finset.sum_range_one, Nat.one_mul, Nat.add_zero]
  rwa [Nat.one_mul] at hsum

/-- A run of a row, by blocks. -/
theorem sum_range_blocks (f : Nat → ℚ) (width m : Nat) :
    ∑ i ∈ Finset.range (width * m), f i = ∑ j ∈ Finset.range m, ∑ l ∈ Finset.range width, f (width * j + l) := by
  induction m with
  | zero => rw [Nat.mul_zero, Finset.sum_range_zero, Finset.sum_range_zero]
  | succ m ih => rw [Nat.mul_succ, Finset.sum_range_add, ih, Finset.sum_range_succ]

/-! ## The operators without rounding -/

/-- `fma` without rounding. -/
def exactFma (a b c : ℚ) : ℚ := a * b + c

/-- Every operator of a row product gives the exact value. -/
def exactFpu (fp : Fpu (BitVec 32) ℚ) : Fpu (BitVec 32) ℚ := { fp with wide := floatVal, fma := exactFma }

theorem sum_fmaTail (u v : Nat → ℚ) {n i : Nat} (hin : i ≤ n) (s : ℚ) :
    fmaTail exactFma u v n i s = s + ∑ k ∈ Finset.Ico i n, u k * v k := by
  unfold fmaTail
  rcases Nat.lt_or_eq_of_le hin with hlt | rfl
  · rw [forStep_of_lt hlt]
    have htail := sum_fmaTail u v hlt (exactFma (u i) (v i) s)
    unfold fmaTail at htail
    rw [htail, Finset.sum_eq_sum_Ico_succ_bot hlt, exactFma]
    ring
  · rw [forStep_of_ge (Nat.le_refl i), Finset.Ico_self, Finset.sum_empty, add_zero]
termination_by n - i

/-- Lanes that are folded, and the tail after them. -/
theorem sum_lanes (u v : Nat → ℚ) (width n : Nat) [NeZero width] (red : (Nat → ℚ) → ℚ) (hzero : red (fun _ => 0) = 0)
    (hred : ∀ s i, red (accumulate exactFma u v width s i) =
      red s + ∑ l ∈ Finset.range width, u (i + l) * v (i + l)) :
    let r := forStep width (n - (width - 1)) 0 (fun _ => (0 : ℚ)) (accumulate exactFma u v width)
    fmaTail exactFma u v n r.2 (red r.1) = ∑ i ∈ Finset.range n, u i * v i := by
  have hpos := Nat.pos_of_neZero width
  have hdiv := Nat.div_add_mod n width
  have hmod := Nat.mod_lt n hpos
  have hsum := sum_blocks red (g := fun s j => accumulate exactFma u v width s (0 + width * j))
    (f := fun i => u i * v i) width (n / width) (fun _ => 0) fun j _ s => by rw [hred, Nat.zero_add]
  have hlt : ∀ j < n / width, 0 + width * j < n - (width - 1) := by
    intro j hj
    have hnext := Nat.mul_le_mul_left width (Nat.succ_le_of_lt hj)
    rw [Nat.mul_succ] at hnext
    omega
  rw [forStep_eq_loop width _ (n / width) 0 _ hlt (by omega)]
  simp only
  rw [hsum, hzero, sum_fmaTail u v (by omega), Nat.zero_add, zero_add,
    Finset.sum_range_add_sum_Ico _ (show width * (n / width) ≤ n by omega)]

/-- **The sum over eight accumulators.** -/
theorem sum_dot8 (u v : Nat → ℚ) (n : Nat) : dot8 exactFma u v n = ∑ i ∈ Finset.range n, u i * v i := by
  refine sum_lanes u v 8 n (fun s => ((s 0 + s 4) + (s 1 + s 5)) + ((s 2 + s 6) + (s 3 + s 7))) (by simp) fun s i => ?_
  simp only [accumulate_cell exactFma (show 0 < 8 by decide), accumulate_cell exactFma (show 1 < 8 by decide),
    accumulate_cell exactFma (show 2 < 8 by decide), accumulate_cell exactFma (show 3 < 8 by decide),
    accumulate_cell exactFma (show 4 < 8 by decide), accumulate_cell exactFma (show 5 < 8 by decide),
    accumulate_cell exactFma (show 6 < 8 by decide), accumulate_cell exactFma (show 7 < 8 by decide),
    Finset.sum_range_succ, Finset.sum_range_zero, exactFma]
  ring

/-- The sum over four accumulators. -/
theorem sum_dot4 (u v : Nat → ℚ) (n : Nat) : dot4 exactFma u v n = ∑ i ∈ Finset.range n, u i * v i := by
  refine sum_lanes u v 4 n (fun s => (s 0 + s 1) + (s 2 + s 3)) (by simp) fun s i => ?_
  simp only [accumulate_cell exactFma (show 0 < 4 by decide), accumulate_cell exactFma (show 1 < 4 by decide),
    accumulate_cell exactFma (show 2 < 4 by decide), accumulate_cell exactFma (show 3 < 4 by decide),
    Finset.sum_range_succ, Finset.sum_range_zero, exactFma]
  ring

/-! ## MXFP4 -/

/-- The floats of a group are the elements, without the scale. -/
theorem expandGroup_apply (pb : Bytes) {m i : Nat} (hi : i < m) (stack : Vec (BitVec 32)) :
    expandGroup pb m stack i = e2m1.getD (nibbleAt pb i).toNat 0 := by
  have hlow : ∀ j, e2m1.getD (nibbleAt pb (2 * j)).toNat 0 = (e2m1Pair (pb j)).1 := by
    intro j
    rw [nibbleAt, if_neg (by omega), Nat.mul_div_cancel_left j (by decide)]
    rfl
  have hhigh : ∀ j, e2m1.getD (nibbleAt pb (2 * j + 1)).toNat 0 = (e2m1Pair (pb j)).2 := by
    intro j
    rw [nibbleAt, if_pos (by omega), show (2 * j + 1) / 2 = j by omega]
    rfl
  have hpairs : Fills (2 * 0) (2 * (m / 2)) (fun i => e2m1.getD (nibbleAt pb i).toNat 0) stack
      (forStep 1 (m / 2) 0 stack fun wf j =>
        Function.update (Function.update wf (2 * j) (e2m1Pair (pb j)).1) (2 * j + 1) (e2m1Pair (pb j)).2).1 := by
    rw [forStep_eq_loop 1 _ (m / 2) 0 stack (fun j hj => by omega) (by omega)]
    simp only [Nat.zero_add, Nat.one_mul]
    refine fills_loop (fun j => 2 * j) (m / 2) stack (fun j _ => by omega) fun j _ wf => ?_
    have hfirst := fills_update wf (2 * j) fun i => e2m1.getD (nibbleAt pb i).toNat 0
    have hsecond := fills_update (Function.update wf (2 * j) (e2m1Pair (pb j)).1) (2 * j + 1)
      fun i => e2m1.getD (nibbleAt pb i).toNat 0
    rw [hlow] at hfirst
    rw [hhigh] at hsecond
    exact hfirst.trans hsecond (by omega) (by omega)
  unfold expandGroup
  by_cases hodd : m % 2 = 1
  · simp only [if_pos hodd, Function.update_apply, hpairs i]
    by_cases hlast : i = m - 1
    · rw [if_pos hlast, ← hlow, hlast, show m - 1 = 2 * (m / 2) by omega]
    · rw [if_neg hlast, if_pos (by omega)]
  · simp only [if_neg hodd, hpairs i]
    rw [if_pos (by omega)]

/-- The nibbles of a group are nibbles of the row. -/
theorem nibbleAt_group (w : Bytes) {group : Nat} (heven : group % 2 = 0) (g i : Nat) :
    nibbleAt (fun j => w (g * (group / 2) + j)) i = nibbleAt w (g * group + i) := by
  have hstart : g * group = g * (group / 2) * 2 := by
    rw [Nat.mul_assoc, Nat.div_mul_cancel (Nat.dvd_of_mod_eq_zero heven)]
  unfold nibbleAt
  rw [show (g * group + i) % 2 = i % 2 by omega, show (g * group + i) / 2 = g * (group / 2) + i / 2 by omega]

variable (fp : Fpu (BitVec 32) ℚ)

theorem mxfp4_exact (stack : Vec (BitVec 32)) (w scales : Bytes) (x : Vec (BitVec 32)) (n : Nat) {group : Nat}
    (hg : 0 < group) (heven : group % 2 = 0) :
    engMxfp4DotRowG (exactFpu fp) (groupDotRef (exactFpu fp)) stack w scales x n group =
      ∑ i ∈ Finset.range n, mxfp4Elem floatVal w scales group i * floatVal (x i) := by
  have hcount := group_bounds (n := n) hg
  have hsum := sum_loop (fun acc : ℚ => acc)
    (g := fun acc g =>
      let sb := scales g
      if sb = 255 then acc
      else
        let m := min (n - g * group) group
        let wf := expandGroup (fun j => w (g * (group / 2) + j)) m stack
        acc + groupDotRef (exactFpu fp) wf (ptr x (g * group)) m * (exactFpu fp).wide (e8m0 sb))
    (f := fun i => mxfp4Elem floatVal w scales group i * floatVal (x i)) (fun g => min (g * group) n)
    ((n + group - 1) / group) 0 (fun g _ => by simp only [Nat.succ_mul]; omega) fun g hlt acc => ?_
  · rw [Nat.zero_mul, Nat.zero_min, hcount, zero_add, ← Finset.range_eq_Ico] at hsum
    exact hsum
  · -- the group is not empty: the last one may be cut short by the row
    have hstart : g * group < n := by
      have hmul := Nat.mul_le_mul_right group (Nat.succ_le_of_lt hlt)
      have hle := Nat.div_mul_le_self (n + group - 1) group
      rw [Nat.succ_mul] at hmul
      omega
    rw [Nat.min_eq_left hstart.le, Finset.sum_Ico_eq_sum_range, Nat.succ_mul,
      show min (g * group + group) n - g * group = min (n - g * group) group by omega]
    have hterm : ∀ i ∈ Finset.range (min (n - g * group) group),
        mxfp4Elem floatVal w scales group (g * group + i) * floatVal (x (g * group + i)) =
          floatVal (e2m1.getD (nibbleAt w (g * group + i)).toNat 0) * floatVal (x (g * group + i)) *
            floatVal (e8m0 (scales g)) := by
      intro i hi
      have hgroup : (g * group + i) / group = g := Nat.div_eq_of_lt_le (Nat.le_add_right _ _) (by
        have hin := Finset.mem_range.mp hi
        rw [Nat.succ_mul]
        omega)
      rw [mxfp4Elem, hgroup]
      ring
    rw [Finset.sum_congr rfl hterm, ← Finset.sum_mul]
    simp only
    by_cases hnan : scales g = 255
    · -- scale 255 is not a number, and the group is skipped: it counts as zero in the sum
      have hzero : floatVal (e8m0 255) = 0 := by decide +kernel
      rw [if_pos hnan, hnan, hzero, mul_zero, add_zero]
    · rw [if_neg hnan]
      unfold groupDotRef
      rw [show (exactFpu fp).fma = exactFma from rfl, sum_dot8]
      refine congrArg (fun t => acc + t * floatVal (e8m0 (scales g))) (Finset.sum_congr rfl fun i hi => ?_)
      rw [wideAt, wideAt, expandGroup_apply _ (Finset.mem_range.mp hi), nibbleAt_group w heven]
      rfl

/-! ## Q8_0 -/

/-- `(double)i` without rounding. -/
def exactInt (i : Int) : ℚ := i

theorem q80_exact (w : Bytes) (x : Vec (BitVec 32)) (n : Nat) :
    q80DotRow (exactFpu fp) exactInt w x n = ∑ i ∈ Finset.range n, q8Elem floatVal exactInt w i * floatVal (x i) := by
  have hcount := group_bounds (n := n) (show 0 < 32 by decide)
  unfold q80DotRow
  rw [forStep_eq_loop 32 _ ((n + 32 - 1) / 32) 0 0 (fun j hj => by omega) (by omega)]
  have hsum := sum_loop (fun acc : ℚ => acc)
    (g := fun acc j =>
      let blk := bytesAt w ((0 + 32 * j) / 32 * 34)
      let d := (exactFpu fp).wide (engF16ToF32 (half blk 0))
      let m := min (n - (0 + 32 * j)) 32
      acc + dot4 (exactFpu fp).fma (fun i => exactInt (blk (2 + i)).toInt)
        (fun i => (exactFpu fp).wide (x (0 + 32 * j + i))) m * d)
    (f := fun i => q8Elem floatVal exactInt w i * floatVal (x i)) (fun j => min (j * 32) n) ((n + 32 - 1) / 32) 0
    (fun j _ => by omega) fun j hj acc => ?_
  · rw [Nat.zero_mul, Nat.zero_min, hcount, zero_add, ← Finset.range_eq_Ico] at hsum
    exact hsum
  · rw [show min (j * 32) n = 0 + 32 * j by omega, Finset.sum_Ico_eq_sum_range,
      show min ((j + 1) * 32) n - (0 + 32 * j) = min (n - (0 + 32 * j)) 32 by omega]
    simp only
    rw [show (exactFpu fp).fma = exactFma from rfl, sum_dot4, Finset.sum_mul]
    refine congrArg (fun t => acc + t) (Finset.sum_congr rfl fun i hi => ?_)
    have hin := Finset.mem_range.mp hi
    rw [q8Elem, show (0 + 32 * j + i) / 32 = (0 + 32 * j) / 32 by omega, show (0 + 32 * j + i) % 32 = i by omega,
      show (exactFpu fp).wide = floatVal from rfl]
    ring

/-! ## Q4_K -/

/-- Four lanes over 32 elements, each adding the terms of its own. -/
theorem sum_red4 {α : Type} (get : α → Nat → ℚ) {g : α → Nat → α} {f : Nat → ℚ} (a : α)
    (hzero : ∀ k, get a k = 0)
    (hcell : ∀ s, ∀ i < 8, ∀ k : Fin 4, get (g s (4 * i)) k = get s k + f (4 * i + k)) :
    red4 (fun k => get (forStep 4 32 0 a g).1 k) = ∑ l ∈ Finset.range 32, f l := by
  have hsum := sum_blocks (fun s => red4 fun k => get s k) (g := fun s i => g s (0 + 4 * i)) (f := f) 4 8 a
    fun i hi s => by
      simp only [red4, Nat.zero_add, hcell s i hi, Finset.sum_range_succ, Finset.sum_range_zero]
      simp only [Fin.isValue, Fin.coe_ofNat_eq_mod]
      ring
  rw [forStep_eq_loop 4 _ 8 0 a (fun j hj => by omega) (by omega)]
  simp only at hsum ⊢
  rw [hsum]
  simp only [red4, hzero]
  ring

/-- The sums of a stretch. -/
theorem q4Sums_exact (q : Bytes) (xb : Vec (BitVec 32)) (j : Nat) :
    q4SumsRef (exactFpu fp) exactInt q xb j =
      ⟨∑ l ∈ Finset.range 32, exactInt (q l &&& 0x0F).toNat * floatVal (xb (j + l)),
        ∑ l ∈ Finset.range 32, floatVal (xb (j + l)),
        ∑ l ∈ Finset.range 32, exactInt (q l >>> 4).toNat * floatVal (xb (j + 32 + l)),
        ∑ l ∈ Finset.range 32, floatVal (xb (j + 32 + l))⟩ := by
  have hcell := fun (s : Q4Arrays ℚ) (l : Nat) => q4Step_cell (exactFpu fp) exactInt q xb j s l
  unfold q4SumsRef
  simp only [Q4Sums.mk.injEq]
  refine ⟨sum_red4 (fun s : Q4Arrays ℚ => s.s1) _ (fun _ => rfl) fun s i _ k => ?_,
    sum_red4 (fun s : Q4Arrays ℚ => s.t1) _ (fun _ => rfl) fun s i _ k => ?_,
    sum_red4 (fun s : Q4Arrays ℚ => s.s2) _ (fun _ => rfl) fun s i _ k => ?_,
    sum_red4 (fun s : Q4Arrays ℚ => s.t2) _ (fun _ => rfl) fun s i _ k => ?_⟩
  · rw [(hcell s (4 * i) k).1, ← Nat.add_assoc]
    exact add_comm _ _
  · rw [(hcell s (4 * i) k).2.1, ← Nat.add_assoc]
    rfl
  · rw [(hcell s (4 * i) k).2.2.1, ← Nat.add_assoc]
    exact add_comm _ _
  · rw [(hcell s (4 * i) k).2.2.2, ← Nat.add_assoc]
    rfl

/-- One sub-block: the weighted sum and the offset term. -/
theorem q4SubBlock_sum (d m : ℚ) (q : Nat → ℚ) (x : Nat → ℚ) :
    d * ∑ l ∈ Finset.range 32, q l * x l - m * ∑ l ∈ Finset.range 32, x l =
      ∑ l ∈ Finset.range 32, (d * q l - m) * x l := by
  rw [Finset.mul_sum, Finset.mul_sum, ← Finset.sum_sub_distrib]
  exact Finset.sum_congr rfl fun l _ => by ring

/-- One iteration of the loop over `j`, with the counter `is`. -/
def q4StretchDot (p : Bytes) (xb : Vec (BitVec 32)) (acc : ℚ) (j is : Nat) : ℚ :=
  let g1 := getScaleMin (is + 0) (bytesAt p 4)
  let g2 := getScaleMin (is + 1) (bytesAt p 4)
  let d := floatVal (engF16ToF32 (half p 0))
  let dmin := floatVal (engF16ToF32 (half p 2))
  let r := q4SumsRef (exactFpu fp) exactInt (bytesAt (bytesAt p 16) (j / 64 * 32)) xb j
  acc + (d * exactInt g1.1.toNat * r.s1 - dmin * exactInt g1.2.toNat * r.t1) +
    (d * exactInt g2.1.toNat * r.s2 - dmin * exactInt g2.2.toNat * r.t2)

theorem q4StretchDot_exact (w : Bytes) (x : Vec (BitVec 32)) (acc : ℚ) {b j : Nat} (hj : j < 4) :
    q4StretchDot fp (bytesAt w (b * 144)) (ptr x (b * 256)) acc (64 * j) (2 * j) =
      acc + ∑ l ∈ Finset.range 64,
        q4Elem floatVal exactInt w (b * 256 + (64 * j + l)) * floatVal (x (b * 256 + (64 * j + l))) := by
  have hlow : ∀ l ∈ Finset.range 32, q4Elem floatVal exactInt w (b * 256 + (64 * j + l)) =
      q4BlockElem floatVal exactInt (bytesAt w (b * 144)) (2 * j) l := by
    intro l hl
    rw [show b * 256 + (64 * j + l) = b * 256 + 2 * j * 32 + l by omega]
    exact q4Elem_at floatVal exactInt w (by omega) (Finset.mem_range.mp hl)
  have hhigh : ∀ l ∈ Finset.range 32, q4Elem floatVal exactInt w (b * 256 + (64 * j + (32 + l))) =
      q4BlockElem floatVal exactInt (bytesAt w (b * 144)) (2 * j + 1) l := by
    intro l hl
    rw [show b * 256 + (64 * j + (32 + l)) = b * 256 + (2 * j + 1) * 32 + l by omega]
    exact q4Elem_at floatVal exactInt w (by omega) (Finset.mem_range.mp hl)
  unfold q4StretchDot
  simp only
  rw [q4Sums_exact]
  simp only
  rw [q4SubBlock_sum, q4SubBlock_sum, add_assoc, Finset.sum_range_add _ 32 32]
  refine congrArg₂ (fun a b => acc + (a + b)) (Finset.sum_congr rfl fun l hl => ?_)
    (Finset.sum_congr rfl fun l hl => ?_)
  · rw [hlow l hl, q4BlockElem_even]
    rfl
  · rw [hhigh l hl, q4BlockElem_odd, ptr, Nat.add_assoc]

theorem q4k_exact (w : Bytes) (x : Vec (BitVec 32)) (m : Nat) :
    q4kDotRow (exactFpu fp) exactInt (q4SumsRef (exactFpu fp) exactInt) w x (256 * m) =
      ∑ i ∈ Finset.range (256 * m), q4Elem floatVal exactInt w i * floatVal (x i) := by
  unfold q4kDotRow
  rw [Nat.mul_div_cancel_left m (show 0 < 256 by decide)]
  refine (sum_blocks (fun acc : ℚ => acc) (f := fun i => q4Elem floatVal exactInt w i * floatVal (x i)) 256 m 0
    fun b _ acc => ?_).trans (zero_add _)
  simp only
  rw [forStep_eq_loop 64 _ 4 0 _ (fun j hj => by omega) (by omega)]
  simp only [Nat.zero_add]
  have hcounter := loop_counter (fun acc i is =>
    q4StretchDot fp (bytesAt w (b * 144)) (ptr x (b * 256)) acc (64 * i) is) 2 4 acc
  refine (congrArg Prod.fst hcounter).trans ?_
  simp only
  rw [Nat.mul_comm 256 b]
  exact sum_blocks (fun acc : ℚ => acc)
    (f := fun i => q4Elem floatVal exactInt w (b * 256 + i) * floatVal (x (b * 256 + i))) 64 4 acc
    fun j hj acc => q4StretchDot_exact fp w x acc hj

/-! ## Q6_K -/

/-- What element `l` of each quarter adds to the partial of scale `p`. -/
def q6Term (ql qh : Bytes) (xb : Vec (BitVec 32)) (p l : Nat) : ℚ :=
  if p % 2 = l / 16 then exactInt (q6Code ql qh (p / 2) l) * floatVal (xb (l + 32 * (p / 2))) else 0

/-- A term goes to one row of `part`. -/
theorem q6Step_exact (ql qh : Bytes) (xb : Vec (BitVec 32)) (part : Nat → Nat → ℚ) {i p : Nat} (hi : i < 8)
    (hp : p < 8) (k : Fin 4) :
    q6Step (exactFpu fp) exactInt ql qh xb part (4 * i) p k = part p k + q6Term ql qh xb p (4 * i + k) := by
  have hplace : (4 * i + (k : Nat)) / 16 = 4 * i / 16 := by omega
  have hrow : ∀ a b c : ℚ, (exactFpu fp).fma a b c = c + a * b := fun a b c => add_comm _ _
  have hwide : (exactFpu fp).wide = floatVal := rfl
  rw [q6Step_cell]
  unfold q6Term q6Code
  rw [hplace]
  obtain his | his : 4 * i / 16 = 0 ∨ 4 * i / 16 = 1 := by omega
  · rw [his]
    interval_cases p <;> simp [hrow, hwide]
  · rw [his]
    interval_cases p <;> simp [hrow, hwide]

theorem q6Sums_exact (ql qh : Bytes) (xb : Vec (BitVec 32)) {p : Nat} (hp : p < 8) :
    q6SumsRef (exactFpu fp) exactInt ql qh xb p = ∑ l ∈ Finset.range 32, q6Term ql qh xb p l :=
  sum_red4 (fun part : Nat → Nat → ℚ => part p) _ (fun _ => rfl) fun part _ hi k =>
    q6Step_exact fp ql qh xb part hi hp k

/-- The eight partials of a half, scaled, are its four quarters. -/
theorem q6Half_exact (sc : Nat → ℚ) (ql qh : Bytes) (xb : Vec (BitVec 32)) :
    ∑ p ∈ Finset.range 8, sc p * q6SumsRef (exactFpu fp) exactInt ql qh xb p =
      ∑ r ∈ Finset.range 4, ∑ l ∈ Finset.range 32,
        sc (l / 16 + 2 * r) * exactInt (q6Code ql qh r l) * floatVal (xb (l + 32 * r)) := by
  have hpartials : ∀ p ∈ Finset.range 8, sc p * q6SumsRef (exactFpu fp) exactInt ql qh xb p =
      ∑ l ∈ Finset.range 32, sc p * q6Term ql qh xb p l := by
    intro p hp
    rw [q6Sums_exact fp ql qh xb (Finset.mem_range.mp hp), Finset.mul_sum]
  rw [Finset.sum_congr rfl hpartials, Finset.sum_comm, Finset.sum_comm (s := Finset.range 4)]
  refine Finset.sum_congr rfl fun l hl => ?_
  have hhalf : l / 16 = 0 ∨ l / 16 = 1 := by
    have := Finset.mem_range.mp hl
    omega
  unfold q6Term
  obtain his | his := hhalf
  · rw [his]
    simp [Finset.sum_range_succ, mul_assoc]
  · rw [his]
    simp [Finset.sum_range_succ, mul_assoc]

theorem q6k_exact (w : Bytes) (x : Vec (BitVec 32)) (m : Nat) :
    q6kDotRow (exactFpu fp) exactInt (q6SumsRef (exactFpu fp) exactInt) w x (256 * m) =
      ∑ i ∈ Finset.range (256 * m), q6Elem floatVal exactInt w i * floatVal (x i) := by
  unfold q6kDotRow
  rw [Nat.mul_div_cancel_left m (show 0 < 256 by decide)]
  refine (sum_blocks (fun acc : ℚ => acc) (f := fun i => q6Elem floatVal exactInt w i * floatVal (x i)) 256 m 0
    fun b _ acc => ?_).trans (zero_add _)
  rw [Nat.mul_comm 256 b]
  refine sum_blocks (fun acc : ℚ => acc)
    (f := fun i => q6Elem floatVal exactInt w (b * 256 + i) * floatVal (x (b * 256 + i))) 128 2 acc
    fun h hh acc => ?_
  simp only
  rw [sum_terms fun k => (exactFpu fp).wide (engF16ToF32 (half (bytesAt w (b * 210)) 208)) *
      exactInt (bytesAt (bytesAt w (b * 210)) (192 + 8 * h) k).toInt *
      q6SumsRef (exactFpu fp) exactInt (bytesAt (bytesAt w (b * 210)) (64 * h))
        (bytesAt (bytesAt w (b * 210)) (128 + 32 * h)) (ptr (ptr x (b * 256)) (128 * h)) k,
    q6Half_exact fp (fun k => (exactFpu fp).wide (engF16ToF32 (half (bytesAt w (b * 210)) 208)) *
      exactInt (bytesAt (bytesAt w (b * 210)) (192 + 8 * h) k).toInt), sum_range_blocks _ 32 4]
  refine congrArg (fun t => acc + t) (Finset.sum_congr rfl fun r hr => Finset.sum_congr rfl fun l hl => ?_)
  have hcell := q6Elem_at floatVal exactInt w hh (Finset.mem_range.mp hr) (Finset.mem_range.mp hl) (b := b)
  rw [show b * 256 + (128 * h + (32 * r + l)) = b * 256 + 128 * h + (l + 32 * r) by omega, hcell, ptr, ptr,
    show b * 256 + (128 * h + (l + 32 * r)) = b * 256 + 128 * h + (l + 32 * r) by omega]
  rfl

/-! ## The formats -/

/-- A materialised row against the activations. -/
def rowProduct (row : Vec ℚ) (x : Vec (BitVec 32)) (n : Nat) : ℚ := ∑ i ∈ Finset.range n, row i * floatVal (x i)

theorem rowProduct_fills {row out : Vec ℚ} {f : Nat → ℚ} {n : Nat} (h : Fills 0 n f out row) (x : Vec (BitVec 32)) :
    rowProduct row x n = ∑ i ∈ Finset.range n, f i * floatVal (x i) := by
  refine Finset.sum_congr rfl fun i hi => ?_
  rw [h i, if_pos ⟨Nat.zero_le i, Finset.mem_range.mp hi⟩]

variable (c : Build) (stack : Vec (BitVec 32))

theorem groupDot_eq : groupDot c (exactFpu fp) = groupDotRef (exactFpu fp) := by
  unfold groupDot
  split_ifs
  · funext wf xg m
    exact groupDotAvx2_eq (exactFpu fp) wf xg m
  · rfl

theorem mxfp4_rowProduct (out : Vec ℚ) (w scales : Bytes) (x : Vec (BitVec 32)) (n : Nat) {group : Nat}
    (hg : 0 < group) (heven : group % 2 = 0) :
    engMxfp4DotRowG (exactFpu fp) (groupDot c (exactFpu fp)) stack w scales x n group =
      rowProduct (engMxfp4DequantRowG floatVal out w scales n group) x n := by
  rw [groupDot_eq, mxfp4_exact fp stack w scales x n hg heven,
    rowProduct_fills (engMxfp4DequantRowG_fills floatVal out w scales n hg)]

/-- Both builds of `q4_k_dot_row`. -/
theorem q4k_rowProduct (out : Vec ℚ) (w : Bytes) (s : Option Bytes) (x : Vec (BitVec 32)) {n : Nat}
    (hn : n % 256 = 0) :
    (engQuantQ4k c (exactFpu fp) exactInt floatVal exactInt).dotRow w s x n =
      rowProduct (q4kDequantRow floatVal exactInt out w n) x n := by
  obtain ⟨m, rfl⟩ := Nat.dvd_of_mod_eq_zero hn
  have hrow := q4kDequantRow_fills floatVal exactInt out w (256 * m)
  rw [Nat.mul_div_cancel_left m (by decide), Nat.mul_comm m] at hrow
  have hsums : q4SumsAvx2 (exactFpu fp) exactInt = q4SumsRef (exactFpu fp) exactInt := by
    funext q xb j
    exact q4SumsAvx2_eq (exactFpu fp) exactInt q xb j
  rw [rowProduct_fills hrow, ← q4k_exact fp w x m]
  unfold engQuantQ4k engQ4kDotRowAvx2 engQ4kDotRowRef
  rw [hsums]
  exact ite_self _

/-- Both builds of `q6_k_dot_row`. -/
theorem q6k_rowProduct (out : Vec ℚ) (w : Bytes) (s : Option Bytes) (x : Vec (BitVec 32)) {n : Nat}
    (hn : n % 256 = 0) :
    (engQuantQ6k c (exactFpu fp) exactInt floatVal exactInt).dotRow w s x n =
      rowProduct (q6kDequantRow floatVal exactInt out w n) x n := by
  obtain ⟨m, rfl⟩ := Nat.dvd_of_mod_eq_zero hn
  have hrow := q6kDequantRow_fills floatVal exactInt out w (256 * m)
  rw [Nat.mul_div_cancel_left m (by decide), Nat.mul_comm m] at hrow
  have hsums : q6SumsAvx2 (exactFpu fp) exactInt = q6SumsRef (exactFpu fp) exactInt := by
    funext ql qh xb p
    exact q6SumsAvx2_eq (exactFpu fp) exactInt ql qh xb p
  rw [rowProduct_fills hrow, ← q6k_exact fp w x m]
  unfold engQuantQ6k engQ6kDotRowAvx2 engQ6kDotRowRef
  rw [hsums]
  exact ite_self _

theorem q80_rowProduct (out : Vec ℚ) (w : Bytes) (x : Vec (BitVec 32)) (n : Nat) :
    q80DotRow (exactFpu fp) exactInt w x n = rowProduct (q80DequantRow floatVal exactInt out w n) x n := by
  rw [rowProduct_fills (q80DequantRow_fills floatVal exactInt out w n), q80_exact fp w x n]

/-! ## The registry -/

section

variable {D R : Type}

/-- A registered format stays. -/
theorem register_keeps (extra : List (EngQuantOps D R)) {reg : Registry D R} {dt : EngDType} {q : EngQuantOps D R}
    (h : reg dt = some q) : extra.foldl engQuantRegister reg dt = some q := by
  induction extra generalizing reg with
  | nil => exact h
  | cons ops rest ih =>
      rw [List.foldl_cons]
      refine ih ?_
      unfold engQuantRegister
      split_ifs with hthere
      · exact h
      · have hne : dt ≠ ops.dtype := by
          rintro rfl
          rw [h] at hthere
          exact hthere rfl
        rw [Function.update_of_ne hne, h]

end

/-- The four formats, with exact operators. -/
def builtin : List (EngQuantOps ℚ ℚ) :=
  [engQuantMxfp4 c (exactFpu fp) floatVal stack, engQuantQ80 (exactFpu fp) exactInt floatVal exactInt,
    engQuantQ4k c (exactFpu fp) exactInt floatVal exactInt, engQuantQ6k c (exactFpu fp) exactInt floatVal exactInt]

/-- They are all registered. -/
theorem regInit_builtin {q : EngQuantOps ℚ ℚ} (hq : q ∈ builtin fp c stack) :
    regInit c (exactFpu fp) exactInt floatVal exactInt stack q.dtype = some q := by
  simp only [builtin, List.mem_cons, List.not_mem_nil, or_false] at hq
  rcases hq with rfl | rfl | rfl | rfl <;> rfl

/-- Where a row can be expressed, its product is that of the materialised row. -/
theorem builtin_rowProduct {q : EngQuantOps ℚ ℚ} (hq : q ∈ builtin fp c stack) {inn : Int}
    (hrow : 0 ≤ q.rowBytes inn) (out : Vec ℚ) (w : Bytes) (s : Option Bytes) (x : Vec (BitVec 32)) :
    q.dotRow w s x inn.toNat = rowProduct (q.dequantRow out w s inn.toNat) x inn.toNat := by
  simp only [builtin, List.mem_cons, List.not_mem_nil, or_false] at hq
  have hwhole : ∀ bytes, 0 ≤ blockRowBytes 256 bytes inn → inn.toNat % 256 = 0 := by
    intro bytes h
    unfold blockRowBytes at h
    by_cases hno : inn < 0 ∨ inn.tmod 256 ≠ 0
    · rw [if_pos hno] at h
      omega
    · push Not at hno
      rw [Int.tmod_eq_emod_of_nonneg hno.1] at hno
      omega
  rcases hq with rfl | rfl | rfl | rfl
  · exact mxfp4_rowProduct fp c stack out w _ x _ (by decide) (by decide)
  · exact q80_rowProduct fp out w x _
  · exact q4k_rowProduct fp c out w s x (hwhole 144 hrow)
  · exact q6k_rowProduct fp c out w s x (hwhole 210 hrow)

/-- A loop over the rows of a product. -/
theorem loop_rows {α : Type} (rows : Nat) (y F : Nat → α) :
    loop rows y (fun y r => Function.update y r (F r)) = fun r => if r < rows then F r else y r := by
  funext r
  rw [fills_loop (fun j => j) rows y (fun j _ => Nat.le_succ j) (fun j _ y => fills_update y j F) r]
  simp only [Nat.zero_le, true_and]

/-- The decoder's product is this one, of its group. -/
theorem matmulMxfp4_eq {D : Type} [Arith D] [Arith (BitVec 32)] {fp : Fpu (BitVec 32) D}
    (h : fp.mxfp4DotRowG = engMxfp4DotRowG fp (groupDot c fp) stack) (y x : Vec (BitVec 32)) (packed scales : Bytes)
    (inn : Nat) {rows r : Nat} (hr : r < rows) :
    matmulMxfp4 fp x packed scales inn rows r = k3MatmulMxfp4 c fp stack y x packed scales inn rows mxfp4Group r := by
  unfold matmulMxfp4 k3MatmulMxfp4 tab
  simp only
  rw [loop_rows, if_pos hr, h]
  simp only [if_pos hr]
  rfl

/-- Row `r` of a product and its scales start where the lengths of a row say. -/
def rowOf (q : EngQuantOps ℚ ℚ) (out : Vec ℚ) (W : Bytes) (scales : Option Bytes) (inn : Int) (r : Nat) : Vec ℚ :=
  q.dequantRow out (bytesAt W (r * (q.rowBytes inn).toNat))
    (scales.map fun s => bytesAt s (r * (q.scaleBytes inn).toNat)) inn.toNat

theorem engMatmulQuant_eq {q : EngQuantOps ℚ ℚ} (hq : q ∈ builtin fp c stack) (extra : List (EngQuantOps ℚ ℚ))
    (y x : Vec (BitVec 32)) (W : Bytes) (scales : Option Bytes) (inn rows : Int) (out : Vec ℚ) :
    engMatmulQuant (exactFpu fp) (extra.foldl engQuantRegister (regInit c (exactFpu fp) exactInt floatVal exactInt stack))
        y x W scales inn rows q.dtype =
      if q.rowBytes inn < 0 ∨ q.scaleBytes inn < 0 then .error (.cannotExpress q.name inn)
      else if 0 < q.scaleBytes inn ∧ scales.isNone then .error (.needsScales q.name)
      else .ok fun r =>
        if r < rows.toNat then fp.narrow (rowProduct (rowOf q out W scales inn r) x inn.toNat) else y r := by
  unfold engMatmulQuant
  rw [register_keeps extra (regInit_builtin fp c stack hq)]
  simp only
  split_ifs with hlength hscales
  · rfl
  · rfl
  · rw [loop_rows]
    refine congrArg Except.ok (funext fun r => ?_)
    rw [builtin_rowProduct fp c stack hq (not_lt.mp (not_or.mp hlength).1) out]
    rfl

/-- **The fused products are the products of the materialised rows**, on either build: row by row for every
format, and over any number of rows in `eng_matmul_quant`, whatever else has been registered, and in
`k3_matmul_mxfp4`, whose offsets are the lengths of a row. -/
theorem fused_eq_dequant :
    (∀ out w scales x n group, 0 < group → group % 2 = 0 → group ≤ 64 →
      engMxfp4DotRowG (exactFpu fp) (groupDot c (exactFpu fp)) stack w scales x n group =
        rowProduct (engMxfp4DequantRowG floatVal out w scales n group) x n) ∧
    (∀ out w x n, q80DotRow (exactFpu fp) exactInt w x n =
      rowProduct (q80DequantRow floatVal exactInt out w n) x n) ∧
    (∀ out w s x n, n % 256 = 0 →
      (engQuantQ4k c (exactFpu fp) exactInt floatVal exactInt).dotRow w s x n =
          rowProduct (q4kDequantRow floatVal exactInt out w n) x n ∧
        (engQuantQ6k c (exactFpu fp) exactInt floatVal exactInt).dotRow w s x n =
          rowProduct (q6kDequantRow floatVal exactInt out w n) x n) ∧
    (∀ q ∈ builtin fp c stack, ∀ (extra : List (EngQuantOps ℚ ℚ)) y x W scales inn rows out,
      engMatmulQuant (exactFpu fp)
          (extra.foldl engQuantRegister (regInit c (exactFpu fp) exactInt floatVal exactInt stack)) y x W scales inn rows
          q.dtype =
        if q.rowBytes inn < 0 ∨ q.scaleBytes inn < 0 then .error (.cannotExpress q.name inn)
        else if 0 < q.scaleBytes inn ∧ scales.isNone then .error (.needsScales q.name)
        else .ok fun r =>
          if r < rows.toNat then fp.narrow (rowProduct (rowOf q out W scales inn r) x inn.toNat) else y r) ∧
    (∀ y x packed scales inn rows group out, 0 < group → group % 2 = 0 → group ≤ 64 →
      k3MatmulMxfp4 c (exactFpu fp) stack y x packed scales inn rows group = fun r =>
        if r < rows then
          fp.narrow (rowProduct (engMxfp4DequantRowG floatVal out (bytesAt packed (r * (inn / 2)))
            (bytesAt scales (r * ((inn + group - 1) / group))) inn group) x inn)
        else y r) ∧
    ∀ inn : Nat, inn % 2 = 0 → blockRowBytes 2 1 inn = (inn / 2 : Nat) ∧
      quantScaleBytes .mxfp4 inn = ((inn + mxfp4Group - 1) / mxfp4Group : Nat) := by
  refine ⟨fun out w scales x n group hg heven _ => mxfp4_rowProduct fp c stack out w scales x n hg heven,
    q80_rowProduct fp, fun out w s x n hn => ⟨q4k_rowProduct fp c out w s x hn, q6k_rowProduct fp c out w s x hn⟩,
    fun q hq extra y x W scales inn rows out => engMatmulQuant_eq fp c stack hq extra y x W scales inn rows out,
    fun y x packed scales inn rows group out hg heven _ => ?_, fun inn heven => ⟨?_, ?_⟩⟩
  · unfold k3MatmulMxfp4
    simp only
    rw [loop_rows]
    funext r
    rw [mxfp4_rowProduct fp c stack out _ _ x inn hg heven]
    rfl
  · rw [blockRowBytes_eq (Int.natCast_nonneg inn), if_pos (by omega)]
    omega
  · unfold quantScaleBytes mxfp4Group
    rw [if_pos rfl, if_neg (by omega), Int.tdiv_eq_ediv_of_nonneg (by omega)]
    omega

/-- Constants in the place of what no row product calls. -/
def constFpu : Fpu (BitVec 32) ℚ where
  wide := floatVal
  narrow := fun r => BitVec.ofInt 32 r.num
  ofInt := BitVec.ofNat 32
  ofIntD := fun n => n
  fma := exactFma
  sqrt := fun r => r
  sqrtf := fun b => b
  expf := fun b => b
  tanhf := fun b => b
  gt := fun _ _ => false
  isZero := fun b => b = 0
  negInfinity := 0xFF800000
  l2Eps := 0
  renormEps := 0
  bf16f := engBf16f
  matmulQ8 := fun _ _ _ _ _ => 0
  mxfp4DotRowG := fun _ _ _ _ _ => 0

/-- The second of two rows of two groups. -/
theorem fused_eq_dequant_two :
    k3MatmulMxfp4 ⟨true, true, true, false⟩ (exactFpu constFpu) (fun _ => 0) (fun _ => 0) (fun _ => 0x40000000)
        (fun j => BitVec.ofNat 8 (0x64 + j)) (fun g => BitVec.ofNat 8 (128 + g)) 4 2 2 1 = 448 := by
  obtain ⟨-, -, -, -, hmatmul, -⟩ := fused_eq_dequant constFpu ⟨true, true, true, false⟩ fun _ => 0
  rw [hmatmul _ _ _ _ 4 2 2 (fun _ => 0) (by decide) (by decide) (by decide)]
  simp only [Nat.one_lt_ofNat, if_true]
  rw [rowProduct_fills (engMxfp4DequantRowG_fills floatVal _ _ _ 4 (by decide))]
  decide +kernel

end LlmEngine.Quant
