/-
# LlmEngine.Tensor.Dtype — the data types and their sizes (`src/tensor/dtype.c`, `tensor.c`).

A quantised type stores `block_elems` elements in `block_bytes` bytes; a row-scaled one pays
`row_extra` bytes for each row.  `eng_tensor_nbytes` computes in `int64_t`, so products wrap;
`exactBytes` is the size those computations stand for.

* `engDtypeInfo` is the table of the source: elements and bytes of a block, and what is paid for a row.
* `mulAll` is the product of the dimensions as the loop computes it, modulo 2^64 (`mulAll_eq`).
* `engTensorNbytes_exact`: where the exact number of elements and bytes fit, the computed size is the exact one.

A registered format has a `row_bytes` of its own, over blocks of its own size (`blockRowBytes`), which is -1 for a
row that is no whole number of them.
-/
import LlmEngine.Lib.Int64
import Mathlib.Algebra.BigOperators.Group.List.Basic
import Mathlib.Algebra.Ring.Int.Defs

namespace LlmEngine.Tensor

open LlmEngine.Lib

/-- `EngDType`, without `ENG_DT_INVALID`. -/
inductive EngDType
  | f32 | f16 | bf16 | f64 | i8 | u8 | i16 | i32 | i64
  | q4_0 | q4_1 | q5_0 | q5_1 | q8_0 | q8_1
  | q2_k | q3_k | q4_k | q5_k | q6_k | q8_k
  | mxfp4 | i8r
  deriving DecidableEq, Repr

/-- `EngDTypeInfo`, as far as sizes go; `rowScale` is the flag `ENG_DTF_ROW_SCALE`. -/
structure EngDTypeInfo where
  blockElems : Nat
  blockBytes : Nat
  rowExtra : Nat
  rowScale : Bool
  deriving DecidableEq, Repr

/-- `TBL`. -/
def engDtypeInfo : EngDType → EngDTypeInfo
  | .f32 => ⟨1, 4, 0, false⟩
  | .f16 => ⟨1, 2, 0, false⟩
  | .bf16 => ⟨1, 2, 0, false⟩
  | .f64 => ⟨1, 8, 0, false⟩
  | .i8 => ⟨1, 1, 0, false⟩
  | .u8 => ⟨1, 1, 0, false⟩
  | .i16 => ⟨1, 2, 0, false⟩
  | .i32 => ⟨1, 4, 0, false⟩
  | .i64 => ⟨1, 8, 0, false⟩
  | .q4_0 => ⟨32, 18, 0, false⟩
  | .q4_1 => ⟨32, 20, 0, false⟩
  | .q5_0 => ⟨32, 22, 0, false⟩
  | .q5_1 => ⟨32, 24, 0, false⟩
  | .q8_0 => ⟨32, 34, 0, false⟩
  | .q8_1 => ⟨32, 36, 0, false⟩
  | .q2_k => ⟨256, 84, 0, false⟩
  | .q3_k => ⟨256, 110, 0, false⟩
  | .q4_k => ⟨256, 144, 0, false⟩
  | .q5_k => ⟨256, 176, 0, false⟩
  | .q6_k => ⟨256, 210, 0, false⟩
  | .q8_k => ⟨256, 292, 0, false⟩
  | .mxfp4 => ⟨2, 1, 0, false⟩
  | .i8r => ⟨1, 1, 4, true⟩

/-- `eng_dtype_bytes`. -/
def engDtypeBytes (dt : EngDType) (nelem : Int) : Int :=
  let info := engDtypeInfo dt
  if nelem < 0 then -1
  else if info.rowScale then -1
  else if nelem % info.blockElems ≠ 0 then -1
  else wrap64 (nelem / info.blockElems * info.blockBytes)

/-- `eng_dtype_row_bytes`. -/
def engDtypeRowBytes (dt : EngDType) (cols : Int) : Int :=
  let info := engDtypeInfo dt
  if cols < 0 then -1
  else if cols % info.blockElems ≠ 0 then -1
  else wrap64 (wrap64 (cols / info.blockElems * info.blockBytes) + info.rowExtra)

/-- The `row_bytes` of the registered formats: whole blocks of `per` elements in `bytes` bytes. -/
def blockRowBytes (per bytes n : Int) : Int :=
  if n < 0 ∨ n.tmod per ≠ 0 then -1 else n.tdiv per * bytes

/-- `eng_quant_ops(dt)->row_bytes`, where a format is registered. -/
def quantRowBytes : EngDType → Option (Int → Int)
  | .mxfp4 => some (blockRowBytes 2 1)
  | .q8_0 => some (blockRowBytes 32 34)
  | .q4_k => some (blockRowBytes 256 144)
  | .q6_k => some (blockRowBytes 256 210)
  | _ => none

/-- `scale_bytes` of the registered formats. -/
def quantScaleBytes (dt : EngDType) (n : Int) : Int :=
  if dt = .mxfp4 then (if n < 0 then -1 else (n + 31).tdiv 32) else 0

/-- `n *= shape[i]`, from `n` on. -/
def mulAll (n : Int) (shape : List Int) : Int := shape.foldl (fun n d => wrap64 (n * d)) n

/-- `eng_tensor_nbytes`. -/
def engTensorNbytes (dt : EngDType) (shape : List Int) : Int :=
  let info := engDtypeInfo dt
  if shape.length > 4 then -1
  else if shape.any (· < 0) then -1
  else
    -- rank 0 is a scalar: one row of one column
    let cols := shape.headD 1
    let rows := mulAll 1 shape.tail
    if info.rowScale then
      let rb := engDtypeRowBytes dt cols
      if rb < 0 then -1 else wrap64 (rows * rb)
    else if info.blockElems > 1 ∧ cols % info.blockElems ≠ 0 then -1
    else engDtypeBytes dt (mulAll 1 shape)

/-! ## Exact sizes -/

/-- The number of elements, exactly. -/
def exactElems (shape : List Int) : Int := shape.prod

/-- The byte size of a tensor of a type that is not row-scaled, exactly. -/
def exactBytes (dt : EngDType) (shape : List Int) : Int :=
  exactElems shape / (engDtypeInfo dt).blockElems * (engDtypeInfo dt).blockBytes

theorem mulAll_eq (shape : List Int) :
    ∀ {n : Int}, wrap64 n = n → mulAll n shape = wrap64 (n * exactElems shape) := by
  induction shape with
  | nil =>
      intro n hn
      rw [exactElems, List.prod_nil, mul_one, hn]
      rfl
  | cons d ds ih =>
      intro n _
      show mulAll (wrap64 (n * d)) ds = _
      rw [ih (wrap64_wrap64 _), wrap64_mul_left, exactElems, exactElems, List.prod_cons, mul_assoc]

theorem blockElems_pos (dt : EngDType) : 0 < (engDtypeInfo dt).blockElems := by
  cases dt <;> decide

theorem exactElems_nonneg {shape : List Int} (h : ∀ d ∈ shape, 0 ≤ d) : 0 ≤ exactElems shape := by
  unfold exactElems
  induction shape with
  | nil => exact Int.one_nonneg
  | cons d ds ih =>
      rw [List.prod_cons]
      exact Int.mul_nonneg (h d List.mem_cons_self) (ih fun x hx => h x (List.mem_cons_of_mem _ hx))

theorem blockRowBytes_eq {per bytes n : Int} (hn : 0 ≤ n) :
    blockRowBytes per bytes n = if per ∣ n then n / per * bytes else -1 := by
  unfold blockRowBytes
  rw [Int.tdiv_eq_ediv_of_nonneg hn, Int.tmod_eq_emod_of_nonneg hn]
  by_cases hdvd : per ∣ n
  · rw [if_pos hdvd, if_neg]
    have := Int.emod_eq_zero_of_dvd hdvd
    omega
  · rw [if_neg hdvd, if_pos]
    exact .inr fun h => hdvd (Int.dvd_of_emod_eq_zero h)

/-- At least two bits an element. -/
theorem blockElems_le (dt : EngDType) :
    (engDtypeInfo dt).blockElems ≤ 4 * (engDtypeInfo dt).blockBytes := by
  cases dt <;> decide

/-- A shape whose rows are whole blocks is whole blocks. -/
theorem blocks_dvd {shape : List Int} {be : Nat} (hne : shape ≠ [])
    (h : ¬ (be > 1 ∧ shape.headD 1 % be ≠ 0)) (hbe : 0 < be) : (be : Int) ∣ exactElems shape := by
  cases shape with
  | nil => exact absurd rfl hne
  | cons d ds =>
      unfold exactElems
      rw [List.prod_cons]
      apply Dvd.dvd.mul_right
      by_cases hone : be > 1
      · exact Int.dvd_of_emod_eq_zero (not_not.mp fun hmod => h ⟨hone, hmod⟩)
      · have hbe1 : be = 1 := by omega
        rw [hbe1]
        exact one_dvd _

theorem exactBytes_nonneg (dt : EngDType) {shape : List Int} (h : ∀ d ∈ shape, 0 ≤ d) :
    0 ≤ exactBytes dt shape := by
  unfold exactBytes
  exact Int.mul_nonneg (Int.ediv_nonneg (exactElems_nonneg h) (Int.natCast_nonneg _))
    (Int.natCast_nonneg _)

/-- **Where nothing wraps around, `eng_tensor_nbytes` is exact.** -/
theorem engTensorNbytes_exact {dt : EngDType} {shape : List Int}
    (hrow : (engDtypeInfo dt).rowScale = false) (hne : shape ≠ []) (hlen : shape.length ≤ 4)
    (hnn : ∀ d ∈ shape, 0 ≤ d) (hwhole : ((engDtypeInfo dt).blockElems : Int) ∣ shape.headD 1)
    (helems : exactElems shape < 2 ^ 63) (hbytes : exactBytes dt shape < 2 ^ 63) :
    engTensorNbytes dt shape = exactBytes dt shape := by
  have hmul : mulAll 1 shape = exactElems shape := by
    have hge := exactElems_nonneg hnn
    rw [mulAll_eq shape (show wrap64 1 = 1 by decide), one_mul, wrap64_of_range (by omega) helems]
  have hany : ¬ (shape.any (· < 0)) = true := by
    intro h
    obtain ⟨d, hd, hneg⟩ := List.any_eq_true.mp h
    have := hnn d hd
    have := of_decide_eq_true hneg
    omega
  have hblock : ¬ ((engDtypeInfo dt).blockElems > 1 ∧
      shape.headD 1 % (engDtypeInfo dt).blockElems ≠ 0) :=
    fun h => h.2 (Int.emod_eq_zero_of_dvd hwhole)
  have hneg : ¬ exactElems shape < 0 := by
    have := exactElems_nonneg hnn
    omega
  have hdvd := blocks_dvd hne hblock (blockElems_pos dt)
  have hbytes' := exactBytes_nonneg dt hnn
  unfold engTensorNbytes engDtypeBytes
  simp only [hrow, Bool.false_eq_true, if_false]
  rw [if_neg (by omega), if_neg hany, if_neg hblock, hmul, if_neg hneg,
    if_neg (not_not.mpr (Int.emod_eq_zero_of_dvd hdvd))]
  exact wrap64_of_range (by unfold exactBytes at hbytes'; omega) hbytes

end LlmEngine.Tensor
