/-
# LlmEngine.Tensor.View — tensor descriptors and their row views (`src/tensor/tensor.c`).

A tensor is described where its bytes are, in memory or in a file; its row `r` is `row_bytes` bytes
from `r * row_bytes` on.  A type with external scales keeps them in a sibling tensor, one scale row for
each row.  A view of some rows moves the start of the bytes; it leaves the sibling where it is.

The sizes are computed with a parameter for what an `int64_t` holds after an operation: `wrap64` is
the machine's, `id` computes exactly.

* `nbytes_rows`: the total size is the row size as often as there are rows, for every type and shape that has one.
* `viewRows_eq_some`: which views are made, and that one is `rowsView`, a descriptor that starts further on.
* `rowsView_rowSpan`: row `r` of a view is row `first + r` of the parent; views of views are views.
* `Rowed.inside` and `Rowed.apart`: a view lies in its parent, and views of different rows lie apart.
* `Rowed.scaleSpan_iff`: where there is a sibling, a view's scale rows are those of the parent's rows only if the view
  starts at row 0, or has no rows, or the scale rows are empty.
-/
import LlmEngine.Tensor.Dtype
import Mathlib.Algebra.Order.Ring.Int
import Mathlib.Tactic.Ring

namespace LlmEngine.Tensor

open LlmEngine.Lib

/-! ## Sizes -/

section Sizes

variable (w : Int → Int)

/-- `eng_dtype_bytes`. -/
def engDtypeBytesIn (dt : EngDType) (nelem : Int) : Int :=
  let info := engDtypeInfo dt
  if nelem < 0 then -1
  else if info.rowScale then -1
  else if nelem % info.blockElems ≠ 0 then -1
  else w (nelem / info.blockElems * info.blockBytes)

/-- `eng_dtype_row_bytes`. -/
def engDtypeRowBytesIn (dt : EngDType) (cols : Int) : Int :=
  let info := engDtypeInfo dt
  if cols < 0 then -1
  else if cols % info.blockElems ≠ 0 then -1
  else w (w (cols / info.blockElems * info.blockBytes) + info.rowExtra)

/-- `n *= shape[i]`, from `n` on. -/
def mulAllIn (n : Int) (shape : List Int) : Int := shape.foldl (fun n d => w (n * d)) n

/-- `eng_tensor_nbytes`. -/
def engTensorNbytesIn (dt : EngDType) (shape : List Int) : Int :=
  let info := engDtypeInfo dt
  if shape.length > 4 then -1
  else if shape.any (· < 0) then -1
  else
    let cols := shape.headD 1
    let rows := mulAllIn w 1 shape.tail
    if info.rowScale then
      let rb := engDtypeRowBytesIn w dt cols
      if rb < 0 then -1 else w (rows * rb)
    else if info.blockElems > 1 ∧ cols % info.blockElems ≠ 0 then -1
    else engDtypeBytesIn w dt (mulAllIn w 1 shape)

end Sizes

/-- The machine's sizes are those of `Tensor.Dtype`. -/
theorem engTensorNbytes_eq : engTensorNbytes = engTensorNbytesIn wrap64 := rfl

theorem engDtypeRowBytes_eq : engDtypeRowBytes = engDtypeRowBytesIn wrap64 := rfl

/-! ## Descriptors -/

/-- `flags`. -/
structure TensorFlags where
  owned : Bool
  resident : Bool
  mapped : Bool
  cached : Bool
  pinned : Bool
  view : Bool
  deriving DecidableEq, Repr

/-- The fields of `EngTensor` but its sibling; `shape` has `ndim` entries.  `store` stands for the
pointer to the storage. -/
structure TensorDesc where
  name : String
  dtype : EngDType
  shape : List Int
  stride : List Int
  nbytes : Int
  store : Option Nat
  fileOff : Int
  data : Option Int
  flags : TensorFlags
  deriving DecidableEq, Repr

/-- `EngTensor`, with the tensor that holds its external scales. -/
@[ext]
structure EngTensor extends TensorDesc where
  scales : Option TensorDesc
  deriving DecidableEq, Repr

/-- `eng_tensor_zero`; the fields it leaves are then filled in. -/
def engTensorZero (name : String) (dt : EngDType) (shape : List Int) (nbytes : Int) : EngTensor where
  name := name
  dtype := dt
  shape := shape
  stride := [0, 0, 0, 0]
  nbytes := nbytes
  store := none
  fileOff := 0
  data := none
  flags := ⟨false, false, false, false, false, false⟩
  scales := none

section Code

variable (w : Int → Int)

/-- `eng_tensor_init_file`. -/
def engTensorInitFile (name : String) (dt : EngDType) (shape : List Int) (store : Option Nat)
    (fileOff : Int) : Option EngTensor :=
  let nb := engTensorNbytesIn w dt shape
  if nb < 0 ∨ fileOff < 0 then none
  else some { engTensorZero name dt shape nb with store := store, fileOff := fileOff }

/-- `eng_tensor_init_mem`. -/
def engTensorInitMem (name : String) (dt : EngDType) (shape : List Int) (data : Option Int) (owned : Bool) :
    Option EngTensor :=
  let nb := engTensorNbytesIn w dt shape
  if nb < 0 then none
  else some { engTensorZero name dt shape nb with
    data := data, flags := ⟨owned, true, false, false, false, false⟩ }

/-- `eng_tensor_cols`. -/
def TensorDesc.cols (t : TensorDesc) : Int := t.shape.headD 1

/-- `eng_tensor_rows`. -/
def TensorDesc.rows (t : TensorDesc) : Int := mulAllIn w 1 t.shape.tail

/-- `eng_tensor_is_dense`. -/
def TensorDesc.isDense (t : TensorDesc) : Bool :=
  decide (0 < t.shape.length) && (List.range t.shape.length).all fun i => t.stride.getD i 0 == 0

/-- `eng_tensor_view_rows`. -/
def engTensorViewRows (src : EngTensor) (first count : Int) : Option EngTensor :=
  if ¬ src.isDense then none
  else if first < 0 ∨ count < 0 ∨ w (first + count) > src.rows w then none
  else
    let cols := src.cols
    let rb := engDtypeRowBytesIn w src.dtype cols
    if rb < 0 then none
    else
      let out := { engTensorZero src.name src.dtype [cols, count] (w (count * rb)) with scales := src.scales }
      let byteOff := w (first * rb)
      match src.data with
      | some p => some { out with
          data := some (p + byteOff)
          flags := ⟨false, true, src.flags.mapped, src.flags.cached, false, true⟩ }
      | none => some { out with
          store := src.store
          fileOff := w (src.fileOff + byteOff)
          flags := ⟨false, false, false, false, false, true⟩ }

end Code

/-- A tensor that one of the two constructors accepted, computing exactly, once its sibling has been
bound. -/
def Accepted (t : EngTensor) : Prop :=
  ∃ t₀ scales, t = { t₀ with scales := scales } ∧
    ((∃ name dt shape store fileOff, engTensorInitFile id name dt shape store fileOff = some t₀) ∨
      ∃ name dt shape data owned, engTensorInitMem id name dt shape data owned = some t₀)

/-! ## The bytes a tensor stands for -/

/-- Where bytes may be. -/
inductive Space
  | memory
  | file (store : Option Nat)
  deriving DecidableEq, Repr

/-- A run of bytes. -/
structure Span where
  space : Space
  start : Int
  len : Int
  deriving DecidableEq, Repr

def Span.Inside (a b : Span) : Prop :=
  a.space = b.space ∧ b.start ≤ a.start ∧ a.start + a.len ≤ b.start + b.len

/-- No byte in common. -/
def Span.Apart (a b : Span) : Prop :=
  a.space ≠ b.space ∨ a.start + a.len ≤ b.start ∨ b.start + b.len ≤ a.start

/-- `len` bytes, `off` bytes into the tensor. -/
def TensorDesc.span (t : TensorDesc) (off len : Int) : Span :=
  match t.data with
  | some p => ⟨.memory, p + off, len⟩
  | none => ⟨.file t.store, t.fileOff + off, len⟩

/-- `eng_dtype_row_bytes` of the tensor's rows. -/
def TensorDesc.rowBytes (t : TensorDesc) : Int := engDtypeRowBytesIn id t.dtype t.cols

/-- `eng_dtype_has_ext_scales`. -/
def engDtypeHasExtScales (dt : EngDType) : Bool := dt = .mxfp4

/-- The bytes of one row's scales, one for each group of 32 elements. -/
def TensorDesc.scaleBytes (t : TensorDesc) : Int := (t.cols + 31) / 32

/-- All the bytes. -/
def TensorDesc.bytes (t : TensorDesc) : Span := t.span 0 t.nbytes

/-- The bytes of row `r`. -/
def TensorDesc.rowSpan (t : TensorDesc) (r : Int) : Span := t.span (r * t.rowBytes) t.rowBytes

/-- The external scales of row `r`, where the type has them. -/
def EngTensor.scaleSpan (t : EngTensor) (r : Int) : Option Span :=
  if engDtypeHasExtScales t.dtype then
    t.scales.map fun s => s.span (r * t.scaleBytes) t.scaleBytes
  else none

/-! ## Total size and row size -/

theorem mulAllIn_id (shape : List Int) : ∀ n : Int, mulAllIn id n shape = n * shape.prod := by
  induction shape with
  | nil => intro n; simp [mulAllIn]
  | cons d ds ih =>
      intro n
      show mulAllIn id (n * d) ds = _
      rw [ih, List.prod_cons, mul_assoc]

theorem prod_headD_tail (shape : List Int) : shape.prod = shape.headD 1 * shape.tail.prod := by
  cases shape with
  | nil => rfl
  | cons d ds => exact List.prod_cons

theorem rowExtra_zero {dt : EngDType} (h : (engDtypeInfo dt).rowScale = false) :
    (engDtypeInfo dt).rowExtra = 0 := by
  cases dt <;> first | rfl | exact absurd h (by decide)

/-- A row that is whole blocks. -/
theorem rowBytesIn_blocks {dt : EngDType} {k : Int} (hk : 0 ≤ k) :
    engDtypeRowBytesIn id dt ((engDtypeInfo dt).blockElems * k) =
      k * (engDtypeInfo dt).blockBytes + (engDtypeInfo dt).rowExtra := by
  have hpos : (0 : Int) < (engDtypeInfo dt).blockElems := Int.natCast_pos.mpr (blockElems_pos dt)
  unfold engDtypeRowBytesIn
  simp only [id]
  rw [if_neg (not_lt.mpr (mul_nonneg hpos.le hk)), if_neg (not_not.mpr (Int.mul_emod_right _ _)),
    Int.mul_ediv_cancel_left _ hpos.ne']

/-- A shape that has a size has no negative dimension. -/
theorem dims_nonneg {dt : EngDType} {shape : List Int} (h : 0 ≤ engTensorNbytesIn id dt shape) :
    (∀ d ∈ shape, 0 ≤ d) ∧ 0 ≤ shape.headD 1 ∧ 0 ≤ mulAllIn id 1 shape.tail := by
  have hnn : ∀ d ∈ shape, 0 ≤ d := by
    intro d hd
    by_contra hlt
    have hany : shape.any (· < 0) = true := List.any_eq_true.mpr ⟨d, hd, decide_eq_true (not_le.mp hlt)⟩
    unfold engTensorNbytesIn at h
    simp only [hany, if_true, ite_self] at h
    exact absurd h (by decide)
  refine ⟨hnn, ?_, ?_⟩
  · cases shape with
    | nil => exact Int.one_nonneg
    | cons d ds => exact hnn d List.mem_cons_self
  · rw [mulAllIn_id, one_mul]
    exact exactElems_nonneg fun d hd => hnn d (List.mem_of_mem_tail hd)

/-- **Rows of `row_bytes` make up the total size**, for every type and shape that has one. -/
theorem nbytes_rows {dt : EngDType} {shape : List Int} (h : 0 ≤ engTensorNbytesIn id dt shape) :
    engTensorNbytesIn id dt shape =
        mulAllIn id 1 shape.tail * engDtypeRowBytesIn id dt (shape.headD 1) ∧
      0 ≤ engDtypeRowBytesIn id dt (shape.headD 1) := by
  obtain ⟨-, hcols, hrows⟩ := dims_nonneg h
  unfold engTensorNbytesIn at h ⊢
  simp only at h ⊢
  split_ifs at h ⊢ with hlen hneg hrow hrb hblock
  · exact absurd h (by decide)
  · exact absurd h (by decide)
  · exact absurd h (by decide)
  · exact ⟨rfl, not_lt.mp hrb⟩
  · exact absurd h (by decide)
  · -- the row is whole blocks, and so is the tensor
    have hwhole : ((engDtypeInfo dt).blockElems : Int) ∣ shape.headD 1 := by
      have hpos := blockElems_pos dt
      by_cases hone : (engDtypeInfo dt).blockElems > 1
      · exact Int.dvd_of_emod_eq_zero (not_not.mp fun hmod => hblock ⟨hone, hmod⟩)
      · rw [show (engDtypeInfo dt).blockElems = 1 by omega]
        exact one_dvd _
    have hpos : (0 : Int) < (engDtypeInfo dt).blockElems := Int.natCast_pos.mpr (blockElems_pos dt)
    obtain ⟨k, hk⟩ := hwhole
    have hk0 : 0 ≤ k := by
      rw [hk] at hcols
      exact nonneg_of_mul_nonneg_right hcols hpos
    have hflat : (engDtypeInfo dt).rowScale = false := Bool.eq_false_iff.mpr hrow
    have hrb : engDtypeRowBytesIn id dt (shape.headD 1) = k * (engDtypeInfo dt).blockBytes := by
      rw [hk, rowBytesIn_blocks hk0, rowExtra_zero hflat, Nat.cast_zero, add_zero]
    have helems : mulAllIn id 1 shape =
        (engDtypeInfo dt).blockElems * (k * mulAllIn id 1 shape.tail) := by
      rw [mulAllIn_id, mulAllIn_id, one_mul, one_mul, prod_headD_tail, hk, mul_assoc]
    refine ⟨?_, ?_⟩
    · unfold engDtypeBytesIn
      simp only [id]
      rw [helems, if_neg (not_lt.mpr (mul_nonneg hpos.le (mul_nonneg hk0 hrows))), if_neg hrow,
        if_neg (not_not.mpr (Int.mul_emod_right _ _)), Int.mul_ediv_cancel_left _ hpos.ne', hrb]
      ring
    · rw [hrb]
      exact mul_nonneg hk0 (Int.natCast_nonneg _)

/-- What the constructors establish: dense rows, of a size that makes up the total. -/
structure Rowed (t : EngTensor) : Prop where
  stride : t.stride = [0, 0, 0, 0]
  size : t.nbytes = t.rows id * t.rowBytes
  row : 0 ≤ t.rowBytes
  cols : 0 ≤ t.cols

theorem Accepted.rowed {t : EngTensor} (h : Accepted t) : Rowed t := by
  obtain ⟨t₀, scales, rfl, ⟨name, dt, shape, store, off, hinit⟩ | ⟨name, dt, shape, data, owned, hinit⟩⟩ := h
  · unfold engTensorInitFile at hinit
    simp only at hinit
    split_ifs at hinit with hbad
    obtain rfl := Option.some.inj hinit
    have hneg : ¬ engTensorNbytesIn id dt shape < 0 := fun hlt => hbad (.inl hlt)
    obtain ⟨hsize, hrow⟩ := nbytes_rows (not_lt.mp hneg)
    exact ⟨rfl, hsize, hrow, (dims_nonneg (not_lt.mp hneg)).2.1⟩
  · unfold engTensorInitMem at hinit
    simp only at hinit
    split_ifs at hinit with hneg
    obtain rfl := Option.some.inj hinit
    obtain ⟨hsize, hrow⟩ := nbytes_rows (not_lt.mp hneg)
    exact ⟨rfl, hsize, hrow, (dims_nonneg (not_lt.mp hneg)).2.1⟩

/-! ## Views -/

/-- The descriptor that `eng_tensor_view_rows` fills in. -/
def EngTensor.rowsView (t : EngTensor) (first count : Int) : EngTensor :=
  { engTensorZero t.name t.dtype [t.cols, count] (count * t.rowBytes) with
    scales := t.scales
    data := t.data.map (· + first * t.rowBytes)
    store := if t.data.isSome then none else t.store
    fileOff := if t.data.isSome then 0 else t.fileOff + first * t.rowBytes
    flags := ⟨false, t.data.isSome, t.data.isSome && t.flags.mapped, t.data.isSome && t.flags.cached,
      false, true⟩ }

section Views

variable {t v : EngTensor} {first count : Int}

/-- **Which views there are, and what they are.** -/
theorem viewRows_eq_some : engTensorViewRows id t first count = some v ↔
    (t.isDense = true ∧ 0 ≤ first ∧ 0 ≤ count ∧ first + count ≤ t.rows id ∧ 0 ≤ t.rowBytes) ∧
      v = t.rowsView first count := by
  have hbody : ∀ p, t.data = p → (match p with
      | some p => some { engTensorZero t.name t.dtype [t.cols, count] (count * t.rowBytes) with
          scales := t.scales, data := some (p + first * t.rowBytes)
          flags := ⟨false, true, t.flags.mapped, t.flags.cached, false, true⟩ }
      | none => some { engTensorZero t.name t.dtype [t.cols, count] (count * t.rowBytes) with
          scales := t.scales, store := t.store, fileOff := t.fileOff + first * t.rowBytes
          flags := ⟨false, false, false, false, false, true⟩ }) = some (t.rowsView first count) := by
    intro p hp
    cases p with
    | some p => simp [EngTensor.rowsView, hp, engTensorZero]
    | none => simp [EngTensor.rowsView, hp, engTensorZero]
  have hcode : engTensorViewRows id t first count =
      if ¬ t.isDense then none
      else if first < 0 ∨ count < 0 ∨ first + count > t.rows id then none
      else if t.rowBytes < 0 then none
      else some (t.rowsView first count) := by
    rw [← hbody t.data rfl]
    rfl
  rw [hcode]
  split_ifs with hdense hrange hrow
  · exact iff_of_false (by simp) fun h => by omega
  · exact iff_of_false (by simp) fun h => by omega
  · rw [Option.some.injEq]
    constructor
    · rintro rfl
      exact ⟨⟨hdense, by omega, by omega, by omega, by omega⟩, rfl⟩
    · rintro ⟨-, rfl⟩
      rfl
  · exact iff_of_false (by simp) fun h => hdense h.1.1

@[simp] theorem rowsView_cols : (t.rowsView first count).cols = t.cols := rfl

@[simp] theorem rowsView_rowBytes : (t.rowsView first count).rowBytes = t.rowBytes := rfl

theorem rowsView_rows : (t.rowsView first count).rows id = count := one_mul count

/-- Bytes of a view are bytes of the parent, from the first row on. -/
theorem rowsView_span (off len : Int) :
    (t.rowsView first count).span off len = t.span (first * t.rowBytes + off) len := by
  unfold TensorDesc.span
  cases hdata : t.data with
  | some p => simp [EngTensor.rowsView, hdata, add_assoc]
  | none => simp [EngTensor.rowsView, hdata, add_assoc]

/-- **A row of a view is a row of the parent.** -/
theorem rowsView_rowSpan (r : Int) : (t.rowsView first count).rowSpan r = t.rowSpan (first + r) := by
  unfold TensorDesc.rowSpan
  rw [rowsView_rowBytes, rowsView_span, add_mul]

/-- All the bytes of a view. -/
theorem rowsView_bytes :
    (t.rowsView first count).bytes = t.span (first * t.rowBytes) (count * t.rowBytes) := by
  unfold TensorDesc.bytes
  rw [rowsView_span, add_zero]
  rfl

/-- **A view of a view is a view of the parent**, descriptor for descriptor. -/
theorem rowsView_rowsView (first' count' : Int) :
    (t.rowsView first count).rowsView first' count' = t.rowsView (first + first') count' := by
  have hsum : ∀ base : Int, base + first * t.rowBytes + first' * t.rowBytes =
      base + (first + first') * t.rowBytes := by
    intro base
    ring
  apply EngTensor.ext <;> try rfl
  · show (if (t.data.map _).isSome then none else if t.data.isSome then none else t.store) =
      if t.data.isSome then none else t.store
    rw [Option.isSome_map]
    split_ifs <;> rfl
  · show (if (t.data.map _).isSome then 0 else (if t.data.isSome then 0 else _) + _) =
      if t.data.isSome then 0 else _
    rw [Option.isSome_map]
    split_ifs
    · rfl
    · exact hsum t.fileOff
  · show (t.data.map _).map _ = t.data.map _
    rw [Option.map_map]
    congr 1
    funext p
    exact hsum p
  · simp only [EngTensor.rowsView, Option.isSome_map, ← Bool.and_assoc, Bool.and_self]

theorem span_inside (t : TensorDesc) {off len off' len' : Int} (hlo : off' ≤ off)
    (hhi : off + len ≤ off' + len') : (t.span off len).Inside (t.span off' len') := by
  unfold TensorDesc.span
  cases t.data with
  | some p => exact ⟨rfl, by simp only; omega, by simp only; omega⟩
  | none => exact ⟨rfl, by simp only; omega, by simp only; omega⟩

theorem span_apart (t : TensorDesc) {off len off' len' : Int}
    (h : off + len ≤ off' ∨ off' + len' ≤ off) : (t.span off len).Apart (t.span off' len') := by
  unfold TensorDesc.span
  refine .inr ?_
  cases t.data with
  | some p => simp only; omega
  | none => simp only; omega

/-- A view lies inside its parent. -/
theorem Rowed.inside (ht : Rowed t) (hfirst : 0 ≤ first) (hends : first + count ≤ t.rows id) :
    (t.rowsView first count).bytes.Inside t.bytes := by
  rw [rowsView_bytes]
  apply span_inside
  · exact mul_nonneg hfirst ht.row
  · rw [← add_mul, zero_add, ht.size]
    exact mul_le_mul_of_nonneg_right hends ht.row

/-- Views of disjoint row ranges have no byte in common. -/
theorem Rowed.apart (ht : Rowed t) {first' count' : Int}
    (h : first + count ≤ first' ∨ first' + count' ≤ first) :
    (t.rowsView first count).bytes.Apart (t.rowsView first' count').bytes := by
  rw [rowsView_bytes, rowsView_bytes]
  apply span_apart
  rw [← add_mul, ← add_mul]
  exact h.imp (fun hle => mul_le_mul_of_nonneg_right hle ht.row)
    fun hle => mul_le_mul_of_nonneg_right hle ht.row

/-- A scale row is empty only where a row has no elements. -/
theorem Rowed.scaleBytes_zero (ht : Rowed t) : t.scaleBytes = 0 ↔ t.cols = 0 := by
  have := ht.cols
  unfold TensorDesc.scaleBytes
  omega

theorem span_inj {s : TensorDesc} {off off' len : Int} : s.span off len = s.span off' len ↔ off = off' := by
  unfold TensorDesc.span
  cases s.data with
  | some p => simp
  | none => simp

/-- **The external scales of a view's rows are those of the parent's rows** only where no scale row is
skipped. -/
theorem Rowed.scaleSpan_iff (ht : Rowed t) (hfirst : 0 ≤ first) (hcount : 0 ≤ count) :
    (∀ r, 0 ≤ r → r < count → (t.rowsView first count).scaleSpan r = t.scaleSpan (first + r)) ↔
      engDtypeHasExtScales t.dtype = false ∨ t.scales = none ∨ first = 0 ∨ count = 0 ∨ t.cols = 0 := by
  have hview : ∀ r, (t.rowsView first count).scaleSpan r = t.scaleSpan r := fun r => rfl
  simp only [hview]
  unfold EngTensor.scaleSpan
  cases hext : engDtypeHasExtScales t.dtype with
  | false => simp
  | true =>
      cases hs : t.scales with
      | none => simp
      | some s =>
          simp only [if_true, Option.map_some, Option.some.injEq, span_inj, reduceCtorEq, false_or]
          constructor
          · intro h
            by_cases hnone : count = 0
            · exact .inr (.inl hnone)
            · -- the first row shows it
              have hzero := h 0 (le_refl 0) (by omega)
              rw [zero_mul, add_zero, eq_comm, mul_eq_zero, ht.scaleBytes_zero] at hzero
              exact hzero.imp_right .inr
          · rintro (rfl | hnone | hcols) r hr hlt
            · rw [zero_add]
            · omega
            · rw [ht.scaleBytes_zero.mpr hcols, mul_zero, mul_zero]

end Views

/-! ## What a view denotes -/

/-- The view of `count` rows from `first` on denotes those rows of the parent. -/
structure Denotes (t v : EngTensor) (first count : Int) : Prop where
  inside : v.bytes.Inside t.bytes
  rows : ∀ r, 0 ≤ r → r < count → v.rowSpan r = t.rowSpan (first + r)
  scaleRows : ∀ r, 0 ≤ r → r < count → v.scaleSpan r = t.scaleSpan (first + r)
  apart : ∀ first' count' v', engTensorViewRows id t first' count' = some v' →
    first + count ≤ first' ∨ first' + count' ≤ first → v.bytes.Apart v'.bytes
  again : ∀ first' count' u, engTensorViewRows id v first' count' = some u →
    engTensorViewRows id t (first + first') count' = some u

/-- **Exactly when a row view denotes the parent's rows**: unless it skips rows of a tensor with external
scales.  The rows make up the size of every tensor. -/
theorem viewRows_denotes_iff {t : EngTensor} (ht : Accepted t) :
    t.nbytes = t.rows id * t.rowBytes ∧
      ∀ first count v, engTensorViewRows id t first count = some v →
        (Denotes t v first count ↔ engDtypeHasExtScales t.dtype = false ∨ t.scales = none ∨ first = 0 ∨
          count = 0 ∨ t.cols = 0) := by
  have hrowed := ht.rowed
  refine ⟨hrowed.size, fun first count v hv => ?_⟩
  obtain ⟨⟨hdense, hfirst, hcount, hends, hrow⟩, rfl⟩ := viewRows_eq_some.mp hv
  rw [← hrowed.scaleSpan_iff hfirst hcount]
  refine ⟨fun h => h.scaleRows, fun hscales => ⟨hrowed.inside hfirst hends,
    fun r _ _ => rowsView_rowSpan r, hscales, ?_, ?_⟩⟩
  · intro first' count' v' hv' hrange
    obtain ⟨-, rfl⟩ := viewRows_eq_some.mp hv'
    exact hrowed.apart hrange
  · intro first' count' u hu
    obtain ⟨⟨-, hfirst', hcount', hends', -⟩, rfl⟩ := viewRows_eq_some.mp hu
    rw [rowsView_rows] at hends'
    exact viewRows_eq_some.mpr
      ⟨⟨hdense, by omega, hcount', by omega, hrow⟩, rowsView_rowsView first' count'⟩

/-! ## Packed weights with their scales -/

/-- Four rows of 64 elements in memory, 32 bytes a row, with two scale bytes a row. -/
def packedFour : EngTensor :=
  { engTensorZero "w1.weight_packed" .mxfp4 [64, 4] 128 with
    data := some 4096
    flags := ⟨false, true, false, false, false, false⟩
    scales := some { engTensorZero "w1.weight_scale" .u8 [2, 4] 8 with
      data := some 8192
      flags := ⟨false, true, false, false, false, false⟩ } }

theorem packedFour_accepted : Accepted packedFour :=
  ⟨{ packedFour with scales := none }, packedFour.scales, rfl,
    .inr ⟨"w1.weight_packed", .mxfp4, [64, 4], some 4096, false, by decide⟩⟩

/-- A view from the first row on keeps its scales. -/
theorem packedFour_denotes : packedFour.nbytes = 4 * 32 ∧ Denotes packedFour (packedFour.rowsView 0 2) 0 2 := by
  obtain ⟨hsize, hview⟩ := viewRows_denotes_iff packedFour_accepted
  exact ⟨hsize, (hview 0 2 _ (by decide)).mpr (.inr (.inr (.inl rfl)))⟩

/-- **A view from the second row on takes its scales from the first.** -/
theorem packedFour_not_denotes :
    engTensorViewRows id packedFour 1 2 = some (packedFour.rowsView 1 2) ∧
      ¬ Denotes packedFour (packedFour.rowsView 1 2) 1 2 :=
  ⟨by decide, fun h => absurd (h.scaleRows 0 (by decide) (by decide)) (by decide)⟩

end LlmEngine.Tensor
