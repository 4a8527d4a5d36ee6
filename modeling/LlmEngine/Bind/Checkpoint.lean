/-
# LlmEngine.Bind.Checkpoint — tensors of a checkpoint and how they are read (`src/io/k3_st.c`).

A `float` is its 32 bits.  Widening a bf16 or an f16 is bit manipulation and is written out; the two
conversions that round, from an unsigned byte and from a scaled int8, are left open (`FloatOps`).

`k3_st_read` copies a tensor's bytes, `k3_st_read_f32` widens it in chunks of four mebibytes.  Both go
through the read loop of `Lib.ReadLoop`, one kernel per loop, and both may come up short.

* `K3Tensor` carries what the scan has checked of a tensor, its sizes among them (`scanTensor`).
* `WidenedAt` says that elements are stored as fp32; what an element is, is a function of the file (`K3Tensor.elem`).
* `k3StRead_stores` and `widenLoop_stores` hold of a read that comes up short too: what is reported is what is
  there, and the rest of memory is as it was.  `widenLoop_stores` is by induction on the chunks.
* A tensor that lies inside its file is read whole (`k3StRead_inFile`, `k3StReadF32_inFile`).
-/
import LlmEngine.Bind.Plan
import LlmEngine.Lib.ReadLoop
import LlmEngine.Storage.ReadAligned
import Mathlib.Algebra.BigOperators.Group.List.Basic

namespace LlmEngine.Bind

open LlmEngine.Lib

/-! ## Elements -/

/-- The conversions that round: `(float)p` of a byte, and `(float)q8 * scale`. -/
structure FloatOps where
  ofU8 : UInt8 → BitVec 32
  scaleI8 : UInt8 → BitVec 32 → BitVec 32

/-- `k3_bf16f`, `k3_bf16_to_f32`: bf16 is the top half of an fp32. -/
def bf16f (h : BitVec 16) : BitVec 32 := h.setWidth 32 <<< 16

/-- `while (!(man & 0x400)) { man <<= 1; sh++; }`; a subnormal needs at most ten shifts. -/
def renormalise : Nat → BitVec 32 → Nat → BitVec 32 × Nat
  | 0, man, sh => (man, sh)
  | fuel + 1, man, sh => if man &&& 0x400 = 0 then renormalise fuel (man <<< 1) (sh + 1) else (man, sh)

/-- The f16 branch of `k3_st_read_f32`. -/
def f16f (h : BitVec 16) : BitVec 32 :=
  let sign := (h &&& 0x8000).setWidth 32 <<< 16
  let exp := (h >>> 10).setWidth 32 &&& 0x1F
  let man := h.setWidth 32 &&& 0x3FF
  if exp = 0 then
    if man = 0 then sign
    else
      let r := renormalise 10 man 0
      sign ||| BitVec.ofNat 32 (127 - 15 + 1 - r.2) <<< 23 ||| (r.1 &&& 0x3FF) <<< 13
  else if exp = 31 then sign ||| 0x7F800000 ||| man <<< 13
  else sign ||| (exp - 15 + 127) <<< 23 ||| man <<< 13

/-- `k3_st_elemsize`. -/
def k3StElemsize : K3Dtype → Int
  | .u8 => 1
  | .bf16 => 2
  | .f16 => 2
  | .f32 => 4
  | .unknown => 0
  | .i8r => 0

/-- Element `i` of an array of `dt` that starts at `p`, as fp32. -/
def widenElem (ops : FloatOps) (dt : K3Dtype) (m : Mem) (p i : Int) : BitVec 32 :=
  match dt with
  | .f32 => le32 m (p + 4 * i)
  | .bf16 => bf16f (le16 m (p + 2 * i))
  | .f16 => f16f (le16 m (p + 2 * i))
  | .u8 => ops.ofU8 (m (p + i))
  | .unknown => 0
  | .i8r => 0

/-- An element depends on its own bytes only. -/
theorem widenElem_same {ops : FloatOps} {dt : K3Dtype} {m m' : Mem} {p p' n i : Int}
    (h : SameBytes m p m' p' n) (hlo : 0 ≤ i) (hhi : (i + 1) * k3StElemsize dt ≤ n) :
    widenElem ops dt m' p' i = widenElem ops dt m p i := by
  cases dt with
  | unknown => rfl
  | i8r => rfl
  | u8 =>
      simp only [k3StElemsize] at hhi
      exact congrArg ops.ofU8 (h i hlo (by omega))
  | bf16 =>
      simp only [k3StElemsize] at hhi
      exact congrArg bf16f (h.word16 (by omega) (by omega))
  | f16 =>
      simp only [k3StElemsize] at hhi
      exact congrArg f16f (h.word16 (by omega) (by omega))
  | f32 =>
      simp only [k3StElemsize] at hhi
      exact h.word32 (by omega) (by omega)

theorem widenElem_shift (ops : FloatOps) (dt : K3Dtype) (m : Mem) (p d i : Int) :
    widenElem ops dt m (p + d * k3StElemsize dt) i = widenElem ops dt m p (d + i) := by
  cases dt with
  | unknown => rfl
  | i8r => rfl
  | u8 =>
      simp only [widenElem, k3StElemsize]
      congr 2
      ring
  | bf16 =>
      simp only [widenElem, k3StElemsize]
      congr 2
      ring
  | f16 =>
      simp only [widenElem, k3StElemsize]
      congr 2
      ring
  | f32 =>
      simp only [widenElem, k3StElemsize]
      congr 1
      ring

/-! ## Tensors -/

/-- `K3Tensor`, with what `scan_shard` checks before it indexes one. -/
structure K3Tensor where
  shard : Nat
  dtype : K3Dtype
  shape : List Int
  off : Int
  nbytes : Int
  rank : shape.length ≤ 4
  known : dtype ≠ .unknown ∧ dtype ≠ .i8r
  /-- the byte span equals elements times element size -/
  consistent : nbytes = shape.prod * k3StElemsize dtype
  off_min : -2 ^ 63 ≤ off
  off_max : off < 2 ^ 63
  /-- the span ended inside its file -/
  ends : off + nbytes < 2 ^ 63
  deriving DecidableEq

/-- `k3_st_numel`; a scalar has one element. -/
def K3Tensor.numel (t : K3Tensor) : Int := t.shape.prod

/-- The end of `scan_shard`: one entry of a header, as it is indexed or refused. -/
def scanTensor (shard : Nat) (dtype : K3Dtype) (shape : List Int) (off nbytes : Int) : Option K3Tensor :=
  if h : shape.length ≤ 4 ∧ (dtype ≠ .unknown ∧ dtype ≠ .i8r) ∧ nbytes = shape.prod * k3StElemsize dtype ∧
      -2 ^ 63 ≤ off ∧ off < 2 ^ 63 ∧ off + nbytes < 2 ^ 63 then
    some { shard := shard, dtype := dtype, shape := shape, off := off, nbytes := nbytes, rank := h.1
           known := h.2.1, consistent := h.2.2.1, off_min := h.2.2.2.1, off_max := h.2.2.2.2.1
           ends := h.2.2.2.2.2 }
  else none

/-- An indexed tensor has elements of a known size. -/
theorem K3Tensor.elemsize_pos (t : K3Tensor) : 0 < k3StElemsize t.dtype := by
  have hknown := t.known
  cases hdt : t.dtype <;> simp_all [k3StElemsize]

/-- `K3St` with its index.  Names are unique, so the hash table is a function of the name. -/
structure K3StIndex extends Storage.K3St where
  find : String → Option K3Tensor

theorem mem_of_lookup {index : List (String × K3Tensor)} {name : String} {t : K3Tensor}
    (h : index.lookup name = some t) : (name, t) ∈ index := by
  obtain ⟨before, after, rfl, -⟩ := List.lookup_eq_some_iff.mp h
  exact List.mem_append_right _ (List.mem_cons_self ..)

/-- `k3_st_read` into memory at `dst`. -/
def k3StRead (f : FileBytes) (k : Kernel f.size) (t : K3Tensor) (m : Mem) (dst : Int) : Int × Mem :=
  let r := readLoop f k t.off t.nbytes 0 0 fun p => m (dst + p)
  (r.1, fun a => r.2 (a - dst))

/-- `K3_WIDEN_CHUNK`. -/
def widenChunk : Int := 4194304

/-- The loop of `k3_st_read_f32` from element `done` on, the `j`-th chunk next.  `raw` is the staging
buffer. -/
def widenLoop (ops : FloatOps) (f : FileBytes) (k : Nat → Kernel f.size) (t : K3Tensor) (chunk : Int)
    (hchunk : 0 < chunk) (dst : Int) (j : Nat) (done : Int) (raw m : Mem) : Int × Mem :=
  if done < t.numel then
    let take := min (t.numel - done) chunk
    let want := take * k3StElemsize t.dtype
    let r := readLoop f (k j) (wrap64 (t.off + done * k3StElemsize t.dtype)) want 0 0 raw
    if r.1 < want then (done, m)
    else
      widenLoop ops f k t chunk hchunk dst (j + 1) (done + take) r.2
        (putWords32 m (dst + 4 * done) take fun i => widenElem ops t.dtype r.2 0 i)
  else (t.numel, m)
termination_by (t.numel - done).toNat
decreasing_by omega

/-- `k3_st_read_f32` into memory at `dst`; the result counts elements. -/
def k3StReadF32 (ops : FloatOps) (f : FileBytes) (k : Nat → Kernel f.size) (t : K3Tensor) (raw m : Mem)
    (dst : Int) : Int × Mem :=
  if t.dtype = .f32 then
    let r := k3StRead f (k 0) t m dst
    (r.1.tdiv 4, r.2)
  else if h : k3StElemsize t.dtype ≤ 0 then (0, m)
  else
    widenLoop ops f k t (widenChunk / k3StElemsize t.dtype)
      (by cases hd : t.dtype <;> simp_all [k3StElemsize, widenChunk]) dst 0 0 raw m

/-! ## What a full read leaves -/

/-- Element `i` of the tensor as the checkpoint has it. -/
def K3Tensor.elem (ops : FloatOps) (f : FileBytes) (t : K3Tensor) (i : Int) : BitVec 32 :=
  widenElem ops t.dtype f.mem t.off i

/-- The first `n` elements of the tensor, as fp32, are at `dst`. -/
def K3Tensor.WidenedAt (ops : FloatOps) (f : FileBytes) (t : K3Tensor) (m : Mem) (dst n : Int) : Prop :=
  ∀ i, 0 ≤ i → i < n → le32 m (dst + 4 * i) = t.elem ops f i

/-- **What `k3_st_read` reports is what it has copied**, and it has touched nothing else. -/
theorem k3StRead_stores (f : FileBytes) (k : Kernel f.size) {t : K3Tensor} (hn : 0 ≤ t.nbytes) (m : Mem)
    (dst : Int) :
    let r := k3StRead f k t m dst
    (0 ≤ r.1 ∧ r.1 ≤ t.nbytes) ∧ SameBytes f.mem t.off r.2 dst r.1 ∧ Kept m r.2 dst (dst + r.1) := by
  obtain ⟨hrange, hread⟩ := readLoop_prefix f k t.off_min t.off_max hn fun p => m (dst + p)
  set got := (readLoop f k t.off t.nbytes 0 0 fun p => m (dst + p)).1 with hgot
  have hmem : (k3StRead f k t m dst).2 = putBytes m dst got fun o => f.mem (t.off + o) := by
    funext a
    show (readLoop f k t.off t.nbytes 0 0 fun p => m (dst + p)).2 (a - dst) = _
    rw [hread]
    unfold putBytes
    by_cases hin : dst ≤ a ∧ a < dst + got
    · rw [if_pos hin, if_pos (by omega), sub_zero]
    · rw [if_neg hin, if_neg (by omega)]
      show m (dst + (a - dst)) = m a
      rw [add_sub_cancel]
  have hfst : (k3StRead f k t m dst).1 = got := rfl
  simp only
  rw [hmem, hfst]
  refine ⟨hrange, fun j hj hlt => ?_, putBytes_kept _ _ _ _⟩
  rw [putBytes_inside _ _ (by omega) (by omega), add_sub_cancel_left]

theorem k3StRead_full {f : FileBytes} {k : Kernel f.size} {t : K3Tensor} {m : Mem} {dst : Int}
    (hn : 0 ≤ t.nbytes) (hfull : t.nbytes ≤ (k3StRead f k t m dst).1) :
    SameBytes f.mem t.off (k3StRead f k t m dst).2 dst t.nbytes ∧
      Kept m (k3StRead f k t m dst).2 dst (dst + t.nbytes) := by
  obtain ⟨⟨-, hle⟩, hsame, hkept⟩ := k3StRead_stores f k hn m dst
  rw [le_antisymm hle hfull] at hsame hkept
  exact ⟨hsame, hkept⟩

/-- **The chunks of the widening do not show**: the elements that the loop reports are stored, and
nothing else is. -/
theorem widenLoop_stores (ops : FloatOps) (f : FileBytes) (k : Nat → Kernel f.size) (t : K3Tensor)
    {chunk : Int} (hchunk : 0 < chunk) (dst : Int) (j : Nat) (done : Int) (raw m : Mem)
    (hdone : 0 ≤ done) (hle : done ≤ t.numel) (hesz : 0 < k3StElemsize t.dtype) :
    let r := widenLoop ops f k t chunk hchunk dst j done raw m
    (done ≤ r.1 ∧ r.1 ≤ t.numel) ∧
      (∀ i, done ≤ i → i < r.1 → le32 r.2 (dst + 4 * i) = t.elem ops f i) ∧
      Kept m r.2 (dst + 4 * done) (dst + 4 * r.1) := by
  unfold widenLoop
  by_cases hlt : done < t.numel
  · rw [if_pos hlt]
    simp only
    generalize htake : min (t.numel - done) chunk = take
    by_cases hshort : (readLoop f (k j) (wrap64 (t.off + done * k3StElemsize t.dtype))
        (take * k3StElemsize t.dtype) 0 0 raw).1 < take * k3StElemsize t.dtype
    · -- the file ends here, and the chunk is not stored
      rw [if_pos hshort]
      exact ⟨⟨le_refl done, hle⟩, fun i hi hin => absurd hin (by simp only; omega), Kept.refl _ _ _⟩
    · rw [if_neg hshort]
      have hpos : 0 < take := by omega
      have hwant : 0 ≤ take * k3StElemsize t.dtype := mul_nonneg hpos.le hesz.le
      have hread := readLoop_full f (k j) (wrap64_ge _) (wrap64_lt _) hwant raw (not_lt.mp hshort)
      obtain ⟨⟨hnext, hmax⟩, hrest, hkept⟩ := widenLoop_stores ops f k t hchunk dst (j + 1) (done + take)
        (readLoop f (k j) (wrap64 (t.off + done * k3StElemsize t.dtype))
          (take * k3StElemsize t.dtype) 0 0 raw).2
        (putWords32 m (dst + 4 * done) take fun i => widenElem ops t.dtype
          (readLoop f (k j) (wrap64 (t.off + done * k3StElemsize t.dtype))
            (take * k3StElemsize t.dtype) 0 0 raw).2 0 i) (by omega) (by omega) hesz
      refine ⟨⟨by omega, hmax⟩, fun i hi hin => ?_, ?_⟩
      · by_cases hlater : done + take ≤ i
        · exact hrest i hlater hin
        · -- stored by this chunk, and not touched by the later ones
          have hlo : wrap64 (t.off + done * k3StElemsize t.dtype) = t.off + done * k3StElemsize t.dtype := by
            have hspan : done * k3StElemsize t.dtype ≤ t.nbytes := by
              rw [t.consistent]
              exact mul_le_mul_of_nonneg_right hlt.le hesz.le
            have hstart : 0 ≤ done * k3StElemsize t.dtype := mul_nonneg hdone hesz.le
            have hmin := t.off_min
            have hends := t.ends
            exact wrap64_of_range (by omega) (by omega)
          obtain ⟨d, rfl⟩ : ∃ d : Nat, i = done + d := ⟨(i - done).toNat, by omega⟩
          have hword := (hkept.same (p := dst + 4 * (done + d)) (n := 4) (by omega)).word32 (j := 0)
            (le_refl 0) (by omega)
          simp only [add_zero] at hword
          rw [hword, mul_add, ← add_assoc, le32_putWords32 _ _ _ _ (by omega), hread, hlo]
          have hsame : SameBytes f.mem (t.off + done * k3StElemsize t.dtype)
              (putBytes raw 0 (take * k3StElemsize t.dtype) fun o =>
                f.mem (t.off + done * k3StElemsize t.dtype + o)) 0 (take * k3StElemsize t.dtype) := by
            intro o ho hlen
            rw [putBytes_inside _ _ (by omega) (by omega)]
            congr 1
            omega
          rw [widenElem_same hsame (by omega) (mul_le_mul_of_nonneg_right (by omega) hesz.le), widenElem_shift]
          rfl
      · exact (putBytes_kept m _ _ _).trans hkept (by omega) (by omega) (by omega) (by omega)
  · rw [if_neg hlt]
    exact ⟨⟨by simpa using hle, le_refl _⟩, fun i hi hin => absurd hin (by simp only; omega), Kept.refl _ _ _⟩
termination_by (t.numel - done).toNat
decreasing_by omega

/-- **A full `k3_st_read_f32`** has stored every element as fp32, and nothing else. -/
theorem k3StReadF32_full {ops : FloatOps} {f : FileBytes} {k : Nat → Kernel f.size} {t : K3Tensor}
    {raw m : Mem} {dst : Int} (hn : 0 ≤ t.numel) (hfull : (k3StReadF32 ops f k t raw m dst).1 = t.numel) :
    t.WidenedAt ops f (k3StReadF32 ops f k t raw m dst).2 dst t.numel ∧
      Kept m (k3StReadF32 ops f k t raw m dst).2 dst (dst + 4 * t.numel) := by
  unfold k3StReadF32 at hfull ⊢
  by_cases hf32 : t.dtype = .f32
  · rw [if_pos hf32] at hfull ⊢
    simp only at hfull ⊢
    have hbytes : t.nbytes = t.numel * 4 := by
      rw [t.consistent, hf32]
      rfl
    have hread : t.nbytes ≤ (k3StRead f (k 0) t m dst).1 := by
      have hpos : 0 ≤ (k3StRead f (k 0) t m dst).1 := le_readLoop f (k 0) t.off t.nbytes 0 0 _
      rw [Int.tdiv_eq_ediv_of_nonneg hpos] at hfull
      omega
    obtain ⟨hsame, hkept⟩ := k3StRead_full (by omega) hread
    refine ⟨fun i hi hlt => ?_, ?_⟩
    · rw [hsame.word32 (by omega) (by omega), K3Tensor.elem, hf32]
      rfl
    · rw [hbytes, mul_comm] at hkept
      exact hkept
  · rw [if_neg hf32] at hfull ⊢
    rw [dif_neg (not_le.mpr t.elemsize_pos)] at hfull ⊢
    obtain ⟨-, hwords, hkept⟩ := widenLoop_stores ops f k t _ dst 0 0 raw m (le_refl 0) hn t.elemsize_pos
    rw [hfull] at hwords hkept
    refine ⟨fun i hi hlt => hwords i hi hlt, ?_⟩
    rwa [mul_zero, add_zero] at hkept

/-! ## Reads that cannot come up short -/

/-- The tensor's span lies inside its file. -/
structure K3Tensor.InFile (t : K3Tensor) (f : FileBytes) : Prop where
  start : 0 ≤ t.off
  size : 0 ≤ t.nbytes
  ends : t.off + t.nbytes ≤ f.size

/-- A range inside the file is read whole. -/
theorem readLoop_inside (f : FileBytes) (k : Kernel f.size) {lo len : Int} (hlo : 0 ≤ lo) (hlen : 0 ≤ len)
    (hin : lo + len ≤ f.size) (buf : Int → UInt8) : (readLoop f k lo len 0 0 buf).1 = len := by
  have hsize := f.bounded
  have hreach : f.reach lo len = len := by
    unfold FileBytes.reach
    omega
  rw [readLoop_eq f k hlo (by omega) 0 0 buf (le_refl 0) (by omega), hreach]

theorem k3StRead_inFile {f : FileBytes} {t : K3Tensor} (h : t.InFile f) (k : Kernel f.size) (m : Mem)
    (dst : Int) : (k3StRead f k t m dst).1 = t.nbytes :=
  readLoop_inside f k h.start h.size h.ends _

theorem widenLoop_inFile (ops : FloatOps) {f : FileBytes} {t : K3Tensor} (h : t.InFile f)
    (k : Nat → Kernel f.size) {chunk : Int} (hchunk : 0 < chunk) (dst : Int) (j : Nat) (done : Int)
    (raw m : Mem) (hdone : 0 ≤ done) (hesz : 0 < k3StElemsize t.dtype) :
    (widenLoop ops f k t chunk hchunk dst j done raw m).1 = t.numel := by
  unfold widenLoop
  by_cases hlt : done < t.numel
  · rw [if_pos hlt]
    simp only
    generalize htake : min (t.numel - done) chunk = take
    have hpos : 0 < take := by omega
    have hstart : 0 ≤ done * k3StElemsize t.dtype := mul_nonneg hdone hesz.le
    have hwant : 0 ≤ take * k3StElemsize t.dtype := mul_nonneg hpos.le hesz.le
    have hspan : (done + take) * k3StElemsize t.dtype ≤ t.nbytes := by
      rw [t.consistent]
      exact mul_le_mul_of_nonneg_right (show done + take ≤ t.numel by omega) hesz.le
    rw [add_mul] at hspan
    have hoff := h.start
    have hin := h.ends
    have hends := t.ends
    have hlo : wrap64 (t.off + done * k3StElemsize t.dtype) = t.off + done * k3StElemsize t.dtype :=
      wrap64_of_range (by omega) (by omega)
    rw [hlo, readLoop_inside f (k j) (by omega) hwant (by omega) raw, if_neg (lt_irrefl _)]
    exact widenLoop_inFile ops h k hchunk dst (j + 1) (done + take) _ _ (by omega) hesz
  · rw [if_neg hlt]
termination_by (t.numel - done).toNat
decreasing_by omega

theorem k3StReadF32_inFile {ops : FloatOps} {f : FileBytes} {t : K3Tensor} (h : t.InFile f)
    (k : Nat → Kernel f.size) (raw m : Mem) (dst : Int) : (k3StReadF32 ops f k t raw m dst).1 = t.numel := by
  unfold k3StReadF32
  by_cases hf32 : t.dtype = .f32
  · rw [if_pos hf32]
    show (k3StRead f (k 0) t m dst).1.tdiv 4 = t.numel
    rw [k3StRead_inFile h, t.consistent, hf32]
    exact Int.mul_tdiv_cancel _ (by decide)
  · rw [if_neg hf32, dif_neg (not_le.mpr t.elemsize_pos)]
    exact widenLoop_inFile ops h k _ dst 0 0 raw m (le_refl 0) t.elemsize_pos

/-! ## Reads that may come up short -/

/-- **`k3_st_read_f32` is exact, however the kernel serves it.**  Inside its file a tensor is widened
whole.  Wherever it lies, the elements that the result counts are the tensor's, and nothing outside the
destination was touched. -/
theorem k3StReadF32_exact (ops : FloatOps) (f : FileBytes) (k : Nat → Kernel f.size) (t : K3Tensor)
    (raw m : Mem) (dst : Int) (hn : 0 ≤ t.numel) :
    let r := k3StReadF32 ops f k t raw m dst
    (t.InFile f → r.1 = t.numel) ∧ (0 ≤ r.1 ∧ r.1 ≤ t.numel) ∧ t.WidenedAt ops f r.2 dst r.1 ∧
      Kept m r.2 dst (dst + 4 * t.numel) := by
  refine ⟨fun hin => k3StReadF32_inFile hin k raw m dst, ?_⟩
  unfold k3StReadF32
  by_cases hf32 : t.dtype = .f32
  · rw [if_pos hf32]
    have hbytes : t.nbytes = t.numel * 4 := by
      rw [t.consistent, hf32]
      rfl
    obtain ⟨⟨hpos, hle⟩, hsame, hkept⟩ := k3StRead_stores f (k 0) (by omega : 0 ≤ t.nbytes) m dst
    simp only
    rw [Int.tdiv_eq_ediv_of_nonneg hpos]
    refine ⟨by omega, fun i hi hlt => ?_, fun a ha => hkept a (by omega)⟩
    rw [hsame.word32 (by omega) (by omega), K3Tensor.elem, hf32]
    rfl
  · rw [if_neg hf32, dif_neg (not_le.mpr t.elemsize_pos)]
    have hchunk : 0 < widenChunk / k3StElemsize t.dtype := by
      have hknown := t.known
      cases hd : t.dtype <;> simp_all [k3StElemsize, widenChunk]
    obtain ⟨hrange, hwords, hkept⟩ := widenLoop_stores ops f k t hchunk dst 0 0 raw m (le_refl 0) hn
      t.elemsize_pos
    exact ⟨hrange, fun i hi hlt => hwords i hi hlt, fun a ha => hkept a (by omega)⟩

/-- `(float)p` of a byte is exact: the bits of the value. -/
def u8f (b : UInt8) : BitVec 32 :=
  if b = 0 then 0
  else
    let e := b.toNat.log2
    BitVec.ofNat 32 (127 + e) <<< 23 ||| BitVec.ofNat 32 ((b.toNat - 2 ^ e) * 2 ^ (23 - e))

/-- Two bytes behind one of a file, read a byte at a time. -/
theorem k3StReadF32_exact_two :
    let f : FileBytes := ⟨fun p => if p = 1 then 3 else 255, 3, by decide⟩
    let t : K3Tensor := ⟨0, .u8, [2], 1, 2, by decide, by decide, by decide, by decide, by decide, by decide⟩
    let r := k3StReadF32 ⟨u8f, fun _ s => s⟩ f (fun _ => Kernel.bytewise 3) t (fun _ => 0) (fun _ => 0) 0
    r.1 = 2 ∧ le32 r.2 0 = 0x40400000 ∧ le32 r.2 4 = 0x437F0000 := by
  intro f t r
  obtain ⟨hwhole, -, hwords, -⟩ := k3StReadF32_exact ⟨u8f, fun _ s => s⟩ f (fun _ => Kernel.bytewise 3) t
    (fun _ => 0) (fun _ => 0) 0 (by decide)
  have hcount : r.1 = 2 := hwhole ⟨by decide, by decide, by decide⟩
  refine ⟨hcount, ?_, ?_⟩
  · have hword := hwords 0 (by decide) (by rw [hcount]; decide)
    exact hword.trans (by decide +kernel)
  · have hword := hwords 1 (by decide) (by rw [hcount]; decide)
    exact hword.trans (by decide +kernel)

end LlmEngine.Bind
