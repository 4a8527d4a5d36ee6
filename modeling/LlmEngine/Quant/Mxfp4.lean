/-
# LlmEngine.Quant.Mxfp4 — the row product over MXFP4 (`src/quant/mxfp4.c`).

A row is packed nibbles with one E8M0 byte for each group.  A group is expanded to floats and handed to
`group_dot`, which is the scalar or the AVX2 one.

The code of an element is a nibble, looked up in sixteen floats (`e2m1`); two share a byte, the even one low
(`e2m1Pair`).  The scale is a power of two (`e8m0`), and a group whose scale byte is 255 adds nothing.  The group
sum is multiplied by the scale afterwards, and the row is accumulated in `double`.

The stack buffer a group is expanded into is not cleared, so what it held before is a parameter; `Quant.RowOnly` and
`Quant.Exact` show that it does not matter.
-/
import LlmEngine.Kernels.Dot

namespace LlmEngine.Quant

open LlmEngine.Core LlmEngine.Lib LlmEngine.Kernels

/-- `E2M1`, as bits: 0, 0.5, 1, 1.5, 2, 3, 4, 6 and their negatives. -/
def e2m1 : List (BitVec 32) :=
  [0x00000000, 0x3F000000, 0x3F800000, 0x3FC00000, 0x40000000, 0x40400000, 0x40800000, 0x40C00000,
   0x80000000, 0xBF000000, 0xBF800000, 0xBFC00000, 0xC0000000, 0xC0400000, 0xC0800000, 0xC0C00000]

/-- `E2M1_PAIR`: the low nibble is the even element. -/
def e2m1Pair (b : BitVec 8) : BitVec 32 × BitVec 32 :=
  (e2m1.getD (b &&& 0x0F).toNat 0, e2m1.getD (b >>> 4).toNat 0)

/-- `E8M0`: two to the power `b - 127`, which is subnormal at 0; 255 is NaN and stands as zero. -/
def e8m0 (b : BitVec 8) : BitVec 32 :=
  if b = 255 then 0 else if b = 0 then 0x00400000 else b.setWidth 32 <<< 23

variable {D : Type} [Arith D] (fp : Fpu (BitVec 32) D)

/-- `wf` of one group: `m` elements out of the bytes at `pb`, over what the stack held. -/
def expandGroup (pb : Bytes) (m : Nat) (stack : Vec (BitVec 32)) : Vec (BitVec 32) :=
  let half := m / 2
  let wf := (forStep 1 half 0 stack fun wf j =>
    Function.update (Function.update wf (2 * j) (e2m1Pair (pb j)).1) (2 * j + 1) (e2m1Pair (pb j)).2).1
  if m % 2 = 1 then Function.update wf (m - 1) (e2m1Pair (pb half)).1 else wf

/-- `eng_mxfp4_dot_row_g`, with the `group_dot` that was dispatched to. -/
def engMxfp4DotRowG (groupDot : Vec (BitVec 32) → Vec (BitVec 32) → Nat → D) (stack : Vec (BitVec 32))
    (w scales : Bytes) (x : Vec (BitVec 32)) (n group : Nat) : D :=
  loop ((n + group - 1) / group) 0 fun acc g =>
    let sb := scales g
    if sb = 255 then acc
    else
      let m := min (n - g * group) group
      let wf := expandGroup (fun j => w (g * (group / 2) + j)) m stack
      acc + groupDot wf (ptr x (g * group)) m * fp.wide (e8m0 sb)

end LlmEngine.Quant
