/-
# LlmEngine.Core.Scratch — who uses what of the scratch buffer (`src/core/k3_ops.c`).

One buffer serves every layer of a pass.  Each function lays its own regions out in it, and
`k3_layer_scratch` says how large it has to be.  The model of a function here is the regions it has live
and the ranges it reads or writes in them, in floats from the start of the buffer; what it computes is in
the other modules of `Core`.

* Sizes and offsets are taken in `size_t` and are those of the natural numbers here: a buffer of 2^64
  bytes and more does not exist.
* A width that the source computes in `int`, like the `2 * I` in front of an expert's activation, has to
  fit one: `k3_cfg_load` bounds the dimensions from below only, and in C an `int` expression that is out
  of range has no value.  `checked` lists those a function evaluates, and without a value for each of
  them the function has no layout (`none`).
* `k3_run` evaluates some of them to size its buffers, whatever the layers are (`sizeInts`); those of a
  layer's kind are only evaluated when there is such a layer.

The layouts of the sub-blocks come first, each with the formula that is to make room for it, then the
layer around them, then a whole pass (`forwardPhases`), and the calls of it that `k3_run` can make with
buffers for `Tmax` positions (`PassShape.Fits`).
-/
import LlmEngine.Core.Incremental
import LlmEngine.Lib.Arena

namespace LlmEngine.Core

open LlmEngine.Lib.Arena

variable (c : K3Cfg)

namespace K3Cfg

/-- `H * qh`: the queries of a position, over the full head width. -/
def queryWidth : Nat := c.nHeads * (c.qkNope + c.qkRope)

/-- `H * vh`: the attention's output of a position. -/
def valueWidth : Nat := c.nHeads * c.vHead

/-- `kvw`: the compressed latent and the shared rope slot. -/
def latentWidth : Nat := c.kvLora + c.qkRope

/-- `SI`: the intermediate width of the shared expert. -/
def sharedInter : Nat := c.moeInter * c.nShared

/-- `maxb`. -/
def maxBlocks : Nat := c.nLayers / c.attnResBlock + 2

/-- `k3_is_dense`. -/
def isDense (layer : Nat) : Bool := layer < c.firstDense

end K3Cfg

/-! ## Sizes -/

/-- The value is one of C's `int`. -/
def FitsInt (n : Nat) : Prop := n < 2 ^ 31

instance : DecidablePred FitsInt := fun n => inferInstanceAs (Decidable (n < 2 ^ 31))

/-- `int` expressions, and what is computed from them. -/
def checked {α : Type} (ints : List Nat) (a : α) : Option α :=
  if ∀ n ∈ ints, FitsInt n then some a else none

/-- `k3_mla_scratch_cached`. -/
def mlaScratchCached (T cap : Nat) (cachedMode : Bool) : Nat :=
  T * c.queryWidth + c.latentWidth + c.qLora + 2 * c.valueWidth + (if cap > T then cap else T) +
    if cachedMode then 0 else T * c.kvpp + T * c.qkRope

/-- `k3_mla_scratch`. -/
def mlaScratch (T : Nat) : Nat := mlaScratchCached c T T false

/-- `k3_moe_scratch`. -/
def moeScratch : Nat :=
  2 * c.latent + 3 * c.moeInter + c.latent + 3 * c.sharedInter + c.hidden

/-- `k3_kda_scratch`. -/
def kdaScratch (T : Nat) : Nat :=
  3 * T * c.kdaWidth + 2 * T * c.kdaWidth + T * c.kdaHeads + T * c.kdaWidth + 2 * c.kdaWidth + c.kdaHeadDim

/-- `sub` of `k3_layer_scratch`: the largest of the sub-blocks. -/
def subScratch (T : Nat) : Nat :=
  let sub := if mlaScratch c T > kdaScratch c T then mlaScratch c T else kdaScratch c T
  if moeScratch c > sub then moeScratch c else sub

/-- `k3_layer_scratch`. -/
def layerScratch (T : Nat) : Nat :=
  3 * T * c.hidden + 2 * c.hidden + c.maxBlocks * c.hidden + 2 * c.denseInter + subScratch c T

/-- How a pass calls the layers. -/
structure PassShape where
  /-- the tokens it is fed -/
  T : Nat
  cached : Nat
  cap : Nat
  /-- there is a KV cache -/
  kvc : Bool
  /-- the experts are streamed, and may be fetched for a whole chunk -/
  batch : Bool
  /-- the layers bound -/
  nBound : Nat
  /-- the model-level aggregator is there -/
  outRes : Bool

/-- The snapshots taken before layer `layer` of a pass. -/
def snapshots : Nat → Nat
  | 0 => 0
  | layer + 1 => if layer % c.attnResBlock == 0 then snapshots layer + 1 else snapshots layer

/-- A call of `forward` that `k3_run` can make with buffers for `Tmax` positions. -/
structure PassShape.Fits (p : PassShape) (Tmax : Nat) : Prop where
  tokens : 1 ≤ p.T
  tokens_le : p.T ≤ Tmax
  room : p.cached + p.T ≤ p.cap
  cap_le : p.cap ≤ Tmax
  bound : p.nBound ≤ c.nLayers

end LlmEngine.Core
