/-
# LlmEngine.Core.Config — the K3 architecture (`K3Cfg`, `include/k3/k3.h`).

The integer fields of `K3Cfg`, with what `k3_cfg_load` checks before it accepts a configuration as
fields of the structure: every layer index in range, a KDA layer among them, at least one hidden unit, one
token and one convolution tap, no more experts chosen than there are or than the router has room for.  A
configuration that fails a check cannot be built, so no function of the decoder begins with them.

The scalar constants of the arithmetic are parameters of the operations that use them
(`K3NumCfg` in `Core.Ops`), and the loader, which reads all of it from a document, is `Cfg.Load`.

The sizes that several parts compute for themselves are here once: the width of the KDA projections, the floats
of a layer's recurrent state, and those of a cached position (`kper`, `kvpp`, `ropepp`).
-/
import Mathlib.Data.List.Basic

namespace LlmEngine.Core

/-- `K3_MAX_TOPK`. -/
def maxTopk : Nat := 64

theorem maxTopk_pos : 0 < maxTopk := by decide

/-- `K3Cfg`. -/
structure K3Cfg where
  hidden : Nat
  nLayers : Nat
  vocab : Nat
  kdaHeads : Nat
  kdaHeadDim : Nat
  convK : Nat
  nHeads : Nat
  qLora : Nat
  kvLora : Nat
  qkNope : Nat
  qkRope : Nat
  vHead : Nat
  mlaOutGate : Bool
  nExperts : Nat
  topk : Nat
  nShared : Nat
  latent : Nat
  moeInter : Nat
  moeRenorm : Bool
  latentNorm : Bool
  firstDense : Nat
  denseInter : Nat
  attnResBlock : Nat
  /-- one-based layer indices -/
  fullAttn : List Nat
  layers_pos : 0 < nLayers
  hidden_pos : 0 < hidden
  vocab_pos : 0 < vocab
  some_kda : fullAttn.length < nLayers
  in_range : ∀ i ∈ fullAttn, 1 ≤ i ∧ i ≤ nLayers
  topk_max : topk ≤ maxTopk
  topk_le : topk ≤ nExperts
  block_pos : 0 < attnResBlock
  conv_pos : 1 ≤ convK

namespace K3Cfg

variable (c : K3Cfg)

/-- `k3_is_mla`: the configuration lists the full-attention layers one-based. -/
def isMla (layer : Nat) : Bool := c.fullAttn.any (· == layer + 1)

/-- `P`, the width of the KDA projections. -/
def kdaWidth : Nat := c.kdaHeads * c.kdaHeadDim

/-- `kper`: recurrent matrix and convolution history of one layer, in floats. -/
def kper : Nat := c.kdaWidth * c.kdaHeadDim + 3 * c.kdaWidth * (c.convK - 1)

/-- KV floats per position of one MLA layer. -/
def kvpp : Nat := c.nHeads * (c.qkNope + c.vHead)

/-- Rope floats per position of one MLA layer. -/
def ropepp : Nat := c.qkRope

/-- `n_mla` when the first `nl` layers are bound. -/
def nMla (nl : Nat) : Nat := ((List.range nl).filter c.isMla).length

end K3Cfg

end LlmEngine.Core
