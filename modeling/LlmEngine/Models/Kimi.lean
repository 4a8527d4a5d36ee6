/-
# LlmEngine.Models.Kimi — what the planner is told about a K3 checkpoint (`src/models/kimi/kimi.c`).

The backend describes and does not execute: `kimi_inspect` derives the facts from the configuration and
from what `measure_shards` adds up, and `bin/k3` runs the model.  What a run allocates for every position
it may hold is `k3_run`'s: the caches `kvc` and `ropec` of all its MLA layers.

The figures are exact integers here; the planner reads them as `int64_t`.  Layers with full attention are MLA
layers and have a cache; a KDA layer's state is of one size, whatever the context, and no part of the figure.  Whether
the figure is what a run allocates is asked in `Models.KvFigure`.
-/
import LlmEngine.Core.Scratch
import LlmEngine.Runtime.Planner

namespace LlmEngine.Models.Kimi

open LlmEngine.Core
open LlmEngine.Runtime

/-- `kimi_inspect` of an accepted configuration; `total` and `resident` are the bytes of all tensors and
of those that cannot stream, zero where there is no directory of shards. -/
def kimiInspect (c : K3Cfg) (total resident : Int) : EngModelFacts :=
  let avg := if total > 0 then (total - resident).tdiv c.nLayers else 0
  { nLayers := c.nLayers
    totalWeightBytes := total
    residentBytes := resident
    maxLayerBytes := avg
    avgLayerBytes := avg
    activationBytes := (c.hidden * 3 + c.vocab : Nat) * 4
    scratchBytes := (if layerScratch c 1 > moeScratch c then layerScratch c 1 else moeScratch c : Nat) * 4
    kvBytesPerPos := (c.nHeads * (c.qkNope + c.vHead) : Nat) * 4
    contextMax := 0
    nExperts := c.nExperts
    topk := c.topk
    expertBytes := 0 }

/-- The bytes of `kvc` and `ropec` when `nl` layers are bound and there is room for `cap` positions. -/
def kvCacheBytes (c : K3Cfg) (nl cap : Nat) : Nat :=
  let kvper := cap * c.kvpp
  let rpper := cap * c.ropepp
  kvper * c.nMla nl * 4 + rpper * c.nMla nl * 4

end LlmEngine.Models.Kimi
