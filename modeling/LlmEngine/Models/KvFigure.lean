/-
# LlmEngine.Models.KvFigure — is the KV figure of the plan what a run allocates.

`kv_bytes_per_pos` is what the planner multiplies with a context.  For the dense backend it is the size
of a position in the state, across every layer, as long as the state's size is representable.  For K3 it
is one layer's keys and values, without the rope row, where a run allocates both for all MLA layers.

* `figureHolds_iff`, for K3: the figure is right where there is a single MLA layer and no rope slot, or where nothing
  is cached at all.
* For the dense backend it is `stateExact_iff` (`Models.Qwen3State`).
* `kvFigure_iff` puts the two together: when a plan's KV cache is what a run allocates for its context
  (`Runtime.Partition`), for either backend.

`kimi_figure_short` is the released K3, where the figure is short by far; `kvFigure_small` a configuration of
each backend for which it is right.
-/
import LlmEngine.Models.Kimi
import LlmEngine.Models.Qwen3State

namespace LlmEngine.Models

open LlmEngine.Core
open LlmEngine.Formats
open LlmEngine.Runtime

/-! ## K3 -/

namespace Kimi

variable (c : K3Cfg) (total resident : Int)

/-- The figure is what a run allocates for a position, and no plan has a smaller cache than a run. -/
structure FigureHolds : Prop where
  exact : ∀ n : Nat, 0 < n → (kimiInspect c total resident).kvBytesPerPos * n = kvCacheBytes c c.nLayers n
  covered : ∀ (hw : EngHwInfo) (req : EngPlanRequest) (plan : EngPlan),
    engPlan hw (kimiInspect c total resident) req = .ok plan → 0 < plan.context →
      kvCacheBytes c c.nLayers plan.context.toNat ≤ plan.mem.kvCache

theorem kvCacheBytes_eq (nl cap : Nat) :
    kvCacheBytes c nl cap = cap * (c.nMla nl * (c.kvpp + c.ropepp)) * 4 := by
  unfold kvCacheBytes
  ring

/-- **When the figure of a K3 configuration is right**: with a single MLA layer and no rope slot (or where
there is nothing to cache at all). -/
theorem figureHolds_iff : FigureHolds c total resident ↔
    (c.nMla c.nLayers = 1 ∧ c.ropepp = 0) ∨ (c.kvpp = 0 ∧ (c.nMla c.nLayers = 0 ∨ c.ropepp = 0)) := by
  have hfigure : (kimiInspect c total resident).kvBytesPerPos = (c.kvpp : Int) * 4 := rfl
  constructor
  · rintro ⟨hexact, -⟩
    have hone := hexact 1 Nat.one_pos
    rw [hfigure, kvCacheBytes_eq] at hone
    have heq : c.kvpp = c.nMla c.nLayers * (c.kvpp + c.ropepp) := by
      push_cast at hone
      have : (c.kvpp : Int) = c.nMla c.nLayers * (c.kvpp + c.ropepp) := by linarith
      exact_mod_cast this
    rcases Nat.lt_trichotomy (c.nMla c.nLayers) 1 with hzero | hsingle | hmany
    · right
      have hnone : c.nMla c.nLayers = 0 := by omega
      rw [hnone, Nat.zero_mul] at heq
      exact ⟨heq, .inl hnone⟩
    · left
      rw [hsingle, Nat.one_mul] at heq
      exact ⟨hsingle, by omega⟩
    · right
      have hle : 2 * (c.kvpp + c.ropepp) ≤ c.nMla c.nLayers * (c.kvpp + c.ropepp) := Nat.mul_le_mul_right _ hmany
      exact ⟨by omega, .inr (by omega)⟩
  · intro h
    have hrow : c.nMla c.nLayers * (c.kvpp + c.ropepp) = c.kvpp := by
      rcases h with ⟨hsingle, hrope⟩ | ⟨hkv, hnone | hrope⟩
      · rw [hsingle, hrope, Nat.one_mul, Nat.add_zero]
      · rw [hnone, hkv, Nat.zero_mul]
      · rw [hrope, hkv, Nat.add_zero, Nat.mul_zero]
    have hexact : ∀ n : Nat,
        (kimiInspect c total resident).kvBytesPerPos * n = kvCacheBytes c c.nLayers n := fun n => by
      rw [hfigure, kvCacheBytes_eq, hrow]
      push_cast
      ring
    refine ⟨fun n _ => hexact n, fun hw req plan hplan hctx => ?_⟩
    rw [engPlan_kvCache hplan (by rw [hfigure]; positivity) hctx, ← hexact, Int.toNat_of_nonneg hctx.le,
      mul_comm]

end Kimi

/-- **When the KV figure is what a run allocates**, for both backends. -/
theorem kvFigure_iff (c : K3Cfg) (f : File) :
    (∀ total resident : Int, Kimi.FigureHolds c total resident ↔
      (c.nMla c.nLayers = 1 ∧ c.ropepp = 0) ∨ (c.kvpp = 0 ∧ (c.nMla c.nLayers = 0 ∨ c.ropepp = 0))) ∧
    ∀ (facts : EngModelFacts) (direct threadOk : Bool) (plan : Option EngPlan)
      (force : Option Bool) (m : Qwen3.EngModel) (context : Int) (s : Qwen3.EngSeqState),
      Qwen3.qwen3Inspect f = some facts → Qwen3.qwen3Load f direct threadOk plan force = .ok m →
        Qwen3.stateCreate m context = some s →
          (Qwen3.StateExact facts m context s ↔ m.layout.nLayers * context * m.kvWidth < 2 ^ 64) ∧
            Qwen3.Covered facts context s := by
  refine ⟨Kimi.figureHolds_iff c, fun facts direct threadOk plan force m context s hfacts hload hs => ?_⟩
  exact Qwen3.stateExact_iff hfacts (Qwen3.qwen3Load_ok hload) hs

/-- The released K3, with its layers and its MLA layers as given. -/
def kimiCfg (nLayers qkRope : Nat) (fullAttn : List Nat) (pos : 0 < nLayers)
    (some_kda : fullAttn.length < nLayers) (in_range : ∀ i ∈ fullAttn, 1 ≤ i ∧ i ≤ nLayers) : K3Cfg where
  hidden := 7168
  nLayers := nLayers
  vocab := 163840
  kdaHeads := 96
  kdaHeadDim := 128
  convK := 4
  nHeads := 96
  qLora := 1536
  kvLora := 512
  qkNope := 128
  qkRope := qkRope
  vHead := 128
  mlaOutGate := true
  nExperts := 896
  topk := 16
  nShared := 2
  latent := 3584
  moeInter := 3072
  moeRenorm := true
  latentNorm := true
  firstDense := 1
  denseInter := 33792
  attnResBlock := 12
  fullAttn := fullAttn
  layers_pos := pos
  hidden_pos := by decide
  vocab_pos := by decide
  some_kda := some_kda
  in_range := in_range
  topk_max := by decide
  topk_le := by decide
  block_pos := by decide
  conv_pos := by decide

/-- Two layers, one of them MLA and without a rope slot; and the container of one layer, at four
positions. -/
theorem kvFigure_small :
    Kimi.FigureHolds (kimiCfg 2 0 [1] (by decide) (by decide) (by decide)) 0 0 ∧
      ∃ m s, Qwen3.qwen3Load Qwen3.oneLayer false true none none = .ok m ∧ Qwen3.stateCreate m 4 = some s ∧
        Qwen3.StateExact Qwen3.oneLayerFacts m 4 s := by
  refine ⟨((kvFigure_iff _ Qwen3.oneLayer).1 0 0).mpr (.inl (by decide +kernel)), ?_⟩
  obtain ⟨m, hload, hnumbers⟩ := Qwen3.oneLayer_loaded
  simp only [Qwen3.EngModel.numbers, List.cons.injEq, and_true] at hnumbers
  obtain ⟨hlayers, -, -, hkv, hdim, -⟩ := hnumbers
  have hs : Qwen3.stateCreate m 4 = some ⟨4, 4⟩ := by
    unfold Qwen3.stateCreate Qwen3.EngModel.kvWidth
    rw [hlayers, hkv, hdim]
    decide
  refine ⟨m, _, hload, hs, (((kvFigure_iff (kimiCfg 2 0 [1] (by decide) (by decide) (by decide)) _).2 _ _ _ _ _ _ _ _
    Qwen3.oneLayer_read.1 hload hs).1).mpr ?_⟩
  unfold Qwen3.EngModel.kvWidth
  rw [hlayers, hkv, hdim]
  decide

/-- The released K3 takes 2365440 bytes for a position, where the figure says 98304. -/
theorem kimi_figure_short : ¬ Kimi.FigureHolds (kimiCfg 93 64
    [4, 8, 12, 16, 20, 24, 28, 32, 36, 40, 44, 48, 52, 56, 60, 64, 68, 72, 76, 80, 84, 88, 92, 93]
    (by decide) (by decide) (by decide)) 0 0 :=
  fun h => absurd (h.exact 1 Nat.one_pos) (by decide +kernel)

end LlmEngine.Models
