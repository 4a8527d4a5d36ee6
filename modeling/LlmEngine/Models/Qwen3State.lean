/-
# LlmEngine.Models.Qwen3State — the sequence state of a loaded model, and what the planner was told of it.

The figure `qwen3_inspect` gives for a position and the one `qwen3_state_bytes` gives for a context are
exact integers; the size `qwen3_state_create` passes to `calloc` is a `size_t`.

* `inspectGguf_layout`: the figure is made of the same metadata as the layout.
* `stateCreate_floats` is the size of a state that was created, and `stateExact_iff` compares: the figure times the
  context is what the state takes, as long as its size did not wrap.

The end loads the container of one layer, for the modules behind.
-/
import LlmEngine.Models.Qwen3Load
import LlmEngine.Models.Qwen3Plan
import LlmEngine.Runtime.Partition
import Mathlib.Data.Int.ModEq

namespace LlmEngine.Models.Qwen3

open LlmEngine.Formats
open LlmEngine.Runtime
open LlmEngine.Tokenizer (ascii)

/-- What inspection and loading say of a position and of the context. -/
theorem inspectGguf_layout {g : Gguf} {facts : EngModelFacts} {l : Layout}
    (hfacts : inspectGguf g = some facts) (hl : layGguf g = .ok l) :
    facts.kvBytesPerPos = 2 * l.nLayers * l.nKv * l.headDim * 4 ∧ facts.contextMax = l.ctxMax := by
  unfold inspectGguf at hfacts
  simp only [Option.bind_eq_bind, Option.bind_eq_some_iff] at hfacts
  obtain ⟨v₁, h₁, v₂, h₂, v₃, h₃, v₄, h₄, v₅, h₅, v₆, h₆, v₇, h₇, _, _, _, _, _, _, hfacts⟩ := hfacts
  obtain rfl := Option.some.inj hfacts
  unfold layGguf keyOr at hl
  simp only [h₁, h₂, h₃, h₄, h₅, h₆, h₇, Option.getD_some] at hl
  split at hl
  · simp only [check_ok_iff] at hl
    obtain ⟨-, -, -, hl⟩ := hl
    split at hl
    · exact absurd hl (by simp)
    · obtain rfl := Except.ok.inj hl
      exact ⟨rfl, rfl⟩
  · exact absurd hl (by simp)

variable {f : File} {direct threadOk : Bool} {plan₀ : Option EngPlan} {force : Option Bool} {m : EngModel}

/-- A loaded model has layers. -/
theorem Loaded.nLayers_pos (h : Loaded f direct threadOk plan₀ force m) : 0 < m.layout.nLayers := by
  by_contra hnot
  obtain ⟨g, -, hl⟩ := h.opened
  obtain ⟨layers, hlayers, hblocks, -⟩ := (layGguf_laid hl).layers
  have hzero : m.layout.nLayers.toNat = 0 := by omega
  rw [hzero] at hlayers
  obtain rfl := Except.ok.inj hlayers
  have hstream := h.stream
  unfold Storage.Streamer.engStreamerCreate Layout.streamerCfg at hstream
  simp [hblocks] at hstream

/-- The size of a state, wrapped around. -/
theorem stateCreate_floats {context : Int} {s : EngSeqState} (h : stateCreate m context = some s) :
    s.context = context ∧ 0 < context ∧ s.floats * 4 < 2 ^ 63 ∧
      (s.floats : Int) = m.layout.nLayers * context * m.kvWidth % 2 ^ 64 := by
  unfold stateCreate at h
  split_ifs at h with hctx
  obtain ⟨n, hn, rfl⟩ := Option.map_eq_some_iff.mp h
  obtain ⟨hsize, rfl⟩ := calloc_eq_some.mp hn
  refine ⟨rfl, not_le.mp hctx, hsize, ?_⟩
  have hcast : ∀ v : Int, Int.ModEq (2 ^ 64) (sizeT v) v := fun v => by
    unfold sizeT
    rw [Int.toNat_of_nonneg (Int.emod_nonneg _ (by decide))]
    exact Int.mod_modEq v _
  push_cast
  exact ((hcast _).mul (hcast _)).mul (hcast _)

/-- The figure, and `qwen3_state_bytes`, are what the state for `context` positions takes. -/
structure StateExact (facts : EngModelFacts) (m : EngModel) (context : Int) (s : EngSeqState) : Prop where
  figure : facts.kvBytesPerPos * context = s.bytes
  stateBytes : stateBytes m context = s.bytes

/-- No plan for `context` positions has a smaller cache than the state. -/
def Covered (facts : EngModelFacts) (context : Int) (s : EngSeqState) : Prop :=
  ∀ (hw : EngHwInfo) (req : EngPlanRequest) (plan : EngPlan), engPlan hw facts req = .ok plan →
    plan.context = context → s.bytes ≤ plan.mem.kvCache

/-- **When the figure of a dense model is right**: as long as the size of the state fits `size_t`; and in
any case no plan has a smaller cache than its state. -/
theorem stateExact_iff {facts : EngModelFacts} (hfacts : qwen3Inspect f = some facts)
    (hload : Loaded f direct threadOk plan₀ force m) {context : Int} {s : EngSeqState}
    (hs : stateCreate m context = some s) :
    (StateExact facts m context s ↔ m.layout.nLayers * context * m.kvWidth < 2 ^ 64) ∧
      Covered facts context s := by
  obtain ⟨-, hctx, hsize, hfloats⟩ := stateCreate_floats hs
  obtain ⟨g, hopen, hinspect⟩ := Option.bind_eq_some_iff.mp hfacts
  have hfigure : facts.kvBytesPerPos = 2 * m.layout.nLayers * m.layout.nKv * m.layout.headDim * 4 := by
    obtain ⟨g', hopen', hl⟩ := hload.opened
    obtain rfl := Option.some.inj (hopen.symm.trans hopen')
    exact (inspectGguf_layout hinspect hl).1
  have hwidth : 0 ≤ m.kvWidth := hload.buffers.kv
  have hnn : 0 ≤ m.layout.nLayers * context * m.kvWidth :=
    mul_nonneg (mul_nonneg hload.nLayers_pos.le hctx.le) hwidth
  have hexact : facts.kvBytesPerPos * context = 2 * (m.layout.nLayers * context * m.kvWidth * 4) := by
    rw [hfigure, EngModel.kvWidth]
    ring
  have hbytes : s.bytes = 2 * (m.layout.nLayers * context * m.kvWidth % 2 ^ 64 * 4) := by
    rw [EngSeqState.bytes, hfloats]
  have hstate : stateBytes m context = facts.kvBytesPerPos * context := by
    rw [hfigure, stateBytes]
    ring
  refine ⟨⟨fun h => ?_, fun h => ?_⟩, fun hw req plan hplan heq => ?_⟩
  · have hlt := Int.emod_lt_of_pos (m.layout.nLayers * context * m.kvWidth) (by decide : (0 : Int) < 2 ^ 64)
    have := h.figure
    omega
  · have heq : facts.kvBytesPerPos * context = s.bytes := by
      rw [hexact, hbytes, Int.emod_eq_of_lt hnn h]
    exact ⟨heq, hstate.trans heq⟩
  · have hdiv := Int.emod_add_mul_ediv (m.layout.nLayers * context * m.kvWidth) (2 ^ 64)
    have hquot : 0 ≤ m.layout.nLayers * context * m.kvWidth / 2 ^ 64 := Int.ediv_nonneg hnn (by decide)
    have hfignn : 0 ≤ facts.kvBytesPerPos := by
      by_contra hneg
      have : facts.kvBytesPerPos * context < 0 := mul_neg_of_neg_of_pos (not_le.mp hneg) hctx
      omega
    rw [engPlan_kvCache hplan hfignn (by rw [heq]; exact hctx), heq, mul_comm context, hexact, hbytes]
    omega

/-! ## The container of one layer, loaded -/

/-- The numbers of a loaded model. -/
def EngModel.numbers (m : EngModel) : List Int :=
  [m.layout.nLayers, m.layout.dModel, m.layout.nHeads, m.layout.nKv, m.layout.headDim, m.layout.dFf,
    m.layout.vocab, m.layout.ctxMax]

theorem oneLayer_finished : (oneLayerLayout.finish oneLayer false true none none).map EngModel.numbers =
    some [1, 1, 1, 1, 1, 1, 2, 8] := by
  decide +kernel

/-- It loads without a plan. -/
theorem oneLayer_loaded : ∃ m, qwen3Load oneLayer false true none none = .ok m ∧
    m.numbers = [1, 1, 1, 1, 1, 1, 2, 8] := by
  obtain ⟨m, hm, hnumbers⟩ := Option.map_eq_some_iff.mp oneLayer_finished
  exact ⟨m, qwen3Load_eq_ok.mpr ⟨oneLayerLayout, oneLayer_laid, hm⟩, hnumbers⟩

end LlmEngine.Models.Qwen3
