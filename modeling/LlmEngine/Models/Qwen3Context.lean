/-
# LlmEngine.Models.Qwen3Context — can a granted context be used (`src/app/cli.c`, `src/models/qwen3/qwen3.c`).

The planner grants a context, `cmd_run` cuts it to the prompt and the tokens asked for, and
`qwen3_decode` attends over as many positions with a score buffer that `qwen3_load` sized by the
container's own context length.  A context the planner chooses itself is within that length; one that is
asked for is only ever reduced to what fits in memory.

* `lt_granted_iff`, `lt_planContext_iff`: when the planner grants more than a given number of positions, and asks for
  more, as conditions on the budget and the request.
* `scoresInside_iff` is what decoding needs: no position of the state behind the score buffer.
* `ContextServed` is the condition on hardware, facts and request, and `scoresInside_served` puts the chain together,
  from the request to the state.

The container of one layer has a context of 8: asked for as much it is served, and asked for 100 it is not
(`oneLayer_served`, `oneLayer_overrun`).
-/
import LlmEngine.Models.Qwen3State

namespace LlmEngine.Models.Qwen3

open LlmEngine.Formats
open LlmEngine.Runtime
open LlmEngine.Storage.Streamer

/-- The context `cmd_run` creates the state for, with a prompt of `n` tokens and `ntok` to generate;
`none` where it cannot hold the prompt. -/
def runContext (plan : EngPlan) (n ntok : Int) : Option Int :=
  let ctx := if plan.context > n + ntok then n + ntok else plan.context
  if ctx < n + 1 then none else some ctx

/-- The positions `qwen3_decode` accepts. -/
def EngSeqState.Accepts (s : EngSeqState) (pos : Int) : Prop := 0 ≤ pos ∧ pos < s.context

/-- The scores of every accepted position, one for each position up to it, lie in the buffer. -/
def ScoresInside (m : EngModel) (s : EngSeqState) : Prop :=
  ∀ pos t : Int, s.Accepts pos → 0 ≤ t → t ≤ pos → t < m.scratch.scores

/-! ## What is granted -/

section Granted

variable {budget limit : Int} {needs : EngMemNeeds}

/-- The weights keep their minimum beside a cache of `k` positions. -/
def Affords (budget : Int) (needs : EngMemNeeds) (k : Int) : Prop :=
  k * needs.kvPerPos + needs.minWeights ≤ pastFixed budget needs

theorem Affords.mono {k k' : Int} (hkv : 0 ≤ needs.kvPerPos) (hle : k ≤ k') (h : Affords budget needs k') :
    Affords budget needs k := by
  have hmul : k * needs.kvPerPos ≤ k' * needs.kvPerPos := mul_le_mul_of_nonneg_right hle hkv
  unfold Affords at h ⊢
  omega

/-- **More than `limit` is granted** when more is asked for and can be afforded; what is reduced is
reduced to at most `2 ^ 30`. -/
theorem lt_granted_iff {plan : EngMemPlan} {ctx : Int} (h : engMemPlan budget needs = .ok (plan, ctx))
    (hkv : 0 ≤ needs.kvPerPos) (hlimit : 0 ≤ limit) :
    limit < ctx ↔ limit < needs.context ∧
      (Affords budget needs needs.context ∨ (limit < 2 ^ 30 ∧ Affords budget needs (limit + 1))) := by
  obtain ⟨-, -, -, -, hroom, -, hweights, -, rfl⟩ := engMemPlan_eq_ok_iff.mp h
  unfold weightRoom kvShare at hweights
  unfold granted Affords
  by_cases hk : needs.HasKv
  · rw [if_pos hk] at hweights ⊢
    have hpos : 0 < needs.kvPerPos := hk.1
    have hfor := hroom hk
    have hdiv : limit < (pastFixed budget needs - needs.minWeights) / needs.kvPerPos ↔
        (limit + 1) * needs.kvPerPos ≤ pastFixed budget needs - needs.minWeights := by
      rw [← Int.add_one_le_iff, Int.le_ediv_iff_mul_le hpos]
    unfold grantedContext engMemMaxContext
    rw [Int.tdiv_eq_ediv_of_nonneg hfor.le, if_neg (not_le.mpr hpos), if_neg (not_le.mpr hfor)]
    by_cases hwant : needs.context * needs.kvPerPos > pastFixed budget needs - needs.minWeights
    · rw [if_pos hwant]
      have hask : limit < (pastFixed budget needs - needs.minWeights) / needs.kvPerPos → limit < needs.context := by
        intro hlt
        by_contra hnot
        have hmul : needs.context * needs.kvPerPos ≤ (limit + 1) * needs.kvPerPos :=
          mul_le_mul_of_nonneg_right (by omega) hkv
        have := hdiv.mp hlt
        omega
      constructor
      · intro hlt
        have hquot : limit < (pastFixed budget needs - needs.minWeights) / needs.kvPerPos := by
          split_ifs at hlt <;> omega
        refine ⟨hask hquot, .inr ⟨?_, by have := hdiv.mp hquot; omega⟩⟩
        split_ifs at hlt <;> omega
      · rintro ⟨-, hfull | ⟨hcap, hone⟩⟩
        · omega
        · have := hdiv.mpr (by omega)
          split_ifs <;> omega
    · rw [if_neg hwant]
      exact ⟨fun hlt => ⟨hlt, .inl (by omega)⟩, fun h => h.1⟩
  · rw [if_neg hk] at hweights ⊢
    refine ⟨fun hlt => ⟨hlt, .inl ?_⟩, fun h => h.1⟩
    have hzero : needs.kvPerPos = 0 := by
      by_contra hne
      exact hk ⟨lt_of_le_of_ne hkv (Ne.symm hne), by omega⟩
    rw [hzero]
    omega

end Granted

/-! ## What is asked for -/

section Asked

variable {budget : Int} {facts : EngModelFacts} {req : EngPlanRequest}

/-- A quarter of what the fixed costs leave of the budget holds one position and no second. -/
def QuarterHoldsOne (budget : Int) (facts : EngModelFacts) : Prop :=
  let quarter := (budget - facts.residentBytes - facts.activationBytes - facts.scratchBytes) / 4
  0 < facts.kvBytesPerPos ∧ facts.kvBytesPerPos ≤ quarter ∧ quarter < 2 * facts.kvBytesPerPos

/-- A context the planner chooses is within the model's, unless the model states none. -/
theorem lt_planContext_iff (hmax : -1 ≤ facts.contextMax) :
    facts.contextMax + 1 < planContext budget facts req ↔
      if 0 < req.context then facts.contextMax + 1 < req.context
      else facts.contextMax ≤ 0 ∧ ¬ (facts.contextMax = 0 ∧ QuarterHoldsOne budget facts) := by
  unfold planContext
  by_cases hask : 0 < req.context
  · rw [if_pos hask, if_pos hask]
  · rw [if_neg hask, if_neg hask]
    unfold QuarterHoldsOne engMemMaxContext engDefaultContext
    simp only
    set spare := budget - facts.residentBytes - facts.activationBytes - facts.scratchBytes with hspare
    by_cases hkv : facts.kvBytesPerPos > 0
    · rw [if_pos hkv, if_neg (not_le.mpr hkv)]
      by_cases hs : spare > 0
      · rw [if_pos hs, Int.tdiv_eq_ediv_of_nonneg hs.le]
        have hquot : (spare / 4).tdiv facts.kvBytesPerPos = spare / 4 / facts.kvBytesPerPos :=
          Int.tdiv_eq_ediv_of_nonneg (by omega)
        have hone : spare / 4 / facts.kvBytesPerPos = 1 ↔
            facts.kvBytesPerPos ≤ spare / 4 ∧ spare / 4 < 2 * facts.kvBytesPerPos := by
          rw [Int.ediv_eq_iff_of_pos hkv]
          omega
        have hnn : 0 ≤ spare / 4 / facts.kvBytesPerPos := Int.ediv_nonneg (by omega) hkv.le
        rw [hquot, ← hone]
        split_ifs <;> omega
      · rw [if_neg hs, if_pos (le_refl 0)]
        split_ifs <;> omega
    · rw [if_neg hkv]
      split_ifs <;> omega

end Asked

/-- **When every position of the state can be decoded**: the prompt and the tokens to generate stay
within the model's context, the context asked for does or none is asked for, or memory is too short to
grant more. -/
def ContextServed (hw : EngHwInfo) (facts : EngModelFacts) (req : EngPlanRequest) (n ntok : Int) : Prop :=
  let budget := planBudget hw req
  let limit := facts.contextMax + 1
  n + ntok ≤ limit ∨ (0 < req.context ∧ req.context ≤ limit) ∨
    (req.context ≤ 0 ∧ (0 < facts.contextMax ∨ (facts.contextMax = 0 ∧ QuarterHoldsOne budget facts))) ∨
    ¬ Affords budget (planNeeds budget facts req) (if limit < 2 ^ 30 then limit + 1 else req.context)

/-- What is granted and generated goes past the model's context just when the context is not served. -/
theorem not_contextServed_iff {hw : EngHwInfo} {facts : EngModelFacts} {req : EngPlanRequest} {n ntok : Int}
    (hmax : -1 ≤ facts.contextMax) (hkv : 0 ≤ facts.kvBytesPerPos) :
    ¬ ContextServed hw facts req n ntok ↔
      facts.contextMax + 1 < n + ntok ∧ facts.contextMax + 1 < planContext (planBudget hw req) facts req ∧
        (Affords (planBudget hw req) (planNeeds (planBudget hw req) facts req)
            (planContext (planBudget hw req) facts req) ∨
          (facts.contextMax + 1 < 2 ^ 30 ∧ Affords (planBudget hw req) (planNeeds (planBudget hw req) facts req)
            (facts.contextMax + 1 + 1))) := by
  have hasked : facts.contextMax + 1 < planContext (planBudget hw req) facts req ↔
      if 0 < req.context then facts.contextMax + 1 < req.context
      else facts.contextMax ≤ 0 ∧ ¬ (facts.contextMax = 0 ∧ QuarterHoldsOne (planBudget hw req) facts) :=
    lt_planContext_iff hmax
  have hmono : facts.contextMax + 1 < planContext (planBudget hw req) facts req →
      Affords (planBudget hw req) (planNeeds (planBudget hw req) facts req)
        (planContext (planBudget hw req) facts req) →
      Affords (planBudget hw req) (planNeeds (planBudget hw req) facts req) (facts.contextMax + 1 + 1) :=
    fun hlt => Affords.mono hkv (by omega)
  have hwant : 0 < req.context → planContext (planBudget hw req) facts req = req.context := fun h => if_pos h
  rw [hasked]
  unfold ContextServed
  simp only
  rw [hasked] at hmono
  by_cases hreq : 0 < req.context
  · rw [hwant hreq] at hmono ⊢
    rw [if_pos hreq] at hmono ⊢
    split_ifs with hsmall <;> grind
  · rw [if_neg hreq] at hmono ⊢
    split_ifs with hsmall <;> grind

theorem scoresInside_iff {m : EngModel} {s : EngSeqState} (hpos : 0 < s.context) :
    ScoresInside m s ↔ s.context ≤ m.scratch.scores := by
  constructor
  · intro h
    have := h (s.context - 1) (s.context - 1) ⟨by omega, by omega⟩ (by omega) (le_refl _)
    omega
  · intro h pos t hacc _ hle
    have := hacc.2
    omega

/-- **When a granted context is usable.**  The state `cmd_run` creates is within the score buffer just when
the context is served. -/
theorem scoresInside_served {f : File} {hw : EngHwInfo} {facts : EngModelFacts} {req : EngPlanRequest}
    {plan : EngPlan} {direct threadOk : Bool} {force : Option Bool} {m : EngModel} {n ntok ctx : Int}
    {s : EngSeqState} (hfacts : qwen3Inspect f = some facts) (hplan : engPlan hw facts req = .ok plan)
    (hload : qwen3Load f direct threadOk (some plan) force = .ok m)
    (hctx : runContext plan n ntok = some ctx) (hs : stateCreate m ctx = some s) :
    ScoresInside m s ↔ ContextServed hw facts req n ntok := by
  have hloaded := qwen3Load_ok hload
  obtain ⟨hcontext, hpos, -, -⟩ := stateCreate_floats hs
  obtain ⟨g, hopen, hinspect⟩ := Option.bind_eq_some_iff.mp hfacts
  obtain ⟨g', hopen', hl⟩ := hloaded.opened
  obtain rfl := Option.some.inj (hopen.symm.trans hopen')
  obtain ⟨hfigure, hmax⟩ := inspectGguf_layout hinspect hl
  have hscores : (m.scratch.scores : Int) = facts.contextMax + 1 := by rw [hloaded.buffers.scores, hmax]
  have hkv : 0 ≤ facts.kvBytesPerPos := by
    have hnn := mul_nonneg hloaded.nLayers_pos.le hloaded.buffers.kv
    rw [hfigure, show 2 * m.layout.nLayers * m.layout.nKv * m.layout.headDim * 4 =
      8 * (m.layout.nLayers * (m.layout.nKv * m.layout.headDim)) by ring]
    omega
  have hrun : ctx = if plan.context > n + ntok then n + ntok else plan.context := by
    unfold runContext at hctx
    simp only at hctx
    split_ifs at hctx ⊢ <;> exact (Option.some.inj hctx).symm
  have hcut : facts.contextMax + 1 < ctx ↔
      facts.contextMax + 1 < n + ntok ∧ facts.contextMax + 1 < plan.context := by
    rw [hrun]
    split_ifs <;> omega
  have hmaxle : -1 ≤ facts.contextMax := by omega
  have hneeds : (planNeeds (planBudget hw req) facts req).context = planContext (planBudget hw req) facts req :=
    rfl
  rw [scoresInside_iff (by omega), hcontext, hscores, ← not_lt, hcut,
    lt_granted_iff (engPlan_mem hplan) hkv (by omega), hneeds, ← not_contextServed_iff hmaxle hkv, not_not]

/-! ## The container of one layer, run -/

/-- Another plan changes the streamer alone, as long as the head is held or streamed as before. -/
theorem Layout.finish_replan {l : Layout} {f : File} {direct threadOk : Bool} {plan plan' : Option EngPlan}
    {force : Option Bool} {m : EngModel} {stream : EngStreamer}
    (h : l.finish f direct threadOk plan force = some m)
    (hhead : l.wantResident plan' force = l.wantResident plan force)
    (hstream : engStreamerCreate (store f direct) (l.streamerCfg plan' force) threadOk = some stream) :
    l.finish f direct threadOk plan' force = some { m with stream := stream } := by
  unfold Layout.finish at h ⊢
  rw [hhead, hstream]
  simp only [Option.bind_eq_bind, Option.bind_eq_some_iff, Option.bind_some] at h ⊢
  obtain ⟨_, -, a, ha, outNorm, hnorm, rowbuf, hrow, headbuf, hbuf, scratch, hscratch, hm⟩ := h
  obtain rfl := Option.some.inj hm
  exact ⟨a, ha, outNorm, hnorm, rowbuf, hrow, headbuf, hbuf, scratch, hscratch, rfl⟩

/-- A gigabyte, streaming, and a context. -/
def gigabyte (context : Int) : EngPlanRequest := ⟨2 ^ 30, context, 1⟩

/-- The container of one layer, planned and loaded for a context of 8 or of 100. -/
theorem oneLayer_planned {context : Int} (h : context = 8 ∨ context = 100) : ∃ plan m,
    engPlan ⟨0, 0⟩ oneLayerFacts (gigabyte context) = .ok plan ∧ plan.context = context ∧
      qwen3Load oneLayer false true (some plan) none = .ok m ∧ m.numbers = [1, 1, 1, 1, 1, 1, 2, 8] := by
  obtain ⟨m, hload, hnumbers⟩ := oneLayer_loaded
  obtain ⟨l, hl, hm⟩ := qwen3Load_eq_ok.mp hload
  obtain ⟨-, l', hl', hlayers, hneed, hblocks⟩ := oneLayer_read
  obtain rfl := Except.ok.inj (hl.symm.trans hl')
  obtain ⟨plan, hplan, hcontext⟩ : ∃ plan, engPlan ⟨0, 0⟩ oneLayerFacts (gigabyte context) = .ok plan ∧
      plan.context = context := by
    rcases h with rfl | rfl <;> exact ⟨_, rfl, rfl⟩
  have hroom : plan.streamBudget = 2 ^ 30 - 768 * 2 ^ 20 - 16777304 - context * 8 := by
    rw [engPlan_streamBudget rfl hplan]
    rcases h with rfl | rfl <;> decide +kernel
  have hhead : l.wantResident (some plan) none = l.wantResident none none := by
    unfold Layout.wantResident wantLmResident
    rw [Option.map_some, Option.getD_some, hroom, hneed, l.bigLayer_eq, hblocks, hlayers]
    rcases h with rfl | rfl <;> rfl
  obtain ⟨stream, hstream⟩ : ∃ stream,
      engStreamerCreate (store oneLayer false) (l.streamerCfg (some plan) none) true = some stream := by
    unfold Layout.streamerCfg
    rw [Option.map_some, Option.getD_some, hroom, hneed, l.bigLayer_eq, hblocks, hlayers]
    rcases h with rfl | rfl <;> exact ⟨_, rfl⟩
  exact ⟨plan, _, hplan, hcontext, qwen3Load_eq_ok.mpr ⟨l, hl, Layout.finish_replan hm hhead hstream⟩, hnumbers⟩

/-- A state of it, of one float a position in each array, and its score buffer. -/
theorem oneLayer_state {m : EngModel} (hnumbers : m.numbers = [1, 1, 1, 1, 1, 1, 2, 8]) {plan : Option EngPlan}
    (hload : qwen3Load oneLayer false true plan none = .ok m) {n : Nat} (hpos : 0 < n) (hlt : n < 2 ^ 30) :
    stateCreate m n = some ⟨n, n⟩ ∧ m.scratch.scores = 9 := by
  simp only [EngModel.numbers, List.cons.injEq, and_true] at hnumbers
  obtain ⟨hlayers, -, -, hkv, hdim, -, -, hmax⟩ := hnumbers
  have hscores := (qwen3Load_ok hload).buffers.scores
  rw [hmax] at hscores
  refine ⟨?_, by omega⟩
  have hsize : sizeT (n : Int) = n := by
    have := sizeT_of_range (v := (n : Int)) (by omega) (by omega)
    omega
  unfold stateCreate EngModel.kvWidth
  rw [if_neg (by omega), hlayers, hkv, hdim, hsize]
  simp only [show sizeT 1 = 1 from rfl, Int.mul_one, Nat.one_mul, Nat.mul_one]
  rw [Nat.mod_eq_of_lt (by omega), calloc_eq_some.mpr ⟨by omega, rfl⟩, Option.map_some]

/-- A context of 8 is asked for, with three tokens of prompt and five to generate. -/
theorem oneLayer_served : qwen3Inspect oneLayer = some oneLayerFacts ∧ ∃ plan m s,
    engPlan ⟨0, 0⟩ oneLayerFacts (gigabyte 8) = .ok plan ∧
    qwen3Load oneLayer false true (some plan) none = .ok m ∧ runContext plan 3 5 = some 8 ∧
    stateCreate m 8 = some s ∧ ScoresInside m s := by
  obtain ⟨plan, m, hplan, hcontext, hload, hnumbers⟩ := oneLayer_planned (.inl rfl)
  have hs : stateCreate m 8 = some ⟨8, 8⟩ := (oneLayer_state hnumbers hload (by decide) (by decide)).1
  have hrun : runContext plan 3 5 = some 8 := by
    rw [runContext, hcontext]
    decide
  exact ⟨oneLayer_read.1, plan, m, _, hplan, hload, hrun, hs,
    (scoresInside_served oneLayer_read.1 hplan hload hrun hs).mpr (.inl (by decide))⟩

/-- A context of 100 is asked for and granted, where the model's own is 8: the positions from 9 on are
accepted, and their scores lie behind the nine floats of the buffer. -/
theorem oneLayer_overrun : qwen3Inspect oneLayer = some oneLayerFacts ∧ ∃ plan m s,
    engPlan ⟨0, 0⟩ oneLayerFacts (gigabyte 100) = .ok plan ∧
    qwen3Load oneLayer false true (some plan) none = .ok m ∧ runContext plan 50 20 = some 70 ∧
    stateCreate m 70 = some s ∧ ¬ ScoresInside m s := by
  obtain ⟨plan, m, hplan, hcontext, hload, hnumbers⟩ := oneLayer_planned (.inr rfl)
  obtain ⟨hs, hscores⟩ := oneLayer_state hnumbers hload (n := 70) (by decide) (by decide)
  have hrun : runContext plan 50 20 = some 70 := by
    rw [runContext, hcontext]
    decide
  refine ⟨oneLayer_read.1, plan, m, _, hplan, hload, hrun, hs, ?_⟩
  rw [scoresInside_iff (by decide), hscores]
  decide

end LlmEngine.Models.Qwen3
