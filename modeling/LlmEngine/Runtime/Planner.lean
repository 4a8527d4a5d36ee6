/-
# LlmEngine.Runtime.Planner — a machine and a model into a plan (`src/runtime/planner.c`).

What the plan says about memory: the budget, the context, whether the layers stream, and how the
weight budget is split between the layer streamer and the expert cache.  The thread count, the
predicted hit rate and the notes go by floating-point averages, decide nothing here and are left out,
and with them what of the hardware and the model only they read.

* `planBudget`, `planContext` and `planNeeds` are what the planner hands to the partition, in that order.
* `splitWeights` divides what the partition leaves between the streamer and the expert cache.
* `engPlan` puts them together, and refuses where the partition does.

`engPlan_ok` is the plan it makes: the layers stream where they do not fit, or where that is asked for, and a request
that forbids it is refused instead.  For a model without experts all of the room is the streamer's
(`engPlan_streamBudget`).
-/
import LlmEngine.Runtime.Memory

namespace LlmEngine.Runtime

/-- `EngHwInfo`, as far as memory goes. -/
structure EngHwInfo where
  ramTotal : Int
  ramAvailable : Int
  deriving DecidableEq, Repr

/-- `EngModelFacts`. -/
structure EngModelFacts where
  nLayers : Int
  totalWeightBytes : Int
  residentBytes : Int
  maxLayerBytes : Int
  avgLayerBytes : Int
  activationBytes : Int
  scratchBytes : Int
  kvBytesPerPos : Int
  contextMax : Int
  nExperts : Int
  topk : Int
  expertBytes : Int
  deriving DecidableEq, Repr

/-- `EngPlanRequest`: a budget or context of 0 is for the planner to choose, `forceStream` is -1 for
automatic, 0 to require residency, 1 to force streaming. -/
structure EngPlanRequest where
  memoryBudget : Int
  context : Int
  forceStream : Int
  deriving DecidableEq, Repr

/-- `EngPlan` of a viable plan. -/
structure EngPlan where
  memoryBudget : Int
  context : Int
  streaming : Bool
  streamBudget : Int
  cacheBudget : Int
  prefetchDepth : Nat
  mem : EngMemPlan
  deriving DecidableEq, Repr

/-- Why there is no plan. -/
inductive EngPlanProblem where
  /-- "cannot determine a memory budget" -/
  | noBudget
  | mem (p : EngMemProblem)
  /-- "residency was required but the streamable weights are ... and only ... is available" -/
  | notResident (streamable wbudget : Int)
  deriving DecidableEq, Repr

/-- `ENG_DEFAULT_CONTEXT`. -/
def engDefaultContext : Int := 4096

/-- `plan->memory_budget`. -/
def planBudget (hw : EngHwInfo) (req : EngPlanRequest) : Int :=
  if req.memoryBudget > 0 then req.memoryBudget else engMemAutoBudget hw.ramAvailable hw.ramTotal

/-- `needs.context`: as asked, else a modest default whose KV cache is at most a quarter of what the
fixed costs leave. -/
def planContext (budget : Int) (m : EngModelFacts) (req : EngPlanRequest) : Int :=
  if req.context > 0 then req.context
  else
    let ctx :=
      if m.contextMax > 0 ∧ m.contextMax < engDefaultContext then m.contextMax else engDefaultContext
    if m.kvBytesPerPos > 0 then
      let spare := budget - m.residentBytes - m.activationBytes - m.scratchBytes
      let kvCap := if spare > 0 then spare.tdiv 4 else 0
      let fits := engMemMaxContext kvCap m.kvBytesPerPos
      if fits > 0 ∧ fits < ctx then fits else ctx
    else ctx

/-- `needs`. -/
def planNeeds (budget : Int) (m : EngModelFacts) (req : EngPlanRequest) : EngMemNeeds where
  resident := m.residentBytes
  activations := m.activationBytes
  scratch := m.scratchBytes
  kvPerPos := m.kvBytesPerPos
  context := planContext budget m req
  minWeights := if m.maxLayerBytes > 0 then m.maxLayerBytes else m.avgLayerBytes

/-- The stream's and the cache's part of the weight budget, when streaming. -/
def splitWeights (m : EngModelFacts) (wbudget : Int) : Int × Int :=
  if m.nExperts > 0 ∧ m.expertBytes > 0 then
    let cacheMin := (m.topk + 1) * m.expertBytes
    if wbudget > cacheMin + m.maxLayerBytes * 2 then (wbudget - cacheMin, cacheMin)
    else (wbudget - wbudget.tdiv 2, wbudget.tdiv 2)
  else (wbudget, 0)

/-- `eng_plan`. -/
def engPlan (hw : EngHwInfo) (m : EngModelFacts) (req : EngPlanRequest) :
    Except EngPlanProblem EngPlan :=
  let budget := planBudget hw req
  if budget ≤ 0 then .error .noBudget
  else
    match engMemPlan budget (planNeeds budget m req) with
    | .error p => .error (.mem p)
    | .ok (mem, ctx) =>
        let streamable := m.totalWeightBytes - m.residentBytes
        if req.forceStream = 0 ∧ mem.weights < streamable then
          .error (.notResident streamable mem.weights)
        else
          let streaming := req.forceStream = 1 ∨ mem.weights < streamable
          let split :=
            if streaming then splitWeights m mem.weights
            else (streamable, mem.weights - streamable)
          .ok
            { memoryBudget := budget, context := ctx, streaming := streaming
              streamBudget := split.1, cacheBudget := split.2
              prefetchDepth := if streaming then 1 else 0
              mem := mem }

/-! ## What a viable plan gives the streamer -/

section Plan

variable {hw : EngHwInfo} {m : EngModelFacts} {req : EngPlanRequest} {plan : EngPlan}

/-- The memory part of a plan, and its context, are `eng_mem_plan`'s. -/
theorem engPlan_mem (h : engPlan hw m req = .ok plan) :
    engMemPlan (planBudget hw req) (planNeeds (planBudget hw req) m req) = .ok (plan.mem, plan.context) := by
  unfold engPlan at h
  simp only [check_ok_iff] at h
  obtain ⟨-, h⟩ := h
  split at h
  · exact absurd h (by simp)
  · next mem ctx hmem =>
      simp only [check_ok_iff] at h
      obtain ⟨-, hplan⟩ := h
      obtain rfl := Except.ok.inj hplan
      exact hmem

/-- What `eng_mem_plan` leaves the weights under this budget and this request. -/
def planRoom (hw : EngHwInfo) (m : EngModelFacts) (req : EngPlanRequest) : Int :=
  weightRoom (planBudget hw req) (planNeeds (planBudget hw req) m req)

/-- **A viable plan**: whether it streams, and where the room for weights goes. -/
theorem engPlan_ok (h : engPlan hw m req = .ok plan) :
    (plan.streaming = true ↔
        req.forceStream = 1 ∨ planRoom hw m req < m.totalWeightBytes - m.residentBytes) ∧
      (plan.streamBudget, plan.cacheBudget) =
        if plan.streaming then splitWeights m (planRoom hw m req)
        else (m.totalWeightBytes - m.residentBytes,
          planRoom hw m req - (m.totalWeightBytes - m.residentBytes)) := by
  unfold engPlan at h
  simp only [check_ok_iff] at h
  obtain ⟨-, h⟩ := h
  split at h
  · exact absurd h (by simp)
  · next mem ctx hmem =>
      obtain ⟨hweights, -⟩ := engMemPlan_ok hmem
      simp only [check_ok_iff] at h
      obtain ⟨-, hplan⟩ := h
      obtain rfl := Except.ok.inj hplan
      simp only [planRoom, ← hweights, decide_eq_true_eq, Prod.mk.eta, and_self]

/-- What the layers of a dense model can have: the room for weights, or all of them where they fit. -/
def streamRoom (hw : EngHwInfo) (m : EngModelFacts) (req : EngPlanRequest) : Int :=
  let room := weightRoom (planBudget hw req) (planNeeds (planBudget hw req) m req)
  if req.forceStream = 1 then room else min room (m.totalWeightBytes - m.residentBytes)

/-- **The stream budget of a dense model.** -/
theorem engPlan_streamBudget (hdense : m.nExperts = 0) (h : engPlan hw m req = .ok plan) :
    plan.streamBudget = streamRoom hw m req := by
  obtain ⟨hstream, hbudgets⟩ := engPlan_ok h
  have hsplit : splitWeights m (planRoom hw m req) = (planRoom hw m req, 0) := by
    unfold splitWeights
    rw [hdense, if_neg (by omega)]
  have hroom : streamRoom hw m req = if req.forceStream = 1 then planRoom hw m req
      else min (planRoom hw m req) (m.totalWeightBytes - m.residentBytes) := rfl
  rw [hsplit] at hbudgets
  rw [hroom]
  by_cases hs : plan.streaming = true
  · rw [if_pos hs] at hbudgets
    rw [(Prod.mk.inj hbudgets).1]
    split_ifs with hforce
    · rfl
    · exact (min_eq_left ((hstream.mp hs).resolve_left hforce).le).symm
  · rw [if_neg hs] at hbudgets
    rw [hstream, not_or, not_lt] at hs
    rw [(Prod.mk.inj hbudgets).1, if_neg hs.1, min_eq_right hs.2]

end Plan

end LlmEngine.Runtime
