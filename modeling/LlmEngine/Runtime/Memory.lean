/-
# LlmEngine.Runtime.Memory — one budget, partitioned (`src/runtime/memory.c`).

`eng_mem_plan` takes the reserve, the resident weights, the activations and the scratch off the
budget, then the KV cache, and leaves the rest to the weights.  A refusal is a value of
`EngMemProblem` with the figures its message names; the message itself prints them as floating-point
gigabytes and is left out.

Sizes are bytes in `int64_t`, whose overflow is undefined; they are integers here, and a division
rounds towards zero.

* `grantedContext` is the context a plan settles for, and `memReserve` what is kept back.
* The refusals are made in the source's order; `engMemPlan_ok` says what stands behind all of them.
* A shortage that a smaller context would mend is not a refusal: the context shrinks, to one position at the least.

That the parts add up, and that the context is the largest there is, is `Runtime.Partition`.
-/
import Mathlib.Tactic.Ring
import Mathlib.Tactic.Linarith

namespace LlmEngine.Runtime

/-- `EngMemNeeds`. -/
structure EngMemNeeds where
  resident : Int
  activations : Int
  scratch : Int
  kvPerPos : Int
  context : Int
  minWeights : Int
  deriving DecidableEq, Repr

/-- `EngMemPlan` of a viable plan. -/
structure EngMemPlan where
  budget : Int
  reserve : Int
  resident : Int
  activations : Int
  scratch : Int
  kvCache : Int
  weights : Int
  deriving DecidableEq, Repr

/-- Why a budget is refused. -/
inductive EngMemProblem where
  /-- "no memory budget given" -/
  | noBudget
  /-- "budget is smaller than the safety reserve" -/
  | belowReserve (budget reserve : Int)
  /-- "weights that cannot stream need ... but the budget is ...; this model needs at least ..." -/
  | resident (resident budget atLeast : Int)
  /-- "activations and scratch need ... but only ... remains" -/
  | activations (need left : Int)
  /-- "nothing left for the KV cache: the weight budget needs at least ..." -/
  | noKv (minWeights : Int)
  /-- "not one KV position fits: each costs ... and only ... is free" -/
  | noPosition (kvPerPos forKv : Int)
  /-- "only ... left for weights but at least ... is needed (one layer must fit)" -/
  | weights (weights minWeights : Int)
  deriving DecidableEq, Repr

/-- `eng_mem_auto_budget`. -/
def engMemAutoBudget (ramAvailable ramTotal : Int) : Int :=
  let base := if ramAvailable > 0 then ramAvailable else (ramTotal * 3).tdiv 4
  if base ≤ 0 then 0
  else
    let keepProp := base.tdiv 5
    let keep := if keepProp > 2 ^ 30 then keepProp else 2 ^ 30
    if base - keep > 0 then base - keep else 0

/-- `eng_mem_max_context`. -/
def engMemMaxContext (avail kvPerPos : Int) : Int :=
  if kvPerPos ≤ 0 then 0
  else if avail ≤ 0 then 0
  else if avail.tdiv kvPerPos > 2 ^ 30 then 2 ^ 30
  else avail.tdiv kvPerPos

/-- The larger of 768 MB and 12%. -/
def memReserve (budget : Int) : Int :=
  let resProp := (budget * 12).tdiv 100
  if resProp > 768 * 2 ^ 20 then resProp else 768 * 2 ^ 20

/-- There is a KV cache to plan for. -/
def EngMemNeeds.HasKv (needs : EngMemNeeds) : Prop := needs.kvPerPos > 0 ∧ needs.context > 0

instance (needs : EngMemNeeds) : Decidable needs.HasKv := inferInstanceAs (Decidable (_ ∧ _))

/-- The context, reduced to what fits `forKv` bytes. -/
def grantedContext (needs : EngMemNeeds) (forKv : Int) : Int :=
  if needs.context * needs.kvPerPos > forKv then engMemMaxContext forKv needs.kvPerPos
  else needs.context

/-- `eng_mem_plan`; the second component is `*context_out`. -/
def engMemPlan (budget : Int) (needs : EngMemNeeds) : Except EngMemProblem (EngMemPlan × Int) :=
  if budget ≤ 0 then .error .noBudget
  else
    let reserve := memReserve budget
    if reserve ≥ budget then .error (.belowReserve budget reserve)
    else
      let left := budget - reserve
      if needs.resident > left then
        .error (.resident needs.resident budget
          (needs.resident + reserve + needs.activations + needs.scratch + needs.minWeights))
      else
        let left := left - needs.resident
        if needs.activations + needs.scratch > left then
          .error (.activations (needs.activations + needs.scratch) left)
        else
          let left := left - (needs.activations + needs.scratch)
          let forKv := left - needs.minWeights
          if needs.HasKv ∧ forKv ≤ 0 then .error (.noKv needs.minWeights)
          else
            let ctx := if needs.HasKv then grantedContext needs forKv else needs.context
            if needs.HasKv ∧ ctx ≤ 0 then .error (.noPosition needs.kvPerPos forKv)
            else
              let kvCache := if needs.HasKv then ctx * needs.kvPerPos else 0
              let left := left - kvCache
              if left < needs.minWeights then .error (.weights left needs.minWeights)
              else .ok
                ({ budget := budget, reserve := reserve, resident := needs.resident
                   activations := needs.activations, scratch := needs.scratch
                   kvCache := kvCache, weights := left }, ctx)

/-! ## What a viable plan is -/

/-- What is left of a budget behind the reserve and the fixed parts. -/
def pastFixed (budget : Int) (needs : EngMemNeeds) : Int :=
  budget - memReserve budget - needs.resident - (needs.activations + needs.scratch)

/-- The KV cache of the context that is granted. -/
def kvShare (budget : Int) (needs : EngMemNeeds) : Int :=
  if needs.HasKv then
    grantedContext needs (pastFixed budget needs - needs.minWeights) * needs.kvPerPos
  else 0

/-- What is left for the weights. -/
def weightRoom (budget : Int) (needs : EngMemNeeds) : Int :=
  pastFixed budget needs - kvShare budget needs

/-- A check that did not refuse. -/
theorem check_ok_iff {ε α : Type} {p : Prop} [Decidable p] {e : ε} {x : Except ε α} {a : α} :
    (if p then .error e else x) = .ok a ↔ ¬ p ∧ x = .ok a := by
  by_cases hp : p <;> simp [hp]

section Plan

variable {budget : Int} {needs : EngMemNeeds} {plan : EngMemPlan} {ctx : Int}

/-- **A viable plan** leaves the weights all of the rest, and no less than the minimum. -/
theorem engMemPlan_ok (h : engMemPlan budget needs = .ok (plan, ctx)) :
    plan.weights = weightRoom budget needs ∧ needs.minWeights ≤ plan.weights := by
  unfold engMemPlan at h
  simp only [check_ok_iff] at h
  obtain ⟨-, -, -, -, -, -, hmin, hplan⟩ := h
  obtain ⟨rfl, -⟩ := Prod.mk.inj (Except.ok.inj hplan)
  refine ⟨?_, not_lt.mp hmin⟩
  unfold weightRoom kvShare pastFixed
  by_cases hkv : needs.HasKv
  · simp only [if_pos hkv]
  · simp only [if_neg hkv]

end Plan

end LlmEngine.Runtime
