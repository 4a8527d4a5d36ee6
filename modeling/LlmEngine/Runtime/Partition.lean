/-
# LlmEngine.Runtime.Partition — the memory partition is exact, maximal and monotone.

`engMemPlan_ok_iff` turns the chain of refusals into one inequality: the fixed costs, which the minimum
for the weights is one of, and one KV position where a cache is wanted, fit behind the reserve.  The
context that is granted is then the largest that leaves the minimum, and a larger budget never grants
less.

* `Fits` is the inequality, and `granted` the context in closed form.
* `engMemPlan_eq_ok_iff` unfolds the code once; `engMemPlan_ok_iff` is the plan in closed form (`partition`).
* `granted_isGreatest`: the context that is granted is the greatest element of `affordable`.
* `Fits.mono`: what fits a budget fits a larger one.

`EngMemNeeds.Valid` says that the needs are sizes, none of them negative.  The planner's own figures are such
(`engPlan_kvCache`).
-/
import LlmEngine.Runtime.Planner
import Mathlib.Order.Bounds.Basic
import Mathlib.Algebra.Order.Group.Int

namespace LlmEngine.Runtime

/-- What `eng_mem_plan` is promised about its figures. -/
structure EngMemNeeds.Valid (needs : EngMemNeeds) : Prop where
  resident : 0 ≤ needs.resident
  activations : 0 ≤ needs.activations
  scratch : 0 ≤ needs.scratch
  kvPerPos : 0 ≤ needs.kvPerPos
  context : 0 ≤ needs.context
  context_le : needs.context ≤ 2 ^ 30
  minWeights : 0 ≤ needs.minWeights

/-- The fixed costs fit behind the reserve, the minimum for the weights among them, and beside it one
position where a cache is wanted. -/
structure Fits (budget : Int) (needs : EngMemNeeds) : Prop where
  reserve : memReserve budget < budget
  fixed : needs.resident + needs.activations + needs.scratch ≤ budget - memReserve budget
  position : needs.HasKv → needs.kvPerPos + needs.minWeights ≤ pastFixed budget needs
  weights : needs.minWeights ≤ pastFixed budget needs

/-- `*context_out`. -/
def granted (budget : Int) (needs : EngMemNeeds) : Int :=
  if needs.HasKv then grantedContext needs (pastFixed budget needs - needs.minWeights) else needs.context

/-- The plan that `eng_mem_plan` fills in. -/
def partition (budget : Int) (needs : EngMemNeeds) : EngMemPlan where
  budget := budget
  reserve := memReserve budget
  resident := needs.resident
  activations := needs.activations
  scratch := needs.scratch
  kvCache := kvShare budget needs
  weights := weightRoom budget needs

section Granted

variable {needs : EngMemNeeds} {forKv : Int}

/-- **The granted context**: all of it, or as many positions as fit. -/
theorem grantedContext_eq (hkv : 0 < needs.kvPerPos) (hle : needs.context ≤ 2 ^ 30) (hfor : 0 < forKv) :
    grantedContext needs forKv = min needs.context (forKv / needs.kvPerPos) := by
  have hdiv : needs.context ≤ forKv / needs.kvPerPos ↔ needs.context * needs.kvPerPos ≤ forKv :=
    Int.le_ediv_iff_mul_le hkv
  unfold grantedContext engMemMaxContext
  rw [Int.tdiv_eq_ediv_of_nonneg hfor.le, if_neg (not_le.mpr hkv), if_neg (not_le.mpr hfor)]
  split_ifs with hwant hcap
  · -- more than is representable fits, so all that was asked for does
    exact absurd (hdiv.mp (hle.trans hcap.le)) (not_le.mpr hwant)
  · rw [min_eq_right]
    by_contra hlt
    exact absurd (hdiv.mp (not_le.mp hlt).le) (not_le.mpr hwant)
  · rw [min_eq_left (hdiv.mpr (not_lt.mp hwant))]

end Granted

section Plan

variable {budget : Int} {needs : EngMemNeeds}

theorem memReserve_pos (budget : Int) : 0 < memReserve budget := by
  unfold memReserve
  simp only
  split_ifs <;> omega

/-- The reserve takes less of what is added to a budget than all of it. -/
theorem memReserve_mono {budget' : Int} (h0 : 0 ≤ budget) (h : budget ≤ budget') :
    budget - memReserve budget ≤ budget' - memReserve budget' := by
  unfold memReserve
  rw [Int.tdiv_eq_ediv_of_nonneg (by omega), Int.tdiv_eq_ediv_of_nonneg (by omega)]
  simp only
  split_ifs <;> omega

theorem pastFixed_mono {budget' : Int} (h0 : 0 ≤ budget) (h : budget ≤ budget') :
    pastFixed budget needs ≤ pastFixed budget' needs := by
  have := memReserve_mono h0 h
  unfold pastFixed
  omega

/-- `eng_mem_plan` succeeds with its partition, or refuses. -/
theorem engMemPlan_eq_ok_iff {plan : EngMemPlan} {ctx : Int} : engMemPlan budget needs = .ok (plan, ctx) ↔
    0 < budget ∧ memReserve budget < budget ∧ needs.resident ≤ budget - memReserve budget ∧
      needs.activations + needs.scratch ≤ budget - memReserve budget - needs.resident ∧
      (needs.HasKv → 0 < pastFixed budget needs - needs.minWeights) ∧ (needs.HasKv → 0 < granted budget needs) ∧
      needs.minWeights ≤ weightRoom budget needs ∧
      plan = partition budget needs ∧ ctx = granted budget needs := by
  unfold engMemPlan
  simp only [check_ok_iff, not_le, not_lt, ge_iff_le, gt_iff_lt, Except.ok.injEq, Prod.mk.injEq,
    partition, granted, kvShare, weightRoom, pastFixed, @eq_comm _ plan, @eq_comm _ ctx]
  by_cases hkv : needs.HasKv
  · simp only [hkv, true_and, if_true, not_le, true_implies]
  · simp only [hkv, false_and, if_false, not_false_iff, false_implies, true_and, sub_zero]

/-- The contexts, up to the one asked for, whose KV cache leaves the weights their minimum. -/
def affordable (budget : Int) (needs : EngMemNeeds) : Set Int :=
  {c | c ≤ needs.context ∧ c * needs.kvPerPos + needs.minWeights ≤ pastFixed budget needs}

theorem no_kv_cost (hv : needs.Valid) (hkv : ¬ needs.HasKv) : needs.context * needs.kvPerPos = 0 := by
  unfold EngMemNeeds.HasKv at hkv
  have hk := hv.kvPerPos
  have hc := hv.context
  by_cases hzero : needs.kvPerPos = 0
  · rw [hzero, mul_zero]
  · have hcontext : needs.context = 0 := by
      by_contra hne
      exact hkv ⟨by omega, by omega⟩
    rw [hcontext, zero_mul]

/-- **The granted context is the largest affordable one.** -/
theorem granted_isGreatest (hv : needs.Valid) (hfits : Fits budget needs) :
    IsGreatest (affordable budget needs) (granted budget needs) := by
  unfold granted
  by_cases hkv : needs.HasKv
  · have hpos := hfits.position hkv
    have hk : 0 < needs.kvPerPos := hkv.1
    rw [if_pos hkv, grantedContext_eq hk hv.context_le (by omega)]
    refine ⟨⟨min_le_left _ _, ?_⟩, fun c hc => ?_⟩
    · have hle : min needs.context ((pastFixed budget needs - needs.minWeights) / needs.kvPerPos) *
          needs.kvPerPos ≤ pastFixed budget needs - needs.minWeights :=
        (Int.le_ediv_iff_mul_le hk).mp (min_le_right _ _)
      omega
    · refine le_min hc.1 ((Int.le_ediv_iff_mul_le hk).mpr ?_)
      have := hc.2
      omega
  · rw [if_neg hkv]
    refine ⟨⟨le_refl _, ?_⟩, fun c hc => hc.1⟩
    rw [no_kv_cost hv hkv, zero_add]
    exact hfits.weights

/-- The KV cache is that of the granted context. -/
theorem kvShare_eq (hv : needs.Valid) : kvShare budget needs = granted budget needs * needs.kvPerPos := by
  unfold kvShare granted
  by_cases hkv : needs.HasKv
  · rw [if_pos hkv, if_pos hkv]
  · rw [if_neg hkv, if_neg hkv, no_kv_cost hv hkv]

/-- One affordable position is a granted one. -/
theorem granted_pos (hv : needs.Valid) (hfits : Fits budget needs) (hkv : needs.HasKv) :
    0 < granted budget needs := by
  have hone : 1 ∈ affordable budget needs := by
    refine ⟨hkv.2, ?_⟩
    rw [one_mul]
    exact hfits.position hkv
  have := (granted_isGreatest hv hfits).2 hone
  omega

/-- **When there is a plan, and which.** -/
theorem engMemPlan_ok_iff (hv : needs.Valid) {plan : EngMemPlan} {ctx : Int} :
    engMemPlan budget needs = .ok (plan, ctx) ↔
      Fits budget needs ∧ plan = partition budget needs ∧ ctx = granted budget needs := by
  have hr := hv.resident
  have ha := hv.activations
  have hs := hv.scratch
  rw [engMemPlan_eq_ok_iff]
  constructor
  · rintro ⟨hpos, hres, hresident, hacts, hfor, hgranted, hweights, hplan, hctx⟩
    refine ⟨⟨hres, by omega, fun hkv => ?_, ?_⟩, hplan, hctx⟩
    · -- at least one position was granted, and the granted ones left the minimum
      have hroom : granted budget needs * needs.kvPerPos + needs.minWeights ≤ pastFixed budget needs := by
        unfold weightRoom at hweights
        rw [kvShare_eq hv] at hweights
        omega
      have hone : needs.kvPerPos ≤ granted budget needs * needs.kvPerPos :=
        le_mul_of_one_le_left hkv.1.le (hgranted hkv)
      omega
    · have hnn : 0 ≤ kvShare budget needs := by
        unfold kvShare
        split_ifs with hkv
        · have hg := hgranted hkv
          unfold granted at hg
          rw [if_pos hkv] at hg
          exact mul_nonneg hg.le hv.kvPerPos
        · exact le_refl 0
      unfold weightRoom at hweights
      omega
  · rintro ⟨hfits, hplan, hctx⟩
    have hreserve := memReserve_pos budget
    have hres := hfits.reserve
    have hfixed := hfits.fixed
    refine ⟨by omega, hres, by omega, by omega, fun hkv => ?_, granted_pos hv hfits, ?_, hplan, hctx⟩
    · have := hfits.position hkv
      have := hkv.1
      omega
    · have := (granted_isGreatest hv hfits).1.2
      unfold weightRoom
      rw [kvShare_eq hv]
      omega

/-- More budget, more room. -/
theorem Fits.mono {budget' : Int} (hfits : Fits budget needs) (h : budget ≤ budget') : Fits budget' needs := by
  have hpos := memReserve_pos budget
  have hres := hfits.reserve
  have hreserve : budget - memReserve budget ≤ budget' - memReserve budget' := memReserve_mono (by omega) h
  have hpast : pastFixed budget needs ≤ pastFixed budget' needs := pastFixed_mono (by omega) h
  have hfixed := hfits.fixed
  refine ⟨by omega, by omega, fun hkv => ?_, hfits.weights.trans hpast⟩
  exact (hfits.position hkv).trans hpast

/-- The KV cache of a plan is the figure times the context. -/
theorem engPlan_kvCache {hw : EngHwInfo} {facts : EngModelFacts} {req : EngPlanRequest} {plan : EngPlan}
    (h : engPlan hw facts req = .ok plan) (hnn : 0 ≤ facts.kvBytesPerPos) (hctx : 0 < plan.context) :
    plan.mem.kvCache = plan.context * facts.kvBytesPerPos := by
  have hmem := engPlan_mem h
  obtain ⟨-, -, -, -, -, -, -, hplan, hgranted⟩ := engMemPlan_eq_ok_iff.mp hmem
  rw [hgranted] at hctx
  rw [hplan, hgranted]
  simp only [partition, kvShare, granted] at hctx ⊢
  by_cases hkv : (planNeeds (planBudget hw req) facts req).HasKv
  · simp only [if_pos hkv]
    rfl
  · simp only [if_neg hkv] at hctx ⊢
    -- a context that needs no cache costs nothing
    have hzero : facts.kvBytesPerPos = 0 := by
      by_contra hne
      exact hkv ⟨lt_of_le_of_ne hnn (Ne.symm hne), hctx⟩
    rw [hzero, mul_zero]

end Plan

/-- **The partition is exact, maximal and monotone.** -/
theorem memPartition_exact {needs : EngMemNeeds} (hv : needs.Valid) :
    (∀ budget, (∃ plan ctx, engMemPlan budget needs = .ok (plan, ctx)) ↔ Fits budget needs) ∧
    (∀ budget plan ctx, engMemPlan budget needs = .ok (plan, ctx) →
      plan.reserve + plan.resident + plan.activations + plan.scratch + plan.kvCache + plan.weights = budget ∧
      plan.kvCache = ctx * needs.kvPerPos ∧ needs.minWeights ≤ plan.weights ∧
      IsGreatest (affordable budget needs) ctx) ∧
    ∀ budget budget' plan ctx, budget ≤ budget' → engMemPlan budget needs = .ok (plan, ctx) →
      ∃ plan' ctx', engMemPlan budget' needs = .ok (plan', ctx') ∧ ctx ≤ ctx' := by
  refine ⟨fun budget => ?_, fun budget plan ctx h => ?_, fun budget budget' plan ctx hle h => ?_⟩
  · simp only [engMemPlan_ok_iff hv]
    exact ⟨fun ⟨_, _, hfits, _⟩ => hfits, fun hfits => ⟨_, _, hfits, rfl, rfl⟩⟩
  · obtain ⟨hfits, rfl, rfl⟩ := (engMemPlan_ok_iff hv).mp h
    have hgreatest := granted_isGreatest hv hfits
    refine ⟨?_, kvShare_eq hv, ?_, hgreatest⟩
    · simp only [partition, weightRoom, pastFixed]
      ring
    · have := hgreatest.1.2
      show needs.minWeights ≤ weightRoom budget needs
      unfold weightRoom
      rw [kvShare_eq hv]
      omega
  · obtain ⟨hfits, rfl, rfl⟩ := (engMemPlan_ok_iff hv).mp h
    have hfits' := hfits.mono hle
    refine ⟨_, _, (engMemPlan_ok_iff hv).mpr ⟨hfits', rfl, rfl⟩, ?_⟩
    have hpast : pastFixed budget needs ≤ pastFixed budget' needs := by
      have := memReserve_pos budget
      have := hfits.reserve
      exact pastFixed_mono (by omega) hle
    obtain ⟨⟨hcontext, hroom⟩, -⟩ := granted_isGreatest hv hfits
    exact (granted_isGreatest hv hfits').2 ⟨hcontext, hroom.trans hpast⟩

/-- The context of this model is cut on 6 GiB and granted on 64 GiB. -/
def dialNeeds : EngMemNeeds where
  resident := 2 ^ 30
  activations := 2 ^ 20
  scratch := 2 ^ 20
  kvPerPos := 294912
  context := 40960
  minWeights := 2 ^ 28

theorem dial_partition : ∃ plan ctx plan' ctx', engMemPlan (6 * 2 ^ 30) dialNeeds = .ok (plan, ctx) ∧
    engMemPlan (64 * 2 ^ 30) dialNeeds = .ok (plan', ctx') ∧ ctx ≤ ctx' ∧ ctx < 40960 := by
  have hv : dialNeeds.Valid := ⟨by decide, by decide, by decide, by decide, by decide, by decide, by decide⟩
  obtain ⟨-, -, hmono⟩ := memPartition_exact hv
  have hsmall : engMemPlan (6 * 2 ^ 30) dialNeeds =
      .ok (partition (6 * 2 ^ 30) dialNeeds, granted (6 * 2 ^ 30) dialNeeds) := by decide +kernel
  obtain ⟨plan', ctx', hlarge, hle⟩ := hmono _ (64 * 2 ^ 30) _ _ (by decide) hsmall
  exact ⟨_, _, plan', ctx', hsmall, hlarge, hle, by decide +kernel⟩

end LlmEngine.Runtime
