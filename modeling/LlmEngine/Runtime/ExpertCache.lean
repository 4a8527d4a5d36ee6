/-
# LlmEngine.Runtime.ExpertCache — the cache budget of a streaming plan against the cache.

The planner counts an expert as its payload; the cache rounds every slot up and adds a page at both
ends (`eng_cache_stride_for`), and refuses fewer than `topk + 1` slots.  Where the planner takes "the
minimum off the top" the quotient therefore always comes out short; only an even split that happens
to be large enough is accepted (`expertCache_usable_iff`).

* `engCacheCreate_isSome_iff` says which configurations the cache accepts, from its own code.
* `lt_engCacheStrideFor`: a slot is larger than its payload, so slots counted by the payload are too many.
* `expertCache_usable_iff` reads the two off a plan: the numbers are the plan's own, and the streamer beside the cache
  is the other half of the same split.

`k3_tight_usable` and `k3_minimum_refused` are the two kinds of plan for the sizes of the released K3.
-/
import LlmEngine.Runtime.Planner
import LlmEngine.Storage.Cache
import LlmEngine.Storage.StreamerSizing

namespace LlmEngine.Runtime

open LlmEngine.Storage LlmEngine.Storage.Cache LlmEngine.Storage.Streamer

/-- The configuration of an expert cache: one slot an expert, `topk + 1` of them at the least. -/
def expertCacheCfg (m : EngModelFacts) (plan : EngPlan) (nkeys : Int) (wantHist wantTrace : Bool) :
    EngCacheCfg where
  budgetBytes := plan.cacheBudget
  slotBytes := m.expertBytes
  nkeys := nkeys
  minSlots := m.topk + 1
  wantHist := wantHist
  wantTrace := wantTrace

section Slots

variable {σ : Type} {n : Nat}

/-- A cache is built exactly when its budget holds the slots it must have. -/
theorem engCacheCreate_isSome_iff {cfg : EngCacheCfg} (src : EngCacheSrc σ n) (ctx : σ)
    (arena : Int → UInt8) (hkeys : 0 < cfg.nkeys) (hslot : 0 < cfg.slotBytes) (hmin : 1 ≤ cfg.minSlots) :
    (engCacheCreate cfg src ctx arena).isSome ↔
      cfg.minSlots ≤ toInt32 (cfg.budgetBytes.tdiv (engCacheStrideFor cfg.slotBytes)) := by
  unfold engCacheCreate
  rw [if_neg (by omega)]
  dsimp only
  split_ifs with hfew
  · simp only [Option.isSome_none, Bool.false_eq_true, false_iff]
    omega
  · simp only [Option.isSome_some, true_iff]
    omega

end Slots

theorem lt_engCacheStrideFor {payload : Int} (h : 0 < payload) : payload < engCacheStrideFor payload := by
  unfold engCacheStrideFor alignUp engIoAlign
  rw [if_neg (by omega)]
  omega

/-- Slots counted by payload are too few once they are padded. -/
theorem toInt32_slots_lt {slots payload : Int} (hslots : 0 < slots) (hpayload : 0 < payload) :
    toInt32 ((slots * payload).tdiv (engCacheStrideFor payload)) < slots := by
  have hstride := lt_engCacheStrideFor hpayload
  have hprod : 0 ≤ slots * payload := by positivity
  have hdiv : (slots * payload).tdiv (engCacheStrideFor payload) < slots := by
    rw [Int.tdiv_eq_ediv_of_nonneg hprod]
    apply Int.ediv_lt_of_lt_mul (hpayload.trans hstride)
    exact mul_lt_mul_of_pos_left hstride hslots
  have hnn : 0 ≤ (slots * payload).tdiv (engCacheStrideFor payload) :=
    Int.tdiv_nonneg hprod (hpayload.trans hstride).le
  refine lt_of_le_of_lt ?_ hdiv
  unfold toInt32
  rw [Int.bmod_def]
  omega

/-- **The expert cache of a streaming plan** is accepted, beside a streamer that can hold its largest
layer, exactly when the budget is so tight that it is split evenly and each half is enough. -/
theorem expertCache_usable_iff {σ : Type} {n : Nat} (src : EngCacheSrc σ n) (ctx : σ)
    (arena : Int → UInt8) (wantHist wantTrace : Bool) {hw : EngHwInfo} {m : EngModelFacts}
    {req : EngPlanRequest} {plan : EngPlan} {nkeys : Int}
    (hexperts : 0 < m.nExperts) (htopk : 1 ≤ m.topk) (hbytes : 0 < m.expertBytes) (hkeys : 0 < nkeys)
    (hplan : engPlan hw m req = .ok plan) (hstream : plan.streaming = true) :
    ((engCacheCreate (expertCacheCfg m plan nkeys wantHist wantTrace) src ctx arena).isSome ∧
        slotFor m.maxLayerBytes 0 ≤ plan.streamBudget) ↔
      planRoom hw m req ≤ (m.topk + 1) * m.expertBytes + m.maxLayerBytes * 2 ∧
        m.topk + 1 ≤ toInt32 (((planRoom hw m req).tdiv 2).tdiv (engCacheStrideFor m.expertBytes)) ∧
        slotFor m.maxLayerBytes 0 ≤ planRoom hw m req - (planRoom hw m req).tdiv 2 := by
  have hsplit := (engPlan_ok hplan).2
  rw [if_pos hstream] at hsplit
  rw [engCacheCreate_isSome_iff src ctx arena hkeys hbytes (by simp only [expertCacheCfg]; omega)]
  simp only [expertCacheCfg]
  unfold splitWeights at hsplit
  rw [if_pos ⟨hexperts, hbytes⟩] at hsplit
  dsimp only at hsplit
  split_ifs at hsplit with hample
  · -- the minimum off the top: `topk + 1` payloads are never `topk + 1` slots
    obtain ⟨-, hcache⟩ := Prod.mk.inj hsplit
    have htop : 0 < m.topk + 1 := by omega
    have hshort := toInt32_slots_lt htop hbytes
    rw [hcache]
    constructor
    · rintro ⟨hslots, -⟩
      exact absurd hslots (not_le.mpr hshort)
    · rintro ⟨htight, -⟩
      exact absurd htight (not_le.mpr hample)
  · obtain ⟨hsb, hcb⟩ := Prod.mk.inj hsplit
    rw [hsb, hcb]
    exact ⟨fun ⟨hslots, hring⟩ => ⟨not_lt.mp hample, hslots, hring⟩, fun ⟨_, hslots, hring⟩ => ⟨hslots, hring⟩⟩

/-- Kimi K3 as the planner's own unit test describes it. -/
def k3Facts : EngModelFacts where
  nLayers := 93
  totalWeightBytes := 113490000000
  residentBytes := 4700000000
  maxLayerBytes := 2340000000
  avgLayerBytes := 1270000000
  activationBytes := 700000000
  scratchBytes := 200000000
  kvBytesPerPos := 2370000
  contextMax := 4096
  nExperts := 896
  topk := 16
  expertBytes := 17547264

/-- A read of as much as there is room for stays inside. -/
theorem room_inside (cap : Int) : (0 ≤ if 0 ≤ cap then cap else -1) →
    (0 : Int) ≤ 0 ∧ (0 + if 0 ≤ cap then cap else -1) ≤ cap := by
  intro h
  split_ifs at h ⊢ <;> omega

/-- A source that describes every expert at full size and reads zeros. -/
def zeroExperts : EngCacheSrc Unit 0 where
  describe := fun ctx _ out => { ctx := ctx, rc := 0, nbytes := k3Facts.expertBytes, wrote := out }
  load := fun ctx _ _ _ cap =>
    { ctx := ctx, buf := fun _ => 0, got := if 0 ≤ cap then cap else -1, payloadOff := 0
      inside := room_inside cap }
  locate := none

/-- A 12.095 GB budget with a context of 100 is split evenly, and each half is enough. -/
theorem k3_tight_usable : ∃ plan,
    engPlan ⟨2 ^ 37, 2 ^ 37⟩ k3Facts ⟨12095000000, 100, -1⟩ = .ok plan ∧
    (engCacheCreate (expertCacheCfg k3Facts plan (93 * 896) false false) zeroExperts () fun _ => 0).isSome ∧
    slotFor k3Facts.maxLayerBytes 0 ≤ plan.streamBudget := by
  have hplan : ∃ plan, engPlan ⟨2 ^ 37, 2 ^ 37⟩ k3Facts ⟨12095000000, 100, -1⟩ = .ok plan ∧
      plan.streaming = true :=
    ⟨_, rfl, by decide +kernel⟩
  obtain ⟨plan, hok, hstream⟩ := hplan
  refine ⟨plan, hok, ?_⟩
  rw [expertCache_usable_iff zeroExperts () (fun _ => 0) false false (by decide) (by decide) (by decide)
    (by decide) hok hstream]
  decide +kernel

/-- At the 64 GB of that test the cache is held at "its minimum", which is one slot short. -/
theorem k3_minimum_refused : ∃ plan,
    engPlan ⟨2 ^ 37, 2 ^ 37⟩ k3Facts ⟨64 * 2 ^ 30, 512, -1⟩ = .ok plan ∧ plan.streaming = true ∧
    plan.cacheBudget = 17 * 17547264 ∧
    (engCacheCreate (expertCacheCfg k3Facts plan (93 * 896) false false) zeroExperts () fun _ => 0).isSome =
      false := by
  refine ⟨_, rfl, ?_⟩
  decide +kernel

end LlmEngine.Runtime
