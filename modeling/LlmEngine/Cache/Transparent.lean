/-
# LlmEngine.Cache.Transparent — what the model computes does not depend on its expert cache.

Over a checkpoint that has its experts, a cache that nobody pins answers every `get` with the checkpoint's
expert and is left able to do so again.  The decoder can therefore not tell it from a source that keeps
nothing and reads the checkpoint each time (`checkpointSrc`): whatever the memory budget, whatever was
requested before, with the batch prefetch or without, every call of `forward` succeeds, drops no expert, and
computes what the token machine computes on the checkpoint's own experts.

* `Ready` is sound and unpinned; every call but a pin keeps it (`Ready.applyOp`).
* `cacheSrc_sim`: to the kernels of a MoE layer, a ready cache and the checkpoint are one source.
* `forwardCalls_cache`: so by `Core.SourceSim` and `Cli.ForwardCalls` a run over the cache is a run of the token
  machine.
* `output_independent_of_cache` compares two caches through it.

The reads arrive in any chunks, and they arrive.
-/
import LlmEngine.Cache.Serves
import LlmEngine.Cli.ForwardCalls

namespace LlmEngine.Cache

open LlmEngine.Bind
open LlmEngine.Cli
open LlmEngine.Core (K3Cfg K3NumCfg K3ExpertSrc KdaState Kv LayerSt Scratch Mlp Fpu Arith ExpertIo SrcSim)
open LlmEngine.Lib
open LlmEngine.Storage
open LlmEngine.Storage.Cache

/-! ## The two sources -/

/-- The source that keeps nothing. -/
def checkpointSrc (s : K3StIndex) (c : K3Cfg) : K3ExpertSrc Unit where
  get := fun _ layer e => (some (checkpointExpert s c layer e), ())
  getmany := none
  resident := none

/-- What it answers, by layer and number. -/
def checkpointAns (s : K3StIndex) (c : K3Cfg) (L e : Nat) : Option Core.K3ExpertQ := some (checkpointExpert s c L e)

/-- A sound cache without pins. -/
structure Ready (s : K3StIndex) (c : K3Cfg) (z : K3Cache) : Prop extends Sound s c z where
  pins : ∀ t, z.gc.pinned t = false

section Ready

variable {s : K3StIndex} {c : K3Cfg} {z : K3Cache}

/-- A new cache is ready. -/
theorem k3CacheInit_ready {reads : Nat → Serves s × Serves s} {budgetBytes : Int} {arena : Int → UInt8}
    (hbudget : -2 ^ 63 ≤ budgetBytes ∧ budgetBytes < 2 ^ 63)
    (hinit : k3CacheInit s c reads budgetBytes arena = some z) : Ready s c z :=
  let h := k3CacheInit_sound hbudget hinit
  { h.1 with pins := h.2 }

/-- `get` pins nothing. -/
theorem cacheGet_pinned (c : K3Cfg) (z : K3Cache) (layer expert : Int) :
    (cacheGet c z layer expert).2.gc.pinned = z.gc.pinned := by
  unfold cacheGet
  split_ifs
  · exact (engCacheGet_answered z.gc (k3key c layer expert)).pinned
  · rfl

theorem cacheGetmany_pinned (c : K3Cfg) (z : K3Cache) (layer : Int) (ids : List Int) :
    (cacheGetmany c z layer ids).1.gc.pinned = z.gc.pinned := by
  unfold cacheGetmany
  split_ifs
  · rfl
  · exact (engCacheGetMany_answered z.gc (batchKeys c layer ids)).pinned

/-- **A ready cache serves every routed expert** and stays ready. -/
theorem Ready.get (h : Ready s c z) (hr : Routed s c) {layer e : Nat} (hl : IsMoe c layer) (he : e < c.nExperts) :
    (cacheGet c z layer e).1 = some (checkpointExpert s c layer e) ∧ Ready s c (cacheGet c z layer e).2 := by
  have hexp : (0 : Int) ≤ e ∧ (e : Int) < c.nExperts := by omega
  refine ⟨?_, { h.toSound.get layer e with pins := fun t => ?_ }⟩
  · cases hq : (cacheGet c z layer e).1 with
    | some q => rw [h.toSound.get_value hr hl hexp hq]
    | none =>
        obtain ⟨-, hpinned⟩ := (h.toSound.get_none hr hl hexp).mp hq
        have hslot := hpinned 0 h.sized.slots
        rw [h.pins] at hslot
        cases hslot
  · rw [cacheGet_pinned]
    exact h.pins t

theorem Ready.getmany (h : Ready s c z) (hr : Routed s c) {layer : Nat} (hl : IsMoe c layer) (ids : List Int) :
    Ready s c (cacheGetmany c z layer ids).1 :=
  { h.toSound.getmany hr hl ids with
    pins := fun t => by
      rw [cacheGetmany_pinned]
      exact h.pins t }

/-- **The cache before the checkpoint**: at a MoE layer the two are one to the kernels, and nothing is
dropped. -/
theorem cacheSrc_sim (hr : Routed s c) (noPrefetch : Bool) {layer : Nat} (hl : IsMoe c layer) (drops : Nat) :
    SrcSim (fun io io' => Ready s c io.src ∧ io.drops = drops ∧ io'.drops = drops) layer c.nExperts
      (cacheSrc c noPrefetch) (checkpointSrc s c) where
  get := by
    rintro io io' ⟨hready, hd, hd'⟩ e he
    obtain ⟨hq, hnext⟩ := hready.get hr hl he
    have hget : (cacheSrc c noPrefetch).get io.src layer e = cacheGet c io.src layer e := rfl
    refine ⟨hget.symm ▸ hq, hget.symm ▸ hnext, ?_, ?_⟩
    · unfold Core.afterGet
      rw [hget, hq]
      exact hd
    · exact hd'
  left := by
    rintro gm hgm io io' ⟨hready, hd, hd'⟩ es -
    unfold cacheSrc at hgm
    dsimp only at hgm
    cases noPrefetch with
    | true => cases hgm
    | false =>
        obtain rfl := Option.some.inj hgm
        exact ⟨hready.getmany hr hl _, hd, hd'⟩
  right := by
    intro gm hgm
    cases hgm

/-- What `k3_run` asks of the cache apart from the kernels: no pins. -/
def Unpinned (c : K3Cfg) (z : K3Cache) : Op → Prop
  | .pin _ _ _ => False
  | op => MoeBatches c z op

theorem Ready.applyOp (h : Ready s c z) (hr : Routed s c) {op : Op} (hop : Unpinned c z op) :
    Ready s c (applyOp c z op) := by
  cases op with
  | get layer expert =>
      refine { h.toSound.get layer expert with pins := fun t => ?_ }
      exact (congrFun (cacheGet_pinned c z layer expert) t).trans (h.pins t)
  | getmany layer ids =>
      refine { h.toSound.getmany hr hop ids with pins := fun t => ?_ }
      exact (congrFun (cacheGetmany_pinned c z layer ids) t).trans (h.pins t)
  | resident layer expert => exact h
  | pin layer expert pin => exact absurd hop id
  | prefetch layer expert =>
      refine { h.toSound.prefetch layer expert with pins := fun t => ?_ }
      exact (congrFun (engCacheGet_answered z.gc (k3key c layer expert)).pinned t).trans (h.pins t)
  | resetStats => exact { h.toSound.applyOp hr .resetStats trivial with pins := h.pins }

theorem reaches_ready (hr : Routed s c) {reads : Nat → Serves s × Serves s} {budgetBytes : Int}
    (hbudget : -2 ^ 63 ≤ budgetBytes ∧ budgetBytes < 2 ^ 63) {arena : Int → UInt8} {z₀ : K3Cache}
    (hinit : k3CacheInit s c reads budgetBytes arena = some z₀) (hrun : Reaches (step c) (Unpinned c) z₀ z) :
    Ready s c z :=
  hrun.invariant (k3CacheInit_ready hbudget hinit) fun z op z' h hop hstep => by
    obtain rfl := Option.some.inj hstep
    exact h.applyOp hr hop

end Ready

/-! ## The decoder over the cache -/

section Decoder

variable {F D τ : Type} [Arith F] [Arith D] (fp : Fpu F D) (c : K3NumCfg F) {s : K3StIndex}

/-- The MoE weights of a bound layer carry its index, and the layer has routed experts. -/
def MoeBound (m : K3ModelW F τ) (nBound : Nat) : Prop :=
  ∀ L < nBound, ∀ w, (m.layers L).mlp = .moe w → w.layer = L ∧ IsMoe c.toK3Cfg L

/-- **The decoder over the cache is the token machine on the checkpoint.** -/
theorem forwardCalls_cache (hr : Routed s c.toK3Cfg) (m : K3ModelW F τ) {nBound cap : Nat}
    (hbound : MoeBound c m nBound) {z : K3Cache} (hz : Ready s c.toK3Cfg z) (noPrefetch noBatch : Bool)
    (scr : Nat → Nat → Scratch F) (drops cached : Nat) (ks : Nat → KdaState F) (kv : Nat → Kv F)
    (calls : List (List Tok)) (hcap : cached + calls.flatten.length ≤ cap) :
    ∃ z', forwardCalls fp c (m.withSrc (cacheSrc c.toK3Cfg noPrefetch)) noBatch nBound cap scr cached ks kv
        ⟨z, drops⟩ calls =
      some ⟨tokenCalls fp c (m.withSrc (checkpointSrc s c.toK3Cfg)) (checkpointAns s c.toK3Cfg) nBound
        (fun L => ⟨ks L, kv L, cached⟩) calls, ⟨z', drops⟩⟩ ∧ Ready s c.toK3Cfg z' := by
  -- the cache is simulated by the checkpoint at every bound layer
  have hserved : ∀ L < nBound, ((m.withSrc (cacheSrc c.toK3Cfg noPrefetch)).layers L).mlp.ServedLike
      (fun io io' => Ready s c.toK3Cfg io.src ∧ io.drops = drops ∧ io'.drops = drops) c.nExperts
        (checkpointSrc s c.toK3Cfg) := by
    intro L hL
    refine Mlp.withSrc_servedLike fun w hw => ?_
    obtain ⟨hlayer, hmoe⟩ := hbound L hL w hw
    rw [hlayer]
    exact cacheSrc_sim hr noPrefetch hmoe drops
  -- and the checkpoint answers alike at all times
  have hsteady : ∀ L < nBound, ((m.withSrc (checkpointSrc s c.toK3Cfg)).layers L).mlp.Steady c.nExperts
      (checkpointAns s c.toK3Cfg L) := by
    intro L hL
    show ((m.layers L).mlp.withSrc (checkpointSrc s c.toK3Cfg)).Steady c.nExperts (checkpointAns s c.toK3Cfg L)
    cases hmlp : (m.layers L).mlp with
    | dense gate up down => exact trivial
    | moe w =>
        obtain ⟨hlayer, -⟩ := hbound L hL w hmlp
        refine ⟨fun _ src hsrc u e _ => ?_, fun _ _ _ => rfl, fun hco => absurd hco Bool.false_ne_true⟩
        obtain ⟨_, -, rfl⟩ := Option.map_eq_some_iff.mp (Option.mem_def.mp hsrc)
        show some (checkpointExpert s c.toK3Cfg w.layer e) = some (checkpointExpert s c.toK3Cfg L e)
        rw [hlayer]
  have hsim := forwardCalls_sim fp c noBatch hserved cap scr calls cached ks kv ⟨z, drops⟩
    ⟨(), drops⟩ ⟨hz, rfl, rfl⟩
  obtain ⟨io', hplain⟩ := forwardCalls_eq fp c (m.withSrc (checkpointSrc s c.toK3Cfg)) (checkpointAns s c.toK3Cfg) noBatch
    hsteady scr calls cached ks kv ⟨(), drops⟩ hcap
  rw [K3ModelW.withSrc_withSrc, hplain] at hsim
  generalize forwardCalls fp c (m.withSrc (cacheSrc c.toK3Cfg noPrefetch)) noBatch nBound cap scr cached ks kv
    ⟨z, drops⟩ calls = out at hsim ⊢
  cases hsim with
  | some h =>
      rename_i q
      obtain ⟨hargs, hready, hdrops, -⟩ := h
      obtain ⟨args, ⟨z', d⟩⟩ := q
      obtain rfl : d = drops := hdrops
      obtain rfl : args = _ := hargs
      exact ⟨z', rfl, hready⟩

/-- **The output does not depend on the cache.**  For a checkpoint that has its experts and two caches over it
with any accepted budgets, each after any run without pins: the calls of `forward` on the same tokens all
succeed before either, answer the same argmaxes, and drop no expert.  The kernels' reads, what the arenas held,
the batch prefetch, the batched MoE and the scratch memory may differ between the two. -/
theorem output_independent_of_cache (hr : Routed s c.toK3Cfg) (m : K3ModelW F τ) {nBound cap : Nat}
    (hbound : MoeBound c m nBound) {reads reads' : Nat → Serves s × Serves s} {budget budget' : Int}
    (hb : -2 ^ 63 ≤ budget ∧ budget < 2 ^ 63) (hb' : -2 ^ 63 ≤ budget' ∧ budget' < 2 ^ 63)
    {arena arena' : Int → UInt8} {z₀ z z₀' z' : K3Cache}
    (hinit : k3CacheInit s c.toK3Cfg reads budget arena = some z₀)
    (hinit' : k3CacheInit s c.toK3Cfg reads' budget' arena' = some z₀')
    (hrun : Reaches (step c.toK3Cfg) (Unpinned c.toK3Cfg) z₀ z)
    (hrun' : Reaches (step c.toK3Cfg) (Unpinned c.toK3Cfg) z₀' z') (noPrefetch noPrefetch' noBatch noBatch' : Bool)
    (scr scr' : Nat → Nat → Scratch F) (drops drops' cached : Nat) (ks : Nat → KdaState F) (kv : Nat → Kv F)
    (calls : List (List Tok)) (hcap : cached + calls.flatten.length ≤ cap) :
    ∃ args end_ end_',
      forwardCalls fp c (m.withSrc (cacheSrc c.toK3Cfg noPrefetch)) noBatch nBound cap scr cached ks kv ⟨z, drops⟩
          calls = some ⟨args, ⟨end_, drops⟩⟩ ∧
        forwardCalls fp c (m.withSrc (cacheSrc c.toK3Cfg noPrefetch')) noBatch' nBound cap scr' cached ks kv
          ⟨z', drops'⟩ calls = some ⟨args, ⟨end_', drops'⟩⟩ := by
  obtain ⟨end_, hone, -⟩ := forwardCalls_cache fp c hr m hbound (reaches_ready hr hb hinit hrun) noPrefetch noBatch
    scr drops cached ks kv calls hcap
  obtain ⟨end_', htwo, -⟩ := forwardCalls_cache fp c hr m hbound (reaches_ready hr hb' hinit' hrun') noPrefetch'
    noBatch' scr' drops' cached ks kv calls hcap
  exact ⟨_, end_, end_', hone, htwo⟩

end Decoder

open scoped LlmEngine.Core

/-- One MoE layer behind a KDA attention, over integer arithmetic. -/
def squareNum : K3NumCfg Int :=
  { squareCfg with rmsEps := 1, gateLb := 0, routedScale := 1, situB1 := 1, situB2 := 1 }

def squareModel : K3ModelW Int Unit :=
  let ones : Core.Mat Int := .f32 fun _ => 1
  let up : Core.Mat Int := .f32 fun i => i + 1
  { embed := .inl fun i => i + 1
    outRes := none
    norm := fun _ => 1
    lmHead := ones
    layers := fun L =>
      { inNorm := fun _ => 1
        postNorm := fun _ => 1
        attnResNorm := fun _ => 1
        attnResProj := fun _ => 1
        mlpResNorm := fun _ => 1
        mlpResProj := fun _ => 1
        attn := .kda ⟨up, up, up, fun i => i + 1, fun i => i + 1, fun i => i + 1, ones, ones, fun _ => 1,
          fun _ => 1, ones, ones, fun _ => 1, up⟩
        mlp := .moe
          { gate := fun i => i + 1, bias := none, w1 := fun _ => 0, w3 := fun _ => 0, w2 := fun _ => 0
            latentNorm := fun _ => 1, down := up, up := up, sh1 := ones, sh3 := ones, sh2 := ones
            src := some (checkpointSrc squareIndex squareCfg), layer := L, cacheOnly := false
            draft_resident := fun h => absurd h Bool.false_ne_true } } }

theorem square_bound : MoeBound squareNum squareModel 1 := by
  intro L hL w hw
  obtain rfl : L = 0 := by omega
  obtain rfl := Mlp.moe.inj hw
  exact ⟨rfl, by decide, by decide⟩

/-- A cache of two slots that is new, and one of three that has the expert and does not prefetch: the prompt in
two calls. -/
theorem square_output_independent :
    ∃ z₀ z₀' args end_ end_',
      k3CacheInit squareIndex squareCfg (fun _ => (fun _ _ => .whole _, fun _ _ => .bytewise _)) 24576
          (fun _ => 7) = some z₀ ∧
        k3CacheInit squareIndex squareCfg (fun _ => (fun _ _ => .bytewise _, fun _ _ => .whole _)) 36864
          (fun _ => 9) = some z₀' ∧
        forwardCalls Core.intFpu squareNum (squareModel.withSrc (cacheSrc squareCfg false)) false 1 3
          (fun _ _ => ⟨⟨fun _ _ => 8, fun _ _ => 8⟩, fun _ _ _ => 8⟩) 0 (fun _ => KdaState.zero)
          (fun _ => ⟨fun _ _ => 9, fun _ _ => 9⟩) ⟨z₀, 0⟩ [[0, 0], [0]] = some ⟨args, ⟨end_, 0⟩⟩ ∧
        forwardCalls Core.intFpu squareNum (squareModel.withSrc (cacheSrc squareCfg true)) true 1 3
          (fun _ _ => ⟨⟨fun _ _ => 5, fun _ _ => 5⟩, fun _ _ _ => 5⟩) 0 (fun _ => KdaState.zero)
          (fun _ => ⟨fun _ _ => 9, fun _ _ => 9⟩) ⟨applyOp squareCfg z₀' (.prefetch 0 0), 4⟩ [[0, 0], [0]] =
            some ⟨args, ⟨end_', 4⟩⟩ := by
  have hsome : ∀ reads arena, (k3CacheInit squareIndex squareCfg reads 24576 arena).isSome = true ∧
      (k3CacheInit squareIndex squareCfg reads 36864 arena).isSome = true := by
    intro reads arena
    unfold k3CacheInit
    rw [squareIndex_probe]
    exact ⟨rfl, rfl⟩
  obtain ⟨z₀, hz₀⟩ := Option.isSome_iff_exists.mp
    (hsome (fun _ => (fun _ _ => .whole _, fun _ _ => .bytewise _)) fun _ => 7).1
  obtain ⟨z₀', hz₀'⟩ := Option.isSome_iff_exists.mp
    (hsome (fun _ => (fun _ _ => .bytewise _, fun _ _ => .whole _)) fun _ => 9).2
  have hrun' : Reaches (step squareCfg) (Unpinned squareCfg) z₀' (applyOp squareCfg z₀' (.prefetch 0 0)) :=
    .next (i := .prefetch 0 0) .start trivial rfl
  have hroom : 0 + ([[0, 0], [0]] : List (List Tok)).flatten.length ≤ 3 := by decide
  obtain ⟨args, end_, end_', hone, htwo⟩ := output_independent_of_cache Core.intFpu squareNum (s := squareIndex)
    squareIndex_routed squareModel square_bound (by decide) (by decide) hz₀ hz₀' .start hrun' false true false true
    (fun _ _ => ⟨⟨fun _ _ => 8, fun _ _ => 8⟩, fun _ _ _ => 8⟩)
    (fun _ _ => ⟨⟨fun _ _ => 5, fun _ _ => 5⟩, fun _ _ _ => 5⟩) 0 4 0 (fun _ => KdaState.zero)
    (fun _ => ⟨fun _ _ => 9, fun _ _ => 9⟩) [[0, 0], [0]] hroom
  exact ⟨z₀, z₀', args, end_, end_', hz₀, hz₀', hone, htwo⟩

end LlmEngine.Cache
