/-
# LlmEngine.Cache.Curve — one run gives the whole curve.

`tools/sim_cache.py` replays the trace of one run at other cache sizes, on the grounds that routing does not
depend on the cache.  It does not: two caches of any sizes, fed the same calls of `forward`, are asked for the
same experts in the same order, so they dump one trace; and the tool's `lru` on that trace is what a cache of
that many slots counts, hit for hit, as long as the second one does not read ahead.  A cache that does is hit
where the replay counts a miss.

* `simKey_injOn`: the tool packs a pair into `layer << 20 | expert`, which tells experts apart up to 2^20 of them.
* `lruReplay_map`: a replay does not read its keys, so the tool's keys and the engine's give the same hits.
* `Alike` relates the two caches before one decoder: both are sound, and the requests booked so far are the
  same.  Every call of a kernel keeps it (`Alike.get`, `Alike.getmany`), so by `Core.SourceSim` a run does.
* `Alike.curve`: from there the count of the second cache is the replay's (`Storage.CacheLru`).

`one_run_gives_curve` states the whole, `square_curve` runs it at a small checkpoint.
-/
import LlmEngine.Cache.Dump
import LlmEngine.Cache.Transparent
import LlmEngine.Storage.CacheLru

namespace LlmEngine.Cache

open LlmEngine.Bind
open LlmEngine.Cli
open LlmEngine.Core (K3Cfg K3NumCfg K3ExpertSrc KdaState Kv Scratch Fpu Arith ExpertIo SrcSim)
open LlmEngine.Lib
open LlmEngine.Storage
open LlmEngine.Storage.Cache

/-! ## The tool's keys -/

/-- `(layers.astype(np.int64) << 20) | experts.astype(np.int64)`, by its bits. -/
def simKey (p : Int × Int) : Nat := (BitVec.ofInt 64 p.1 <<< 20 ||| BitVec.ofInt 64 p.2).toNat

/-- The keys of a trace file. -/
def simTrace (file : LittleEndian.Bytes) : Option (List Nat) := (simPairs (fromFile file)).map (List.map simKey)

theorem simKey_eq {layer expert : Nat} (hl : layer < 2 ^ 31) (he : expert < 2 ^ 20) :
    simKey (layer, expert) = layer * 2 ^ 20 + expert := by
  unfold simKey
  dsimp only
  rw [BitVec.ofInt_natCast, BitVec.ofInt_natCast, BitVec.toNat_or, BitVec.toNat_shiftLeft, BitVec.toNat_ofNat,
    BitVec.toNat_ofNat, Nat.mod_eq_of_lt (show layer < 2 ^ 64 by omega), Nat.mod_eq_of_lt (show expert < 2 ^ 64 by omega),
    Nat.mod_eq_of_lt (by rw [Nat.shiftLeft_eq]; omega), ← Nat.shiftLeft_add_eq_or_of_lt he, Nat.shiftLeft_eq]

/-- **The tool's keys tell experts apart.** -/
theorem simKey_injOn {c : K3Cfg} (hl : c.nLayers < 2 ^ 31) (he : c.nExperts ≤ 2 ^ 20) :
    Set.InjOn (fun key => simKey (keyPair c key)) {key | key < c.nLayers * c.nExperts} := by
  intro a ha b hb hab
  have hpos : 0 < c.nExperts := Nat.pos_of_ne_zero fun h => by simp [h] at ha
  have hparts : ∀ k < c.nLayers * c.nExperts, k / c.nExperts < 2 ^ 31 ∧ k % c.nExperts < 2 ^ 20 ∧
      simKey (keyPair c k) = k / c.nExperts * 2 ^ 20 + k % c.nExperts := by
    intro k hk
    have hdiv : k / c.nExperts < c.nLayers := (Nat.div_lt_iff_lt_mul hpos).mpr hk
    have hmod : k % c.nExperts < c.nExperts := Nat.mod_lt k hpos
    rw [keyPair_eq hl (by omega) hk]
    exact ⟨by omega, by omega, simKey_eq (by omega) (by omega)⟩
  obtain ⟨-, hamod, hakey⟩ := hparts a ha
  obtain ⟨-, hbmod, hbkey⟩ := hparts b hb
  dsimp only at hab
  rw [hakey, hbkey] at hab
  have hdiv : a / c.nExperts = b / c.nExperts := by omega
  have hmod : a % c.nExperts = b % c.nExperts := by omega
  rw [← Nat.div_add_mod' a c.nExperts, ← Nat.div_add_mod' b c.nExperts, hdiv, hmod]

/-! ## Renaming the keys of a replay -/

/-- A replay holds keys of its trace. -/
theorem lruReplay_subset (tr : List Nat) (cap : Nat) : ∀ k ∈ (lruReplay tr cap).seen, k ∈ tr := by
  induction tr using List.reverseRecOn with
  | nil => exact fun _ hk => absurd hk List.not_mem_nil
  | append_singleton tr k ih =>
      rw [lruReplay_snoc]
      unfold lruStep
      intro j hj
      rw [List.mem_append, List.mem_singleton]
      split_ifs at hj with hk hfull
      · rcases List.mem_append.mp hj with hj | hj
        · exact Or.inl (ih j (List.mem_of_mem_erase hj))
        · exact Or.inr (List.mem_singleton.mp hj)
      · rcases List.mem_append.mp hj with hj | hj
        · exact Or.inl (ih j (List.mem_of_mem_tail hj))
        · exact Or.inr (List.mem_singleton.mp hj)
      · rcases List.mem_append.mp hj with hj | hj
        · exact Or.inl (ih j hj)
        · exact Or.inr (List.mem_singleton.mp hj)

theorem erase_map_injOn {f : Nat → Nat} {S : Set Nat} (hf : Set.InjOn f S) {k : Nat} (hk : k ∈ S) {l : List Nat}
    (hl : ∀ j ∈ l, j ∈ S) : (l.map f).erase (f k) = (l.erase k).map f := by
  induction l with
  | nil => rfl
  | cons j l ih =>
      obtain ⟨hj, hl⟩ := List.forall_mem_cons.mp hl
      by_cases hjk : j = k
      · rw [hjk, List.map_cons, List.erase_cons_head, List.erase_cons_head]
      · have hne : f j ≠ f k := fun h => hjk (hf hj hk h)
        rw [List.map_cons, List.erase_cons_tail (by simpa using hne), List.erase_cons_tail (by simpa using hjk),
          List.map_cons, ih hl]

/-- **A replay does not read its keys**: renamed apart they give the same hits. -/
theorem lruReplay_map {f : Nat → Nat} {S : Set Nat} (hf : Set.InjOn f S) (cap : Nat) {tr : List Nat}
    (htr : ∀ k ∈ tr, k ∈ S) :
    lruReplay (tr.map f) cap = ⟨(lruReplay tr cap).seen.map f, (lruReplay tr cap).hits⟩ := by
  induction tr using List.reverseRecOn with
  | nil => rfl
  | append_singleton tr k ih =>
      have hbefore : ∀ j ∈ tr, j ∈ S := fun j hj => htr j (List.mem_append_left _ hj)
      have hk : k ∈ S := htr k (List.mem_append_right _ (List.mem_singleton.mpr rfl))
      have hseen : ∀ j ∈ (lruReplay tr cap).seen, j ∈ S := fun j hj => hbefore j (lruReplay_subset tr cap j hj)
      have hmem : f k ∈ (lruReplay tr cap).seen.map f ↔ k ∈ (lruReplay tr cap).seen := by
        constructor
        · intro h
          obtain ⟨j, hj, hjk⟩ := List.mem_map.mp h
          exact hf (hseen j hj) hk hjk ▸ hj
        · exact List.mem_map_of_mem
      rw [List.map_append, List.map_singleton, lruReplay_snoc, lruReplay_snoc, ih hbefore]
      unfold lruStep
      simp only [hmem, List.length_map]
      split_ifs
      · rw [erase_map_injOn hf hk hseen, List.map_append, List.map_singleton]
      · rw [List.map_append, List.map_tail, List.map_singleton]
      · rw [List.map_append, List.map_singleton]

/-! ## Two caches before one decoder -/

/-- Two caches that have been asked for the same: the second has replayed the first one's trace. -/
structure Alike (s : K3StIndex) (c : K3Cfg) (gc₀ : EngCache Nat refBytes) (z z' : K3Cache) : Prop where
  one : Ready s c z
  two : Ready s c z'
  traced : Traced c z (z.gc.trace.map (keyPair c))
  replayed : Replayed gc₀ z'.gc z.gc.trace
  same : z'.gc.trace = z.gc.trace
  served : ∀ e ∈ z'.gc.log, e.succeeded gc₀.cfg.slotBytes
  counted : z'.gc.hits + z'.gc.misses = z.gc.trace.length

section Alike

variable {s : K3StIndex} {c : K3Cfg} {gc₀ : EngCache Nat refBytes} {z z' : K3Cache}

/-- **Both are asked for an expert.** -/
theorem Alike.get (h : Alike s c gc₀ z z') (hr : Routed s c) (hw : gc₀.cfg.wantTrace = true) {layer e : Nat}
    (hl : IsMoe c layer) (he : e < c.nExperts) :
    Alike s c gc₀ (cacheGet c z layer e).2 (cacheGet c z' layer e).2 := by
  have hexp : (0 : Int) ≤ e ∧ (e : Int) < c.nExperts := by omega
  have hin := hl.inModel hexp
  obtain ⟨-, hkey⟩ := k3key_eq hr.layers hr.experts hin
  have hone : (cacheGet c z layer e).2 = syncStats (engCacheGet z.gc (k3key c layer e)).1 := by
    unfold cacheGet
    rw [if_pos hin]
  have htwo : (cacheGet c z' layer e).2 = syncStats (engCacheGet z'.gc (k3key c layer e)).1 := by
    unfold cacheGet
    rw [if_pos hin]
  have hready := (h.one.get hr hl he).2
  have hready' := (h.two.get hr hl he).2
  have hrange' := h.two.toSound.inRange hr hin
  have hsucc : ∀ e' ∈ (engCacheGet z'.gc (k3key c layer e)).1.log, e'.succeeded gc₀.cfg.slotBytes :=
    engCacheGet_succeeds (h.two.toSound.supplies hr hl hexp) (by rw [h.replayed.cfg]) h.served
  have htrace := (engCacheGet_recorded h.one.quiet (h.one.toSound.inRange hr hin)).1
  have htrace : (engCacheGet z.gc (k3key c layer e)).1.trace = z.gc.trace ++ [k3key c layer e] :=
    htrace.trans (if_pos h.traced.wanted.2)
  have hnext := h.replayed.get hrange' (by rw [h.replayed.cfg]; exact hsucc)
  have hq : Quiet (record z'.gc (k3key c layer e)) := Batch.congr h.two.quiet rfl rfl rfl rfl rfl
  have hbooked := admitKey_booked hq hrange'
  rw [hone] at hready ⊢
  rw [htwo] at hready' ⊢
  refine
    { one := hready
      two := hready'
      traced := ?_
      replayed := ?_
      same := ?_
      served := hsucc
      counted := ?_ }
  · show Traced c _ ((engCacheGet z.gc (k3key c layer e)).1.trace.map (keyPair c))
    rw [htrace, List.map_append]
    exact h.traced.request hkey
  · show Replayed gc₀ _ (engCacheGet z.gc (k3key c layer e)).1.trace
    rw [htrace]
    exact hnext
  · show (engCacheGet z'.gc (k3key c layer e)).1.trace = (engCacheGet z.gc (k3key c layer e)).1.trace
    rw [htrace, hnext.trace hw]
  · show (engCacheGet z'.gc (k3key c layer e)).1.hits + (engCacheGet z'.gc (k3key c layer e)).1.misses =
      (engCacheGet z.gc (k3key c layer e)).1.trace.length
    have hget : (engCacheGet z'.gc (k3key c layer e)).1 = (admitKey (record z'.gc (k3key c layer e)) (k3key c layer e)).1 := by
      unfold engCacheGet
      rw [if_pos hrange']
    rw [hget, hbooked.counted, htrace, List.length_append, ← h.counted]
    rfl

/-- A batch read ahead into the first changes nothing the second could see. -/
theorem Alike.getmany (h : Alike s c gc₀ z z') (hr : Routed s c) {layer : Nat} (hl : IsMoe c layer) (ids : List Int) :
    Alike s c gc₀ (cacheGetmany c z layer ids).1 z' := by
  have htraced := h.traced.applyOp hr.layers hr.experts (.getmany layer ids)
  have htraced : Traced c (cacheGetmany c z layer ids).1 (z.gc.trace.map (keyPair c)) :=
    (List.append_nil (z.gc.trace.map (keyPair c))) ▸ htraced
  have htrace : (cacheGetmany c z layer ids).1.gc.trace = z.gc.trace := by
    unfold cacheGetmany
    split_ifs
    · rfl
    · exact (engCacheGetMany_recorded h.one.quiet (batchKeys c layer ids)).1
  exact
    { one := h.one.getmany hr hl ids
      two := h.two
      traced := by rw [htrace]; exact htraced
      replayed := by rw [htrace]; exact h.replayed
      same := by rw [htrace]; exact h.same
      served := h.served
      counted := by rw [htrace]; exact h.counted }

/-- **The first cache before the second**, whether it reads ahead or not. -/
theorem cacheSrc_alike (hr : Routed s c) (hw : gc₀.cfg.wantTrace = true) (noPrefetch : Bool) {layer : Nat}
    (hl : IsMoe c layer) (drops drops' : Nat) :
    SrcSim (fun io io' => Alike s c gc₀ io.src io'.src ∧ io.drops = drops ∧ io'.drops = drops') layer c.nExperts
      (cacheSrc c noPrefetch) (cacheSrc c true) where
  get := by
    rintro io io' ⟨halike, hd, hd'⟩ e he
    obtain ⟨hq, -⟩ := halike.one.get hr hl he
    obtain ⟨hq', -⟩ := halike.two.get hr hl he
    have hget : (cacheSrc c noPrefetch).get io.src layer e = cacheGet c io.src layer e := rfl
    have hget' : (cacheSrc c true).get io'.src layer e = cacheGet c io'.src layer e := rfl
    unfold Core.afterGet
    rw [hget, hget', hq, hq']
    exact ⟨rfl, halike.get hr hw hl he, hd, hd'⟩
  left := by
    rintro gm hgm io io' ⟨halike, hd, hd'⟩ es -
    unfold cacheSrc at hgm
    dsimp only at hgm
    cases noPrefetch with
    | true => cases hgm
    | false =>
        obtain rfl := Option.some.inj hgm
        exact ⟨halike.getmany hr hl _, hd, hd'⟩
  right := by
    intro gm hgm
    cases hgm

/-- Two new caches. -/
theorem alike_new {reads reads' : Nat → Serves s × Serves s} {budget budget' : Int}
    (hb : -2 ^ 63 ≤ budget ∧ budget < 2 ^ 63) (hb' : -2 ^ 63 ≤ budget' ∧ budget' < 2 ^ 63)
    {arena arena' : Int → UInt8} (hinit : k3CacheInit s c reads budget arena = some z)
    (hinit' : k3CacheInit s c reads' budget' arena' = some z') :
    Alike s c z'.gc z z' ∧ z'.gc.cfg.wantTrace = true := by
  have htraced := k3CacheInit_traced hinit
  have htraced' := k3CacheInit_traced hinit'
  have htrace : z.gc.trace = [] := List.map_eq_nil_iff.mp htraced.pairs
  have htrace' : z'.gc.trace = [] := List.map_eq_nil_iff.mp htraced'.pairs
  have hready' := k3CacheInit_ready hb' hinit'
  unfold k3CacheInit at hinit'
  obtain ⟨r, -, hmap⟩ := Option.bind_eq_some_iff.mp hinit'
  obtain ⟨gc, hcreate, rfl⟩ := Option.map_eq_some_iff.mp hmap
  have hreplayed : Replayed gc gc [] := engCacheCreate_replayed hcreate
  have hfresh : gc.log = [] ∧ gc.hits = 0 ∧ gc.misses = 0 := by
    unfold engCacheCreate at hcreate
    simp only at hcreate
    split_ifs at hcreate
    obtain rfl := Option.some.inj hcreate
    exact ⟨rfl, rfl, rfl⟩
  refine
    ⟨{ one := k3CacheInit_ready hb hinit
       two := hready'
       traced := by rw [htrace]; exact htraced
       replayed := by rw [htrace]; exact hreplayed
       same := htrace'.trans htrace.symm
       served := fun e he => ?_
       counted := ?_ }, htraced'.wanted.2⟩
  · have he : e ∈ gc.log := he
    rw [hfresh.1] at he
    exact absurd he List.not_mem_nil
  · show gc.hits + gc.misses = z.gc.trace.length
    rw [hfresh.2.1, hfresh.2.2, htrace]
    rfl

/-- **The tool's count is the cache's.** -/
theorem Alike.curve (h : Alike s c gc₀ z z') (hr : Routed s c) (he : c.nExperts ≤ 2 ^ 20) {tr : List Nat}
    (htr : (k3CacheDumpTrace c z).bind simTrace = some tr) :
    lru tr z'.mirror.nslot = z'.mirror.hits ∧ tr.length = z'.mirror.hits + z'.mirror.misses := by
  obtain ⟨file, hfile, hread⟩ := Option.bind_eq_some_iff.mp htr
  unfold simTrace at hread
  rw [dumpTrace_read hfile] at hread
  obtain rfl := Option.some.inj hread
  rw [List.map_map]
  have hkeys : ∀ k ∈ z.gc.trace, k ∈ { k | k < c.nLayers * c.nExperts } := h.traced.inKeys
  have hreplay := lruReplay_map (simKey_injOn hr.layers he) z'.gc.nslot hkeys
  have hhits := h.replayed.hits
  rw [← h.replayed.nslot] at hhits
  rw [h.two.synced]
  constructor
  · show (lruReplay (z.gc.trace.map fun key => simKey (keyPair c key)) z'.gc.nslot).hits = z'.gc.hits
    rw [hreplay, hhits]
    rfl
  · rw [List.length_map]
    exact h.counted.symm

end Alike

/-! ## The curve -/

section Curve

variable {F D τ : Type} [Arith F] [Arith D] (fp : Fpu F D) (c : K3NumCfg F) {s : K3StIndex}

/-- **One run gives the whole curve.**  Over a checkpoint that has its experts, two new caches of any accepted
budgets serve the same calls of `forward` alike and dump the same trace, and `lru` of `tools/sim_cache.py` on
that trace, at the slots of the second, is the hits the second one counts: what is left of the trace are its
misses.  The first may read ahead; the second does not. -/
theorem one_run_gives_curve (hr : Routed s c.toK3Cfg) (hexperts : c.nExperts ≤ 2 ^ 20) (m : K3ModelW F τ)
    {nBound cap : Nat} (hbound : MoeBound c m nBound) {reads reads' : Nat → Serves s × Serves s} {budget budget' : Int}
    (hb : -2 ^ 63 ≤ budget ∧ budget < 2 ^ 63) (hb' : -2 ^ 63 ≤ budget' ∧ budget' < 2 ^ 63)
    {arena arena' : Int → UInt8} {z₀ z₀' : K3Cache}
    (hinit : k3CacheInit s c.toK3Cfg reads budget arena = some z₀)
    (hinit' : k3CacheInit s c.toK3Cfg reads' budget' arena' = some z₀') (noPrefetch noBatch : Bool)
    (scr : Nat → Nat → Scratch F) (drops drops' cached : Nat) (ks : Nat → KdaState F) (kv : Nat → Kv F)
    (calls : List (List Tok)) (hcap : cached + calls.flatten.length ≤ cap) :
    ∃ args z z',
      forwardCalls fp c (m.withSrc (cacheSrc c.toK3Cfg noPrefetch)) noBatch nBound cap scr cached ks kv ⟨z₀, drops⟩
          calls = some ⟨args, ⟨z, drops⟩⟩ ∧
        forwardCalls fp c (m.withSrc (cacheSrc c.toK3Cfg true)) noBatch nBound cap scr cached ks kv ⟨z₀', drops'⟩
          calls = some ⟨args, ⟨z', drops'⟩⟩ ∧
        k3CacheDumpTrace c.toK3Cfg z' = k3CacheDumpTrace c.toK3Cfg z ∧
        ∀ tr, (k3CacheDumpTrace c.toK3Cfg z).bind simTrace = some tr →
          lru tr z'.mirror.nslot = z'.mirror.hits ∧ tr.length = z'.mirror.hits + z'.mirror.misses := by
  obtain ⟨hnew, hw⟩ := alike_new hb hb' hinit hinit'
  have hserved : ∀ L < nBound, ((m.withSrc (cacheSrc c.toK3Cfg noPrefetch)).layers L).mlp.ServedLike
      (fun io io' => Alike s c.toK3Cfg z₀'.gc io.src io'.src ∧ io.drops = drops ∧ io'.drops = drops') c.nExperts
        (cacheSrc c.toK3Cfg true) := by
    intro L hL
    refine Core.Mlp.withSrc_servedLike fun w hw' => ?_
    obtain ⟨hlayer, hmoe⟩ := hbound L hL w hw'
    rw [hlayer]
    exact cacheSrc_alike hr hw noPrefetch hmoe drops drops'
  have hsim := forwardCalls_sim fp c noBatch hserved cap scr calls cached ks kv ⟨z₀, drops⟩
    ⟨z₀', drops'⟩ ⟨hnew, rfl, rfl⟩
  -- the first run succeeds, so the second does
  obtain ⟨z, hone, -⟩ := forwardCalls_cache fp c hr m hbound hnew.one noPrefetch noBatch scr drops cached ks kv calls hcap
  rw [K3ModelW.withSrc_withSrc, hone] at hsim
  generalize forwardCalls fp c (m.withSrc (cacheSrc c.toK3Cfg true)) noBatch nBound cap scr cached ks kv
    ⟨z₀', drops'⟩ calls = out at hsim ⊢
  cases hsim with
  | some h =>
      rename_i q
      obtain ⟨hargs, halike, -, hdrops'⟩ := h
      obtain ⟨args, ⟨z', d'⟩⟩ := q
      obtain rfl : d' = drops' := hdrops'
      obtain rfl : _ = args := hargs
      refine ⟨_, z, z', hone, rfl, ?_, fun tr htr => halike.curve hr hexperts htr⟩
      · unfold k3CacheDumpTrace
        rw [halike.same]

end Curve

open scoped LlmEngine.Core

/-- The trace of two slots that read ahead is replayed at three that do not. -/
theorem square_curve :
    ∃ z₀ z₀' args z z',
      k3CacheInit squareIndex squareCfg (fun _ => (fun _ _ => .whole _, fun _ _ => .bytewise _)) 24576
          (fun _ => 7) = some z₀ ∧
        k3CacheInit squareIndex squareCfg (fun _ => (fun _ _ => .bytewise _, fun _ _ => .whole _)) 36864
          (fun _ => 9) = some z₀' ∧
        forwardCalls Core.intFpu squareNum (squareModel.withSrc (cacheSrc squareCfg false)) false 1 3
          (fun _ _ => ⟨⟨fun _ _ => 8, fun _ _ => 8⟩, fun _ _ _ => 8⟩) 0 (fun _ => KdaState.zero)
          (fun _ => ⟨fun _ _ => 9, fun _ _ => 9⟩) ⟨z₀, 0⟩ [[0, 0], [0]] = some ⟨args, ⟨z, 0⟩⟩ ∧
        forwardCalls Core.intFpu squareNum (squareModel.withSrc (cacheSrc squareCfg true)) false 1 3
          (fun _ _ => ⟨⟨fun _ _ => 8, fun _ _ => 8⟩, fun _ _ _ => 8⟩) 0 (fun _ => KdaState.zero)
          (fun _ => ⟨fun _ _ => 9, fun _ _ => 9⟩) ⟨z₀', 4⟩ [[0, 0], [0]] = some ⟨args, ⟨z', 4⟩⟩ ∧
        ∀ tr, (k3CacheDumpTrace squareCfg z).bind simTrace = some tr → lru tr z'.mirror.nslot = z'.mirror.hits := by
  have hsome : ∀ reads arena, (k3CacheInit squareIndex squareCfg reads 24576 arena).isSome = true ∧
      (k3CacheInit squareIndex squareCfg reads 36864 arena).isSome = true := by
    intro reads arena
    unfold k3CacheInit
    rw [squareIndex_probe]
    exact ⟨rfl, rfl⟩
  obtain ⟨z₀, hz₀⟩ := Option.isSome_iff_exists.mp
    (hsome (fun _ => (fun _ _ => .whole _, fun _ _ => .bytewise _)) fun _ => 7).1
  obtain ⟨z₀', hz₀'⟩ := Option.isSome_iff_exists.mp
    (hsome (fun _ => (fun _ _ => .bytewise _, fun _ _ => .whole _)) fun _ => 9).2
  have hroom : 0 + ([[0, 0], [0]] : List (List Tok)).flatten.length ≤ 3 := by decide
  obtain ⟨args, z, z', hone, htwo, -, hcurve⟩ := one_run_gives_curve Core.intFpu squareNum (s := squareIndex)
    squareIndex_routed (by decide) squareModel square_bound (by decide) (by decide) hz₀ hz₀' false false
    (fun _ _ => ⟨⟨fun _ _ => 8, fun _ _ => 8⟩, fun _ _ _ => 8⟩) 0 4 0 (fun _ => KdaState.zero)
    (fun _ => ⟨fun _ _ => 9, fun _ _ => 9⟩) [[0, 0], [0]] hroom
  exact ⟨z₀, z₀', args, z, z', hz₀, hz₀', hone, htwo, fun tr htr => (hcurve tr htr).1⟩

end LlmEngine.Cache
