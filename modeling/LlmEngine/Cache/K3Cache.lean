/-
# LlmEngine.Cache.K3Cache — the routed-expert cache (`src/cache/k3_cache.c`).

K3's binding of the keyed cache: a key is `layer * n_experts + expert`, a slot's metadata is the
`K3ExpertRef` of the expert it holds, and the source resolves and reads experts of a checkpoint.  Above it
sits the `K3ExpertSrc` the MoE kernels call: `get`, the batch prefetch `getmany`, and `resident`.

How the kernel serves the reads of a load may differ from load to load (`reads`, by the number of loads made
before); it never changes what arrives.  An `int` argument is an integer, and a pointer handed to the kernels is
the bytes they read through it, zero past the last.

A call is followed by the mirror of the counters (`syncStats`), which the engine reads without taking the cache
apart.  Keys are computed in `uint64_t` from `int`s, and an expert that is not of the model is refused before a key is
made (`InModel`).

    cacheGet, cacheGetmany, cacheResident            what `K3ExpertSrc` offers the kernels (`cacheSrc`)
    k3CachePin, k3CachePrefetch, k3CacheResetStats   what the engine calls besides
    k3CacheInit                                      the geometry, from one expert that is resolved as a probe

`Op` is a call of any of these and `applyOp` its effect, for statements about whole runs; `Cache.Serves` and
`Cache.Dump` have these.  `cacheSrc c true` is the source under `K3_NOPREFETCH`.
-/
import LlmEngine.Bind.Plan
import LlmEngine.Cache.ExpertMeta
import LlmEngine.Core.Moe
import LlmEngine.Storage.Cache

namespace LlmEngine.Cache

open LlmEngine.Bind
open LlmEngine.Core (K3Cfg maxTopk mxfp4Group)
open LlmEngine.Lib
open LlmEngine.Storage
open LlmEngine.Storage.Cache

/-! ## The source -/

/-- `k3key`; an `EngCacheKey` is unsigned. -/
def k3key (c : K3Cfg) (layer expert : Int) : Nat := ((layer * c.nExperts + expert) % 2 ^ 64).toNat

/-- The layer and the expert of a key, as `k3_describe` takes them apart. -/
def keyLayer (c : K3Cfg) (key : Nat) : Int := toInt32 (key / c.nExperts : Nat)

def keyExpert (c : K3Cfg) (key : Nat) : Int := toInt32 (key % c.nExperts : Nat)

/-- `k3_describe`.  A refusal leaves `*nbytes` as the caller set it, at zero. -/
def k3Describe (s : K3StIndex) (c : K3Cfg) (ctx key : Nat) (_given : Vector UInt8 refBytes) : Described Nat refBytes :=
  let left := (refLeft s (keyLayer c key) (keyExpert c key)).toBytes
  match k3ExpertRef s (keyLayer c key) (keyExpert c key) with
  | .ok r => { ctx := ctx, rc := 0, nbytes := r.nbytes, wrote := left }
  | .error _ => { ctx := ctx, rc := -1, nbytes := 0, wrote := left }

/-- The read behind `k3_load`: the reference is the slot's metadata. -/
def k3LoadRead (s : K3StIndex) (reads : Nat → Serves s × Serves s) (ctx : Nat) (given : Vector UInt8 refBytes)
    (before : Nat → UInt8) (cap : Int) : ReadResult :=
  k3ExpertLoadDirect s (reads ctx).1 (reads ctx).2 (K3ExpertRef.ofBytes given) (fun a => before a.toNat) cap 0

/-- What was delivered lies in the buffer. -/
def InBuffer (r : ReadResult) (cap : Int) : Prop := 0 ≤ r.count → 0 ≤ r.payloadOff ∧ r.payloadOff + r.count ≤ cap

instance (r : ReadResult) (cap : Int) : Decidable (InBuffer r cap) := inferInstanceAs (Decidable (_ → _))

/-- `k3_load`.  A read past the buffer is undefined in C and counts as a short one; no reference that
`k3_describe` wrote leads to one (`k3Load_got`). -/
def k3Load (s : K3StIndex) (reads : Nat → Serves s × Serves s) (ctx _key : Nat) (given : Vector UInt8 refBytes)
    (before : Nat → UInt8) (cap : Int) : Loaded Nat cap :=
  let r := k3LoadRead s reads ctx given before cap
  { ctx := ctx + 1
    buf := fun i => r.buf i
    got := if InBuffer r cap then r.count else -1
    payloadOff := r.payloadOff
    inside := by
      split_ifs with h
      · exact h
      · exact fun hneg => absurd hneg (by decide) }

/-- `k3_locate`. -/
def k3Locate (_ctx : Nat) (given : Vector UInt8 refBytes) : Int × Int :=
  ((K3ExpertRef.ofBytes given).shard, (K3ExpertRef.ofBytes given).off)

/-- The generic cache's source. -/
def k3Source (s : K3StIndex) (c : K3Cfg) (reads : Nat → Serves s × Serves s) : EngCacheSrc Nat refBytes where
  describe := k3Describe s c
  load := k3Load s reads
  locate := some k3Locate

/-! ## The cache -/

/-- The counters of the generic cache as the struct repeats them. -/
structure Mirror where
  hits : Nat
  misses : Nat
  evictions : Nat
  bytesRead : Int
  prefetchReads : Nat
  nslot : Nat
  slotBytes : Int
  deriving DecidableEq

/-- `K3Cache`, the part that changes. -/
structure K3Cache where
  gc : EngCache Nat refBytes
  mirror : Mirror

/-- The counters as they stand (`eng_cache_stats`). -/
def mirrorOf (gc : EngCache Nat refBytes) : Mirror :=
  ⟨gc.hits, gc.misses, gc.evictions, gc.bytesRead, gc.prefetchReads, gc.nslot, gc.stride⟩

/-- `sync_stats`, after the generic cache has moved to `gc`. -/
def syncStats (gc : EngCache Nat refBytes) : K3Cache := ⟨gc, mirrorOf gc⟩

/-- The bytes read through a pointer, `n` of them. -/
def window (m : Mem) (p : Int) (n : Nat) : Core.Bytes := fun i => if i < n then (m (p + i)).toBitVec else 0

/-- Packed bytes and scales of a matrix of `rows` rows of `inn` elements. -/
def packedLen (inn rows : Nat) : Nat := rows * (inn / 2)

def scaleLen (inn rows : Nat) : Nat := rows * ((inn + mxfp4Group - 1) / mxfp4Group)

/-- What the kernels read through the six pointers of an expert. -/
def readQ (c : K3Cfg) (m : Mem) (q : K3ExpertQ) : Core.K3ExpertQ where
  p1 := window m q.p1 (packedLen c.latent c.moeInter)
  s1 := window m q.s1 (scaleLen c.latent c.moeInter)
  p3 := window m q.p3 (packedLen c.latent c.moeInter)
  s3 := window m q.s3 (scaleLen c.latent c.moeInter)
  p2 := window m q.p2 (packedLen c.moeInter c.latent)
  s2 := window m q.s2 (scaleLen c.moeInter c.latent)

/-- `fill_q`, and the kernels behind it. -/
def entryQ (c : K3Cfg) (gc : EngCache Nat refBytes) (e : EngCacheEntry refBytes) : Core.K3ExpertQ :=
  readQ c gc.arena (fillQ e.data (K3ExpertRef.ofBytes e.slotMeta))

/-- The bound every entry point checks. -/
def InModel (c : K3Cfg) (layer expert : Int) : Prop :=
  ¬ (layer < 0 ∨ layer ≥ c.nLayers ∨ expert < 0 ∨ expert ≥ c.nExperts)

instance (c : K3Cfg) (layer expert : Int) : Decidable (InModel c layer expert) := inferInstanceAs (Decidable (¬ _))

section Calls

variable (c : K3Cfg) (z : K3Cache)

/-- `cache_get`; `none` is the return value `-1`. -/
def cacheGet (layer expert : Int) : Option Core.K3ExpertQ × K3Cache :=
  if InModel c layer expert then
    let r := engCacheGet z.gc (k3key c layer expert)
    (r.2.map (entryQ c r.1), syncStats r.1)
  else (none, z)

/-- The keys of a batch: at most `K3_MAX_TOPK` ids are looked at, and those out of range are skipped. -/
def batchKeys (layer : Int) (ids : List Int) : List Nat :=
  ((ids.take maxTopk).filter fun e : Int => decide (0 ≤ e ∧ e < c.nExperts)).map fun e => k3key c layer e

/-- `cache_getmany`. -/
def cacheGetmany (layer : Int) (ids : List Int) : K3Cache × Nat :=
  if ids = [] then (z, 0)
  else
    let r := engCacheGetMany z.gc (batchKeys c layer ids)
    (syncStats r.1, r.2)

/-- `cache_resident`. -/
def cacheResident (layer expert : Int) : Option Core.K3ExpertQ :=
  if InModel c layer expert then (engCachePeek z.gc (k3key c layer expert)).map (entryQ c z.gc) else none

/-- `k3_cache_pin`. -/
def k3CachePin (layer expert : Int) (pin : Bool) : K3Cache × Bool :=
  if InModel c layer expert then
    let r := engCachePin z.gc (k3key c layer expert) pin
    ({ z with gc := r.1 }, r.2)
  else (z, false)

/-- `k3_cache_prefetch`, which checks no bound. -/
def k3CachePrefetch (layer expert : Int) : K3Cache × Bool :=
  let r := engCacheGet z.gc (k3key c layer expert)
  (syncStats r.1, r.2.isSome)

/-- `k3_cache_reset_stats`. -/
def k3CacheResetStats : K3Cache := syncStats (engCacheResetStats z.gc)

end Calls

/-- The probe of `k3_cache_init`: expert 0 of the first MoE layer that has one. -/
def probe (s : K3StIndex) (c : K3Cfg) : Option K3ExpertRef :=
  (List.range c.nLayers).findSome? fun L => if isDense c L then none else (k3ExpertRef s L 0).toOption

/-- The configuration of the generic cache. -/
def engCfg (c : K3Cfg) (budgetBytes slotBytes : Int) : EngCacheCfg where
  budgetBytes := budgetBytes
  slotBytes := slotBytes
  nkeys := c.nLayers * c.nExperts
  minSlots := c.topk + 1
  wantHist := true
  wantTrace := true

/-- `k3_cache_init`; the arena holds whatever the allocator gave. -/
def k3CacheInit (s : K3StIndex) (c : K3Cfg) (reads : Nat → Serves s × Serves s) (budgetBytes : Int)
    (arena : Int → UInt8) : Option K3Cache :=
  (probe s c).bind fun r =>
    (engCacheCreate (engCfg c budgetBytes r.nbytes) (k3Source s c reads) 0 arena).map syncStats

/-- The `K3ExpertSrc` of the cache; `K3_NOPREFETCH` removes the batch path. -/
def cacheSrc (c : K3Cfg) (noPrefetch : Bool) : Core.K3ExpertSrc K3Cache where
  get := fun z layer e => cacheGet c z layer e
  getmany := if noPrefetch then none else some fun z layer ids => (cacheGetmany c z layer (ids.map Int.ofNat)).1
  resident := some fun z layer e => (cacheResident c z layer e, z)

/-! ## Runs -/

inductive Op where
  | get (layer expert : Int)
  | getmany (layer : Int) (ids : List Int)
  | resident (layer expert : Int)
  | pin (layer expert : Int) (pin : Bool)
  | prefetch (layer expert : Int)
  | resetStats
  deriving DecidableEq, Repr

/-- The state after one call. -/
def applyOp (c : K3Cfg) (z : K3Cache) : Op → K3Cache
  | .get layer expert => (cacheGet c z layer expert).2
  | .getmany layer ids => (cacheGetmany c z layer ids).1
  | .resident _ _ => z
  | .pin layer expert pin => (k3CachePin c z layer expert pin).1
  | .prefetch layer expert => (k3CachePrefetch c z layer expert).1
  | .resetStats => k3CacheResetStats z

def step (c : K3Cfg) (z : K3Cache) (op : Op) : Option K3Cache := some (applyOp c z op)

end LlmEngine.Cache
