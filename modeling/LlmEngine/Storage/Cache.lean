/-
# LlmEngine.Storage.Cache — the keyed slot cache (`src/storage/cache.c`).

A fixed number of uniform slots in one arena, a direct index from keys to slots, LRU stamps, pins,
and a caller-supplied source that sizes (`describe`) and fetches (`load`) an object.  A slot is in
one of three states: it holds a key, it is EMPTY, or it is INFLIGHT while a batch reads into it.

The source is a parameter with a context `σ` of its own: it may refuse a key after writing its
metadata, report any size, deliver short, and behave differently at every call.  `m` is
`meta_bytes`; a metadata buffer is `Vector UInt8 m`, so a source cannot write past it.

The loads of a batch run in an OpenMP loop.  They target distinct slots and the source is required
to be safe to call concurrently, so a schedule can only be seen through what the source delivers;
the model issues them one after the other to an arbitrary source.

`EngCache.log` is a history variable: every `describe` and `load` call made, newest first.  No
operation reads it.

What is proved of it stands in `CacheIndex` (the index, whatever the source does), `CacheContent` and
`CacheBytes` (what an entry holds), `CacheLru` (who is evicted), `CacheBatch` (what a batch leaves resident),
`CacheStats` (the counters) and `CacheSlots` (the size of a slot).
-/
import LlmEngine.Lib.Machine
import LlmEngine.Storage.File
import Mathlib.Logic.Function.Basic

namespace LlmEngine.Storage.Cache

open LlmEngine.Storage

/-! ## The source -/

/-- What one `describe` call leaves behind: its return code, `*nbytes`, and the metadata buffer. -/
structure Described (σ : Type) (m : Nat) where
  ctx : σ
  rc : Int
  nbytes : Int
  wrote : Vector UInt8 m

/-- What one `load` call leaves behind in a buffer of `cap` bytes.  A delivered payload lies inside
the buffer. -/
structure Loaded (σ : Type) (cap : Int) where
  ctx : σ
  buf : Nat → UInt8
  got : Int
  payloadOff : Int
  inside : 0 ≤ got → 0 ≤ payloadOff ∧ payloadOff + got ≤ cap

/-- `EngCacheSrc`: `locate` is the optional (device, offset) ordering hint. -/
structure EngCacheSrc (σ : Type) (m : Nat) where
  describe : σ → Nat → Vector UInt8 m → Described σ m
  load : σ → Nat → Vector UInt8 m → (Nat → UInt8) → (cap : Int) → Loaded σ cap
  locate : Option (σ → Vector UInt8 m → Int × Int)

/-! ## The cache -/

/-- `EngCacheCfg` without the name and the page-size hint; `meta_bytes` is the parameter `m`. -/
structure EngCacheCfg where
  budgetBytes : Int
  slotBytes : Int
  nkeys : Int
  minSlots : Int
  wantHist : Bool
  wantTrace : Bool

inductive SlotState where
  | empty
  | inflight
  | key (k : Nat)
  deriving DecidableEq, Repr

/-- One call to the source, with what it was given and what it produced. -/
inductive Event (m : Nat) where
  | describe (key : Nat) (rc nbytes : Int) (wrote : Vector UInt8 m)
  | load (key slot : Nat) (given : Vector UInt8 m) (need got payloadOff : Int) (buf : Nat → UInt8)

/-- `struct EngCache`.  The LRU clock and the statistics are 64-bit counters that step by one (or by
the bytes of one object) per request; the trace holds one entry per request, so no run lives to see
one wrap. -/
structure EngCache (σ : Type) (m : Nat) where
  cfg : EngCacheCfg
  src : EngCacheSrc σ m
  ctx : σ
  stride : Int
  nslot : Nat
  arena : Int → UInt8
  slotOf : Nat → Option Nat
  keyOf : Nat → SlotState
  usedAt : Nat → Nat
  pinned : Nat → Bool
  slotMeta : Nat → Vector UInt8 m
  pad : Nat → Int
  nbytes : Nat → Int
  clock : Nat
  hits : Nat
  misses : Nat
  evictions : Nat
  bytesRead : Int
  prefetchReads : Nat
  requests : Nat
  hist : Nat → Nat
  trace : List Nat
  log : List (Event m)

/-- `EngCacheEntry`: `data` is an address in the arena. -/
structure EngCacheEntry (m : Nat) where
  data : Int
  nbytes : Int
  slotMeta : Vector UInt8 m

/-- `(int32_t)v`. -/
def toInt32 (v : Int) : Int := v.bmod (2 ^ 32)

def engCacheStrideFor (payloadBytes : Int) : Int :=
  if payloadBytes < 0 then 0 else alignUp (payloadBytes + 2 * engIoAlign) engIoAlign

variable {σ : Type} {m : Nat}

/-- `eng_cache_create`, allocations succeeding; the arena holds whatever the allocator gave. -/
def engCacheCreate (cfg : EngCacheCfg) (src : EngCacheSrc σ m) (ctx : σ) (arena : Int → UInt8) :
    Option (EngCache σ m) :=
  if cfg.nkeys ≤ 0 ∨ cfg.slotBytes ≤ 0 then none
  else
    let stride := engCacheStrideFor cfg.slotBytes
    let nslot := toInt32 (cfg.budgetBytes.tdiv stride)
    if nslot < cfg.minSlots ∨ nslot < 1 then none
    else some
      { cfg := cfg
        src := src
        ctx := ctx
        stride := stride
        nslot := nslot.toNat
        arena := arena
        slotOf := fun _ => none
        keyOf := fun _ => .empty
        usedAt := fun _ => 0
        pinned := fun _ => false
        slotMeta := fun _ => Vector.replicate m 0
        pad := fun _ => 0
        nbytes := fun _ => 0
        clock := 0
        hits := 0
        misses := 0
        evictions := 0
        bytesRead := 0
        prefetchReads := 0
        requests := 0
        hist := fun _ => 0
        trace := []
        log := [] }

namespace EngCache

/-- `key < (EngCacheKey)nkeys`. -/
def inRange (c : EngCache σ m) (key : Nat) : Prop := (key : Int) < c.cfg.nkeys

instance (c : EngCache σ m) (key : Nat) : Decidable (c.inRange key) :=
  inferInstanceAs (Decidable (_ < _))

def slotBase (c : EngCache σ m) (slot : Nat) : Int := slot * c.stride

def entryOf (c : EngCache σ m) (slot : Nat) : EngCacheEntry m :=
  { data := c.slotBase slot + c.pad slot
    nbytes := c.nbytes slot
    slotMeta := c.slotMeta slot }

/-! ## The pieces the operations share -/

/-- The scan of `pick_victim`: an EMPTY slot ends it, otherwise the oldest unpinned one wins, the
first of equals.  `best` is `(oldest, best)`, absent while no candidate has been met. -/
def victimLoop (c : EngCache σ m) : List Nat → Option (Nat × Nat) → Option Nat
  | [], best => best.map Prod.snd
  | i :: is, best =>
      match c.keyOf i with
      | .inflight => victimLoop c is best
      | .empty => some i
      | .key _ =>
          if c.pinned i then victimLoop c is best
          else if best.all fun b => decide (c.usedAt i < b.1) then
            victimLoop c is (some (c.usedAt i, i))
          else victimLoop c is best

def pickVictim (c : EngCache σ m) : Option Nat := c.victimLoop (List.range c.nslot) none

/-- `if (key_of[slot] >= 0) { slot_of[key_of[slot]] = -1; evictions++; }` -/
def evict (c : EngCache σ m) (slot : Nat) : EngCache σ m :=
  { c with
    slotOf := match c.keyOf slot with
      | .key old => Function.update c.slotOf old none
      | _ => c.slotOf
    evictions := match c.keyOf slot with
      | .key _ => c.evictions + 1
      | _ => c.evictions }

/-- Evict, then install the metadata the new key was described with. -/
def install (c : EngCache σ m) (slot : Nat) (wrote : Vector UInt8 m) : EngCache σ m :=
  { c.evict slot with slotMeta := Function.update c.slotMeta slot wrote }

/-- The source has described `key`. -/
def described (c : EngCache σ m) (key : Nat) (d : Described σ m) : EngCache σ m :=
  { c with ctx := d.ctx, log := .describe key d.rc d.nbytes d.wrote :: c.log }

/-- The `load` call for `key` into `slot`, with the slot's own metadata. -/
def load (c : EngCache σ m) (key slot : Nat) : Loaded σ c.stride :=
  c.src.load c.ctx key (c.slotMeta slot) (fun i => c.arena (c.slotBase slot + i)) c.stride

/-- What that call writes: the slot's bytes and nothing else. -/
def loaded (c : EngCache σ m) (key slot : Nat) (need : Int) : EngCache σ m :=
  let r := c.load key slot
  { c with
    ctx := r.ctx
    arena := fun a =>
      if c.slotBase slot ≤ a ∧ a < c.slotBase slot + c.stride then r.buf (a - c.slotBase slot).toNat
      else c.arena a
    log := .load key slot (c.slotMeta slot) need r.got r.payloadOff r.buf :: c.log }

/-- Register `key` in `slot` once its bytes have arrived. -/
def publish (c : EngCache σ m) (key slot : Nat) (got payloadOff : Int) : EngCache σ m :=
  { c with
    bytesRead := c.bytesRead + got
    pad := Function.update c.pad slot (toInt32 payloadOff)
    nbytes := Function.update c.nbytes slot got
    keyOf := Function.update c.keyOf slot (.key key)
    slotOf := Function.update c.slotOf key (some slot)
    usedAt := Function.update c.usedAt slot (c.clock + 1)
    clock := c.clock + 1 }

def markEmpty (c : EngCache σ m) (slot : Nat) : EngCache σ m :=
  { c with keyOf := Function.update c.keyOf slot .empty }

end EngCache

open EngCache

/-! ## Single requests -/

/-- The tail of `admit` once a victim is chosen: evict, install the metadata, read, publish. -/
def fill (c : EngCache σ m) (key slot : Nat) (need : Int) (wrote : Vector UInt8 m) :
    EngCache σ m × Option Nat :=
  let c := c.install slot wrote
  let r := c.load key slot
  let c := c.loaded key slot need
  if r.got ≠ need then (c.markEmpty slot, none)
  else (c.publish key slot r.got r.payloadOff, some slot)

def admitKey (c : EngCache σ m) (key : Nat) : EngCache σ m × Option Nat :=
  match c.slotOf key with
  | some slot =>
      ({ c with
          hits := c.hits + 1
          usedAt := Function.update c.usedAt slot (c.clock + 1)
          clock := c.clock + 1 }, some slot)
  | none =>
      let c : EngCache σ m := { c with misses := c.misses + 1 }
      -- into a zeroed scratch buffer: the victim's metadata stays as it is until the key is admitted
      let d := c.src.describe c.ctx key (Vector.replicate m 0)
      let c := c.described key d
      if d.rc ≠ 0 then (c, none)
      else if d.nbytes > c.cfg.slotBytes then (c, none)
      else
        match c.pickVictim with
        | none => (c, none)
        | some slot => fill c key slot d.nbytes d.wrote

/-- The bookkeeping of a request, before it is served. -/
def record (c : EngCache σ m) (key : Nat) : EngCache σ m :=
  { c with
    requests := c.requests + 1
    hist := if c.cfg.wantHist then Function.update c.hist key (c.hist key + 1) else c.hist
    trace := if c.cfg.wantTrace then c.trace ++ [key] else c.trace }

/-- `eng_cache_get`; `none` is the return value `-1`. -/
def engCacheGet (c : EngCache σ m) (key : Nat) : EngCache σ m × Option (EngCacheEntry m) :=
  if c.inRange key then
    let r := admitKey (record c key) key
    (r.1, r.2.map r.1.entryOf)
  else (c, none)

def engCachePeek (c : EngCache σ m) (key : Nat) : Option (EngCacheEntry m) :=
  if c.inRange key then (c.slotOf key).map c.entryOf else none

def engCachePin (c : EngCache σ m) (key : Nat) (pin : Bool) : EngCache σ m × Bool :=
  if c.inRange key then
    match c.slotOf key with
    | none => (c, false)
    | some slot => ({ c with pinned := Function.update c.pinned slot pin }, true)
  else (c, false)

def engCacheResetStats (c : EngCache σ m) : EngCache σ m :=
  { c with hits := 0, misses := 0, evictions := 0, bytesRead := 0, prefetchReads := 0, requests := 0 }

/-! ## Batch requests -/

def engCacheMaxBatch : Nat := 64

structure Work where
  slot : Nat
  key : Nat
  need : Int
  got : Int
  pad : Int
  device : Int
  offset : Int
  deriving DecidableEq, Repr

/-- How one iteration of the reserve loop ends. -/
inductive Reserved (σ : Type) (m : Nat) where
  /-- `continue` -/
  | skip (c : EngCache σ m)
  /-- `break` -/
  | stop
  | take (c : EngCache σ m) (w : Work)

/-- The slot is taken for `k`: the old key goes, the slot is INFLIGHT. -/
def reserveSlot (c : EngCache σ m) (k slot : Nat) (need : Int) : EngCache σ m × Work :=
  let c := c.evict slot
  let c : EngCache σ m := { c with
    keyOf := Function.update c.keyOf slot .inflight
    usedAt := Function.update c.usedAt slot (c.clock + 1)
    clock := c.clock + 1 }
  let at_ := match c.src.locate with
    | some locate => locate c.ctx (c.slotMeta slot)
    | none => (0, 0)
  (c, { slot := slot, key := k, need := need, got := -1, pad := 0, device := at_.1, offset := at_.2 })

/-- One iteration of phase 1.  The key is described straight into the victim's metadata. -/
def reserveOne (c : EngCache σ m) (w : List Work) (k : Nat) : Reserved σ m :=
  if ¬ c.inRange k then .skip c
  else if (c.slotOf k).isSome then .skip c
  else if w.any fun x => decide (x.key = k) then .skip c
  else
    match c.pickVictim with
    | none => .stop
    | some slot =>
        let d := c.src.describe c.ctx k (c.slotMeta slot)
        let c : EngCache σ m := { c.described k d with slotMeta := Function.update c.slotMeta slot d.wrote }
        if d.rc ≠ 0 then .skip c
        else if d.nbytes > c.cfg.slotBytes then .skip c
        else
          let r := reserveSlot c k slot d.nbytes
          .take r.1 r.2

/-- Phase 1, serial. -/
def reserve (c : EngCache σ m) : List Nat → List Work → EngCache σ m × List Work
  | [], w => (c, w)
  | k :: ks, w =>
      if w.length ≥ engCacheMaxBatch then (c, w)
      else
        match reserveOne c w k with
        | .skip c' => reserve c' ks w
        | .stop => (c, w)
        | .take c' x => reserve c' ks (w ++ [x])

/-- `w[j]` comes after `t` in storage order. -/
def Work.after (x t : Work) : Bool :=
  decide (x.device > t.device ∨ (x.device = t.device ∧ x.offset > t.offset))

/-- The inner loop of the insertion sort, walking the sorted part from its end. -/
def shiftIn (t : Work) : List Work → List Work
  | [] => [t]
  | x :: xs => if x.after t then x :: shiftIn t xs else t :: x :: xs

def sortWork (w : List Work) : List Work := (w.foldl (fun done t => shiftIn t done) []).reverse

/-- Phase 2: one load per reserved slot. -/
def loadAll (c : EngCache σ m) : List Work → EngCache σ m × List Work
  | [] => (c, [])
  | w :: ws =>
      let r := c.load w.key w.slot
      let rest := loadAll (c.loaded w.key w.slot w.need) ws
      (rest.1, { w with got := r.got, pad := r.payloadOff } :: rest.2)

/-- Phase 3: publish what arrived, leave the rest EMPTY. -/
def publishAll (c : EngCache σ m) : List Work → Nat → EngCache σ m × Nat
  | [], ok => (c, ok)
  | w :: ws, ok =>
      if w.got ≠ w.need then publishAll (c.markEmpty w.slot) ws ok
      else
        publishAll { (c.publish w.key w.slot w.got w.pad) with prefetchReads := c.prefetchReads + 1 }
          ws (ok + 1)

/-- The order the reads are issued in: storage order when the source can tell it. -/
def issueOrder (c : EngCache σ m) (w : List Work) : List Work :=
  if c.src.locate.isSome then sortWork w else w

/-- `eng_cache_get_many`. -/
def engCacheGetMany (c : EngCache σ m) (keys : List Nat) : EngCache σ m × Nat :=
  let p₁ := reserve c keys []
  if p₁.2 = [] then (p₁.1, 0)
  else
    let p₂ := loadAll p₁.1 (issueOrder p₁.1 p₁.2)
    publishAll p₂.1 p₂.2 0

/-! ## Runs -/

inductive Op where
  | get (key : Nat)
  | getMany (keys : List Nat)
  | peek (key : Nat)
  | pin (key : Nat) (pin : Bool)
  | resetStats
  deriving DecidableEq, Repr

/-- The state after one call; `peek` only looks. -/
def applyOp (c : EngCache σ m) : Op → EngCache σ m
  | .get key => (engCacheGet c key).1
  | .getMany keys => (engCacheGetMany c keys).1
  | .peek _ => c
  | .pin key pin => (engCachePin c key pin).1
  | .resetStats => engCacheResetStats c

def step (c : EngCache σ m) (op : Op) : Option (EngCache σ m) := some (applyOp c op)

end LlmEngine.Storage.Cache
