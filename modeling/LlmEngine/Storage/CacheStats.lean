/-
# LlmEngine.Storage.CacheStats — the statistics balance.

Every counter of the cache moves at one place and for one reason: `admitted`, the keys that are
resident plus those that were evicted, grows by one with each published load and by nothing else.  A
request that misses and does not fail publishes one load, a batch as many as it counts in
`prefetch_reads`; so misses less failures plus prefetches less evictions is what is resident, however
many requests were refused and however many loads came up short (`stats_conserved`).

The books are kept in two columns:

* what was asked for: hits and misses are the requests, and the histogram has each of them once, at its key;
* what was done: the log's publications (`Event.published`), whose bytes are those that were read in full.

`Posted` says of a piece of a call how many publications it made; pieces add up (`Posted.trans`).  `Stats` is the
balance after a run, with the keys asked for and the number of failed requests as its history, and
`applyOp_stats` the step.
-/
import LlmEngine.Storage.CacheIndex
import Mathlib.Algebra.BigOperators.Group.Finset.Piecewise
import Mathlib.Algebra.BigOperators.Group.List.Basic

namespace LlmEngine.Storage.Cache

open LlmEngine.Storage LlmEngine.Lib
open EngCache

variable {σ : Type} {m : Nat} {c c' : EngCache σ m}

/-! ## The books -/

/-- The keys that are resident. -/
def residents (c : EngCache σ m) : Finset Nat :=
  (Finset.range c.cfg.nkeys.toNat).filter fun k => (c.slotOf k).isSome

/-- Resident or evicted since. -/
def admitted (c : EngCache σ m) : Nat := (residents c).card + c.evictions

/-- The size of a load that was published: one that delivered what was announced. -/
def Event.published : Event m → Int
  | .load _ _ _ need got _ _ => if got = need then got else 0
  | .describe .. => 0

def publishedBytes (log : List (Event m)) : Int := (log.map Event.published).sum

/-- What requests move, and nothing else does. -/
def EngCache.asked (c : EngCache σ m) := (c.hits, c.misses, c.requests, c.hist, c.trace)

theorem inRange_iff_mem {k : Nat} : c.inRange k ↔ k ∈ Finset.range c.cfg.nkeys.toNat := by
  rw [Finset.mem_range]
  unfold EngCache.inRange
  omega

theorem residents_congr (hslotOf : c'.slotOf = c.slotOf) (hcfg : c'.cfg = c.cfg) :
    residents c' = residents c := by
  unfold residents
  rw [hslotOf, hcfg]

/-- **An eviction is counted**: what leaves the index enters the counter. -/
theorem evict_admitted (h : Index c) (slot : Nat) : admitted (c.evict slot) = admitted c := by
  unfold admitted
  cases hold : c.keyOf slot with
  | empty =>
      have hsame : c.evict slot = c := by simp [EngCache.evict, hold]
      rw [hsame]
  | inflight =>
      have hsame : c.evict slot = c := by simp [EngCache.evict, hold]
      rw [hsame]
  | key old =>
      have hres : c.slotOf old = some slot := (h.inverse old slot).mpr hold
      have hmem : old ∈ residents c := by
        rw [residents, Finset.mem_filter, ← inRange_iff_mem]
        exact ⟨h.inRange old (by simp [hres]), by simp [hres]⟩
      have herase : residents (c.evict slot) = (residents c).erase old := by
        ext k
        have hcfg : (c.evict slot).cfg = c.cfg := rfl
        simp only [residents, Finset.mem_filter, Finset.mem_erase, hcfg, evict_slotOf, hold,
          SlotState.key.injEq]
        by_cases hk : old = k
        · simp [hk]
        · simp [hk, Ne.symm hk]
      have hcount : (c.evict slot).evictions = c.evictions + 1 := by simp [EngCache.evict, hold]
      have hpos := Finset.card_pos.mpr ⟨old, hmem⟩
      rw [herase, Finset.card_erase_of_mem hmem, hcount]
      omega

/-- **A publication admits one key.** -/
theorem publish_admitted {key : Nat} (slot : Nat) (got off : Int) (hrange : c.inRange key)
    (habs : c.slotOf key = none) : admitted (c.publish key slot got off) = admitted c + 1 := by
  have hinsert : residents (c.publish key slot got off) = insert key (residents c) := by
    ext k
    have hcfg : (c.publish key slot got off).cfg = c.cfg := rfl
    have hslotOf : (c.publish key slot got off).slotOf = Function.update c.slotOf key (some slot) := rfl
    simp only [residents, Finset.mem_filter, Finset.mem_insert, hcfg, hslotOf]
    by_cases hk : k = key
    · subst hk
      simp [inRange_iff_mem.mp hrange]
    · simp [hk]
  have hnew : key ∉ residents c := by simp [residents, habs]
  unfold admitted
  rw [hinsert, Finset.card_insert_of_notMem hnew]
  show (residents c).card + 1 + c.evictions = _
  omega

theorem admitted_congr (hslotOf : c'.slotOf = c.slotOf) (hcfg : c'.cfg = c.cfg)
    (hev : c'.evictions = c.evictions) : admitted c' = admitted c := by
  unfold admitted
  rw [residents_congr hslotOf hcfg, hev]

theorem publishedBytes_cons (e : Event m) (log : List (Event m)) :
    publishedBytes (e :: log) = e.published + publishedBytes log := by
  simp [publishedBytes]

/-- Two states whose books differ by `n` publications and no request. -/
structure Posted (c c' : EngCache σ m) (n : Nat) : Prop where
  asked : c'.asked = c.asked
  admitted : admitted c' = admitted c + n
  bytes : c'.bytesRead - publishedBytes c'.log = c.bytesRead - publishedBytes c.log

/-! ## Single requests -/

/-- **Filling a slot** posts one publication, or none when the load came up short. -/
theorem fill_posted (h : Quiet c) {key : Nat} (slot : Nat) (hrange : c.inRange key) (habs : c.slotOf key = none)
    (need : Int) (wrote : Vector UInt8 m) :
    Posted c (fill c key slot need wrote).1 (if (fill c key slot need wrote).2.isSome then 1 else 0) ∧
      (fill c key slot need wrote).1.prefetchReads = c.prefetchReads := by
  set d := (c.install slot wrote).loaded key slot need with hd
  have habs' : d.slotOf key = none := by
    show (c.evict slot).slotOf key = none
    rw [evict_slotOf, habs, ite_self]
  have hadm : admitted d = admitted c := by
    have hevict : admitted d = admitted (c.evict slot) := admitted_congr rfl rfl rfl
    rw [hevict, evict_admitted h.toIndex slot]
  have hrange' : d.inRange key := hrange
  by_cases hgot : ((c.install slot wrote).load key slot).got = need
  · rw [fill_full hgot, ← hd]
    simp only [Option.isSome_some, if_true]
    refine ⟨⟨rfl, ?_, ?_⟩, rfl⟩
    · rw [publish_admitted slot _ _ hrange' habs', hadm]
    · show c.bytesRead + need - publishedBytes (_ :: c.log) = _
      rw [publishedBytes_cons]
      simp only [Event.published, hgot, if_true]
      omega
  · rw [fill_short hgot, ← hd]
    refine ⟨⟨rfl, ?_, ?_⟩, rfl⟩
    · exact hadm
    · show c.bytesRead - publishedBytes (_ :: c.log) = _
      rw [publishedBytes_cons]
      simp only [Event.published, hgot, if_false]
      omega

/-- The books of one request: a hit, or a miss that publishes unless it fails. -/
structure Booked (c c' : EngCache σ m) (ok : Bool) : Prop where
  counted : c'.hits + c'.misses = c.hits + c.misses + 1
  requests : c'.requests = c.requests
  hist : c'.hist = c.hist
  trace : c'.trace = c.trace
  prefetch : c'.prefetchReads = c.prefetchReads
  admitted : admitted c' + c.misses + (if ok then 0 else 1) = admitted c + c'.misses
  bytes : c'.bytesRead - publishedBytes c'.log = c.bytesRead - publishedBytes c.log

theorem admitKey_booked (h : Quiet c) {key : Nat} (hrange : c.inRange key) :
    Booked c (admitKey c key).1 (admitKey c key).2.isSome := by
  -- the state after the miss is counted and the key described
  have hadm : admitted (admitDescribed c key).1 = admitted c := admitted_congr rfl rfl rfl
  have hbytes : (admitDescribed c key).1.bytesRead - publishedBytes (admitDescribed c key).1.log =
      c.bytesRead - publishedBytes c.log := by
    show c.bytesRead - publishedBytes (_ :: c.log) = _
    rw [publishedBytes_cons]
    simp [Event.published]
  rcases admitKey_cases c key with ⟨slot, -, heq⟩ | ⟨-, -, heq⟩ | ⟨hs, -, slot, -, heq⟩
  · rw [heq]
    simp only [Option.isSome_some]
    refine ⟨?_, rfl, rfl, rfl, rfl, ?_, rfl⟩
    · show c.hits + 1 + c.misses = _
      omega
    · simp only [if_true, Nat.add_zero]
      rfl
  · rw [heq]
    refine ⟨?_, rfl, rfl, rfl, rfl, ?_, hbytes⟩
    · show c.hits + (c.misses + 1) = _
      omega
    · rw [hadm]
      show admitted c + c.misses + 1 = admitted c + (c.misses + 1)
      omega
  · rw [heq]
    have hq : Quiet (admitDescribed c key).1 := Batch.congr h rfl rfl rfl rfl rfl
    obtain ⟨hpost, hpre⟩ :=
      fill_posted hq slot hrange hs (admitDescribed c key).2.nbytes (admitDescribed c key).2.wrote
    have hasked := hpost.asked
    simp only [EngCache.asked, Prod.mk.injEq] at hasked
    obtain ⟨hhits, hmisses, hreq, hhist, htrace⟩ := hasked
    refine ⟨?_, hreq, hhist, htrace, hpre, ?_, hpost.bytes.trans hbytes⟩
    · rw [hhits, hmisses]
      show c.hits + (c.misses + 1) = _
      omega
    · rw [hpost.admitted, hadm, hmisses]
      show admitted c + _ + c.misses + _ = admitted c + (c.misses + 1)
      split_ifs <;> omega

/-! ## Batches -/

theorem Posted.refl (c : EngCache σ m) : Posted c c 0 := ⟨rfl, rfl, rfl⟩

theorem Posted.trans {c'' : EngCache σ m} {n n' : Nat} (h : Posted c c' n) (h' : Posted c' c'' n') :
    Posted c c'' (n + n') where
  asked := h'.asked.trans h.asked
  admitted := by rw [h'.admitted, h.admitted, Nat.add_assoc]
  bytes := h'.bytes.trans h.bytes

/-- A step that moves neither the index nor a counter, and at most describes. -/
theorem Posted.of_described (new : List (Event m)) (hasked : c'.asked = c.asked)
    (hslotOf : c'.slotOf = c.slotOf) (hcfg : c'.cfg = c.cfg) (hev : c'.evictions = c.evictions)
    (hbytes : c'.bytesRead = c.bytesRead) (hlog : c'.log = new ++ c.log)
    (hnew : ∀ e ∈ new, e.published = 0) : Posted c c' 0 where
  asked := hasked
  admitted := admitted_congr hslotOf hcfg hev
  bytes := by
    have hzero : (new.map Event.published).sum = 0 := by
      apply List.sum_eq_zero
      intro x hx
      obtain ⟨e, he, rfl⟩ := List.mem_map.mp hx
      exact hnew e he
    rw [hbytes, hlog, publishedBytes, List.map_append, List.sum_append, hzero, zero_add]
    rfl

/-- Reserving evicts, and posts nothing. -/
theorem reserveSlot_posted (h : Index c) (k slot : Nat) (need : Int) :
    Posted c (reserveSlot c k slot need).1 0 where
  asked := rfl
  admitted := by
    have hevict : admitted (reserveSlot c k slot need).1 = admitted (c.evict slot) :=
      admitted_congr rfl rfl rfl
    rw [hevict, evict_admitted h, Nat.add_zero]
  bytes := rfl

/-- **The reserve loop posts nothing.** -/
theorem reserve_posted : ∀ (ks : List Nat) {c : EngCache σ m} {w : List Work}, Batch c w →
    Posted c (reserve c ks w).1 0 ∧ (reserve c ks w).1.prefetchReads = c.prefetchReads
  | [], c, w, _ => ⟨.refl c, rfl⟩
  | k :: ks, c, w, h => by
      unfold reserve
      split_ifs with hfull
      · exact ⟨.refl c, rfl⟩
      rcases reserveOne_cases c w k with hskip | ⟨-, hstop⟩ | ⟨slot, hv, hrange, habs, hnew, hcase⟩
      · rw [hskip]
        exact reserve_posted ks h
      · rw [hstop]
        exact ⟨.refl c, rfl⟩
      · obtain ⟨hlt, hfree⟩ := pickVictim_free hv
        have hd : Posted c (describedInto c k slot) 0 :=
          .of_described [_] rfl rfl rfl rfl rfl rfl (by simp [Event.published])
        have hb : Batch (describedInto c k slot) w := Batch.congr h rfl rfl rfl rfl rfl
        rcases hcase with ⟨-, hskip⟩ | ⟨-, -, htake⟩
        · rw [hskip]
          obtain ⟨hpost, hpre⟩ := reserve_posted ks hb
          exact ⟨hd.trans hpost, hpre⟩
        · rw [htake]
          have hr := reserveSlot_posted hb.toIndex k slot (c.src.describe c.ctx k (c.slotMeta slot)).nbytes
          obtain ⟨hpost, hpre⟩ := reserve_posted ks (reserveSlot_batch hb hlt hfree hrange habs hnew _)
          exact ⟨(hd.trans hr).trans hpost, hpre⟩

/-- What the loads of a batch bring in, once published. -/
def Work.arrived (w : Work) : Int := if w.got = w.need then w.got else 0

/-- **The loads of a batch** are logged with what they delivered, and move no counter. -/
theorem loadAll_books : ∀ (ws : List Work) (c : EngCache σ m),
    (loadAll c ws).1.asked = c.asked ∧ (loadAll c ws).1.slotOf = c.slotOf ∧
      (loadAll c ws).1.cfg = c.cfg ∧ (loadAll c ws).1.evictions = c.evictions ∧
      (loadAll c ws).1.bytesRead = c.bytesRead ∧ (loadAll c ws).1.prefetchReads = c.prefetchReads ∧
      publishedBytes (loadAll c ws).1.log =
        publishedBytes c.log + ((loadAll c ws).2.map Work.arrived).sum
  | [], c => ⟨rfl, rfl, rfl, rfl, rfl, rfl, by simp [loadAll]⟩
  | w :: ws, c => by
      obtain ⟨hasked, hslotOf, hcfg, hev, hbytes, hpre, hlog⟩ :=
        loadAll_books ws (c.loaded w.key w.slot w.need)
      refine ⟨hasked, hslotOf, hcfg, hev, hbytes, hpre, ?_⟩
      simp only [loadAll, List.map_cons, List.sum_cons]
      rw [hlog]
      show publishedBytes (_ :: c.log) + _ = _
      rw [publishedBytes_cons]
      simp only [Event.published, Work.arrived]
      omega

/-- **Publishing a batch** posts every load that arrived, and counts it as a prefetch. -/
theorem publishAll_books : ∀ (ws : List Work) {c : EngCache σ m} (ok : Nat), Batch c ws →
    ∃ n, (publishAll c ws ok).1.asked = c.asked ∧
      admitted (publishAll c ws ok).1 = admitted c + n ∧
      (publishAll c ws ok).1.prefetchReads = c.prefetchReads + n ∧
      (publishAll c ws ok).1.bytesRead = c.bytesRead + (ws.map Work.arrived).sum ∧
      (publishAll c ws ok).1.log = c.log
  | [], c, ok, _ => ⟨0, rfl, rfl, rfl, by simp [publishAll], rfl⟩
  | w :: ws, c, ok, h => by
      unfold publishAll
      simp only [List.map_cons, List.sum_cons]
      split_ifs with hshort
      · obtain ⟨n, hasked, hadm, hpre, hbytes, hlog⟩ := publishAll_books ws ok h.markEmpty
        have harr : w.arrived = 0 := if_neg hshort
        have hsame : admitted (c.markEmpty w.slot) = admitted c := admitted_congr rfl rfl rfl
        exact ⟨n, hasked, by rw [hadm, hsame], hpre, by rw [hbytes, harr, zero_add]; rfl, hlog⟩
      · have harr : w.arrived = w.got := if_pos (not_not.mp hshort)
        have hb := h.publish w.got w.pad
        set c₁ : EngCache σ m :=
          { (c.publish w.key w.slot w.got w.pad) with prefetchReads := c.prefetchReads + 1 } with hc₁
        have hb₁ : Batch c₁ ws := Batch.congr hb rfl rfl rfl rfl rfl
        obtain ⟨n, hasked, hadm, hpre, hbytes, hlog⟩ := publishAll_books ws (ok + 1) hb₁
        obtain ⟨hrange, habs⟩ := h.absent w List.mem_cons_self
        have hsame : admitted c₁ = admitted c + 1 := by
          have hpub : admitted c₁ = admitted (c.publish w.key w.slot w.got w.pad) :=
            admitted_congr rfl rfl rfl
          rw [hpub, publish_admitted w.slot w.got w.pad hrange habs]
        refine ⟨n + 1, hasked, by rw [hadm, hsame]; omega, ?_, ?_, hlog⟩
        · rw [hpre]
          show c.prefetchReads + 1 + n = _
          omega
        · rw [hbytes, harr]
          show c.bytesRead + w.got + _ = _
          omega

/-- **A batch** moves the books by what it published, and counts as many prefetches. -/
theorem engCacheGetMany_posted (h : Quiet c) (keys : List Nat) :
    ∃ n, Posted c (engCacheGetMany c keys).1 n ∧
      (engCacheGetMany c keys).1.prefetchReads = c.prefetchReads + n := by
  obtain ⟨hb, -⟩ := reserve_batch keys h
  obtain ⟨hres, hpre₁⟩ := reserve_posted keys h
  unfold engCacheGetMany
  simp only
  split_ifs with hnil
  · exact ⟨0, hres, hpre₁⟩
  · have hperm := issueOrder_perm (reserve c keys []).1 (reserve c keys []).2
    set ws := issueOrder (reserve c keys []).1 (reserve c keys []).2
    have hb₁ := hb.perm (hperm.map Work.slot) (hperm.map Work.key)
    obtain ⟨hasked, hslotOf, hcfg, hev, hbytes, hpre₂, hlog⟩ := loadAll_books ws (reserve c keys []).1
    have hb₂ := loadAll_batch hb₁
    obtain ⟨n, hasked', hadm, hpre₃, hbytes', hlog'⟩ := publishAll_books _ 0 hb₂
    refine ⟨n, ⟨(hasked'.trans hasked).trans hres.asked, ?_, ?_⟩, ?_⟩
    · rw [hadm, admitted_congr hslotOf hcfg hev, hres.admitted, Nat.add_zero]
    · rw [hbytes', hlog', hlog, hbytes, ← hres.bytes]
      omega
    · rw [hpre₃, hpre₂, hpre₁]

/-! ## Whole runs -/

/-- The key a call asks for, where it is in range. -/
def Op.asks (cfg : EngCacheCfg) : Op → Option Nat
  | .get key => if (key : Int) < cfg.nkeys then some key else none
  | _ => none

/-- 1 for a request that is in range and is not served. -/
def failedBy (c : EngCache σ m) : Op → Nat
  | .get key => if c.inRange key ∧ (engCacheGet c key).2.isNone then 1 else 0
  | _ => 0

/-- How many requests of a run failed. -/
def failedGets : EngCache σ m → List Op → Nat
  | _, [] => 0
  | c, op :: ops => failedBy c op + failedGets (applyOp c op) ops

/-- **The balance**, when `keys` have been asked for and `failed` of those requests failed. -/
structure Stats (c : EngCache σ m) (keys : List Nat) (failed : Nat) : Prop where
  served : c.requests = c.hits + c.misses
  trace : c.trace = keys
  requests : c.requests = keys.length
  hist : ∑ k ∈ Finset.range c.cfg.nkeys.toNat, c.hist k = c.requests
  resident : admitted c + failed = c.misses + c.prefetchReads
  bytes : c.bytesRead = publishedBytes c.log

theorem engCacheGet_stats (h : Quiet c) {keys : List Nat} {failed : Nat} (hs : Stats c keys failed)
    (hhist : c.cfg.wantHist = true) (htrace : c.cfg.wantTrace = true) {key : Nat} (hrange : c.inRange key) :
    Stats (engCacheGet c key).1 (keys ++ [key]) (failed + failedBy c (.get key)) := by
  have hq : Quiet (record c key) := Batch.congr h rfl rfl rfl rfl rfl
  have hserved : Booked (record c key) (admitKey (record c key) key).1
      (admitKey (record c key) key).2.isSome := admitKey_booked hq hrange
  have hadm : admitted (record c key) = admitted c := admitted_congr rfl rfl rfl
  have hget : engCacheGet c key = ((admitKey (record c key) key).1,
      (admitKey (record c key) key).2.map (admitKey (record c key) key).1.entryOf) := by
    unfold engCacheGet
    rw [if_pos hrange]
  have hfailed : failedBy c (.get key) = if (admitKey (record c key) key).2.isSome then 0 else 1 := by
    simp only [failedBy, hget]
    cases (admitKey (record c key) key).2 <;> simp [hrange]
  obtain ⟨new, hok⟩ : ∃ new, CallOk (record c key) new (admitKey (record c key) key).1 :=
    admitKey_ok hq hrange
  have hcfg : (admitKey (record c key) key).1.cfg = c.cfg := hok.cfg
  have htr : (record c key).trace = c.trace ++ [key] := by simp [record, htrace]
  have hh : (record c key).hist = Function.update c.hist key (c.hist key + 1) := by simp [record, hhist]
  rw [hget, hfailed]
  refine ⟨?_, ?_, ?_, ?_, ?_, ?_⟩
  · show (admitKey (record c key) key).1.requests = _
    rw [hserved.requests, hserved.counted]
    show c.requests + 1 = c.hits + c.misses + 1
    rw [hs.served]
  · show (admitKey (record c key) key).1.trace = _
    rw [hserved.trace, htr, hs.trace]
  · show (admitKey (record c key) key).1.requests = _
    rw [hserved.requests, List.length_append]
    show c.requests + 1 = _
    rw [hs.requests]
    rfl
  · -- the histogram grows at one key, by one
    show ∑ k ∈ Finset.range (admitKey (record c key) key).1.cfg.nkeys.toNat,
      (admitKey (record c key) key).1.hist k = (admitKey (record c key) key).1.requests
    rw [hserved.requests, hserved.hist, hcfg, hh,
      Finset.sum_update_of_mem (inRange_iff_mem.mp hrange)]
    have hsum := Finset.add_sum_erase _ c.hist (inRange_iff_mem.mp hrange)
    rw [Finset.sdiff_singleton_eq_erase]
    show _ = c.requests + 1
    have hbal := hs.hist
    omega
  · show admitted (admitKey (record c key) key).1 + _ = (admitKey (record c key) key).1.misses +
      (admitKey (record c key) key).1.prefetchReads
    have hmiss : (record c key).misses = c.misses := rfl
    have hpre : (record c key).prefetchReads = c.prefetchReads := rfl
    have hbal := hserved.admitted
    have hold := hs.resident
    rw [hserved.prefetch, hpre]
    rw [hadm, hmiss] at hbal
    omega
  · have hbal := hserved.bytes
    have hold := hs.bytes
    have hzero : (record c key).bytesRead - publishedBytes (record c key).log = 0 := by
      show c.bytesRead - publishedBytes c.log = 0
      omega
    show (admitKey (record c key) key).1.bytesRead = publishedBytes (admitKey (record c key) key).1.log
    omega

/-- **Every call keeps the balance.** -/
theorem applyOp_stats (h : Quiet c) {keys : List Nat} {failed : Nat} (hs : Stats c keys failed)
    (hhist : c.cfg.wantHist = true) (htrace : c.cfg.wantTrace = true) {op : Op} (hop : op ≠ .resetStats) :
    Stats (applyOp c op) (keys ++ (op.asks c.cfg).toList) (failed + failedBy c op) := by
  -- a call that asks for nothing leaves every counter of the balance alone
  have hkeep : ∀ c' : EngCache σ m, c'.asked = c.asked → c'.cfg = c.cfg → admitted c' = admitted c →
      c'.prefetchReads = c.prefetchReads → c'.bytesRead = c.bytesRead → c'.log = c.log →
      Stats c' (keys ++ []) (failed + 0) := by
    intro c' hasked hcfg hadm hpre hbytes hlog
    simp only [EngCache.asked, Prod.mk.injEq] at hasked
    obtain ⟨hhits, hmisses, hreq, hhist', htrace'⟩ := hasked
    rw [List.append_nil, Nat.add_zero]
    exact ⟨by rw [hreq, hhits, hmisses]; exact hs.served, htrace'.trans hs.trace, hreq.trans hs.requests,
      by rw [hcfg, hhist', hreq]; exact hs.hist, by rw [hadm, hmisses, hpre]; exact hs.resident,
      by rw [hbytes, hlog]; exact hs.bytes⟩
  cases op with
  | get key =>
      by_cases hrange : c.inRange key
      · have hasks : (Op.get key).asks c.cfg = some key := if_pos hrange
        rw [hasks]
        exact engCacheGet_stats h hs hhist htrace hrange
      · have hasks : (Op.get key).asks c.cfg = none := if_neg hrange
        have hnot : failedBy c (.get key) = 0 := by simp [failedBy, hrange]
        have hsame : applyOp c (.get key) = c := by simp [applyOp, engCacheGet, hrange]
        rw [hasks, hnot, hsame]
        exact hkeep c rfl rfl rfl rfl rfl rfl
  | getMany ks =>
      obtain ⟨n, hpost, hpre⟩ := engCacheGetMany_posted h ks
      obtain ⟨new, hok⟩ := engCacheGetMany_ok h ks
      have hasked := hpost.asked
      simp only [EngCache.asked, Prod.mk.injEq] at hasked
      obtain ⟨hhits, hmisses, hreq, hhist', htrace'⟩ := hasked
      have hnone : (Op.getMany ks).asks c.cfg = none := rfl
      rw [hnone, Option.toList_none, List.append_nil]
      show Stats (engCacheGetMany c ks).1 keys (failed + 0)
      refine ⟨by rw [hreq, hhits, hmisses]; exact hs.served, htrace'.trans hs.trace,
        hreq.trans hs.requests, by rw [hok.cfg, hhist', hreq]; exact hs.hist, ?_, ?_⟩
      · rw [hpost.admitted, hmisses, hpre]
        -- a batch books nothing as asked: its reads are prefetches, and the slots it fills are counted there
        have hold := hs.resident
        omega
      · have hbal := hpost.bytes
        have hold := hs.bytes
        omega
  | peek key => exact hkeep c rfl rfl rfl rfl rfl rfl
  | pin key pin =>
      have hsame : (engCachePin c key pin).1.asked = c.asked ∧ (engCachePin c key pin).1.cfg = c.cfg ∧
          admitted (engCachePin c key pin).1 = admitted c ∧
          (engCachePin c key pin).1.prefetchReads = c.prefetchReads ∧
          (engCachePin c key pin).1.bytesRead = c.bytesRead ∧ (engCachePin c key pin).1.log = c.log := by
        unfold engCachePin
        split_ifs
        · cases c.slotOf key <;> exact ⟨rfl, rfl, rfl, rfl, rfl, rfl⟩
        · exact ⟨rfl, rfl, rfl, rfl, rfl, rfl⟩
      obtain ⟨hasked, hcfg, hadm, hpre, hbytes, hlog⟩ := hsame
      exact hkeep _ hasked hcfg hadm hpre hbytes hlog
  | resetStats => exact absurd rfl hop

/-- A run of calls keeps the index and the configuration, and the balance. -/
theorem run_stats : ∀ (ops : List Op) {c : EngCache σ m} {keys : List Nat} {failed : Nat}, Quiet c →
    Stats c keys failed → c.cfg.wantHist = true → c.cfg.wantTrace = true → .resetStats ∉ ops →
    (ops.foldl applyOp c).cfg = c.cfg ∧
      Stats (ops.foldl applyOp c) (keys ++ ops.filterMap (Op.asks c.cfg)) (failed + failedGets c ops)
  | [], c, keys, failed, _, hs, _, _, _ => by
      rw [List.filterMap_nil, List.append_nil]
      exact ⟨rfl, hs⟩
  | op :: ops, c, keys, failed, h, hs, hhist, htrace, hreset => by
      rw [List.mem_cons, not_or] at hreset
      obtain ⟨hop, hreset'⟩ := hreset
      have hcfg := applyOp_cfg h op
      have hs' := applyOp_stats h hs hhist htrace (Ne.symm hop)
      obtain ⟨hcfg', hrun⟩ := run_stats ops (applyOp_ok h op).1 hs' (by rw [hcfg]; exact hhist)
        (by rw [hcfg]; exact htrace) hreset'
      refine ⟨hcfg'.trans hcfg, ?_⟩
      rw [hcfg, List.append_assoc, Nat.add_assoc] at hrun
      have hasks : (op :: ops).filterMap (Op.asks c.cfg) =
          (op.asks c.cfg).toList ++ ops.filterMap (Op.asks c.cfg) := by
        rw [List.filterMap_cons]
        cases op.asks c.cfg <;> rfl
      rw [hasks]
      exact hrun

/-- **The statistics are conserved**: after any run of gets, batches, peeks and pins, whatever the
source refuses or cuts short. -/
theorem stats_conserved {cfg : EngCacheCfg} {src : EngCacheSrc σ m} {ctx : σ} {arena : Int → UInt8}
    {c₀ : EngCache σ m} (hc : engCacheCreate cfg src ctx arena = some c₀) (hhist : cfg.wantHist = true)
    (htrace : cfg.wantTrace = true) (ops : List Op) (hreset : .resetStats ∉ ops) :
    let c := ops.foldl applyOp c₀
    c.requests = c.hits + c.misses ∧ c.requests = c.trace.length ∧
      c.requests = ∑ k ∈ Finset.range cfg.nkeys.toNat, c.hist k ∧
      ((residents c).card : Int) =
        c.misses - failedGets c₀ ops + c.prefetchReads - c.evictions ∧
      c.bytesRead = publishedBytes c.log ∧
      c.trace = ops.filterMap (Op.asks cfg) := by
  have hcfg : c₀.cfg = cfg := by
    unfold engCacheCreate at hc
    simp only at hc
    split_ifs at hc
    obtain rfl := Option.some.inj hc
    rfl
  have hfresh : Stats c₀ [] 0 := by
    unfold engCacheCreate at hc
    simp only at hc
    split_ifs at hc
    obtain rfl := Option.some.inj hc
    refine ⟨rfl, rfl, rfl, by simp, ?_, rfl⟩
    simp [admitted, residents]
  obtain ⟨hcfg', hs⟩ := run_stats ops (engCacheCreate_quiet hc) hfresh (by rw [hcfg]; exact hhist)
    (by rw [hcfg]; exact htrace) hreset
  simp only [List.nil_append, Nat.zero_add, hcfg] at hs
  have htr := hs.trace
  have hbal := hs.resident
  have hsum := hs.hist
  rw [hcfg', hcfg] at hsum
  unfold admitted at hbal
  refine ⟨hs.served, by rw [htr]; exact hs.requests, hsum.symm, by omega, hs.bytes, htr⟩

/-- Two slots; key 1 is refused in a batch and on its own, key 7 is out of range. -/
theorem refused_run_conserved :
    ∃ c₀ c : EngCache Unit 1, engCacheCreate (tinyCfg 2) refusesOne () (fun _ => 0) = some c₀ ∧
      c = [Op.get 0, .getMany [1, 2], .get 1, .peek 2, .pin 0 true, .get 7, .get 0].foldl applyOp c₀ ∧
      c.requests = 3 ∧ c.trace = [0, 1, 0] ∧ c.misses = 2 ∧ c.prefetchReads = 1 ∧
      ((residents c).card : Int) = 2 := by
  obtain ⟨c₀, hc₀⟩ := Option.isSome_iff_exists.mp
    (by decide : (engCacheCreate (tinyCfg 2) refusesOne () (fun _ => 0)).isSome)
  refine ⟨c₀, _, hc₀, rfl, ?_⟩
  obtain ⟨-, hlen, -, hres, -, htr⟩ := stats_conserved hc₀ rfl rfl
    [.get 0, .getMany [1, 2], .get 1, .peek 2, .pin 0 true, .get 7, .get 0] (by decide)
  have hcounts : (engCacheCreate (tinyCfg 2) refusesOne () (fun _ => 0)).map (fun c₀ =>
      let ops := [Op.get 0, .getMany [1, 2], .get 1, .peek 2, .pin 0 true, .get 7, .get 0]
      ((ops.foldl applyOp c₀).misses, (ops.foldl applyOp c₀).prefetchReads,
        (ops.foldl applyOp c₀).evictions, failedGets c₀ ops)) = some (2, 1, 0, 1) := by
    decide +kernel
  rw [hc₀] at hcounts
  simp only [Option.map_some, Option.some.injEq, Prod.mk.injEq] at hcounts
  obtain ⟨hmisses, hpre, hev, hfailed⟩ := hcounts
  have hasks : [Op.get 0, .getMany [1, 2], .get 1, .peek 2, .pin 0 true, .get 7, .get 0].filterMap
      (Op.asks (tinyCfg 2)) = [0, 1, 0] := by decide
  rw [hasks] at htr
  refine ⟨by rw [hlen, htr]; rfl, htr, hmisses, hpre, ?_⟩
  rw [hres, hmisses, hpre, hev, hfailed]
  rfl

end LlmEngine.Storage.Cache
