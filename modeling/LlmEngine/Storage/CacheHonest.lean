/-
# LlmEngine.Storage.CacheHonest — what the log holds is what the source said.

An entry is genuine when the log has a `describe` and a `load` of its key that produced it
(`CacheContent`).  Here the log is tied to the source: along every run each event in it is an answer the
source gave (`Honest`).  For a source that answers a key alike at every call, a genuine entry is then the
source's own.

The other half is that a request is served at all.  No request touches a pin, so in a cache that nobody
pins there is always a victim, and a key the source describes and delivers is served from every state
(`engCacheGet_serves`).

* `Answered` is what every piece of a call does to the log and to what the answers depend on, the source and the
  sizes; pieces follow one another (`Answered.trans`), so there is a lemma for each and one for the calls
  (`applyOp_honest`).
* `Supplies` says of a key that the source describes it within a slot and delivers it, whatever its context.
* A batch of keys that are supplied is `Clean` (`clean_getMany`): none of them is refused over a victim's
  metadata.  This is how the condition of `CacheContent` is met by a source one knows.
-/
import LlmEngine.Storage.CacheBatch
import LlmEngine.Storage.CacheContent

namespace LlmEngine.Storage.Cache

open LlmEngine.Storage LlmEngine.Lib EngCache

variable {σ : Type} {m : Nat} {c c' c'' : EngCache σ m}

/-! ## The log -/

/-- The event is an answer of the source, in some state, to a call of the cache. -/
def EngCacheSrc.Answers (src : EngCacheSrc σ m) (cap : Int) : Event m → Prop
  | .describe key rc nbytes wrote => ∃ ctx given, (src.describe ctx key given).rc = rc ∧
      (src.describe ctx key given).nbytes = nbytes ∧ (src.describe ctx key given).wrote = wrote
  | .load key _ given _ got off buf => ∃ ctx before, (src.load ctx key given before cap).got = got ∧
      (src.load ctx key given before cap).payloadOff = off ∧ (src.load ctx key given before cap).buf = buf

/-- Every event of the log is an answer of the source. -/
def Honest (c : EngCache σ m) : Prop := ∀ e ∈ c.log, c.src.Answers c.stride e

/-- `c'` comes after `c`: the same source and slots, the pins untouched, and all that was logged in
between are answers of the source. -/
structure Answered (c c' : EngCache σ m) : Prop where
  src : c'.src = c.src
  cfg : c'.cfg = c.cfg
  stride : c'.stride = c.stride
  nslot : c'.nslot = c.nslot
  pinned : c'.pinned = c.pinned
  log : ∃ new, c'.log = new ++ c.log ∧ ∀ e ∈ new, c.src.Answers c.stride e

theorem Answered.trans (h : Answered c c') (h' : Answered c' c'') : Answered c c'' where
  src := h'.src.trans h.src
  cfg := h'.cfg.trans h.cfg
  stride := h'.stride.trans h.stride
  nslot := h'.nslot.trans h.nslot
  pinned := h'.pinned.trans h.pinned
  log := by
    obtain ⟨new, hlog, hnew⟩ := h.log
    obtain ⟨new', hlog', hnew'⟩ := h'.log
    refine ⟨new' ++ new, by rw [hlog', hlog, List.append_assoc], fun e he => ?_⟩
    rcases List.mem_append.mp he with he | he
    · have hans := hnew' e he
      rwa [h.src, h.stride] at hans
    · exact hnew e he

/-- A step that calls nothing. -/
theorem Answered.of_log (hsrc : c'.src = c.src) (hcfg : c'.cfg = c.cfg) (hstride : c'.stride = c.stride)
    (hnslot : c'.nslot = c.nslot) (hpinned : c'.pinned = c.pinned) (hlog : c'.log = c.log) : Answered c c' :=
  ⟨hsrc, hcfg, hstride, hnslot, hpinned, [], hlog, fun _ he => absurd he List.not_mem_nil⟩

theorem Answered.refl (c : EngCache σ m) : Answered c c := .of_log rfl rfl rfl rfl rfl rfl

theorem Answered.honest (h : Answered c c') (hc : Honest c) : Honest c' := by
  obtain ⟨new, hlog, hnew⟩ := h.log
  intro e he
  rw [hlog] at he
  rw [h.src, h.stride]
  rcases List.mem_append.mp he with he | he
  · exact hnew e he
  · exact hc e he

theorem described_answered (c : EngCache σ m) (key : Nat) (given : Vector UInt8 m) :
    Answered c (c.described key (c.src.describe c.ctx key given)) where
  src := rfl
  cfg := rfl
  stride := rfl
  nslot := rfl
  pinned := rfl
  log := by
    refine ⟨[_], rfl, fun e he => ?_⟩
    obtain rfl := List.mem_singleton.mp he
    exact ⟨c.ctx, given, rfl, rfl, rfl⟩

theorem loaded_answered (c : EngCache σ m) (key slot : Nat) (need : Int) : Answered c (c.loaded key slot need) where
  src := rfl
  cfg := rfl
  stride := rfl
  nslot := rfl
  pinned := rfl
  log := by
    refine ⟨[_], rfl, fun e he => ?_⟩
    obtain rfl := List.mem_singleton.mp he
    exact ⟨c.ctx, _, rfl, rfl, rfl⟩

/-! ## Calls -/

theorem fill_answered (c : EngCache σ m) (key slot : Nat) (need : Int) (wrote : Vector UInt8 m) :
    Answered c (fill c key slot need wrote).1 := by
  have hinstalled : Answered c (c.install slot wrote) := .of_log rfl rfl rfl rfl rfl rfl
  have hread := hinstalled.trans (loaded_answered (c.install slot wrote) key slot need)
  by_cases hgot : ((c.install slot wrote).load key slot).got = need
  · rw [fill_full hgot]
    exact hread.trans (.of_log rfl rfl rfl rfl rfl rfl)
  · rw [fill_short hgot]
    exact hread.trans (.of_log rfl rfl rfl rfl rfl rfl)

theorem admitDescribed_answered (c : EngCache σ m) (key : Nat) : Answered c (admitDescribed c key).1 := by
  have hmiss : Answered c { c with misses := c.misses + 1 } := .of_log rfl rfl rfl rfl rfl rfl
  exact hmiss.trans (described_answered { c with misses := c.misses + 1 } key (Vector.replicate m 0))

theorem admitKey_answered (c : EngCache σ m) (key : Nat) : Answered c (admitKey c key).1 := by
  rcases admitKey_cases c key with ⟨slot, -, heq⟩ | ⟨-, -, heq⟩ | ⟨-, -, slot, -, heq⟩
  · rw [heq]
    exact .of_log rfl rfl rfl rfl rfl rfl
  · rw [heq]
    exact admitDescribed_answered c key
  · rw [heq]
    exact (admitDescribed_answered c key).trans (fill_answered _ _ _ _ _)

theorem engCacheGet_answered (c : EngCache σ m) (key : Nat) : Answered c (engCacheGet c key).1 := by
  unfold engCacheGet
  split_ifs
  · have hrec : Answered c (record c key) := .of_log rfl rfl rfl rfl rfl rfl
    exact hrec.trans (admitKey_answered _ key)
  · exact .refl c

theorem describedInto_answered (c : EngCache σ m) (k slot : Nat) : Answered c (describedInto c k slot) :=
  (described_answered c k (c.slotMeta slot)).trans (.of_log rfl rfl rfl rfl rfl rfl)

theorem reserve_answered (ks : List Nat) (c : EngCache σ m) (w : List Work) : Answered c (reserve c ks w).1 := by
  induction ks generalizing c w with
  | nil => exact .refl c
  | cons k ks ih =>
      unfold reserve
      split_ifs
      · exact .refl c
      · rcases reserveOne_cases c w k with heq | ⟨-, heq⟩ | ⟨slot, -, -, -, -, ⟨-, heq⟩ | ⟨-, -, heq⟩⟩
        · rw [heq]
          exact ih c w
        · rw [heq]
          exact .refl c
        · rw [heq]
          exact (describedInto_answered c k slot).trans (ih _ w)
        · rw [heq]
          have htaken : Answered (describedInto c k slot) (reserveSlot (describedInto c k slot) k slot
              (c.src.describe c.ctx k (c.slotMeta slot)).nbytes).1 := .of_log rfl rfl rfl rfl rfl rfl
          exact ((describedInto_answered c k slot).trans htaken).trans (ih _ _)

theorem loadAll_answered (ws : List Work) (c : EngCache σ m) : Answered c (loadAll c ws).1 := by
  induction ws generalizing c with
  | nil => exact .refl c
  | cons w ws ih => exact (loaded_answered c w.key w.slot w.need).trans (ih _)

theorem publishAll_answered (ws : List Work) (c : EngCache σ m) (ok : Nat) : Answered c (publishAll c ws ok).1 := by
  induction ws generalizing c ok with
  | nil => exact .refl c
  | cons w ws ih =>
      unfold publishAll
      split_ifs
      · have hempty : Answered c (c.markEmpty w.slot) := .of_log rfl rfl rfl rfl rfl rfl
        exact hempty.trans (ih _ ok)
      · have hpublished : Answered c { (c.publish w.key w.slot w.got w.pad) with
            prefetchReads := c.prefetchReads + 1 } := .of_log rfl rfl rfl rfl rfl rfl
        exact hpublished.trans (ih _ (ok + 1))

theorem engCacheGetMany_answered (c : EngCache σ m) (keys : List Nat) : Answered c (engCacheGetMany c keys).1 := by
  rw [engCacheGetMany_eq]
  exact ((reserve_answered keys c []).trans (loadAll_answered _ _)).trans (publishAll_answered _ _ 0)

/-- **Along every run the log is honest**, whatever the source. -/
theorem applyOp_honest (hc : Honest c) (op : Op) : Honest (applyOp c op) := by
  cases op with
  | get key => exact (engCacheGet_answered c key).honest hc
  | getMany keys => exact (engCacheGetMany_answered c keys).honest hc
  | peek key => exact hc
  | pin key pin =>
      show Honest (engCachePin c key pin).1
      unfold engCachePin
      split_ifs
      · cases c.slotOf key with
        | none => exact hc
        | some slot => exact hc
      · exact hc
  | resetStats => exact hc

theorem engCacheCreate_honest {cfg : EngCacheCfg} {src : EngCacheSrc σ m} {ctx : σ} {arena : Int → UInt8}
    (h : engCacheCreate cfg src ctx arena = some c) : Honest c ∧ c.src = src ∧ c.cfg = cfg ∧ c.pinned = fun _ => false := by
  unfold engCacheCreate at h
  simp only at h
  split_ifs at h
  obtain rfl := Option.some.inj h
  exact ⟨fun _ he => absurd he List.not_mem_nil, rfl, rfl, rfl⟩

/-! ## A request is served -/

/-- The source describes `key` with a size that fits a slot and delivers it in full, in whatever state it
is asked and whatever the buffers hold. -/
structure Supplies (c : EngCache σ m) (key : Nat) : Prop where
  described : ∀ ctx given, (c.src.describe ctx key given).rc = 0
  fits : ∀ ctx given, (c.src.describe ctx key given).nbytes ≤ c.cfg.slotBytes
  delivered : ∀ ctx given ctx' buf,
    (c.src.load ctx' key (c.src.describe ctx key given).wrote buf c.stride).got = (c.src.describe ctx key given).nbytes

theorem Supplies.of_answered {key : Nat} (h : Supplies c key) (ha : Answered c c') : Supplies c' key := by
  obtain ⟨hdesc, hfits, hdel⟩ := h
  rw [← ha.src, ← ha.cfg] at hfits
  rw [← ha.src] at hdesc
  rw [← ha.src, ← ha.stride] at hdel
  exact ⟨hdesc, hfits, hdel⟩

theorem Supplies.not_refused {key : Nat} (h : Supplies c key) (ctx : σ) (given : Vector UInt8 m) :
    ¬ refused c (c.src.describe ctx key given) := by
  rintro (hrc | hbig)
  · exact hrc (h.described ctx given)
  · exact absurd (h.fits ctx given) (not_le.mpr hbig)

/-- The load of a request gets what was described. -/
theorem Supplies.got {key : Nat} (h : Supplies c key) (slot : Nat) :
    (((admitDescribed (record c key) key).1.install slot (admitDescribed (record c key) key).2.wrote).load key slot).got =
      (admitDescribed (record c key) key).2.nbytes := by
  have hwrote : ((admitDescribed (record c key) key).1.install slot (admitDescribed (record c key) key).2.wrote).slotMeta
      slot = (admitDescribed (record c key) key).2.wrote := Function.update_self ..
  unfold EngCache.load
  rw [hwrote]
  exact h.delivered _ _ _ _

/-- A slot can be given away. -/
def HasVictim (c : EngCache σ m) : Prop := ∃ t < c.nslot, Free c t

/-- **A key the source supplies is served**, from every state in which a slot can be given away. -/
theorem engCacheGet_serves {key : Nat} (hrange : c.inRange key) (hroom : HasVictim c) (hsup : Supplies c key) :
    (engCacheGet c key).2.isSome = true := by
  unfold engCacheGet
  rw [if_pos hrange, Option.isSome_map]
  have hsup' : Supplies (record c key) key := ⟨hsup.described, hsup.fits, hsup.delivered⟩
  rcases admitKey_cases (record c key) key with ⟨slot, -, heq⟩ | ⟨-, hno, -⟩ | ⟨-, -, slot, -, heq⟩
  · rw [heq]
    rfl
  · rcases hno with href | hnone
    · exact absurd href (hsup'.not_refused _ _)
    · -- describing the key has not touched the slots
      have hroom' : HasVictim (admitDescribed (record c key) key).1 := hroom
      obtain ⟨t, ht, hfree⟩ := hroom'
      exact absurd hfree (pickVictim_none hnone ht)
  · rw [heq]
    rw [fill_full (hsup.got slot)]
    rfl

/-- Serving it adds no failure to the log. -/
theorem engCacheGet_succeeds {key : Nat} (hsup : Supplies c key) {slotBytes : Int} (hslot : c.cfg.slotBytes = slotBytes)
    (hlog : ∀ e ∈ c.log, e.succeeded slotBytes) : ∀ e ∈ (engCacheGet c key).1.log, e.succeeded slotBytes := by
  have hdesc : ∀ e ∈ (admitDescribed (record c key) key).1.log, e.succeeded slotBytes := by
    intro e he
    rcases List.mem_cons.mp he with rfl | he
    · exact ⟨hsup.described _ _, hslot ▸ hsup.fits _ _⟩
    · exact hlog e he
  unfold engCacheGet
  split_ifs
  · rcases admitKey_cases (record c key) key with ⟨slot, -, heq⟩ | ⟨-, -, heq⟩ | ⟨-, -, slot, -, heq⟩
    · rw [heq]
      exact hlog
    · rw [heq]
      exact hdesc
    · rw [heq]
      rw [fill_full (hsup.got slot)]
      intro e he
      rcases List.mem_cons.mp he with rfl | he
      · exact hsup.got slot
      · exact hdesc e he
  · exact hlog

/-! ## Clean calls -/

/-- Whatever it delivers, the source reports an offset that survives `(int32_t)`. -/
def EngCacheSrc.Narrow (src : EngCacheSrc σ m) : Prop :=
  ∀ ctx key given buf cap, toInt32 (src.load ctx key given buf cap).payloadOff = (src.load ctx key given buf cap).payloadOff

/-- A single request to such a source is clean. -/
theorem clean_get (hsrc : c.src.Narrow) (key : Nat) : Clean c (.get key) :=
  fun _ _ _ _ _ _ => hsrc ..

theorem loadsClean (ws : List Work) (hsrc : c.src.Narrow) : LoadsClean c ws := by
  induction ws generalizing c with
  | nil => exact trivial
  | cons w ws ih => exact ⟨fun _ => hsrc .., ih (c := c.loaded w.key w.slot w.need) hsrc⟩

theorem reserveClean (ks : List Nat) (w : List Work) (hsup : ∀ k ∈ ks, c.inRange k → Supplies c k) :
    ReserveClean c ks w := by
  induction ks generalizing c w with
  | nil => exact trivial
  | cons k ks ih =>
      obtain ⟨hk, hks⟩ := List.forall_mem_cons.mp hsup
      have hnext : ∀ {c' : EngCache σ m}, Answered c c' → ∀ j ∈ ks, c'.inRange j → Supplies c' j := by
        intro c' ha j hj hrange
        refine (hks j hj ?_).of_answered ha
        unfold EngCache.inRange at hrange ⊢
        rwa [ha.cfg] at hrange
      unfold ReserveClean
      intro _
      refine ⟨fun hrange _ _ slot old _ _ href => absurd href ((hk hrange).not_refused _ _), ?_⟩
      rcases reserveOne_cases c w k with heq | ⟨-, heq⟩ | ⟨slot, -, -, -, -, ⟨-, heq⟩ | ⟨-, -, heq⟩⟩
      · rw [heq]
        exact ih w hks
      · rw [heq]
        exact trivial
      · rw [heq]
        exact ih w (hnext (describedInto_answered c k slot))
      · rw [heq]
        have htaken : Answered (describedInto c k slot) (reserveSlot (describedInto c k slot) k slot
            (c.src.describe c.ctx k (c.slotMeta slot)).nbytes).1 := .of_log rfl rfl rfl rfl rfl rfl
        exact ih _ (hnext ((describedInto_answered c k slot).trans htaken))

/-- **A batch of keys the source supplies is clean**: none is refused over a victim's metadata. -/
theorem clean_getMany {keys : List Nat} (hsrc : c.src.Narrow) (hsup : ∀ k ∈ keys, c.inRange k → Supplies c k) :
    Clean c (.getMany keys) := by
  refine ⟨reserveClean keys [] hsup, loadsClean _ ?_⟩
  rw [(reserve_answered keys c []).src]
  exact hsrc

end LlmEngine.Storage.Cache
