/-
# LlmEngine.Storage.CacheIndex — the index of the cache stays a bijection.

`slot_of` and `key_of` are mutually inverse between calls, no slot is left INFLIGHT, and a pinned
slot holds a key.  Inside a call neither is true: `admit` evicts a key before it overwrites the
slot's own entry, and a batch holds several INFLIGHT slots at once.  `Index` is what survives all
of it, `Batch` adds that the INFLIGHT slots are exactly those of the batch's work list (so a slot
is handed out once), and `Quiet` is `Batch` with nothing in flight.

`Frame` is the other half: what a call may not touch.  It says that a pinned slot keeps its key and
its bytes, and which source calls were made.

The small changes come first, on the two maps alone (`Inverse.vacate`, `Inverse.assign`).  Then the ways out of
a request and of one round of the reserve loop are derived once, guards included (`admitKey_cases`,
`reserveOne_cases`); everything else about the cache goes by these two.  `CallOk` is what a call comes to, its
events with it, and the theorem about runs is the invariant rule applied to it.

The source is arbitrary throughout: it may refuse after writing, come up short and change its mind.
-/
import LlmEngine.Storage.Cache
import Mathlib.Data.List.Nodup

namespace LlmEngine.Storage.Cache

open LlmEngine.Storage LlmEngine.Lib EngCache

variable {σ : Type} {m : Nat} {c c' c'' : EngCache σ m}

/-! ## Inverse partial maps -/

/-- `slot_of[k] = s` iff `key_of[s] = k`. -/
def Inverse (slotOf : Nat → Option Nat) (keyOf : Nat → SlotState) : Prop :=
  ∀ k s, slotOf k = some s ↔ keyOf s = .key k

/-- Forget the key of a slot, whatever non-key state the slot is left in. -/
theorem Inverse.vacate {slotOf : Nat → Option Nat} {keyOf : Nat → SlotState}
    (h : Inverse slotOf keyOf) (slot : Nat) {x : SlotState} (hx : ∀ k, x ≠ .key k) :
    Inverse (fun k => if keyOf slot = .key k then none else slotOf k) (Function.update keyOf slot x) := by
  intro k s
  by_cases hs : s = slot
  · subst hs
    rw [Function.update_self]
    refine ⟨fun hk => ?_, fun hk => absurd hk (hx k)⟩
    simp only at hk
    split_ifs at hk with hold
    exact absurd ((h k s).mp hk) hold
  · rw [Function.update_of_ne hs]
    by_cases hold : keyOf slot = .key k
    · refine ⟨fun hk => by simp [hold] at hk, fun hk => ?_⟩
      have heq := ((h k s).mpr hk).symm.trans ((h k slot).mpr hold)
      exact absurd (Option.some.inj heq) hs
    · simp only [if_neg hold]
      exact h k s

/-- Register an absent key in a slot that holds none. -/
theorem Inverse.assign {slotOf : Nat → Option Nat} {keyOf : Nat → SlotState}
    (h : Inverse slotOf keyOf) {key slot : Nat} (habs : slotOf key = none)
    (hfree : ∀ k, keyOf slot ≠ .key k) :
    Inverse (Function.update slotOf key (some slot)) (Function.update keyOf slot (.key key)) := by
  intro k s
  by_cases hk : k = key
  · subst hk
    by_cases hs : s = slot
    · subst hs
      simp
    · rw [Function.update_self, Function.update_of_ne hs]
      refine ⟨fun heq => absurd (Option.some.inj heq).symm hs, fun hkey => ?_⟩
      rw [(h k s).mpr hkey] at habs
      cases habs
  · rw [Function.update_of_ne hk]
    by_cases hs : s = slot
    · subst hs
      rw [Function.update_self]
      refine ⟨fun heq => absurd ((h k s).mp heq) (hfree k), fun heq => ?_⟩
      exact absurd (SlotState.key.inj heq).symm hk
    · rw [Function.update_of_ne hs]
      exact h k s

theorem evict_slotOf (c : EngCache σ m) (slot k : Nat) :
    (c.evict slot).slotOf k = if c.keyOf slot = .key k then none else c.slotOf k := by
  unfold evict
  cases hold : c.keyOf slot with
  | empty => simp
  | inflight => simp
  | key old =>
      by_cases hk : k = old
      · subst hk
        simp
      · simp [Function.update_of_ne hk, Ne.symm hk]

/-- An address belongs to one slot only. -/
theorem slotBase_unique {s s' : Nat} {a : Int} (h : c.slotBase s ≤ a ∧ a < c.slotBase s + c.stride)
    (h' : c.slotBase s' ≤ a ∧ a < c.slotBase s' + c.stride) : s = s' := by
  unfold slotBase at h h'
  have hpos : 0 < c.stride := by omega
  have hdiv : ∀ t : Nat, t * c.stride ≤ a ∧ a < t * c.stride + c.stride → a / c.stride = t := by
    intro t ht
    rw [Int.ediv_eq_iff_of_pos hpos]
    constructor
    · linarith [ht.1]
    · linarith [ht.2]
  have := (hdiv s h).symm.trans (hdiv s' h')
  omega

/-! ## Victims -/

/-- The slot may be given away: EMPTY, or holding a key that is not pinned. -/
def Free (c : EngCache σ m) (s : Nat) : Prop :=
  c.keyOf s = .empty ∨ ((∃ k, c.keyOf s = .key k) ∧ c.pinned s = false)

theorem victimLoop_free : ∀ (is : List Nat) (best : Option (Nat × Nat)) {i : Nat},
    c.victimLoop is best = some i → (i ∈ is ∧ Free c i) ∨ best.map Prod.snd = some i
  | [], best, i, h => Or.inr h
  | j :: js, best, i, h => by
      have hlater : ∀ {best' : Option (Nat × Nat)}, c.victimLoop js best' = some i →
          (best'.map Prod.snd = some i → (i ∈ j :: js ∧ Free c i) ∨ best.map Prod.snd = some i) →
          (i ∈ j :: js ∧ Free c i) ∨ best.map Prod.snd = some i := fun h' hb => by
        rcases victimLoop_free js _ h' with ⟨hmem, hfree⟩ | hbest
        · exact Or.inl ⟨List.mem_cons_of_mem _ hmem, hfree⟩
        · exact hb hbest
      unfold victimLoop at h
      cases hk : c.keyOf j with
      | inflight =>
          simp only [hk] at h
          exact hlater h Or.inr
      | empty =>
          simp only [hk, Option.some.injEq] at h
          subst h
          exact Or.inl ⟨List.mem_cons_self .., Or.inl hk⟩
      | key k =>
          simp only [hk] at h
          split_ifs at h with hpin hold
          · exact hlater h Or.inr
          · refine hlater h fun hj => ?_
            simp only [Option.map_some, Option.some.injEq] at hj
            subst hj
            exact Or.inl ⟨List.mem_cons_self .., Or.inr ⟨⟨k, hk⟩, by simpa using hpin⟩⟩
          · exact hlater h Or.inr

/-- **A victim is never in flight and never pinned.** -/
theorem pickVictim_free {i : Nat} (h : c.pickVictim = some i) : i < c.nslot ∧ Free c i := by
  rcases victimLoop_free _ _ h with ⟨hmem, hfree⟩ | hbest
  · exact ⟨List.mem_range.mp hmem, hfree⟩
  · cases hbest

/-! ## The invariant -/

/-- What holds of the index even in the middle of a call. -/
structure Index (c : EngCache σ m) : Prop where
  inverse : Inverse c.slotOf c.keyOf
  /-- a slot past the end is never used -/
  bound : ∀ s, c.keyOf s ≠ .empty → s < c.nslot
  inRange : ∀ k, c.slotOf k ≠ none → c.inRange k
  /-- a pinned slot holds a key -/
  pinned : ∀ s, c.pinned s = true → ∃ k, c.keyOf s = .key k

/-- The slots in flight are those of the work list, each handed out once, for keys that are not
resident. -/
structure Batch (c : EngCache σ m) (ws : List Work) : Prop extends Index c where
  inflight : ∀ s, c.keyOf s = .inflight ↔ s ∈ ws.map Work.slot
  slots : (ws.map Work.slot).Nodup
  keys : (ws.map Work.key).Nodup
  absent : ∀ w ∈ ws, c.inRange w.key ∧ c.slotOf w.key = none

/-- Between calls: nothing is in flight. -/
def Quiet (c : EngCache σ m) : Prop := Batch c []

theorem Quiet.not_inflight (h : Quiet c) (s : Nat) : c.keyOf s ≠ .inflight := by
  intro hs
  simpa using (h.inflight s).mp hs

theorem Index.quiet (h : Index c) (hno : ∀ s, c.keyOf s ≠ .inflight) : Quiet c :=
  { h with
    inflight := fun s => by simp [hno s]
    slots := List.nodup_nil
    keys := List.nodup_nil
    absent := fun w hw => by simp at hw }

/-- The invariant reads the index, the pins and the configuration only. -/
theorem Index.congr (h : Index c) (hslotOf : c'.slotOf = c.slotOf) (hkeyOf : c'.keyOf = c.keyOf)
    (hpinned : c'.pinned = c.pinned) (hcfg : c'.cfg = c.cfg) (hnslot : c'.nslot = c.nslot) :
    Index c' where
  inverse := by rw [hslotOf, hkeyOf]; exact h.inverse
  bound := by rw [hkeyOf, hnslot]; exact h.bound
  inRange := by
    intro k hk
    have := h.inRange k (hslotOf ▸ hk)
    unfold EngCache.inRange at this ⊢
    rwa [hcfg]
  pinned := by rw [hpinned, hkeyOf]; exact h.pinned

theorem Batch.congr {ws : List Work} (h : Batch c ws) (hslotOf : c'.slotOf = c.slotOf)
    (hkeyOf : c'.keyOf = c.keyOf) (hpinned : c'.pinned = c.pinned) (hcfg : c'.cfg = c.cfg)
    (hnslot : c'.nslot = c.nslot) : Batch c' ws :=
  { h.toIndex.congr hslotOf hkeyOf hpinned hcfg hnslot with
    inflight := by rw [hkeyOf]; exact h.inflight
    slots := h.slots
    keys := h.keys
    absent := by
      intro w hw
      have := h.absent w hw
      unfold EngCache.inRange at this ⊢
      rw [hcfg, hslotOf]
      exact this }

/-- The work list may be reordered, and what the reads delivered may be filled in. -/
theorem Batch.perm {ws ws' : List Work} (h : Batch c ws)
    (hslots : (ws'.map Work.slot).Perm (ws.map Work.slot))
    (hkeys : (ws'.map Work.key).Perm (ws.map Work.key)) : Batch c ws' :=
  { h with
    inflight := fun s => (h.inflight s).trans hslots.mem_iff.symm
    slots := hslots.nodup_iff.mpr h.slots
    keys := hkeys.nodup_iff.mpr h.keys
    absent := by
      intro w' hw'
      obtain ⟨w, hw, hkey⟩ := List.mem_map.mp (hkeys.mem_iff.mp (List.mem_map_of_mem hw'))
      rw [← hkey]
      exact h.absent w hw }

/-- A slot that may be given away is vacated: the old key goes and the slot is left without one. -/
theorem Index.vacate (h : Index c) {slot : Nat} (hlt : slot < c.nslot) (hfree : Free c slot)
    {x : SlotState} (hx : ∀ k, x ≠ .key k)
    (hslotOf : c'.slotOf = (c.evict slot).slotOf) (hkeyOf : c'.keyOf = Function.update c.keyOf slot x)
    (hpinned : c'.pinned = c.pinned) (hcfg : c'.cfg = c.cfg) (hnslot : c'.nslot = c.nslot) :
    Index c' where
  inverse := by
    rw [hslotOf, hkeyOf, funext (evict_slotOf c slot)]
    exact h.inverse.vacate slot hx
  bound := by
    intro s hs
    rw [hkeyOf] at hs
    rw [hnslot]
    by_cases heq : s = slot
    · exact heq ▸ hlt
    · rw [Function.update_of_ne heq] at hs
      exact h.bound s hs
  inRange := by
    intro k hk
    rw [hslotOf, evict_slotOf] at hk
    have : c.inRange k := by
      split_ifs at hk
      · exact absurd rfl hk
      · exact h.inRange k hk
    unfold EngCache.inRange at this ⊢
    rwa [hcfg]
  pinned := by
    intro s hs
    rw [hpinned] at hs
    obtain ⟨k, hk⟩ := h.pinned s hs
    have hne : s ≠ slot := by
      rintro rfl
      rcases hfree with hempty | ⟨_, hunpinned⟩
      · rw [hempty] at hk
        cases hk
      · rw [hunpinned] at hs
        cases hs
    exact ⟨k, by rw [hkeyOf, Function.update_of_ne hne]; exact hk⟩

/-- An absent key is registered in a slot without one. -/
theorem Index.assign (h : Index c) {key slot : Nat} (hlt : slot < c.nslot) (hrange : c.inRange key)
    (habs : c.slotOf key = none) (hfree : ∀ k, c.keyOf slot ≠ .key k)
    (hslotOf : c'.slotOf = Function.update c.slotOf key (some slot))
    (hkeyOf : c'.keyOf = Function.update c.keyOf slot (.key key)) (hpinned : c'.pinned = c.pinned)
    (hcfg : c'.cfg = c.cfg) (hnslot : c'.nslot = c.nslot) : Index c' where
  inverse := by
    rw [hslotOf, hkeyOf]
    exact h.inverse.assign habs hfree
  bound := by
    intro s hs
    rw [hkeyOf] at hs
    rw [hnslot]
    by_cases heq : s = slot
    · exact heq ▸ hlt
    · rw [Function.update_of_ne heq] at hs
      exact h.bound s hs
  inRange := by
    intro k hk
    have : c.inRange k := by
      by_cases heq : k = key
      · exact heq ▸ hrange
      · rw [hslotOf, Function.update_of_ne heq] at hk
        exact h.inRange k hk
    unfold EngCache.inRange at this ⊢
    rwa [hcfg]
  pinned := by
    intro s hs
    rw [hpinned] at hs
    obtain ⟨k, hk⟩ := h.pinned s hs
    have hne : s ≠ slot := by
      rintro rfl
      exact hfree k hk
    exact ⟨k, by rw [hkeyOf, Function.update_of_ne hne]; exact hk⟩

/-- A slot that may be given away is not pinned. -/
theorem Index.unpinned (h : Index c) {slot : Nat} (hkey : Free c slot ∨ c.keyOf slot = .inflight) :
    c.pinned slot = false := by
  by_contra hp
  obtain ⟨k, hk⟩ := h.pinned slot (by simpa using hp)
  rcases hkey with (hempty | ⟨_, hunpinned⟩) | hflight
  · rw [hempty] at hk
    cases hk
  · exact hp hunpinned
  · rw [hflight] at hk
    cases hk

/-! ## What a call may not touch -/

/-- The slot a source call wrote into. -/
def Event.loadSlot : Event m → Option Nat
  | .load _ slot _ _ _ _ _ => some slot
  | .describe .. => none

/-- The slots the loads of a stretch of the log wrote into. -/
def loadSlots (new : List (Event m)) : List Nat := new.filterMap Event.loadSlot

/-- `c'` comes after `c`, `new` being the source calls made in between: no load went into a pinned
slot, and a pinned slot keeps its pin, its key, its metadata and its bytes. -/
structure Frame (c : EngCache σ m) (new : List (Event m)) (c' : EngCache σ m) : Prop where
  cfg : c'.cfg = c.cfg
  src : c'.src = c.src
  nslot : c'.nslot = c.nslot
  stride : c'.stride = c.stride
  log : c'.log = new ++ c.log
  unpinned : ∀ s ∈ loadSlots new, c.pinned s = false
  pins : ∀ s, c.pinned s = true → c'.pinned s = true ∧ c'.keyOf s = c.keyOf s ∧
    c'.slotMeta s = c.slotMeta s ∧ c'.pad s = c.pad s ∧ c'.nbytes s = c.nbytes s ∧
    ∀ a, c.slotBase s ≤ a → a < c.slotBase s + c.stride → c'.arena a = c.arena a

theorem Frame.trans {new new' : List (Event m)} (h : Frame c new c') (h' : Frame c' new' c'') :
    Frame c (new' ++ new) c'' where
  cfg := h'.cfg.trans h.cfg
  src := h'.src.trans h.src
  nslot := h'.nslot.trans h.nslot
  stride := h'.stride.trans h.stride
  log := by rw [h'.log, h.log, List.append_assoc]
  unpinned := by
    intro s hs
    unfold loadSlots at hs
    rw [List.filterMap_append, List.mem_append] at hs
    rcases hs with hs | hs
    · have := h'.unpinned s hs
      by_contra hp
      rw [(h.pins s (by simpa using hp)).1] at this
      cases this
    · exact h.unpinned s hs
  pins := by
    intro s hs
    obtain ⟨hp, hk, hm, hpad, hn, ha⟩ := h.pins s hs
    obtain ⟨hp', hk', hm', hpad', hn', ha'⟩ := h'.pins s hp
    refine ⟨hp', hk'.trans hk, hm'.trans hm, hpad'.trans hpad, hn'.trans hn, fun a hlo hhi => ?_⟩
    have hbase : c'.slotBase s = c.slotBase s := by unfold slotBase; rw [h.stride]
    rw [ha' a (by rw [hbase]; exact hlo) (by rw [hbase, h.stride]; exact hhi)]
    exact ha a hlo hhi

/-- A step that leaves pins and bytes alone and changes the slot records at an unpinned slot only. -/
theorem Frame.at_slot {new : List (Event m)} (slot : Nat) (hunpinned : c.pinned slot = false)
    (hcfg : c'.cfg = c.cfg) (hsrc : c'.src = c.src) (hnslot : c'.nslot = c.nslot)
    (hstride : c'.stride = c.stride) (hlog : c'.log = new ++ c.log) (hnew : loadSlots new = [])
    (hpinned : c'.pinned = c.pinned) (harena : c'.arena = c.arena)
    (hrec : ∀ s, s ≠ slot → c'.keyOf s = c.keyOf s ∧ c'.slotMeta s = c.slotMeta s ∧
      c'.pad s = c.pad s ∧ c'.nbytes s = c.nbytes s) : Frame c new c' where
  cfg := hcfg
  src := hsrc
  nslot := hnslot
  stride := hstride
  log := hlog
  unpinned := by
    intro s hs
    rw [hnew] at hs
    cases hs
  pins := by
    intro s hs
    have hne : s ≠ slot := by
      rintro rfl
      rw [hunpinned] at hs
      cases hs
    obtain ⟨hk, hm, hpad, hn⟩ := hrec s hne
    exact ⟨hpinned ▸ hs, hk, hm, hpad, hn, fun a _ _ => by rw [harena]⟩

/-- The index, the pins, the slot records and the bytes: all but the bookkeeping of the calls. -/
def EngCache.held (c : EngCache σ m) :=
  (c.cfg, c.src, c.nslot, c.stride, c.slotOf, c.keyOf, c.pinned, c.arena, c.slotMeta, c.pad, c.nbytes)

/-- A step that only keeps books. -/
theorem Frame.refl_of {new : List (Event m)} (hheld : c'.held = c.held)
    (hlog : c'.log = new ++ c.log) (hnew : loadSlots new = []) : Frame c new c' := by
  simp only [EngCache.held, Prod.mk.injEq] at hheld
  obtain ⟨hcfg, hsrc, hnslot, hstride, -, hkeyOf, hpinned, harena, hmeta, hpad, hnbytes⟩ := hheld
  exact {
    cfg := hcfg
    src := hsrc
    nslot := hnslot
    stride := hstride
    log := hlog
    unpinned := by
      intro s hs
      rw [hnew] at hs
      cases hs
    pins := fun s hs => ⟨hpinned ▸ hs, by rw [hkeyOf], by rw [hmeta], by rw [hpad],
      by rw [hnbytes], fun a _ _ => by rw [harena]⟩ }

/-- A load writes the bytes of its own slot. -/
theorem loaded_frame (c : EngCache σ m) (key : Nat) {slot : Nat} (need : Int)
    (hunpinned : c.pinned slot = false) :
    Frame c [.load key slot (c.slotMeta slot) need (c.load key slot).got (c.load key slot).payloadOff
      (c.load key slot).buf] (c.loaded key slot need) where
  cfg := rfl
  src := rfl
  nslot := rfl
  stride := rfl
  log := rfl
  unpinned := by
    intro s hs
    simp only [loadSlots, List.filterMap_cons, List.filterMap_nil, Event.loadSlot,
      List.mem_singleton] at hs
    exact hs ▸ hunpinned
  pins := by
    intro s hs
    refine ⟨hs, rfl, rfl, rfl, rfl, fun a hlo hhi => ?_⟩
    have hne : s ≠ slot := by
      rintro rfl
      rw [hunpinned] at hs
      cases hs
    simp only [loaded]
    rw [if_neg]
    intro hin
    exact hne (slotBase_unique ⟨hlo, hhi⟩ hin)

/-- A read that came up short: its slot is EMPTY and no key is mapped to it. -/
def ShortEmpty (new : List (Event m)) (c' : EngCache σ m) : Prop :=
  ∀ key slot given need got off buf, Event.load key slot given need got off buf ∈ new →
    got ≠ need → c'.keyOf slot = .empty ∧ ∀ k, c'.slotOf k ≠ some slot

theorem Index.unmapped (h : Index c) {slot : Nat} (hs : c.keyOf slot = .empty) (k : Nat) :
    c.slotOf k ≠ some slot := by
  intro hk
  rw [(h.inverse k slot).mp hk] at hs
  cases hs

theorem shortEmpty_of_no_loads {new : List (Event m)} (h : loadSlots new = []) : ShortEmpty new c' := by
  intro key slot given need got off buf hmem
  have : slot ∈ loadSlots new := List.mem_filterMap.mpr ⟨_, hmem, rfl⟩
  rw [h] at this
  cases this

/-- What one call does, given that nothing was in flight before it. -/
structure CallOk (c : EngCache σ m) (new : List (Event m)) (c' : EngCache σ m) : Prop extends
    Frame c new c' where
  quiet : Quiet c'
  once : (loadSlots new).Nodup
  short : ShortEmpty new c'

/-! ## Single requests -/

theorem fill_full {key slot : Nat} {need : Int} {wrote : Vector UInt8 m}
    (hgot : ((c.install slot wrote).load key slot).got = need) :
    fill c key slot need wrote =
      (((c.install slot wrote).loaded key slot need).publish key slot need
        ((c.install slot wrote).load key slot).payloadOff, some slot) := by
  simp only [fill, hgot, ne_eq, not_true, if_false]

theorem fill_short {key slot : Nat} {need : Int} {wrote : Vector UInt8 m}
    (hgot : ((c.install slot wrote).load key slot).got ≠ need) :
    fill c key slot need wrote =
      (((c.install slot wrote).loaded key slot need).markEmpty slot, none) := by
  simp only [fill, ne_eq, hgot, not_false_eq_true, if_true]

theorem install_frame (c : EngCache σ m) {slot : Nat} (hunpinned : c.pinned slot = false)
    (wrote : Vector UInt8 m) : Frame c [] (c.install slot wrote) :=
  .at_slot slot hunpinned rfl rfl rfl rfl rfl rfl rfl rfl fun _ hs =>
    ⟨rfl, Function.update_of_ne hs _ _, rfl, rfl⟩

theorem publish_frame (c : EngCache σ m) (key : Nat) {slot : Nat} (hunpinned : c.pinned slot = false)
    (got off : Int) : Frame c [] (c.publish key slot got off) :=
  .at_slot slot hunpinned rfl rfl rfl rfl rfl rfl rfl rfl fun _ hs =>
    ⟨Function.update_of_ne hs _ _, rfl, Function.update_of_ne hs _ _, Function.update_of_ne hs _ _⟩

theorem markEmpty_frame (c : EngCache σ m) {slot : Nat} (hunpinned : c.pinned slot = false) :
    Frame c [] (c.markEmpty slot) :=
  .at_slot slot hunpinned rfl rfl rfl rfl rfl rfl rfl rfl fun _ hs =>
    ⟨Function.update_of_ne hs _ _, rfl, rfl, rfl⟩

/-- Writing a state other than INFLIGHT into a slot puts nothing in flight. -/
theorem Quiet.update_not_inflight (h : Quiet c) (slot : Nat) {x : SlotState} (hx : x ≠ .inflight)
    (s : Nat) : Function.update c.keyOf slot x s ≠ .inflight := by
  by_cases hs : s = slot
  · subst hs
    rwa [Function.update_self]
  · rw [Function.update_of_ne hs]
    exact h.not_inflight s

theorem fill_ok (h : Quiet c) {key slot : Nat} (hrange : c.inRange key) (habs : c.slotOf key = none)
    (hlt : slot < c.nslot) (hfree : Free c slot) (need : Int) (wrote : Vector UInt8 m) :
    ∃ new, CallOk c new (fill c key slot need wrote).1 := by
  have hunpinned := h.toIndex.unpinned (Or.inl hfree)
  have hf := (install_frame c hunpinned wrote).trans
    (loaded_frame (c.install slot wrote) key need hunpinned)
  -- the slot without a key, as a short read leaves it and as the registration finds it
  have hempty : Index (((c.install slot wrote).loaded key slot need).markEmpty slot) :=
    h.toIndex.vacate hlt hfree (x := .empty) (fun k hk => by cases hk) rfl rfl rfl rfl rfl
  by_cases hgot : ((c.install slot wrote).load key slot).got = need
  · rw [fill_full hgot]
    have habs' : (c.evict slot).slotOf key = none := by rw [evict_slotOf, habs, ite_self]
    have hindex : Index (((c.install slot wrote).loaded key slot need).publish key slot need
        ((c.install slot wrote).load key slot).payloadOff) :=
      hempty.assign hlt hrange habs' (fun k hk => by simp [markEmpty] at hk) rfl
        (by simp [markEmpty, EngCache.publish]) rfl rfl rfl
    have hf' := hf.trans (publish_frame ((c.install slot wrote).loaded key slot need) key hunpinned need
      ((c.install slot wrote).load key slot).payloadOff)
    refine ⟨_, hf', ?_, List.nodup_singleton _, ?_⟩
    · exact hindex.quiet (h.update_not_inflight slot (fun hk => by cases hk))
    · intro key' slot' given need' got' off buf hmem hne
      simp only [List.nil_append, List.append_nil, List.mem_singleton, Event.load.injEq] at hmem
      obtain ⟨-, -, -, rfl, rfl, -, -⟩ := hmem
      exact absurd hgot hne
  · rw [fill_short hgot]
    have hf' := hf.trans (markEmpty_frame ((c.install slot wrote).loaded key slot need) hunpinned)
    refine ⟨_, hf', ?_, List.nodup_singleton _, ?_⟩
    · exact hempty.quiet (h.update_not_inflight slot (fun hk => by cases hk))
    · intro key' slot' given need' got' off buf hmem _
      simp only [List.nil_append, List.append_nil, List.mem_singleton, Event.load.injEq] at hmem
      obtain ⟨-, rfl, -, -, -, -, -⟩ := hmem
      have hs : (((c.install slot' wrote).loaded key slot' need).markEmpty slot').keyOf slot'
          = .empty := by simp [markEmpty]
      exact ⟨hs, hempty.unmapped hs⟩

/-- A call that asks the source for nothing but a description and writes nothing. -/
theorem CallOk.of_held (h : Quiet c) {new : List (Event m)} (hnew : loadSlots new = [])
    (hheld : c'.held = c.held) (hlog : c'.log = new ++ c.log) : CallOk c new c' := by
  have hf : Frame c new c' := .refl_of hheld hlog hnew
  simp only [EngCache.held, Prod.mk.injEq] at hheld
  obtain ⟨-, -, -, -, hslotOf, hkeyOf, hpinned, -⟩ := hheld
  exact ⟨hf, Batch.congr h hslotOf hkeyOf hpinned hf.cfg hf.nslot,
    by rw [hnew]; exact List.nodup_nil, shortEmpty_of_no_loads hnew⟩

/-- A call made after steps that made no load. -/
theorem CallOk.after {new new' : List (Event m)} (h : Frame c new c') (hnew : loadSlots new = [])
    (h' : CallOk c' new' c'') : CallOk c (new' ++ new) c'' where
  toFrame := h.trans h'.toFrame
  quiet := h'.quiet
  once := by
    have := h'.once
    unfold loadSlots at this hnew ⊢
    rwa [List.filterMap_append, hnew, List.append_nil]
  short := by
    intro key slot given need got off buf hmem
    rcases List.mem_append.mp hmem with hmem | hmem
    · exact h'.short key slot given need got off buf hmem
    · exact shortEmpty_of_no_loads hnew key slot given need got off buf hmem

/-- The description of `k` is refused: by the source, or for its size. -/
def refused (c : EngCache σ m) (d : Described σ m) : Prop := d.rc ≠ 0 ∨ d.nbytes > c.cfg.slotBytes

/-- The state in which `admit` looks for a victim, and what it has been told about the key. -/
def admitDescribed (c : EngCache σ m) (key : Nat) : EngCache σ m × Described σ m :=
  let d := c.src.describe c.ctx key (Vector.replicate m 0)
  ({ c with misses := c.misses + 1 }.described key d, d)

/-- A hit touches the stamp and the counters only. -/
theorem admitKey_hit {key slot : Nat} (h : c.slotOf key = some slot) :
    admitKey c key = ({ c with
      hits := c.hits + 1
      usedAt := Function.update c.usedAt slot (c.clock + 1)
      clock := c.clock + 1 }, some slot) := by
  unfold admitKey
  rw [h]

/-- **What a single request comes to**: a hit, a refusal, or a read into the victim. -/
theorem admitKey_cases (c : EngCache σ m) (key : Nat) :
    (∃ slot, c.slotOf key = some slot ∧ admitKey c key = ({ c with
      hits := c.hits + 1
      usedAt := Function.update c.usedAt slot (c.clock + 1)
      clock := c.clock + 1 }, some slot)) ∨
    (c.slotOf key = none ∧
      (refused c (admitDescribed c key).2 ∨ (admitDescribed c key).1.pickVictim = none) ∧
      admitKey c key = ((admitDescribed c key).1, none)) ∨
    (c.slotOf key = none ∧ ¬ refused c (admitDescribed c key).2 ∧
      ∃ slot, (admitDescribed c key).1.pickVictim = some slot ∧
        admitKey c key = fill (admitDescribed c key).1 key slot (admitDescribed c key).2.nbytes
          (admitDescribed c key).2.wrote) := by
  cases hs : c.slotOf key with
  | some slot => exact .inl ⟨slot, rfl, admitKey_hit hs⟩
  | none =>
      right
      unfold admitKey
      rw [hs]
      dsimp only
      split_ifs with hrc hbig
      · exact .inl ⟨rfl, .inl (.inl hrc), rfl⟩
      · exact .inl ⟨rfl, .inl (.inr hbig), rfl⟩
      · have hok : ¬ refused c (admitDescribed c key).2 := by
          rintro (h | h)
          · exact hrc h
          · exact hbig h
        cases hv : (admitDescribed c key).1.pickVictim with
        | none =>
            refine .inl ⟨rfl, .inr rfl, ?_⟩
            unfold admitDescribed at hv ⊢
            simp only [hv]
        | some slot =>
            refine .inr ⟨rfl, hok, slot, rfl, ?_⟩
            unfold admitDescribed at hv ⊢
            simp only [hv]

theorem admitKey_ok (h : Quiet c) {key : Nat} (hrange : c.inRange key) :
    ∃ new, CallOk c new (admitKey c key).1 := by
  have hf : Frame c [.describe key (admitDescribed c key).2.rc (admitDescribed c key).2.nbytes
      (admitDescribed c key).2.wrote] (admitDescribed c key).1 := .refl_of rfl rfl rfl
  rcases admitKey_cases c key with ⟨slot, -, heq⟩ | ⟨-, -, heq⟩ | ⟨hs, -, slot, hv, heq⟩
  · rw [heq]
    exact ⟨[], .of_held h rfl rfl rfl⟩
  · rw [heq]
    exact ⟨_, .of_held h rfl rfl hf.log⟩
  · rw [heq]
    have hq : Quiet (admitDescribed c key).1 := Batch.congr h rfl rfl rfl rfl rfl
    obtain ⟨hlt, hfree⟩ := pickVictim_free hv
    obtain ⟨new, hnew⟩ := fill_ok hq hrange hs hlt hfree (admitDescribed c key).2.nbytes (admitDescribed c key).2.wrote
    exact ⟨_, .after hf rfl hnew⟩

theorem engCacheGet_ok (h : Quiet c) (key : Nat) : ∃ new, CallOk c new (engCacheGet c key).1 := by
  unfold engCacheGet
  split_ifs with hrange
  · have hq : Quiet (record c key) := Batch.congr h rfl rfl rfl rfl rfl
    have hf : Frame c [] (record c key) := .refl_of rfl rfl rfl
    obtain ⟨new, hnew⟩ := admitKey_ok hq hrange
    exact ⟨_, .after hf rfl hnew⟩
  · exact ⟨[], .of_held h rfl rfl rfl⟩

/-! ## Phase 1: reserve -/

/-- The state in which a victim's metadata has been overwritten by the description of `k`. -/
def describedInto (c : EngCache σ m) (k slot : Nat) : EngCache σ m :=
  { c.described k (c.src.describe c.ctx k (c.slotMeta slot)) with
    slotMeta := Function.update c.slotMeta slot (c.src.describe c.ctx k (c.slotMeta slot)).wrote }

/-- **One iteration of the reserve loop**, all its ways out. -/
theorem reserveOne_cases (c : EngCache σ m) (w : List Work) (k : Nat) :
    reserveOne c w k = .skip c ∨
      (c.pickVictim = none ∧ reserveOne c w k = .stop) ∨
      ∃ slot, c.pickVictim = some slot ∧ c.inRange k ∧ c.slotOf k = none ∧ (∀ x ∈ w, x.key ≠ k) ∧
        ((((c.src.describe c.ctx k (c.slotMeta slot)).rc ≠ 0 ∨
            (c.src.describe c.ctx k (c.slotMeta slot)).nbytes > c.cfg.slotBytes) ∧
          reserveOne c w k = .skip (describedInto c k slot)) ∨
        ((c.src.describe c.ctx k (c.slotMeta slot)).rc = 0 ∧
          (c.src.describe c.ctx k (c.slotMeta slot)).nbytes ≤ c.cfg.slotBytes ∧
          reserveOne c w k = .take
            (reserveSlot (describedInto c k slot) k slot
              (c.src.describe c.ctx k (c.slotMeta slot)).nbytes).1
            (reserveSlot (describedInto c k slot) k slot
              (c.src.describe c.ctx k (c.slotMeta slot)).nbytes).2)) := by
  unfold reserveOne
  split_ifs with hrange hres hdup
  · exact Or.inl rfl
  · exact Or.inl rfl
  · cases hv : c.pickVictim with
    | none => exact Or.inr (Or.inl ⟨rfl, rfl⟩)
    | some slot =>
        have habs : c.slotOf k = none := by simpa using hres
        have hnew : ∀ x ∈ w, x.key ≠ k := by
          intro x hx hk
          exact hdup (List.any_eq_true.mpr ⟨x, hx, by simpa using hk⟩)
        refine Or.inr (Or.inr ⟨slot, rfl, hrange, habs, hnew, ?_⟩)
        simp only
        split_ifs with hrc hbig
        · exact Or.inl ⟨Or.inl hrc, rfl⟩
        · exact Or.inl ⟨Or.inr hbig, rfl⟩
        · exact Or.inr ⟨not_not.mp hrc, not_lt.mp hbig, rfl⟩
  · exact Or.inl rfl

theorem describedInto_frame {k slot : Nat} (hunpinned : c.pinned slot = false) :
    ∃ new, loadSlots new = [] ∧ Frame c new (describedInto c k slot) :=
  ⟨[.describe k _ _ _], rfl, .at_slot slot hunpinned rfl rfl rfl rfl rfl rfl rfl rfl
    fun _ hs => ⟨rfl, Function.update_of_ne hs _ _, rfl, rfl⟩⟩

theorem reserveSlot_frame {k slot : Nat} (hunpinned : c.pinned slot = false) (need : Int) :
    Frame c [] (reserveSlot c k slot need).1 :=
  .at_slot slot hunpinned rfl rfl rfl rfl rfl rfl rfl rfl fun _ hs =>
    ⟨Function.update_of_ne hs _ _, rfl, rfl, rfl⟩

theorem reserveSlot_batch {w : List Work} (h : Batch c w) {k slot : Nat} (hlt : slot < c.nslot)
    (hfree : Free c slot) (hrange : c.inRange k) (habs : c.slotOf k = none)
    (hnew : ∀ x ∈ w, x.key ≠ k) (need : Int) :
    Batch (reserveSlot c k slot need).1 (w ++ [(reserveSlot c k slot need).2]) := by
  have hindex : Index (reserveSlot c k slot need).1 :=
    h.toIndex.vacate hlt hfree (x := .inflight) (fun k hk => by cases hk) rfl rfl rfl rfl rfl
  have hslot : slot ∉ w.map Work.slot := by
    intro hmem
    have hfl := (h.inflight slot).mpr hmem
    rcases hfree with hempty | ⟨⟨k', hk'⟩, _⟩
    · rw [hempty] at hfl
      cases hfl
    · rw [hk'] at hfl
      cases hfl
  refine { hindex with inflight := ?_, slots := ?_, keys := ?_, absent := ?_ }
  · intro s
    show Function.update c.keyOf slot .inflight s = .inflight ↔ _
    rw [List.map_append, List.mem_append]
    by_cases hs : s = slot
    · subst hs
      rw [Function.update_self]
      exact iff_of_true rfl (Or.inr (List.mem_singleton.mpr rfl))
    · rw [Function.update_of_ne hs, h.inflight s]
      refine ⟨Or.inl, fun hmem => hmem.resolve_right fun hmem => ?_⟩
      exact hs (List.mem_singleton.mp hmem)
  · rw [List.map_append, List.nodup_append]
    refine ⟨h.slots, List.nodup_singleton _, ?_⟩
    intro a ha b hb hab
    obtain rfl := List.mem_singleton.mp hb
    exact hslot (hab ▸ ha)
  · rw [List.map_append, List.nodup_append]
    refine ⟨h.keys, List.nodup_singleton _, ?_⟩
    intro a ha b hb hab
    obtain rfl := List.mem_singleton.mp hb
    obtain ⟨x, hx, rfl⟩ := List.mem_map.mp ha
    exact hnew x hx hab
  · intro x hx
    have hev : ∀ k', c.slotOf k' = none → (c.evict slot).slotOf k' = none := fun k' hk' => by
      rw [evict_slotOf, hk', ite_self]
    rcases List.mem_append.mp hx with hx | hx
    · exact ⟨(h.absent x hx).1, hev _ (h.absent x hx).2⟩
    · obtain rfl := List.mem_singleton.mp hx
      exact ⟨hrange, hev k habs⟩

/-- The reserve loop hands out distinct slots for distinct absent keys, and loads nothing. -/
theorem reserve_batch : ∀ (ks : List Nat) {c : EngCache σ m} {w : List Work}, Batch c w →
    Batch (reserve c ks w).1 (reserve c ks w).2 ∧
      ∃ new, loadSlots new = [] ∧ Frame c new (reserve c ks w).1
  | [], c, w, h => ⟨h, [], rfl, .refl_of rfl rfl rfl⟩
  | k :: ks, c, w, h => by
      have hkeep : Frame c [] c := .refl_of rfl rfl rfl
      -- the rest of the loop, after an iteration that made no load
      have hrest : ∀ {c₁ : EngCache σ m} {w₁ : List Work} {new₁ : List (Event m)}, Batch c₁ w₁ →
          loadSlots new₁ = [] → Frame c new₁ c₁ →
          Batch (reserve c₁ ks w₁).1 (reserve c₁ ks w₁).2 ∧
            ∃ new, loadSlots new = [] ∧ Frame c new (reserve c₁ ks w₁).1 := by
        intro c₁ w₁ new₁ hb hnew hf
        obtain ⟨hb', new, hnew', hf'⟩ := reserve_batch ks hb
        refine ⟨hb', new ++ new₁, ?_, hf.trans hf'⟩
        unfold loadSlots at hnew hnew' ⊢
        rw [List.filterMap_append, hnew, hnew', List.append_nil]
      unfold reserve
      split_ifs with hfull
      · exact ⟨h, [], rfl, hkeep⟩
      · rcases reserveOne_cases c w k with heq | ⟨-, heq⟩ | ⟨slot, hv, hrange, habs, hnew, hcase⟩
        · rw [heq]
          exact hrest h rfl hkeep
        · rw [heq]
          exact ⟨h, [], rfl, hkeep⟩
        · obtain ⟨hlt, hfree⟩ := pickVictim_free hv
          have hunpinned := h.toIndex.unpinned (Or.inl hfree)
          obtain ⟨new₁, hnew₁, hf₁⟩ := describedInto_frame (k := k) hunpinned
          have hb₁ : Batch (describedInto c k slot) w := h.congr rfl rfl rfl rfl rfl
          rcases hcase with ⟨-, heq⟩ | ⟨-, -, heq⟩
          · rw [heq]
            exact hrest hb₁ hnew₁ hf₁
          · rw [heq]
            exact hrest (reserveSlot_batch hb₁ hlt hfree hrange habs hnew _) hnew₁
              (hf₁.trans (reserveSlot_frame (c := describedInto c k slot) hunpinned _))

/-! ## The sort -/

theorem shiftIn_perm (t : Work) : ∀ ws : List Work, (shiftIn t ws).Perm (t :: ws)
  | [] => List.Perm.refl _
  | x :: xs => by
      unfold shiftIn
      split_ifs
      · exact ((shiftIn_perm t xs).cons x).trans (List.Perm.swap t x xs)
      · exact List.Perm.refl _

theorem sortWork_perm (ws : List Work) : (sortWork ws).Perm ws := by
  have hfold : ∀ (ws done : List Work), (ws.foldl (fun done t => shiftIn t done) done).Perm
      (done ++ ws) := by
    intro ws
    induction ws with
    | nil => intro done; simp
    | cons t ws ih =>
        intro done
        refine (ih (shiftIn t done)).trans ?_
        refine ((shiftIn_perm t done).append_right ws).trans ?_
        exact List.perm_middle.symm
  exact (List.reverse_perm _).trans (by simpa using hfold ws [])

theorem issueOrder_perm (c : EngCache σ m) (w : List Work) : (issueOrder c w).Perm w := by
  unfold issueOrder
  split_ifs
  · exact sortWork_perm w
  · exact List.Perm.refl w

/-! ## Phase 2: load -/

theorem loadAll_works : ∀ (ws : List Work) (c : EngCache σ m),
    (loadAll c ws).2.map Work.slot = ws.map Work.slot ∧
      (loadAll c ws).2.map Work.key = ws.map Work.key
  | [], _ => ⟨rfl, rfl⟩
  | w :: ws, c => by
      obtain ⟨hs, hk⟩ := loadAll_works ws (c.loaded w.key w.slot w.need)
      exact ⟨congrArg (w.slot :: ·) hs, congrArg (w.key :: ·) hk⟩

/-- The loads go into the slots of the work list, each once, and the list records what each of them
delivered. -/
theorem loadAll_frame : ∀ (ws : List Work) {c : EngCache σ m},
    (∀ w ∈ ws, c.pinned w.slot = false) →
    ∃ new, Frame c new (loadAll c ws).1 ∧ loadSlots new = (ws.map Work.slot).reverse ∧
      (loadAll c ws).1.slotOf = c.slotOf ∧ (loadAll c ws).1.keyOf = c.keyOf ∧
      (loadAll c ws).1.pinned = c.pinned ∧
      ∀ key slot given need got off buf, Event.load key slot given need got off buf ∈ new →
        ∃ w ∈ (loadAll c ws).2, w.slot = slot ∧ w.need = need ∧ w.got = got
  | [], c, _ => ⟨[], .refl_of rfl rfl rfl, rfl, rfl, rfl, rfl,
      fun _ _ _ _ _ _ _ h => by cases h⟩
  | w :: ws, c, hunpinned => by
      obtain ⟨new, hf, hslots, hso, hko, hpi, hev⟩ :=
        loadAll_frame ws (c := c.loaded w.key w.slot w.need)
          fun x hx => hunpinned x (List.mem_cons_of_mem _ hx)
      have hw := loaded_frame c w.key w.need (hunpinned w (List.mem_cons_self ..))
      refine ⟨_, hw.trans hf, ?_, hso, hko, hpi, ?_⟩
      · unfold loadSlots at hslots ⊢
        rw [List.filterMap_append, hslots, List.map_cons, List.reverse_cons]
        rfl
      · intro key slot given need got off buf hmem
        rcases List.mem_append.mp hmem with hmem | hmem
        · obtain ⟨x, hx, hrec⟩ := hev key slot given need got off buf hmem
          exact ⟨x, List.mem_cons_of_mem _ hx, hrec⟩
        · simp only [List.mem_singleton, Event.load.injEq] at hmem
          obtain ⟨-, rfl, -, rfl, rfl, -, -⟩ := hmem
          exact ⟨_, List.mem_cons_self .., rfl, rfl, rfl⟩

/-! ## Phase 3: publish -/

theorem Batch.markEmpty {w : Work} {ws : List Work} (h : Batch c (w :: ws)) :
    Batch (c.markEmpty w.slot) ws := by
  have hfl : c.keyOf w.slot = .inflight := (h.inflight w.slot).mpr (List.mem_cons_self ..)
  have hlt := h.bound w.slot (by rw [hfl]; intro hk; cases hk)
  have hnodup := List.nodup_cons.mp h.slots
  have hinv : Inverse c.slotOf (Function.update c.keyOf w.slot .empty) := by
    have hv := h.inverse.vacate w.slot (x := .empty) (fun k hk => by cases hk)
    simpa [hfl] using hv
  refine { inverse := hinv, bound := ?_, inRange := h.inRange, pinned := ?_, inflight := ?_,
           slots := hnodup.2, keys := (List.nodup_cons.mp h.keys).2,
           absent := fun x hx => h.absent x (List.mem_cons_of_mem _ hx) }
  · intro s hs
    by_cases heq : s = w.slot
    · exact heq ▸ hlt
    · exact h.bound s (by simpa [EngCache.markEmpty, Function.update_of_ne heq] using hs)
  · intro s hs
    obtain ⟨k, hk⟩ := h.pinned s hs
    have hne : s ≠ w.slot := by
      rintro rfl
      rw [hfl] at hk
      cases hk
    exact ⟨k, by simpa [EngCache.markEmpty, Function.update_of_ne hne] using hk⟩
  · intro s
    show Function.update c.keyOf w.slot .empty s = .inflight ↔ _
    by_cases hs : s = w.slot
    · subst hs
      rw [Function.update_self]
      exact iff_of_false (fun hk => by cases hk) hnodup.1
    · rw [Function.update_of_ne hs, h.inflight s, List.map_cons, List.mem_cons]
      exact ⟨fun hmem => hmem.resolve_left hs, Or.inr⟩

theorem Batch.publish {w : Work} {ws : List Work} (h : Batch c (w :: ws)) (got off : Int) :
    Batch (c.publish w.key w.slot got off) ws := by
  -- registering is what marking EMPTY leaves, plus the key
  have hb := h.markEmpty
  have hfl : c.keyOf w.slot = .inflight := (h.inflight w.slot).mpr (List.mem_cons_self ..)
  have hlt := h.bound w.slot (by rw [hfl]; intro hk; cases hk)
  obtain ⟨hrange, habs⟩ := h.absent w (List.mem_cons_self ..)
  have hindex : Index (c.publish w.key w.slot got off) :=
    hb.toIndex.assign hlt hrange habs (fun k hk => by simp [EngCache.markEmpty] at hk) rfl
      (by simp [EngCache.markEmpty, EngCache.publish]) rfl rfl rfl
  have hnodup := List.nodup_cons.mp h.slots
  have hkeys := List.nodup_cons.mp h.keys
  refine { hindex with inflight := ?_, slots := hnodup.2, keys := hkeys.2, absent := ?_ }
  · intro s
    show Function.update c.keyOf w.slot (.key w.key) s = .inflight ↔ _
    by_cases hs : s = w.slot
    · subst hs
      rw [Function.update_self]
      exact iff_of_false (fun hk => by cases hk) hnodup.1
    · rw [Function.update_of_ne hs, h.inflight s, List.map_cons, List.mem_cons]
      exact ⟨fun hmem => hmem.resolve_left hs, Or.inr⟩
  · intro x hx
    have hne : x.key ≠ w.key := fun heq => hkeys.1 (heq ▸ List.mem_map_of_mem hx)
    obtain ⟨hr, ha⟩ := h.absent x (List.mem_cons_of_mem _ hx)
    exact ⟨hr, (Function.update_of_ne hne _ _).trans ha⟩

/-- **Publishing ends the batch**: nothing is in flight, and a short read's slot is EMPTY. -/
theorem publishAll_ok : ∀ (ws : List Work) {c : EngCache σ m} (ok : Nat), Batch c ws →
    Quiet (publishAll c ws ok).1 ∧ Frame c [] (publishAll c ws ok).1 ∧
      (∀ s, s ∉ ws.map Work.slot → (publishAll c ws ok).1.keyOf s = c.keyOf s) ∧
      ∀ w ∈ ws, w.got ≠ w.need → (publishAll c ws ok).1.keyOf w.slot = .empty
  | [], c, ok, h => ⟨h, .refl_of rfl rfl rfl, fun _ _ => rfl,
      fun _ hw => by cases hw⟩
  | w :: ws, c, ok, h => by
      have hfl : c.keyOf w.slot = .inflight := (h.inflight w.slot).mpr (List.mem_cons_self ..)
      have hunpinned := h.toIndex.unpinned (Or.inr hfl)
      have hslot := (List.nodup_cons.mp h.slots).1
      have hother : ∀ s, s ∉ (w :: ws).map Work.slot → s ≠ w.slot ∧ s ∉ ws.map Work.slot :=
        fun s hs => ⟨fun heq => hs (heq ▸ List.mem_cons_self ..),
          fun hmem => hs (List.mem_cons_of_mem _ hmem)⟩
      unfold publishAll
      by_cases hgot : w.got ≠ w.need
      · rw [if_pos hgot]
        obtain ⟨hq, hf, hkeep, hshort⟩ := publishAll_ok ws ok h.markEmpty
        refine ⟨hq, (markEmpty_frame c hunpinned).trans hf, ?_, ?_⟩
        · intro s hs
          obtain ⟨hne, hs'⟩ := hother s hs
          exact (hkeep s hs').trans (Function.update_of_ne hne _ _)
        · intro x hx hx'
          rcases List.mem_cons.mp hx with rfl | hx
          · exact (hkeep x.slot hslot).trans (Function.update_self ..)
          · exact hshort x hx hx'
      · rw [if_neg hgot]
        have hb : Batch { (c.publish w.key w.slot w.got w.pad) with
            prefetchReads := c.prefetchReads + 1 } ws :=
          (h.publish w.got w.pad).congr rfl rfl rfl rfl rfl
        obtain ⟨hq, hf, hkeep, hshort⟩ := publishAll_ok ws (ok + 1) hb
        have hf₁ : Frame c [] { (c.publish w.key w.slot w.got w.pad) with
            prefetchReads := c.prefetchReads + 1 } :=
          { publish_frame c w.key hunpinned w.got w.pad with }
        refine ⟨hq, hf₁.trans hf, ?_, ?_⟩
        · intro s hs
          obtain ⟨hne, hs'⟩ := hother s hs
          exact (hkeep s hs').trans (Function.update_of_ne hne _ _)
        · intro x hx hx'
          rcases List.mem_cons.mp hx with rfl | hx
          · exact absurd hx' hgot
          · exact hshort x hx hx'

theorem Batch.unpinned {ws : List Work} (h : Batch c ws) : ∀ w ∈ ws, c.pinned w.slot = false :=
  fun w hw => h.toIndex.unpinned (Or.inr ((h.inflight w.slot).mpr (List.mem_map_of_mem hw)))

/-- The loads leave the batch in flight. -/
theorem loadAll_batch {ws : List Work} (h : Batch c ws) : Batch (loadAll c ws).1 (loadAll c ws).2 := by
  obtain ⟨new, hf, -, hso, hko, hpi, -⟩ := loadAll_frame ws h.unpinned
  obtain ⟨hmap, hkeys⟩ := loadAll_works ws c
  exact (h.congr hso hko hpi hf.cfg hf.nslot).perm (by rw [hmap]) (by rw [hkeys])

/-- Phases 2 and 3, in whatever order the reads are issued. -/
theorem loadPublish_ok {ws : List Work} (h : Batch c ws) :
    ∃ new, CallOk c new (publishAll (loadAll c ws).1 (loadAll c ws).2 0).1 := by
  obtain ⟨new, hf, hslots, -, -, -, hev⟩ := loadAll_frame ws h.unpinned
  obtain ⟨hq, hf', -, hshort⟩ := publishAll_ok _ 0 (loadAll_batch h)
  refine ⟨_, hf.trans hf', hq, ?_, ?_⟩
  · rw [List.nil_append, hslots]
    exact List.nodup_reverse.mpr h.slots
  · intro key slot given need got off buf hmem hne
    rw [List.nil_append] at hmem
    obtain ⟨w, hw, rfl, rfl, rfl⟩ := hev key slot given need got off buf hmem
    have hempty := hshort w hw hne
    exact ⟨hempty, hq.toIndex.unmapped hempty⟩

theorem engCacheGetMany_ok (h : Quiet c) (keys : List Nat) :
    ∃ new, CallOk c new (engCacheGetMany c keys).1 := by
  obtain ⟨hb, new₁, hnew₁, hf₁⟩ := reserve_batch keys h
  unfold engCacheGetMany
  simp only
  split_ifs with hnil
  · rw [hnil] at hb
    exact ⟨new₁, hf₁, hb, by rw [hnew₁]; exact List.nodup_nil, shortEmpty_of_no_loads hnew₁⟩
  · have hperm := issueOrder_perm (reserve c keys []).1 (reserve c keys []).2
    obtain ⟨new, hok⟩ := loadPublish_ok (hb.perm (hperm.map _) (hperm.map _))
    exact ⟨_, .after hf₁ hnew₁ hok⟩

/-! ## Whole runs -/

theorem engCacheCreate_quiet {cfg : EngCacheCfg} {src : EngCacheSrc σ m} {ctx : σ}
    {arena : Int → UInt8} (h : engCacheCreate cfg src ctx arena = some c) : Quiet c := by
  unfold engCacheCreate at h
  simp only at h
  split_ifs at h
  obtain rfl := Option.some.inj h
  refine Index.quiet ⟨fun k s => ?_, fun s hs => ?_, fun k hk => ?_, fun s hs => ?_⟩ fun s hs => ?_
  · exact iff_of_false (fun hk => by cases hk) (fun hk => by cases hk)
  · exact absurd rfl hs
  · exact absurd rfl hk
  · cases hs
  · cases hs

/-- What the index promises between calls. -/
structure IndexOk (c : EngCache σ m) : Prop where
  inverse : ∀ k s, c.slotOf k = some s ↔ c.keyOf s = .key k
  landed : ∀ s, c.keyOf s ≠ .inflight
  pinned : ∀ s, c.pinned s = true → ∃ k, c.keyOf s = .key k

/-- What a call promises.  The reads it made went to pairwise distinct slots, none of them pinned; a
pinned key stays pinned in its slot, with its bytes, unless this call unpins it; and a slot whose
read came up short is EMPTY, with no key mapped to it. -/
structure OpOk (c : EngCache σ m) (op : Op) (c' : EngCache σ m) : Prop where
  reads : ∃ new, c'.log = new ++ c.log ∧ (loadSlots new).Nodup ∧
    (∀ s ∈ loadSlots new, c.pinned s = false) ∧ ShortEmpty new c'
  pins : ∀ s k, c.pinned s = true → c.keyOf s = .key k → op ≠ .pin k false →
    c'.pinned s = true ∧ c'.keyOf s = .key k ∧ c'.slotOf k = some s ∧
      ∀ a, c.slotBase s ≤ a → a < c.slotBase s + c.stride → c'.arena a = c.arena a

theorem Quiet.indexOk (h : Quiet c) : IndexOk c := ⟨h.inverse, h.not_inflight, h.pinned⟩

theorem CallOk.opOk {new : List (Event m)} (h : CallOk c new c') (op : Op) : OpOk c op c' where
  reads := ⟨new, h.log, h.once, h.unpinned, h.short⟩
  pins := by
    intro s k hp hk _
    obtain ⟨hp', hk', -, -, -, ha⟩ := h.pins s hp
    have hk'' : c'.keyOf s = .key k := hk'.trans hk
    exact ⟨hp', hk'', (h.quiet.inverse k s).mpr hk'', ha⟩

theorem engCachePin_ok (h : Quiet c) (key : Nat) (pin : Bool) :
    Quiet (engCachePin c key pin).1 ∧ OpOk c (.pin key pin) (engCachePin c key pin).1 := by
  have hkeep : ∀ op, OpOk c op c := fun op =>
    (CallOk.of_held h rfl rfl rfl :
      CallOk c [] c).opOk op
  unfold engCachePin
  split_ifs
  · cases hs : c.slotOf key with
    | none => exact ⟨h, hkeep _⟩
    | some slot =>
        have hkey : c.keyOf slot = .key key := (h.inverse key slot).mp hs
        simp only
        refine ⟨{ h with pinned := ?_ }, ⟨[], rfl, List.nodup_nil, ?_, ?_⟩, ?_⟩
        · intro s hp
          by_cases heq : s = slot
          · exact ⟨key, heq ▸ hkey⟩
          · exact h.pinned s (by simpa [Function.update_of_ne heq] using hp)
        · exact fun s hs => absurd hs (by simp [loadSlots])
        · exact shortEmpty_of_no_loads (by rfl)
        · intro s k hp hk hop
          refine ⟨?_, hk, (h.inverse k s).mpr hk, fun a _ _ => rfl⟩
          by_cases heq : s = slot
          · subst heq
            rw [hkey] at hk
            obtain rfl := SlotState.key.inj hk
            cases pin with
            | false => exact absurd rfl hop
            | true => exact Function.update_self ..
          · exact (Function.update_of_ne heq _ _).trans hp
  · exact ⟨h, hkeep _⟩

theorem applyOp_ok (h : Quiet c) (op : Op) : Quiet (applyOp c op) ∧ OpOk c op (applyOp c op) := by
  cases op with
  | get key =>
      obtain ⟨new, hok⟩ := engCacheGet_ok h key
      exact ⟨hok.quiet, hok.opOk _⟩
  | getMany keys =>
      obtain ⟨new, hok⟩ := engCacheGetMany_ok h keys
      exact ⟨hok.quiet, hok.opOk _⟩
  | peek key =>
      have hok : CallOk c [] c :=
        .of_held h rfl rfl rfl
      exact ⟨h, hok.opOk _⟩
  | pin key pin => exact engCachePin_ok h key pin
  | resetStats =>
      have hok : CallOk c [] (engCacheResetStats c) :=
        .of_held h rfl rfl rfl
      exact ⟨hok.quiet, hok.opOk _⟩

/-- No call changes the configuration. -/
theorem applyOp_cfg (h : Quiet c) (op : Op) : (applyOp c op).cfg = c.cfg := by
  cases op with
  | get key =>
      obtain ⟨new, hok⟩ := engCacheGet_ok h key
      exact hok.cfg
  | getMany keys =>
      obtain ⟨new, hok⟩ := engCacheGetMany_ok h keys
      exact hok.cfg
  | peek key => rfl
  | pin key pin =>
      show (engCachePin c key pin).1.cfg = c.cfg
      unfold engCachePin
      split_ifs
      · cases c.slotOf key <;> rfl
      · rfl
  | resetStats => rfl

theorem reaches_quiet {cfg : EngCacheCfg} {src : EngCacheSrc σ m} {ctx : σ} {arena : Int → UInt8}
    {c₀ : EngCache σ m} {guard : EngCache σ m → Op → Prop}
    (hc : engCacheCreate cfg src ctx arena = some c₀) (hr : Reaches step guard c₀ c) : Quiet c :=
  hr.invariant (engCacheCreate_quiet hc) fun s op s' h _ hs => by
    obtain rfl := Option.some.inj hs
    exact (applyOp_ok h op).1

/-- **The index invariant**: in every state a run of calls reaches, with any source, and across
every further call. -/
theorem index_invariant {cfg : EngCacheCfg} {src : EngCacheSrc σ m} {ctx : σ} {arena : Int → UInt8}
    {c₀ : EngCache σ m} (hc : engCacheCreate cfg src ctx arena = some c₀)
    (hr : Reaches step anyChoice c₀ c) : IndexOk c ∧ ∀ op, OpOk c op (applyOp c op) := by
  have h := reaches_quiet hc hr
  exact ⟨h.indexOk, fun op => (applyOp_ok h op).2⟩

/-- One byte of payload and one of metadata per key; key 1 is refused after its metadata is written. -/
def refusesOne : EngCacheSrc Unit 1 where
  describe := fun _ k _ =>
    { ctx := (), rc := if k = 1 then -1 else 0, nbytes := 1, wrote := #v[UInt8.ofNat (10 + k)] }
  load := fun _ k _ _ cap =>
    { ctx := ()
      buf := fun _ => UInt8.ofNat (20 + k)
      got := if 1 ≤ cap then 1 else -1
      payloadOff := 0
      inside := fun hgot => by split_ifs at hgot ⊢ <;> omega }
  locate := none

/-- `refusesOne` without the refusal. -/
def servesAll : EngCacheSrc Unit 1 :=
  { refusesOne with
    describe := fun _ k _ => { ctx := (), rc := 0, nbytes := 1, wrote := #v[UInt8.ofNat (10 + k)] } }

/-- Three keys and room for `nslot` one-byte slots. -/
def tinyCfg (nslot : Nat) : EngCacheCfg :=
  { budgetBytes := nslot * 12288, slotBytes := 1, nkeys := 3, minSlots := 1, wantHist := true,
    wantTrace := true }

/-- A key is fetched and pinned; a batch then finds no victim for either of its keys. -/
theorem index_invariant_pinned_run :
    ∃ c₀ c : EngCache Unit 1, engCacheCreate (tinyCfg 1) refusesOne () (fun _ => 0) = some c₀ ∧
      Reaches step anyChoice c₀ c ∧ c.pinned 0 = true ∧ c.keyOf 0 = .key 0 ∧
      IndexOk c ∧ ∀ op, OpOk c op (applyOp c op) := by
  have hrun : (engCacheCreate (tinyCfg 1) refusesOne () (fun _ => 0)).bind (fun c₀ =>
      (run step anyChoice c₀ [.get 0, .pin 0 true, .getMany [2, 2, 7]]).map fun c =>
        (c.pinned 0, c.keyOf 0)) = some (true, .key 0) := by
    rfl
  obtain ⟨c₀, hc₀, hrun⟩ := Option.bind_eq_some_iff.mp hrun
  obtain ⟨c, hc, hobs⟩ := Option.map_eq_some_iff.mp hrun
  obtain ⟨hpin, hkey⟩ := Prod.mk.inj hobs
  have hr := reaches_of_run _ .start hc
  exact ⟨c₀, c, hc₀, hr, hpin, hkey, index_invariant hc₀ hr⟩

end LlmEngine.Storage.Cache
