/-
# LlmEngine.Storage.CacheLru — the slot array is textbook LRU.

The cache never keeps an order: it keeps stamps, and scans for the smallest.  `LruInv` says that the
stamps, read along the recency order of `Lib.Lru`, decrease, and that the keys held are a prefix of
that order.  The full cache then has the last of them in the slot with the smallest stamp
(`victimLoop_oldest`, `LruInv.pickVictim_full`), and a cache that is not full has an EMPTY slot
(`LruInv.exists_empty_iff`), which the scan takes first (`victimLoop_empty`).

`lru` is the replay of `tools/sim_cache.py`: an ordered dictionary, oldest first.  It is a second program,
and is shown to hold the same prefix (`lruReplay_seen`).

* One request: `LruInv.hit` and `LruInv.miss`, the two steps of the simulation.
* A sequence: `Replayed` carries what a sequence of requests has come to, and `getAll_replayed` is the induction.
* `cache_refines_lru`: for a fresh cache and any requests whose describes and loads all succeed, the resident
  keys, the hits and every single hit or miss are those of the replay.

A request that fails is outside: the cache has then evicted its victim and holds one key fewer.
-/
import LlmEngine.Lib.Lru
import LlmEngine.Storage.CacheIndex
import Mathlib.Data.Finset.Card
import Mathlib.Data.Finset.Range
import Mathlib.Data.List.Perm.Subperm

namespace LlmEngine.Storage.Cache

open LlmEngine.Storage LlmEngine.Lib LlmEngine.Lib.Lru EngCache

variable {σ : Type} {m : Nat} {c c' : EngCache σ m}

/-! ## The replay -/

/-- `lru`'s loop state: the keys of `seen`, oldest first, and the hit count. -/
structure Sim where
  seen : List Nat
  hits : Nat
  deriving DecidableEq, Repr

/-- What `popitem(last=False)` removes when `k` is requested, if anything. -/
def lruPopped (cap : Nat) (z : Sim) (k : Nat) : Option Nat :=
  if k ∈ z.seen then none else if z.seen.length ≥ cap then z.seen.head? else none

def lruStep (cap : Nat) (z : Sim) (k : Nat) : Sim :=
  if k ∈ z.seen then { seen := z.seen.erase k ++ [k], hits := z.hits + 1 }
  else { z with seen := (if z.seen.length ≥ cap then z.seen.tail else z.seen) ++ [k] }

def lruReplay (trace : List Nat) (cap : Nat) : Sim := trace.foldl (lruStep cap) { seen := [], hits := 0 }

/-- `lru(trace, cap)`. -/
def lru (trace : List Nat) (cap : Nat) : Nat := (lruReplay trace cap).hits

theorem lruReplay_snoc (tr : List Nat) (k cap : Nat) :
    lruReplay (tr ++ [k]) cap = lruStep cap (lruReplay tr cap) k := by
  unfold lruReplay
  rw [List.foldl_append]
  rfl

/-- The replay holds what an LRU store holds, the other way round. -/
theorem lruReplay_seen {cap : Nat} (hcap : 0 < cap) (tr : List Nat) :
    (lruReplay tr cap).seen = (resident cap tr).reverse := by
  induction tr using List.reverseRecOn with
  | nil => simp [lruReplay, resident, byRecency]
  | append_singleton tr k ih =>
      have hlen := resident_length cap tr
      rw [lruReplay_snoc]
      unfold lruStep
      rw [ih]
      by_cases hk : k ∈ resident cap tr
      · rw [if_pos (List.mem_reverse.mpr hk), resident_snoc_hit hk, List.reverse_cons]
        have hnodup := resident_nodup cap tr
        rw [hnodup.erase_eq_filter, (List.nodup_reverse.mpr hnodup).erase_eq_filter,
          List.filter_reverse]
      · rw [if_neg (fun h => hk (List.mem_reverse.mp h)), resident_snoc_miss hcap hk,
          List.reverse_cons, List.length_reverse]
        split_ifs with hfull
        · rw [List.tail_reverse, List.dropLast_eq_take]
          have : (resident cap tr).length = cap := by omega
          rw [this]
        · rw [List.take_of_length_le (by omega)]

/-! ## Victims -/

/-- While an EMPTY slot exists the scan takes one. -/
theorem victimLoop_empty : ∀ (is : List Nat) (best : Option (Nat × Nat)),
    (∃ i ∈ is, c.keyOf i = .empty) →
    ∃ i ∈ is, c.victimLoop is best = some i ∧ c.keyOf i = .empty
  | [], _, h => by
      obtain ⟨i, hi, -⟩ := h
      cases hi
  | j :: js, best, h => by
      have hlater : (∀ hj : c.keyOf j = .empty, False) → ∀ best',
          ∃ i ∈ j :: js, c.victimLoop js best' = some i ∧ c.keyOf i = .empty := by
        intro hj best'
        obtain ⟨i, hi, hempty⟩ := h
        have hi' : i ∈ js := by
          rcases List.mem_cons.mp hi with rfl | hi
          · exact absurd hempty hj
          · exact hi
        obtain ⟨i', hi', hv⟩ := victimLoop_empty js best' ⟨i, hi', hempty⟩
        exact ⟨i', List.mem_cons_of_mem _ hi', hv⟩
      unfold victimLoop
      cases hk : c.keyOf j with
      | empty => exact ⟨j, List.mem_cons_self .., rfl, hk⟩
      | inflight => exact hlater (fun h => by rw [hk] at h; cases h) best
      | key k =>
          simp only
          split_ifs
          · exact hlater (fun h => by rw [hk] at h; cases h) best
          · exact hlater (fun h => by rw [hk] at h; cases h) _
          · exact hlater (fun h => by rw [hk] at h; cases h) best

/-- With every slot holding an unpinned key the scan takes one with the smallest stamp. -/
theorem victimLoop_oldest : ∀ (is : List Nat) (best : Option (Nat × Nat)),
    (∀ i ∈ is, (∃ k, c.keyOf i = .key k) ∧ c.pinned i = false) →
    (∀ b ∈ best, b.1 = c.usedAt b.2) → (is ≠ [] ∨ best ≠ none) →
    ∃ v, c.victimLoop is best = some v ∧ (v ∈ is ∨ ∃ b ∈ best, b.2 = v) ∧
      (∀ i ∈ is, c.usedAt v ≤ c.usedAt i) ∧ ∀ b ∈ best, c.usedAt v ≤ c.usedAt b.2
  | [], best, _, _, hne => by
      cases best with
      | none => simp at hne
      | some b =>
          refine ⟨b.2, rfl, Or.inr ⟨b, rfl, rfl⟩, fun i hi => absurd hi List.not_mem_nil, ?_⟩
          intro b' hb'
          obtain rfl := Option.some.inj hb'
          exact le_refl _
  | j :: js, best, hkeys, hbest, _ => by
      obtain ⟨⟨k, hk⟩, hpin⟩ := hkeys j (List.mem_cons_self ..)
      have hkeys' : ∀ i ∈ js, (∃ k, c.keyOf i = .key k) ∧ c.pinned i = false :=
        fun i hi => hkeys i (List.mem_cons_of_mem _ hi)
      unfold victimLoop
      simp only [hk, hpin, Bool.false_eq_true, if_false]
      by_cases hold : (best.all fun b => decide (c.usedAt j < b.1)) = true
      · -- slot j is older than the best so far and becomes it
        rw [if_pos hold]
        obtain ⟨v, hv, hmem, hle, hleb⟩ := victimLoop_oldest js (some (c.usedAt j, j)) hkeys'
          (fun b hb => by obtain rfl := Option.some.inj hb; rfl) (Or.inr (by simp))
        have hvj : c.usedAt v ≤ c.usedAt j := hleb (c.usedAt j, j) rfl
        refine ⟨v, hv, Or.inl ?_, ?_, ?_⟩
        · rcases hmem with hmem | ⟨b, hb, rfl⟩
          · exact List.mem_cons_of_mem _ hmem
          · obtain rfl := Option.some.inj hb
            exact List.mem_cons_self ..
        · intro i hi
          rcases List.mem_cons.mp hi with rfl | hi
          · exact hvj
          · exact hle i hi
        · intro b hb
          have hlt : c.usedAt j < b.1 := by
            obtain rfl := Option.mem_def.mp hb
            simpa using hold
          rw [hbest b hb] at hlt
          omega
      · -- the best so far is at least as old, and stays
        rw [if_neg hold]
        obtain ⟨b₀, hb₀⟩ : ∃ b, best = some b := by
          cases best with
          | none => simp at hold
          | some b => exact ⟨b, rfl⟩
        subst hb₀
        obtain ⟨v, hv, hmem, hle, hleb⟩ := victimLoop_oldest js (some b₀) hkeys' hbest
          (Or.inr (by simp))
        have hvb : c.usedAt v ≤ c.usedAt b₀.2 := hleb b₀ rfl
        have hbj : c.usedAt b₀.2 ≤ c.usedAt j := by
          have := hbest b₀ rfl
          simp at hold
          omega
        refine ⟨v, hv, hmem.imp (List.mem_cons_of_mem _) id, ?_, hleb⟩
        intro i hi
        rcases List.mem_cons.mp hi with rfl | hi
        · omega
        · exact hle i hi

/-- The scan reads the slot states, the pins and the stamps only. -/
theorem pickVictim_congr (hkeyOf : c'.keyOf = c.keyOf) (hpinned : c'.pinned = c.pinned)
    (husedAt : c'.usedAt = c.usedAt) (hnslot : c'.nslot = c.nslot) :
    c'.pickVictim = c.pickVictim := by
  have hloop : ∀ (is : List Nat) (best : Option (Nat × Nat)),
      c'.victimLoop is best = c.victimLoop is best := by
    intro is
    induction is with
    | nil => intro best; rfl
    | cons i is ih =>
        intro best
        unfold victimLoop
        rw [hkeyOf, hpinned, husedAt]
        simp only [ih]
  unfold pickVictim
  rw [hnslot, hloop]

/-! ## Requests -/

/-- The request went well as far as the source is concerned: it described the key with a size that
fits, and delivered it in full. -/
def Event.succeeded (slotBytes : Int) : Event m → Prop
  | .describe _ rc nbytes _ => rc = 0 ∧ nbytes ≤ slotBytes
  | .load _ _ _ need got _ _ => got = need

instance (slotBytes : Int) (e : Event m) : Decidable (e.succeeded slotBytes) :=
  match e with
  | .describe _ _ _ _ => inferInstanceAs (Decidable (_ ∧ _))
  | .load _ _ _ _ _ _ _ => inferInstanceAs (Decidable (_ = _))

/-- What a miss leaves of the fields LRU is about, when the source delivers. -/
structure Admitted (c : EngCache σ m) (key slot : Nat) (c' : EngCache σ m) : Prop where
  slotOf : c'.slotOf = Function.update (c.evict slot).slotOf key (some slot)
  usedAt : c'.usedAt = Function.update c.usedAt slot (c.clock + 1)
  clock : c'.clock = c.clock + 1
  pinned : c'.pinned = c.pinned
  hits : c'.hits = c.hits
  trace : c'.trace = c.trace

/-- **A miss whose calls succeed admits the key** into the slot the scan picks. -/
theorem admitKey_miss {key slot : Nat} (habs : c.slotOf key = none) (hv : c.pickVictim = some slot)
    (hok : ∀ e ∈ (admitKey c key).1.log, e.succeeded c.cfg.slotBytes) :
    Admitted c key slot (admitKey c key).1 := by
  have hpick : (admitDescribed c key).1.pickVictim = some slot := by
    rw [← hv]
    exact pickVictim_congr rfl rfl rfl rfl
  have hlog : Event.describe key (admitDescribed c key).2.rc (admitDescribed c key).2.nbytes
      (admitDescribed c key).2.wrote ∈ (admitDescribed c key).1.log := List.mem_cons_self ..
  rcases admitKey_cases c key with ⟨slot', hs, -⟩ | ⟨-, hfail, heq⟩ | ⟨-, -, slot', hv', heq⟩
  · rw [habs] at hs
    cases hs
  · rw [heq] at hok
    rcases hfail with (hrc | hbig) | hnone
    · exact absurd (hok _ hlog).1 hrc
    · exact absurd (hok _ hlog).2 (not_le.mpr hbig)
    · rw [hpick] at hnone
      cases hnone
  · obtain rfl := Option.some.inj (hpick.symm.trans hv')
    rw [heq] at hok ⊢
    by_cases hgot : (((admitDescribed c key).1.install slot (admitDescribed c key).2.wrote).load key slot).got =
        (admitDescribed c key).2.nbytes
    · rw [fill_full hgot]
      refine ⟨?_, rfl, rfl, rfl, rfl, rfl⟩
      show Function.update ((admitDescribed c key).1.evict slot).slotOf key (some slot) = _
      congr 1
    · rw [fill_short hgot] at hok
      exact absurd (hok _ (List.mem_cons_self ..)) hgot

/-! ## The simulation -/

/-- The cache after the requests `tr`: it holds a prefix of the recency order, and along it the
stamps decrease. -/
structure LruInv (c : EngCache σ m) (tr : List Nat) : Prop where
  quiet : Quiet c
  nslot_pos : 0 < c.nslot
  unpinned : ∀ s, c.pinned s = false
  held : ∀ k, (∃ s, c.slotOf k = some s) ↔ k ∈ resident c.nslot tr
  stamps : (resident c.nslot tr).Pairwise fun a b => ∀ sa sb, c.slotOf a = some sa →
    c.slotOf b = some sb → c.usedAt sb < c.usedAt sa
  clock : ∀ s, c.usedAt s ≤ c.clock

/-- The slot of a held key. -/
def heldSlot (c : EngCache σ m) (k : Nat) : Nat := (c.slotOf k).getD 0

theorem LruInv.heldSlot_eq {tr : List Nat} (h : LruInv c tr) {k : Nat}
    (hk : k ∈ resident c.nslot tr) : c.slotOf k = some (heldSlot c k) := by
  obtain ⟨s, hs⟩ := (h.held k).mpr hk
  rw [heldSlot, hs]
  rfl

/-- The occupied slots, one per held key. -/
theorem LruInv.slots_nodup {tr : List Nat} (h : LruInv c tr) :
    ((resident c.nslot tr).map (heldSlot c)).Nodup := by
  refine (resident_nodup c.nslot tr).map_on ?_
  intro a ha b hb hab
  have hka := (h.quiet.inverse a _).mp (h.heldSlot_eq ha)
  have hkb := (h.quiet.inverse b _).mp (h.heldSlot_eq hb)
  rw [hab, hkb] at hka
  exact (SlotState.key.inj hka).symm

theorem LruInv.slots_subset {tr : List Nat} (h : LruInv c tr) :
    (resident c.nslot tr).map (heldSlot c) ⊆ List.range c.nslot := by
  intro s hs
  obtain ⟨k, hk, rfl⟩ := List.mem_map.mp hs
  have hkey := (h.quiet.inverse k _).mp (h.heldSlot_eq hk)
  exact List.mem_range.mpr (h.quiet.bound _ (by rw [hkey]; intro h; cases h))

/-- A slot is occupied iff it is the slot of a held key. -/
theorem LruInv.occupied_iff {tr : List Nat} (h : LruInv c tr) {s : Nat} :
    c.keyOf s ≠ .empty ↔ s ∈ (resident c.nslot tr).map (heldSlot c) := by
  constructor
  · intro hs
    cases hk : c.keyOf s with
    | empty => exact absurd hk hs
    | inflight => exact absurd hk (h.quiet.not_inflight s)
    | key k =>
        have hso := (h.quiet.inverse k s).mpr hk
        exact List.mem_map.mpr ⟨k, (h.held k).mp ⟨s, hso⟩, by rw [heldSlot, hso]; rfl⟩
  · intro hs hempty
    obtain ⟨k, hk, rfl⟩ := List.mem_map.mp hs
    rw [(h.quiet.inverse k _).mp (h.heldSlot_eq hk)] at hempty
    cases hempty

/-- A cache that is not full has an EMPTY slot, and a full one has none. -/
theorem LruInv.exists_empty_iff {tr : List Nat} (h : LruInv c tr) :
    (∃ s ∈ List.range c.nslot, c.keyOf s = .empty) ↔ (resident c.nslot tr).length < c.nslot := by
  have hsub := h.slots_nodup.subperm h.slots_subset
  have hlen : ((resident c.nslot tr).map (heldSlot c)).length = (resident c.nslot tr).length := by simp
  constructor
  · rintro ⟨s, hs, hempty⟩
    by_contra hfull
    have hperm := hsub.perm_of_length_le (by rw [hlen, List.length_range]; omega)
    exact absurd hempty (h.occupied_iff.mpr (hperm.mem_iff.mpr hs))
  · intro hlt
    by_contra hno
    push Not at hno
    have hall : List.range c.nslot ⊆ (resident c.nslot tr).map (heldSlot c) :=
      fun s hs => h.occupied_iff.mp (hno s hs)
    have := (List.nodup_range.subperm hall).length_le
    rw [hlen, List.length_range] at this
    omega

/-- **The victim of a full cache** is the slot of the least recently requested key it holds. -/
theorem LruInv.pickVictim_full {tr : List Nat} (h : LruInv c tr)
    (hfull : (resident c.nslot tr).length = c.nslot) (hne : resident c.nslot tr ≠ []) :
    c.pickVictim = some (heldSlot c ((resident c.nslot tr).getLast hne)) := by
  have hkeys : ∀ i ∈ List.range c.nslot, (∃ k, c.keyOf i = .key k) ∧ c.pinned i = false := by
    intro i hi
    refine ⟨?_, h.unpinned i⟩
    cases hk : c.keyOf i with
    | empty =>
        have := h.exists_empty_iff.mp ⟨i, hi, hk⟩
        omega
    | inflight => exact absurd hk (h.quiet.not_inflight i)
    | key k => exact ⟨k, rfl⟩
  have hrange : List.range c.nslot ≠ [] := by
    have := h.nslot_pos
    simp only [ne_eq, List.range_eq_nil]
    omega
  obtain ⟨v, hv, hmem, hle, -⟩ := victimLoop_oldest (c := c) (List.range c.nslot) none hkeys
    (fun b hb => by cases hb) (Or.inl hrange)
  rw [pickVictim, hv]
  congr 1
  have hvr : v ∈ List.range c.nslot := hmem.resolve_right fun ⟨b, hb, _⟩ => by cases hb
  obtain ⟨⟨k, hk⟩, -⟩ := hkeys v hvr
  have hso := (h.quiet.inverse k v).mpr hk
  have hkr := (h.held k).mp ⟨v, hso⟩
  have hlast := List.getLast_mem hne
  have hsl := h.heldSlot_eq hlast
  by_cases heq : k = (resident c.nslot tr).getLast hne
  · rw [← heq, heldSlot, hso]
    rfl
  · -- a key other than the last has a larger stamp than the last one
    have hpair : c.usedAt (heldSlot c ((resident c.nslot tr).getLast hne)) < c.usedAt v := by
      have hp := h.stamps
      rw [← List.dropLast_append_getLast hne] at hp hkr
      rw [List.pairwise_append] at hp
      have hk' : k ∈ (resident c.nslot tr).dropLast := by
        rcases List.mem_append.mp hkr with hk' | hk'
        · exact hk'
        · exact absurd (List.mem_singleton.mp hk') heq
      exact hp.2.2 k hk' _ (List.mem_singleton.mpr rfl) v _ hso hsl
    have hin : heldSlot c ((resident c.nslot tr).getLast hne) ∈ List.range c.nslot :=
      h.slots_subset (List.mem_map_of_mem hlast)
    have := hle _ hin
    omega

/-- Two held keys are in different slots. -/
theorem LruInv.slot_ne {tr : List Nat} (h : LruInv c tr) {a b sa sb : Nat} (hab : a ≠ b)
    (ha : c.slotOf a = some sa) (hb : c.slotOf b = some sb) : sa ≠ sb := by
  rintro rfl
  have := ((h.quiet.inverse a sa).mp ha).symm.trans ((h.quiet.inverse b sa).mp hb)
  exact hab (SlotState.key.inj this)

/-- The key requested last gets the newest stamp, whatever else is held. -/
theorem stamps_cons {c' : EngCache σ m} {k slot clock : Nat} {l : List Nat}
    (hslot : c'.slotOf k = some slot) (hnew : c'.usedAt slot = clock + 1)
    (hold : ∀ b ∈ l, ∀ sb, c'.slotOf b = some sb → c'.usedAt sb ≤ clock)
    (hrest : l.Pairwise fun a b => ∀ sa sb, c'.slotOf a = some sa → c'.slotOf b = some sb →
      c'.usedAt sb < c'.usedAt sa) :
    (k :: l).Pairwise fun a b => ∀ sa sb, c'.slotOf a = some sa → c'.slotOf b = some sb →
      c'.usedAt sb < c'.usedAt sa := by
  refine List.pairwise_cons.mpr ⟨fun b hb sa sb hsa hsb => ?_, hrest⟩
  rw [hslot] at hsa
  obtain rfl := Option.some.inj hsa
  rw [hnew]
  exact Nat.lt_succ_of_le (hold b hb sb hsb)

theorem LruInv.hit {tr : List Nat} (h : LruInv c tr) {key slot : Nat} (hs : c.slotOf key = some slot) :
    LruInv (admitKey c key).1 (tr ++ [key]) := by
  have hmem : key ∈ resident c.nslot tr := (h.held key).mp ⟨slot, hs⟩
  have hnodup := resident_nodup c.nslot tr
  have hres := resident_snoc_hit hmem
  rw [admitKey_hit hs]
  refine ⟨Batch.congr h.quiet rfl rfl rfl rfl rfl, h.nslot_pos, h.unpinned, ?_, ?_, ?_⟩
  · intro k
    show (∃ s, c.slotOf k = some s) ↔ k ∈ resident c.nslot (tr ++ [key])
    rw [h.held k, hres, List.mem_cons, hnodup.mem_erase_iff]
    by_cases hk : k = key
    · subst hk
      exact iff_of_true hmem (Or.inl rfl)
    · exact ⟨fun hm => Or.inr ⟨hk, hm⟩, fun hm => (hm.resolve_left hk).2⟩
  · show (resident c.nslot (tr ++ [key])).Pairwise _
    rw [hres]
    have hother : ∀ b ∈ (resident c.nslot tr).erase key, ∀ sb, c.slotOf b = some sb → sb ≠ slot := by
      intro b hb sb hsb
      exact h.slot_ne (hnodup.mem_erase_iff.mp hb).1 hsb hs
    refine stamps_cons (k := key) hs (Function.update_self ..) ?_ ?_
    · intro b hb sb hsb
      show Function.update c.usedAt slot (c.clock + 1) sb ≤ c.clock
      rw [Function.update_of_ne (hother b hb sb hsb)]
      exact h.clock sb
    · refine List.Pairwise.imp_of_mem ?_ (h.stamps.sublist List.erase_sublist)
      intro a b ha hb hab sa sb hsa hsb
      show Function.update c.usedAt slot (c.clock + 1) sb < Function.update c.usedAt slot (c.clock + 1) sa
      rw [Function.update_of_ne (hother a ha sa hsa), Function.update_of_ne (hother b hb sb hsb)]
      exact hab sa sb hsa hsb
  · intro s
    show Function.update c.usedAt slot (c.clock + 1) s ≤ c.clock + 1
    by_cases hs' : s = slot
    · subst hs'
      rw [Function.update_self]
    · rw [Function.update_of_ne hs']
      exact Nat.le_succ_of_le (h.clock s)

/-- The keys a miss leaves in place: all of them, or all but the least recently requested. -/
theorem LruInv.miss_keeps {tr : List Nat} (h : LruInv c tr) :
    ∃ slot, c.pickVictim = some slot ∧
      ∀ k, (c.keyOf slot = .key k → k ∉ (resident c.nslot tr).take (c.nslot - 1)) ∧
        (k ∈ resident c.nslot tr → c.keyOf slot ≠ .key k →
          k ∈ (resident c.nslot tr).take (c.nslot - 1)) := by
  have hle : (resident c.nslot tr).length ≤ c.nslot := by
    rw [resident_length]
    exact Nat.min_le_left _ _
  by_cases hfull : (resident c.nslot tr).length = c.nslot
  · have hne : resident c.nslot tr ≠ [] := by
      intro hnil
      rw [hnil] at hfull
      exact absurd hfull (Nat.ne_of_lt h.nslot_pos)
    have hdrop : (resident c.nslot tr).take (c.nslot - 1) = (resident c.nslot tr).dropLast := by
      rw [List.dropLast_eq_take, hfull]
    have hlast := (h.quiet.inverse _ _).mp (h.heldSlot_eq (List.getLast_mem hne))
    have hnodup := resident_nodup c.nslot tr
    rw [← List.dropLast_append_getLast hne, List.nodup_append] at hnodup
    refine ⟨_, h.pickVictim_full hfull hne, fun k => ⟨fun hk => ?_, fun hk hk' => ?_⟩⟩
    · rw [hlast] at hk
      rw [← SlotState.key.inj hk, hdrop]
      intro hmem
      exact hnodup.2.2 _ hmem _ (List.mem_singleton.mpr rfl) rfl
    · rw [hdrop]
      rw [← List.dropLast_append_getLast hne] at hk
      rcases List.mem_append.mp hk with hk | hk
      · exact hk
      · rw [List.mem_singleton.mp hk] at hk'
        exact absurd hlast hk'
  · obtain ⟨i, -, hv, hempty⟩ := victimLoop_empty (c := c) (List.range c.nslot) none
      (h.exists_empty_iff.mpr (by omega))
    refine ⟨i, hv, fun k => ⟨fun hk => ?_, fun hk _ => ?_⟩⟩
    · rw [hempty] at hk
      cases hk
    · rw [List.take_of_length_le (by omega)]
      exact hk

theorem LruInv.miss {tr : List Nat} (h : LruInv c tr) {key : Nat} (hrange : c.inRange key)
    (habs : c.slotOf key = none)
    (hok : ∀ e ∈ (admitKey c key).1.log, e.succeeded c.cfg.slotBytes) :
    LruInv (admitKey c key).1 (tr ++ [key]) := by
  obtain ⟨slot, hv, hkeep⟩ := h.miss_keeps
  have hadm := admitKey_miss habs hv hok
  obtain ⟨new, hcall⟩ := admitKey_ok h.quiet hrange
  have hnot : key ∉ resident c.nslot tr := fun hk => by
    obtain ⟨s, hs⟩ := (h.held key).mpr hk
    rw [habs] at hs
    cases hs
  have hres := resident_snoc_miss h.nslot_pos hnot
  have hnslot : (admitKey c key).1.nslot = c.nslot := hcall.nslot
  have hslotOf : ∀ k, k ≠ key → (admitKey c key).1.slotOf k =
      if c.keyOf slot = .key k then none else c.slotOf k := fun k hk => by
    rw [hadm.slotOf, Function.update_of_ne hk, evict_slotOf]
  have hkey : (admitKey c key).1.slotOf key = some slot := by
    rw [hadm.slotOf, Function.update_self]
  -- a key left in place keeps its slot, which is not the victim's
  have hother : ∀ b ∈ (resident c.nslot tr).take (c.nslot - 1), ∀ sb,
      (admitKey c key).1.slotOf b = some sb → c.slotOf b = some sb ∧ sb ≠ slot := by
    intro b hb sb hsb
    have hbk : b ≠ key := by
      rintro rfl
      exact hnot (List.mem_of_mem_take hb)
    have hbv : c.keyOf slot ≠ .key b := fun hk => (hkeep b).1 hk hb
    rw [hslotOf b hbk, if_neg hbv] at hsb
    refine ⟨hsb, ?_⟩
    rintro rfl
    exact hbv ((h.quiet.inverse b sb).mp hsb)
  refine ⟨hcall.quiet, by rw [hnslot]; exact h.nslot_pos, by rw [hadm.pinned]; exact h.unpinned, ?_, ?_, ?_⟩
  · intro k
    rw [hnslot, hres, List.mem_cons]
    by_cases hk : k = key
    · subst hk
      exact iff_of_true ⟨slot, hkey⟩ (Or.inl rfl)
    · rw [hslotOf k hk]
      constructor
      · rintro ⟨s, hs⟩
        split_ifs at hs with hvic
        exact Or.inr ((hkeep k).2 ((h.held k).mp ⟨s, hs⟩) hvic)
      · intro hm
        have hm := hm.resolve_left hk
        rw [if_neg (fun hvic => (hkeep k).1 hvic hm)]
        exact (h.held k).mpr (List.mem_of_mem_take hm)
  · rw [hnslot, hres]
    refine stamps_cons hkey (by rw [hadm.usedAt, Function.update_self]) ?_ ?_
    · intro b hb sb hsb
      rw [hadm.usedAt, Function.update_of_ne (hother b hb sb hsb).2]
      exact h.clock sb
    · refine List.Pairwise.imp_of_mem ?_ (h.stamps.sublist (List.take_sublist _ _))
      intro a b ha hb hab sa sb hsa hsb
      obtain ⟨hsa', hna⟩ := hother a ha sa hsa
      obtain ⟨hsb', hnb⟩ := hother b hb sb hsb
      rw [hadm.usedAt, Function.update_of_ne hna, Function.update_of_ne hnb]
      exact hab sa sb hsa' hsb'
  · intro s
    rw [hadm.usedAt, hadm.clock]
    by_cases hs : s = slot
    · subst hs
      rw [Function.update_self]
    · rw [Function.update_of_ne hs]
      exact Nat.le_succ_of_le (h.clock s)

/-! ## Whole request sequences -/

/-- The cache after the requests `ks`. -/
def getAll (c : EngCache σ m) (ks : List Nat) : EngCache σ m :=
  ks.foldl (fun c k => (engCacheGet c k).1) c

/-- The requests that are counted and recorded: those in the key space. -/
def requested (c : EngCache σ m) (ks : List Nat) : List Nat := ks.filter fun k => decide (c.inRange k)

/-- Every `describe` and every `load` made while serving `ks` succeeded. -/
def Succeeds (c : EngCache σ m) (ks : List Nat) : Prop :=
  ∀ e ∈ (getAll c ks).log, e.succeeded c.cfg.slotBytes

theorem getAll_snoc (c : EngCache σ m) (ks : List Nat) (k : Nat) :
    getAll c (ks ++ [k]) = (engCacheGet (getAll c ks) k).1 := by
  unfold getAll
  rw [List.foldl_append]
  rfl

theorem requested_snoc (c : EngCache σ m) (ks : List Nat) (k : Nat) :
    requested c (ks ++ [k]) = requested c ks ++ if c.inRange k then [k] else [] := by
  unfold requested
  rw [List.filter_append]
  by_cases hk : c.inRange k <;> simp [hk]

/-- What a run of requests keeps: the LRU invariant, and the hit count and the trace of the replay. -/
structure Replayed (c₀ c : EngCache σ m) (tr : List Nat) : Prop extends LruInv c tr where
  cfg : c.cfg = c₀.cfg
  nslot : c.nslot = c₀.nslot
  hits : c.hits = lru tr c₀.nslot
  trace : c₀.cfg.wantTrace = true → c.trace = tr

/-- A key is held iff the replay has seen it. -/
theorem LruInv.seen_iff {tr : List Nat} (h : LruInv c tr) (k : Nat) :
    k ∈ (lruReplay tr c.nslot).seen ↔ ∃ s, c.slotOf k = some s := by
  rw [lruReplay_seen h.nslot_pos, List.mem_reverse, h.held k]

theorem record_lruInv {tr : List Nat} (h : LruInv c tr) (key : Nat) : LruInv (record c key) tr :=
  { h with quiet := Batch.congr h.quiet rfl rfl rfl rfl rfl }

/-- **One request.** -/
theorem Replayed.get {c₀ : EngCache σ m} {tr : List Nat} (h : Replayed c₀ c tr) {key : Nat}
    (hrange : c.inRange key)
    (hok : ∀ e ∈ (engCacheGet c key).1.log, e.succeeded c.cfg.slotBytes) :
    Replayed c₀ (engCacheGet c key).1 (tr ++ [key]) := by
  have hrec := record_lruInv h.toLruInv key
  obtain ⟨new, hcall⟩ := engCacheGet_ok h.quiet key
  have hget : (engCacheGet c key).1 = (admitKey (record c key) key).1 := by
    unfold engCacheGet
    rw [if_pos hrange]
  have htrace : ∀ c' : EngCache σ m, c'.trace = (record c key).trace →
      c₀.cfg.wantTrace = true → c'.trace = tr ++ [key] := by
    intro c' hc' hw
    rw [hc']
    show (if c.cfg.wantTrace then c.trace ++ [key] else c.trace) = _
    rw [h.cfg, hw, if_pos rfl, h.trace hw]
  have hstep : lru (tr ++ [key]) c₀.nslot =
      lru tr c₀.nslot + if (c.slotOf key).isSome then 1 else 0 := by
    have hseen := (h.toLruInv.seen_iff key).trans Option.isSome_iff_exists.symm
    rw [h.nslot] at hseen
    unfold lru
    rw [lruReplay_snoc]
    unfold lruStep
    by_cases hk : key ∈ (lruReplay tr c₀.nslot).seen
    · rw [if_pos hk, if_pos (hseen.mp hk)]
    · rw [if_neg hk, if_neg (fun hs => hk (hseen.mpr hs)), Nat.add_zero]
  cases hs : c.slotOf key with
  | some slot =>
      have hs' : (record c key).slotOf key = some slot := hs
      refine { (hget ▸ hrec.hit hs' : LruInv (engCacheGet c key).1 (tr ++ [key])) with
        cfg := hcall.cfg.trans h.cfg, nslot := hcall.nslot.trans h.nslot, hits := ?_, trace := ?_ }
      · rw [hstep, hs, hget, admitKey_hit hs', ← h.hits]
        rfl
      · refine htrace _ ?_
        rw [hget, admitKey_hit hs']
  | none =>
      have hs' : (record c key).slotOf key = none := hs
      rw [hget] at hok
      obtain ⟨slot, hv, -⟩ := hrec.miss_keeps
      have hadm := admitKey_miss hs' hv hok
      refine { (hget ▸ hrec.miss hrange hs' hok : LruInv (engCacheGet c key).1 (tr ++ [key])) with
        cfg := hcall.cfg.trans h.cfg, nslot := hcall.nslot.trans h.nslot, hits := ?_, trace := ?_ }
      · rw [hstep, hs, ← h.hits, hget, hadm.hits]
        rfl
      · refine htrace _ ?_
        rw [hget, hadm.trace]

theorem engCacheCreate_replayed {cfg : EngCacheCfg} {src : EngCacheSrc σ m} {ctx : σ}
    {arena : Int → UInt8} (h : engCacheCreate cfg src ctx arena = some c) : Replayed c c [] := by
  have hquiet := engCacheCreate_quiet h
  unfold engCacheCreate at h
  simp only at h
  split_ifs at h with hbad hfew
  obtain rfl := Option.some.inj h
  refine { quiet := hquiet, nslot_pos := ?_, unpinned := fun _ => rfl, held := fun k => ?_,
           stamps := ?_, clock := fun _ => le_refl _, cfg := rfl, nslot := rfl, hits := rfl,
           trace := fun _ => rfl }
  · simp only
    omega
  · refine iff_of_false (fun ⟨s, hs⟩ => by cases hs) ?_
    simp [resident, byRecency]
  · simp [resident, byRecency]

/-- The run lemma: along a request sequence whose calls all succeed, the replay is matched. -/
theorem getAll_replayed {c₀ : EngCache σ m} (h₀ : Replayed c₀ c₀ []) :
    ∀ ks : List Nat, Succeeds c₀ ks → Replayed c₀ (getAll c₀ ks) (requested c₀ ks) := by
  intro ks
  induction ks using List.reverseRecOn with
  | nil => intro _; exact h₀
  | append_singleton ks k ih =>
      intro hok
      unfold Succeeds at hok
      rw [getAll_snoc] at hok ⊢
      have hquiet : Quiet (getAll c₀ ks) := by
        clear ih hok
        induction ks using List.reverseRecOn with
        | nil => exact h₀.quiet
        | append_singleton ks k' ih' =>
            rw [getAll_snoc]
            obtain ⟨new, hcall⟩ := engCacheGet_ok ih' k'
            exact hcall.quiet
      obtain ⟨new, hcall⟩ := engCacheGet_ok hquiet k
      -- the log only grows, so the calls of the shorter run succeeded too
      have hprev : Replayed c₀ (getAll c₀ ks) (requested c₀ ks) := ih fun e he =>
        hok e (by rw [hcall.log]; exact List.mem_append_right _ he)
      rw [requested_snoc]
      have hin : (getAll c₀ ks).inRange k ↔ c₀.inRange k := by
        unfold EngCache.inRange
        rw [hprev.cfg]
      by_cases hk : c₀.inRange k
      · rw [if_pos hk]
        exact hprev.get (hin.mpr hk) (by rw [hprev.cfg]; exact hok)
      · rw [if_neg hk, List.append_nil]
        have hsame : engCacheGet (getAll c₀ ks) k = (getAll c₀ ks, none) := by
          unfold engCacheGet
          rw [if_neg (fun h => hk (hin.mp h))]
        rw [hsame]
        exact hprev

/-- A miss counts no hit, whatever the source does. -/
theorem admitKey_miss_hits {key : Nat} (habs : c.slotOf key = none) :
    (admitKey c key).1.hits = c.hits := by
  have hfill : ∀ (c₁ : EngCache σ m) (slot : Nat) (need : Int) (wrote : Vector UInt8 m),
      (fill c₁ key slot need wrote).1.hits = c₁.hits := by
    intro c₁ slot need wrote
    unfold fill
    simp only
    split_ifs <;> rfl
  rcases admitKey_cases c key with ⟨slot, hs, -⟩ | ⟨-, -, heq⟩ | ⟨-, -, slot, -, heq⟩
  · rw [habs] at hs
    cases hs
  · rw [heq]
    rfl
  · rw [heq]
    exact hfill _ _ _ _

/-- Whether a request is counted as a hit is decided before the source is asked anything. -/
theorem engCacheGet_hits {key : Nat} (hrange : c.inRange key) :
    (engCacheGet c key).1.hits = c.hits + if (c.slotOf key).isSome then 1 else 0 := by
  have hget : (engCacheGet c key).1 = (admitKey (record c key) key).1 := by
    unfold engCacheGet
    rw [if_pos hrange]
  rw [hget]
  cases hs : c.slotOf key with
  | some slot =>
      rw [admitKey_hit (show (record c key).slotOf key = some slot from hs)]
      rfl
  | none => exact admitKey_miss_hits (show (record c key).slotOf key = none from hs)

/-- A key is resident. -/
def Resident (c : EngCache σ m) (k : Nat) : Prop := ∃ s, c.slotOf k = some s

/-- What LRU drops when `k` is requested is what the replay pops. -/
theorem dropped_iff_popped {cap : Nat} (hcap : 0 < cap) (tr : List Nat) (k k' : Nat) :
    (k' ∈ resident cap tr ∧ k' ∉ resident cap (tr ++ [k])) ↔
      lruPopped cap (lruReplay tr cap) k = some k' := by
  have hnodup := resident_nodup cap tr
  have hle : (resident cap tr).length ≤ cap := by
    rw [resident_length]
    exact Nat.min_le_left _ _
  unfold lruPopped
  rw [lruReplay_seen hcap]
  simp only [List.mem_reverse, List.length_reverse]
  by_cases hk : k ∈ resident cap tr
  · rw [if_pos hk, resident_snoc_hit hk]
    refine iff_of_false ?_ (fun h => by cases h)
    rintro ⟨hmem, hnot⟩
    apply hnot
    by_cases heq : k' = k
    · exact heq ▸ List.mem_cons_self ..
    · exact List.mem_cons_of_mem _ ((hnodup.mem_erase_iff).mpr ⟨heq, hmem⟩)
  · rw [if_neg hk, resident_snoc_miss hcap hk]
    split_ifs with hfull
    · have hne : resident cap tr ≠ [] := by
        intro hnil
        rw [hnil] at hfull
        exact absurd hfull (Nat.not_le.mpr hcap)
      have hlen : (resident cap tr).length = cap := le_antisymm hle hfull
      have htake : (resident cap tr).take (cap - 1) = (resident cap tr).dropLast := by
        rw [List.dropLast_eq_take, hlen]
      rw [htake, List.head?_reverse, List.getLast?_eq_some_getLast hne, Option.some.injEq]
      rw [← List.dropLast_append_getLast hne, List.nodup_append] at hnodup
      constructor
      · rintro ⟨hmem, hnot⟩
        rw [← List.dropLast_append_getLast hne] at hmem
        rcases List.mem_append.mp hmem with hmem | hmem
        · exact absurd (List.mem_cons_of_mem _ hmem) hnot
        · exact (List.mem_singleton.mp hmem).symm
      · rintro rfl
        refine ⟨List.getLast_mem hne, fun hmem => ?_⟩
        rcases List.mem_cons.mp hmem with heq | hmem
        · exact hk (heq ▸ List.getLast_mem hne)
        · exact hnodup.2.2 _ hmem _ (List.mem_singleton.mpr rfl) rfl
    · refine iff_of_false ?_ (fun h => by cases h)
      rintro ⟨hmem, hnot⟩
      rw [List.take_of_length_le (by omega)] at hnot
      exact hnot (List.mem_cons_of_mem _ hmem)

/-- What LRU promises after the requests `ks`, and of the next one. -/
structure RefinesLru (c₀ : EngCache σ m) (ks : List Nat) : Prop where
  /-- the keys held are the most recently requested distinct ones, as many as fit -/
  resident : ∀ k, Resident (getAll c₀ ks) k ↔ k ∈ (requested c₀ ks).dedup.reverse.take c₀.nslot
  /-- the hits are those of the replay of the recorded trace at the same capacity -/
  hits : (getAll c₀ ks).hits = lru (requested c₀ ks) c₀.nslot
  trace : c₀.cfg.wantTrace = true → (getAll c₀ ks).trace = requested c₀ ks
  /-- the next request is a hit iff fewer than `nslot` other keys were requested since its last -/
  hit : ∀ k, c₀.inRange k →
    ((engCacheGet (getAll c₀ ks) k).1.hits = (getAll c₀ ks).hits + 1 ↔
      ∃ pre mid, requested c₀ ks = pre ++ k :: mid ∧ k ∉ mid ∧ mid.dedup.length < c₀.nslot) ∧
    ((engCacheGet (getAll c₀ ks) k).1.hits = (getAll c₀ ks).hits + 1 ∨
      (engCacheGet (getAll c₀ ks) k).1.hits = (getAll c₀ ks).hits)
  /-- the key the next request evicts is the one the replay pops -/
  evicted : ∀ k, c₀.inRange k → Succeeds c₀ (ks ++ [k]) → ∀ k',
    (Resident (getAll c₀ ks) k' ∧ ¬ Resident (getAll c₀ (ks ++ [k])) k') ↔
      lruPopped c₀.nslot (lruReplay (requested c₀ ks) c₀.nslot) k = some k'

/-- A request in the key space is a hit iff its key is resident. -/
theorem hit_iff_resident {key : Nat} (hrange : c.inRange key) :
    (engCacheGet c key).1.hits = c.hits + 1 ↔ Resident c key := by
  rw [engCacheGet_hits hrange]
  unfold Resident
  rw [← Option.isSome_iff_exists]
  by_cases hs : (c.slotOf key).isSome = true
  · rw [if_pos hs]
    exact iff_of_true rfl hs
  · rw [if_neg hs]
    exact iff_of_false (by omega) hs

theorem Replayed.inRange_iff {c₀ : EngCache σ m} {tr : List Nat} (h : Replayed c₀ c tr) (k : Nat) :
    c.inRange k ↔ c₀.inRange k := by
  unfold EngCache.inRange
  rw [h.cfg]

theorem getAll_refines {c₀ : EngCache σ m} (h₀ : Replayed c₀ c₀ []) {ks : List Nat}
    (hok : Succeeds c₀ ks) : RefinesLru c₀ ks where
  resident := by
    intro k
    have h := getAll_replayed h₀ ks hok
    have hheld := h.held k
    rw [h.nslot] at hheld
    exact hheld
  hits := (getAll_replayed h₀ ks hok).hits
  trace := (getAll_replayed h₀ ks hok).trace
  hit := by
    intro k hk
    have h := getAll_replayed h₀ ks hok
    have hrange := (h.inRange_iff k).mpr hk
    constructor
    · rw [hit_iff_resident hrange, ← mem_resident_iff, ← h.nslot]
      exact h.held k
    · rw [engCacheGet_hits hrange]
      split_ifs
      · exact Or.inl rfl
      · exact Or.inr (Nat.add_zero _)
  evicted := by
    intro k hk hok' k'
    have h := getAll_replayed h₀ ks hok
    have h' := getAll_replayed h₀ (ks ++ [k]) hok'
    have hreq : requested c₀ (ks ++ [k]) = requested c₀ ks ++ [k] := by
      rw [requested_snoc, if_pos hk]
    have hheld := h.held k'
    have hheld' := h'.held k'
    rw [h.nslot] at hheld
    rw [h'.nslot, hreq] at hheld'
    unfold Resident
    rw [hheld, hheld']
    exact dropped_iff_popped h₀.nslot_pos _ k k'

/-- **The cache refines LRU.**  For a fresh cache and any requests whose describes and loads all
succeed; and a cache with at least as many slots, serving the same requests from any source, holds
every key this one holds and hits whenever this one hits. -/
theorem cache_refines_lru {cfg : EngCacheCfg} {src : EngCacheSrc σ m} {ctx : σ} {arena : Int → UInt8}
    {c₀ : EngCache σ m} (hc : engCacheCreate cfg src ctx arena = some c₀) {ks : List Nat}
    (hok : Succeeds c₀ ks) :
    RefinesLru c₀ ks ∧
      ∀ (σ' : Type) (m' : Nat) (cfg' : EngCacheCfg) (src' : EngCacheSrc σ' m') (ctx' : σ')
        (arena' : Int → UInt8) (c₁ : EngCache σ' m'),
        engCacheCreate cfg' src' ctx' arena' = some c₁ → c₁.cfg.nkeys = c₀.cfg.nkeys →
        c₀.nslot ≤ c₁.nslot → Succeeds c₁ ks →
        ∀ k, (Resident (getAll c₀ ks) k → Resident (getAll c₁ ks) k) ∧
          (c₀.inRange k → (engCacheGet (getAll c₀ ks) k).1.hits = (getAll c₀ ks).hits + 1 →
            (engCacheGet (getAll c₁ ks) k).1.hits = (getAll c₁ ks).hits + 1) := by
  have h₀ := engCacheCreate_replayed hc
  refine ⟨getAll_refines h₀ hok, ?_⟩
  intro σ' m' cfg' src' ctx' arena' c₁ hc₁ hnkeys hnslot hok₁ k
  have h₁ := engCacheCreate_replayed hc₁
  have h := getAll_replayed h₀ ks hok
  have h' := getAll_replayed h₁ ks hok₁
  have hin : ∀ k, c₁.inRange k ↔ c₀.inRange k := fun k => by
    unfold EngCache.inRange
    rw [hnkeys]
  have hreq : requested c₁ ks = requested c₀ ks := by
    unfold requested
    simp only [hin]
  have hsub : Resident (getAll c₀ ks) k → Resident (getAll c₁ ks) k := by
    intro hres
    have hmem := (h.held k).mp hres
    rw [h.nslot] at hmem
    refine (h'.held k).mpr ?_
    rw [h'.nslot, hreq]
    exact resident_mono hnslot _ hmem
  refine ⟨hsub, fun hk hhit => ?_⟩
  rw [hit_iff_resident ((h.inRange_iff k).mpr hk)] at hhit
  rw [hit_iff_resident ((h'.inRange_iff k).mpr ((hin k).mpr hk))]
  exact hsub hhit

/-- Two slots, requests `0 2 0 1 2 7`, the last one outside the key space: one hit, as the replay
counts. -/
theorem cache_refines_lru_six_requests :
    ∃ c₀ : EngCache Unit 1, engCacheCreate (tinyCfg 2) servesAll () (fun _ => 0) = some c₀ ∧
      Succeeds c₀ [0, 2, 0, 1, 2, 7] ∧ lru (requested c₀ [0, 2, 0, 1, 2, 7]) c₀.nslot = 1 ∧
      RefinesLru c₀ [0, 2, 0, 1, 2, 7] := by
  have hc : engCacheCreate (tinyCfg 2) servesAll () (fun _ => 0) = some _ := rfl
  have hok : Succeeds ((engCacheCreate (tinyCfg 2) servesAll () (fun _ => 0)).get rfl)
      [0, 2, 0, 1, 2, 7] := by
    unfold Succeeds
    decide
  exact ⟨_, hc, hok, by decide, (cache_refines_lru hc hok).1⟩

end LlmEngine.Storage.Cache
