/-
# LlmEngine.Storage.CacheBatch — when a batch ends with its keys resident.

`eng_cache_get_many` passes over a key that is already resident.  Unlike a hit of `admit`, that does
not refresh the key's stamp, so a later key of the same batch may take its slot: the key is then
missing after the call, or, if its turn comes after the eviction, is read again and counted as new.

    two slots, keys 0 and 1 resident, 0 the older:   get_many([0, 2])   evicts 0

The victims of a batch are the lowest-ranked slots by `age` (`Reserving.taken`): EMPTY ones first,
then by stamp.  Who takes the least remaining candidate each time is the subject of `Lib.Rank`, so
which slots a batch takes is known from the state it starts in.

* `Reserving` is the invariant of the reserve loop: what was taken, and what has been done with it.
* `Landed` is what the three phases come to when every describe and load succeeds.
* `getMany_resident_iff`: a batch of distinct keys, with room for all of them and a source that delivers, keeps
  its resident keys exactly when each of them is either pinned or preceded by as many slots as the batch has
  missing keys.
-/
import LlmEngine.Lib.Rank
import LlmEngine.Storage.CacheBytes
import LlmEngine.Storage.CacheLru
import Mathlib.Data.Prod.Lex

namespace LlmEngine.Storage.Cache

open LlmEngine.Storage LlmEngine.Lib EngCache

variable {σ : Type} {m : Nat} {c c' c₀ : EngCache σ m}

/-! ## The order of victims -/

/-- The place of a slot in the order of victims: EMPTY slots first, then by stamp, the first of
equals first. -/
def age (c : EngCache σ m) (s : Nat) : Nat ×ₗ Nat :=
  toLex (if c.keyOf s = .empty then 0 else c.usedAt s + 1, s)

theorem age_injective (c : EngCache σ m) : Function.Injective (age c) := by
  intro s t h
  exact (Prod.mk.inj (toLex_inj.mp h)).2

theorem age_le_iff {s t : Nat} : age c s ≤ age c t ↔
    (if c.keyOf s = .empty then 0 else c.usedAt s + 1) <
        (if c.keyOf t = .empty then 0 else c.usedAt t + 1) ∨
      (if c.keyOf s = .empty then 0 else c.usedAt s + 1) =
        (if c.keyOf t = .empty then 0 else c.usedAt t + 1) ∧ s ≤ t :=
  Prod.Lex.toLex_le_toLex

theorem age_congr {s : Nat} (hkey : c'.keyOf s = c.keyOf s) (hused : c'.usedAt s = c.usedAt s) :
    age c' s = age c s := by
  unfold age
  rw [hkey, hused]

/-- What the scan knows of its best candidate so far: it holds a key and lies before the rest. -/
def BestOk (c : EngCache σ m) (is : List Nat) (b : Nat × Nat) : Prop :=
  b.1 = c.usedAt b.2 ∧ c.keyOf b.2 ≠ .empty ∧ ∀ t ∈ is, b.2 < t

theorem BestOk.tail {j : Nat} {js : List Nat} {b : Nat × Nat} (h : BestOk c (j :: js) b) :
    BestOk c js b :=
  ⟨h.1, h.2.1, fun t ht => h.2.2 t (List.mem_cons_of_mem _ ht)⟩

/-- **The scan returns the least slot that may be given away**, and none only if there is none. -/
theorem victimLoop_least : ∀ (is : List Nat) (best : Option (Nat × Nat)), is.Pairwise (· < ·) →
    (∀ b ∈ best, BestOk c is b) →
    (c.victimLoop is best = none → best = none ∧ ∀ t ∈ is, ¬ Free c t) ∧
      ∀ v, c.victimLoop is best = some v →
        (∀ t ∈ is, Free c t → age c v ≤ age c t) ∧ ∀ b ∈ best, age c v ≤ age c b.2
  | [], best, _, _ => by
      refine ⟨fun h => ⟨Option.map_eq_none_iff.mp h, fun t ht => absurd ht List.not_mem_nil⟩, ?_⟩
      intro v hv
      refine ⟨fun t ht => absurd ht List.not_mem_nil, fun b hb => ?_⟩
      obtain ⟨b', rfl, rfl⟩ := Option.map_eq_some_iff.mp hv
      obtain rfl := Option.some.inj hb
      exact le_refl _
  | j :: js, best, hsorted, hbest => by
      obtain ⟨hj, hsorted'⟩ := List.pairwise_cons.mp hsorted
      have hbest' : ∀ b ∈ best, BestOk c js b := fun b hb => (hbest b hb).tail
      -- the scan passes over `j`, which may not be given away
      have hpass : ¬ Free c j →
          (c.victimLoop js best = none → best = none ∧ ∀ t ∈ j :: js, ¬ Free c t) ∧
            ∀ v, c.victimLoop js best = some v →
              (∀ t ∈ j :: js, Free c t → age c v ≤ age c t) ∧ ∀ b ∈ best, age c v ≤ age c b.2 := by
        intro hnot
        obtain ⟨hnone, hsome⟩ := victimLoop_least js best hsorted' hbest'
        refine ⟨fun h => ⟨(hnone h).1, ?_⟩, fun v hv => ⟨?_, (hsome v hv).2⟩⟩
        · exact List.forall_mem_cons.mpr ⟨hnot, (hnone h).2⟩
        · exact List.forall_mem_cons.mpr ⟨fun hf => absurd hf hnot, (hsome v hv).1⟩
      unfold victimLoop
      cases hk : c.keyOf j with
      | inflight => exact hpass (by simp [Free, hk])
      | empty =>
          refine ⟨fun h => absurd h (Option.some_ne_none j), fun v hv => ?_⟩
          obtain rfl := Option.some.inj hv
          refine ⟨fun t ht _ => ?_, fun b hb => ?_⟩
          · rw [age_le_iff, if_pos hk]
            rcases List.mem_cons.mp ht with rfl | ht
            · exact Or.inr ⟨by rw [if_pos hk], le_refl _⟩
            · have := hj t ht
              omega
          · obtain ⟨-, hheld, -⟩ := hbest b hb
            rw [age_le_iff, if_pos hk, if_neg hheld]
            exact Or.inl (Nat.succ_pos _)
      | key k =>
          have hheld : c.keyOf j ≠ .empty := by simp [hk]
          simp only
          split_ifs with hpin hold
          · exact hpass (by simp [Free, hk, hpin])
          · obtain ⟨hnone, hsome⟩ := victimLoop_least js (some (c.usedAt j, j)) hsorted' (by
              intro b hb
              obtain rfl := Option.some.inj hb
              exact ⟨rfl, hheld, hj⟩)
            refine ⟨fun h => absurd (hnone h).1 (Option.some_ne_none _), fun v hv => ?_⟩
            obtain ⟨hrest, hbestj⟩ := hsome v hv
            have hvj : age c v ≤ age c j := hbestj _ rfl
            refine ⟨List.forall_mem_cons.mpr ⟨fun _ => hvj, hrest⟩, fun b hb => hvj.trans ?_⟩
            obtain ⟨hstamp, hheldb, -⟩ := hbest b hb
            have hlt : c.usedAt j < b.1 := by
              obtain rfl := Option.mem_def.mp hb
              simpa using hold
            rw [age_le_iff, if_neg hheld, if_neg hheldb]
            omega
          · obtain ⟨b, rfl⟩ : ∃ b, best = some b := by
              cases best with
              | none => simp at hold
              | some b => exact ⟨b, rfl⟩
            obtain ⟨hnone, hsome⟩ := victimLoop_least js (some b) hsorted' hbest'
            refine ⟨fun h => absurd (hnone h).1 (Option.some_ne_none _), fun v hv => ?_⟩
            obtain ⟨hrest, hbestb⟩ := hsome v hv
            refine ⟨List.forall_mem_cons.mpr ⟨fun _ => (hbestb b rfl).trans ?_, hrest⟩, hbestb⟩
            obtain ⟨hstamp, hheldb, hbefore⟩ := hbest b rfl
            have hle : ¬ c.usedAt j < b.1 := by simpa using hold
            have := hbefore j (List.mem_cons_self ..)
            rw [age_le_iff, if_neg hheld, if_neg hheldb]
            omega

theorem pickVictim_least {v t : Nat} (h : c.pickVictim = some v) (ht : t < c.nslot) (hfree : Free c t) :
    age c v ≤ age c t :=
  ((victimLoop_least _ none List.pairwise_lt_range (fun b hb => by cases hb)).2 v h).1 t
    (List.mem_range.mpr ht) hfree

theorem pickVictim_none {t : Nat} (h : c.pickVictim = none) (ht : t < c.nslot) : ¬ Free c t :=
  ((victimLoop_least _ none List.pairwise_lt_range (fun b hb => by cases hb)).1 h).2 t
    (List.mem_range.mpr ht)

/-- The slots no caller has pinned. -/
def unpinned (c : EngCache σ m) : Finset Nat :=
  (Finset.range c.nslot).filter fun s => c.pinned s = false

/-- Between calls these are the slots that may be given away. -/
theorem Quiet.mem_unpinned (h : Quiet c) {s : Nat} : s ∈ unpinned c ↔ s < c.nslot ∧ Free c s := by
  unfold unpinned
  rw [Finset.mem_filter, Finset.mem_range]
  refine and_congr_right fun _ => ⟨fun hp => ?_, fun hf => h.toIndex.unpinned (Or.inl hf)⟩
  cases hk : c.keyOf s with
  | empty => exact Or.inl hk
  | inflight => exact absurd hk (h.not_inflight s)
  | key k => exact Or.inr ⟨⟨k, hk⟩, hp⟩

/-! ## The condition -/

/-- How many keys of the batch are not resident. -/
def missing (c : EngCache σ m) (ks : List Nat) : Nat :=
  (ks.filter fun k => (c.slotOf k).isNone).length

/-- Every key of the batch that is resident and not pinned is preceded, in the order of victims, by
at least as many slots as the batch has missing keys. -/
def KeepsBatch (c : EngCache σ m) (ks : List Nat) : Prop :=
  ∀ k ∈ ks, ∀ s, c.slotOf k = some s → c.pinned s = false →
    missing c ks ≤ (preceding (age c) (unpinned c) s).card

/-- A list of distinct missing keys of the batch is no longer than their number. -/
theorem length_le_missing {ks l : List Nat} (hl : l.Nodup) (hsub : ∀ k ∈ l, k ∈ ks ∧ c.slotOf k = none) :
    l.length ≤ missing c ks := by
  refine (List.Nodup.subperm hl ?_).length_le
  intro k hk
  obtain ⟨hmem, habs⟩ := hsub k hk
  exact List.mem_filter.mpr ⟨hmem, by simp [habs]⟩

/-- A list that has every missing key of a batch of distinct keys is no shorter. -/
theorem missing_le_length {ks l : List Nat} (hks : ks.Nodup)
    (hsub : ∀ k ∈ ks, c.slotOf k = none → k ∈ l) : missing c ks ≤ l.length := by
  refine (List.Nodup.subperm (hks.filter _) ?_).length_le
  intro k hk
  obtain ⟨hmem, habs⟩ := List.mem_filter.mp hk
  exact hsub k hmem (by simpa using habs)

/-! ## Phase 1 -/

/-- Where the reserve loop stands after the keys `done` of the batch `all`, having started in the
quiet state `c₀`. -/
structure Reserving (c₀ : EngCache σ m) (all done : List Nat) (c : EngCache σ m) (w : List Work) : Prop
    extends Batch c w where
  cfg : c.cfg = c₀.cfg
  nslot : c.nslot = c₀.nslot
  pins : c.pinned = c₀.pinned
  outside : ∀ s, s ∉ w.map Work.slot → c.keyOf s = c₀.keyOf s ∧ c.usedAt s = c₀.usedAt s
  /-- the slots taken are the lowest-ranked ones of the state before -/
  taken : Taken (age c₀) (unpinned c₀) (w.map Work.slot).toFinset
  asked : ∀ x ∈ w, x.key ∈ done
  served : ∀ k ∈ done, c₀.slotOf k = none → k ∈ w.map Work.key
  /-- under the condition no key is read that was resident before -/
  kept : KeepsBatch c₀ all → ∀ x ∈ w, c₀.slotOf x.key = none

section Reserving

variable {all done : List Nat} {w : List Work}

theorem Reserving.start (h : Quiet c₀) (all : List Nat) : Reserving c₀ all [] c₀ [] where
  toBatch := h
  cfg := rfl
  nslot := rfl
  pins := rfl
  outside := fun _ _ => ⟨rfl, rfl⟩
  taken := Taken.start _ _
  asked := fun _ hx => absurd hx List.not_mem_nil
  served := fun _ hk => absurd hk List.not_mem_nil
  kept := fun _ _ hx => absurd hx List.not_mem_nil

/-- A key that is resident now was resident before, in the same slot. -/
theorem Reserving.slotOf (h : Reserving c₀ all done c w) (hq : Quiet c₀) {k s : Nat} :
    c.slotOf k = some s ↔ c₀.slotOf k = some s ∧ s ∉ w.map Work.slot := by
  rw [h.inverse k s, hq.inverse k s]
  by_cases hs : s ∈ w.map Work.slot
  · have hfl := (h.inflight s).mpr hs
    refine iff_of_false (fun hk => ?_) (fun hk => hk.2 hs)
    rw [hfl] at hk
    cases hk
  · rw [(h.outside s hs).1]
    exact ⟨fun hk => ⟨hk, hs⟩, And.left⟩

theorem Reserving.length_le (h : Reserving c₀ all done c w) : w.length ≤ done.length := by
  have hmap : (w.map Work.key).length = w.length := List.length_map _
  rw [← hmap]
  refine (List.Nodup.subperm h.keys ?_).length_le
  intro k hk
  obtain ⟨x, hx, rfl⟩ := List.mem_map.mp hk
  exact h.asked x hx

theorem Reserving.card (h : Reserving c₀ all done c w) :
    (w.map Work.slot).toFinset.card = w.length := by
  rw [List.toFinset_card_of_nodup h.slots, List.length_map]

/-- Under the condition a resident key of the batch keeps its slot. -/
theorem Reserving.not_taken (h : Reserving c₀ all done c w) (hdone : ∀ k ∈ done, k ∈ all)
    (hkeep : KeepsBatch c₀ all) {k s : Nat} (hk : k ∈ all) (hs : c₀.slotOf k = some s) :
    s ∉ w.map Work.slot := by
  intro hmem
  have hmem' : s ∈ (w.map Work.slot).toFinset := List.mem_toFinset.mpr hmem
  have hun : s ∈ unpinned c₀ := h.taken.subset hmem'
  have hlt := (h.taken.mem_iff (age_injective c₀) hun).mp hmem'
  rw [h.card] at hlt
  have hle := hkeep k hk s hs (Finset.mem_filter.mp hun).2
  -- what was read so far was missing before, so it is no more than all that is missing
  have hfew : (w.map Work.key).length ≤ missing c₀ all := by
    apply length_le_missing h.keys
    intro k' hk'
    obtain ⟨x, hx, rfl⟩ := List.mem_map.mp hk'
    exact ⟨hdone _ (h.asked x hx), h.kept hkeep x hx⟩
  rw [List.length_map] at hfew
  omega

/-- The iteration of a key that is resident. -/
theorem Reserving.skip (h : Reserving c₀ all done c w) (hq : Quiet c₀) {k s : Nat}
    (hs : c.slotOf k = some s) : Reserving c₀ all (done ++ [k]) c w :=
  { h with
    asked := fun x hx => List.mem_append_left _ (h.asked x hx)
    served := by
      intro k' hk' habs
      rcases List.mem_append.mp hk' with hk' | hk'
      · exact h.served k' hk' habs
      · obtain rfl := List.mem_singleton.mp hk'
        rw [((h.slotOf hq).mp hs).1] at habs
        cases habs }

/-- The scan takes the least slot that is left of those of the state before. -/
theorem Reserving.victim (h : Reserving c₀ all done c w) (hq : Quiet c₀) {slot : Nat}
    (hv : c.pickVictim = some slot) :
    slot ∈ unpinned c₀ ∧ slot ∉ w.map Work.slot ∧
      ∀ t ∈ unpinned c₀, t ∉ (w.map Work.slot).toFinset → age c₀ slot ≤ age c₀ t := by
  obtain ⟨hlt, hfree⟩ := pickVictim_free hv
  have hslot : slot ∉ w.map Work.slot := by
    intro hmem
    obtain ⟨x, hx, rfl⟩ := List.mem_map.mp hmem
    exact h.slot_ne hfree hx rfl
  have hage : ∀ t, t ∉ w.map Work.slot → age c t = age c₀ t := fun t ht =>
    age_congr (h.outside t ht).1 (h.outside t ht).2
  refine ⟨?_, hslot, fun t ht hnot => ?_⟩
  · refine Finset.mem_filter.mpr ⟨Finset.mem_range.mpr (h.nslot ▸ hlt), ?_⟩
    rw [← h.pins]
    exact h.toIndex.unpinned (Or.inl hfree)
  · have hnot' : t ∉ w.map Work.slot := fun hmem => hnot (List.mem_toFinset.mpr hmem)
    obtain ⟨htlt, htfree⟩ := hq.mem_unpinned.mp ht
    have htfree' : Free c t := by
      unfold Free
      rw [(h.outside t hnot').1, h.pins]
      exact htfree
    rw [← hage slot hslot, ← hage t hnot']
    exact pickVictim_least hv (h.nslot ▸ htlt) htfree'

/-- The iteration of a key that is read: the victim's slot joins those taken. -/
theorem Reserving.take (h : Reserving c₀ all done c w) (hq : Quiet c₀) (hdone : ∀ k ∈ done, k ∈ all)
    {k slot : Nat} (hall : k ∈ all) (hfresh : k ∉ done) (hrange : c.inRange k) (habs : c.slotOf k = none)
    (hv : c.pickVictim = some slot) (need : Int) :
    Reserving c₀ all (done ++ [k]) (reserveSlot (describedInto c k slot) k slot need).1
      (w ++ [(reserveSlot (describedInto c k slot) k slot need).2]) := by
  obtain ⟨hlt, hfree⟩ := pickVictim_free hv
  obtain ⟨hun, hslot, hleast⟩ := h.victim hq hv
  have hnew : ∀ x ∈ w, x.key ≠ k := fun x hx heq => hfresh (heq ▸ h.asked x hx)
  have hb : Batch (describedInto c k slot) w := h.toBatch.congr rfl rfl rfl rfl rfl
  have hx : (reserveSlot (describedInto c k slot) k slot need).2.slot = slot := rfl
  refine { reserveSlot_batch hb hlt hfree hrange habs hnew need with
    cfg := h.cfg, nslot := h.nslot, pins := h.pins, outside := ?_, taken := ?_, asked := ?_,
    served := ?_, kept := ?_ }
  · intro s hs
    rw [List.map_append, List.mem_append, not_or] at hs
    have hne : s ≠ slot := fun heq => hs.2 (heq ▸ List.mem_singleton.mpr rfl)
    obtain ⟨hkey, hused⟩ := h.outside s hs.1
    exact ⟨(Function.update_of_ne hne _ _).trans hkey, (Function.update_of_ne hne _ _).trans hused⟩
  · have hset : ((w ++ [(reserveSlot (describedInto c k slot) k slot need).2]).map Work.slot).toFinset =
        insert slot (w.map Work.slot).toFinset := by
      ext s
      simp [hx]
    rw [hset]
    exact h.taken.insert hun hleast
  · intro x hx
    rcases List.mem_append.mp hx with hx | hx
    · exact List.mem_append_left _ (h.asked x hx)
    · obtain rfl := List.mem_singleton.mp hx
      exact List.mem_append_right _ (List.mem_singleton.mpr rfl)
  · intro k' hk' habs'
    rw [List.map_append]
    rcases List.mem_append.mp hk' with hk' | hk'
    · exact List.mem_append_left _ (h.served k' hk' habs')
    · obtain rfl := List.mem_singleton.mp hk'
      exact List.mem_append_right _ (List.mem_singleton.mpr rfl)
  · intro hkeep x hx
    rcases List.mem_append.mp hx with hx | hx
    · exact h.kept hkeep x hx
    · obtain rfl := List.mem_singleton.mp hx
      -- had it been resident before, it would be still
      show c₀.slotOf k = none
      by_contra hres
      obtain ⟨s, hs⟩ := Option.ne_none_iff_exists'.mp hres
      have := (h.slotOf hq).mpr ⟨hs, h.not_taken hdone hkeep hall hs⟩
      rw [habs] at this
      cases this

/-- While fewer keys were passed than slots are unpinned, a victim is found. -/
theorem Reserving.exists_victim (h : Reserving c₀ all done c w) (hq : Quiet c₀)
    (hroom : done.length < (unpinned c₀).card) : ∃ slot, c.pickVictim = some slot := by
  by_contra hnone
  have hv : c.pickVictim = none := by
    cases hv : c.pickVictim with
    | none => rfl
    | some slot => exact absurd ⟨slot, hv⟩ hnone
  have hsub : unpinned c₀ ⊆ (w.map Work.slot).toFinset := by
    intro t ht
    by_contra hnot
    have hnot' : t ∉ w.map Work.slot := fun hmem => hnot (List.mem_toFinset.mpr hmem)
    obtain ⟨htlt, htfree⟩ := hq.mem_unpinned.mp ht
    refine pickVictim_none hv (h.nslot ▸ htlt) ?_
    unfold Free
    rw [(h.outside t hnot').1, h.pins]
    exact htfree
  have hcard := Finset.card_le_card hsub
  rw [h.card] at hcard
  have := h.length_le
  omega

theorem reserveOne_resident {k s : Nat} (hrange : c.inRange k) (hs : c.slotOf k = some s) :
    reserveOne c w k = .skip c := by
  simp [reserveOne, hrange, hs]

theorem reserveOne_absent {k slot : Nat} (hrange : c.inRange k) (habs : c.slotOf k = none)
    (hnew : ∀ x ∈ w, x.key ≠ k) (hv : c.pickVictim = some slot) :
    reserveOne c w k =
      if (c.src.describe c.ctx k (c.slotMeta slot)).rc ≠ 0 then .skip (describedInto c k slot)
      else if (c.src.describe c.ctx k (c.slotMeta slot)).nbytes > c.cfg.slotBytes then
        .skip (describedInto c k slot)
      else .take
        (reserveSlot (describedInto c k slot) k slot (c.src.describe c.ctx k (c.slotMeta slot)).nbytes).1
        (reserveSlot (describedInto c k slot) k slot
          (c.src.describe c.ctx k (c.slotMeta slot)).nbytes).2 := by
  have hany : (w.any fun x => decide (x.key = k)) = false := by simpa using hnew
  unfold reserveOne
  simp only [hrange, habs, hany, hv, not_true, if_false, Option.isSome_none, Bool.false_eq_true]
  rfl

/-- The calls of the rest of the loop are calls of the loop, and so is the description before them. -/
theorem describe_succeeded {k slot : Nat} {ks : List Nat} {slotBytes : Int} (hb : Batch c' w)
    (hc' : c'.log = (describedInto c k slot).log)
    (hlog : ∀ new, (reserve c' ks w).1.log = new ++ c.log → ∀ e ∈ new, e.succeeded slotBytes) :
    ((c.src.describe c.ctx k (c.slotMeta slot)).rc = 0 ∧
      (c.src.describe c.ctx k (c.slotMeta slot)).nbytes ≤ slotBytes) ∧
      ∀ new, (reserve c' ks w).1.log = new ++ c'.log → ∀ e ∈ new, e.succeeded slotBytes := by
  obtain ⟨-, new, -, hf⟩ := reserve_batch ks hb
  have happ : ∀ new', new' ++ c'.log = (new' ++ [Event.describe k
      (c.src.describe c.ctx k (c.slotMeta slot)).rc (c.src.describe c.ctx k (c.slotMeta slot)).nbytes
      (c.src.describe c.ctx k (c.slotMeta slot)).wrote]) ++ c.log := by
    intro new'
    rw [hc', List.append_assoc]
    rfl
  refine ⟨?_, fun new' hnew' e he => ?_⟩
  · exact hlog _ (hf.log.trans (happ new)) _ (List.mem_append_right _ (List.mem_singleton.mpr rfl))
  · exact hlog _ (hnew'.trans (happ new')) e (List.mem_append_left _ he)

/-- **The whole loop**, over a batch of distinct keys with room for all of them, when the source
refuses none. -/
theorem reserve_reserving (hq : Quiet c₀) : ∀ (ks : List Nat) {c : EngCache σ m} {w : List Work}
    {done : List Nat}, Reserving c₀ (done ++ ks) done c w → (done ++ ks).Nodup →
    (∀ k ∈ ks, c₀.inRange k) → (done ++ ks).length ≤ engCacheMaxBatch →
    (done ++ ks).length ≤ (unpinned c₀).card →
    (∀ new, (reserve c ks w).1.log = new ++ c.log → ∀ e ∈ new, e.succeeded c₀.cfg.slotBytes) →
    Reserving c₀ (done ++ ks) (done ++ ks) (reserve c ks w).1 (reserve c ks w).2
  | [], c, w, done, h, _, _, _, _, _ => by
      rw [List.append_nil] at h ⊢
      exact h
  | k :: ks, c, w, done, h, hnodup, hrange, hcap, hroom, hlog => by
      have hlen : (done ++ k :: ks).length = done.length + ks.length + 1 := by simp; omega
      have hshift : done ++ k :: ks = (done ++ [k]) ++ ks := by simp
      have hshort : ¬ w.length ≥ engCacheMaxBatch := by
        have := h.length_le
        omega
      have hk : c.inRange k := by
        have := hrange k (List.mem_cons_self ..)
        unfold EngCache.inRange at this ⊢
        rwa [h.cfg]
      have hrange' : ∀ k' ∈ ks, c₀.inRange k' := fun k' hk' => hrange k' (List.mem_cons_of_mem _ hk')
      unfold reserve at hlog ⊢
      rw [if_neg hshort] at hlog ⊢
      cases hs : c.slotOf k with
      | some s =>
          -- a key that is resident takes no slot
          have hnext := h.skip hq hs
          rw [reserveOne_resident hk hs] at hlog ⊢
          rw [hshift] at hnext hnodup hcap hroom ⊢
          exact reserve_reserving hq ks hnext hnodup hrange' hcap hroom hlog
      | none =>
          have hfresh : k ∉ done := fun hmem =>
            (List.nodup_append.mp hnodup).2.2 k hmem k (List.mem_cons_self ..) rfl
          have hnew : ∀ x ∈ w, x.key ≠ k := fun x hx heq => hfresh (heq ▸ h.asked x hx)
          -- fewer slots are reserved than are unpinned, so one is left to take
          obtain ⟨slot, hv⟩ := h.exists_victim hq (by omega)
          have hb : Batch (describedInto c k slot) w := h.toBatch.congr rfl rfl rfl rfl rfl
          rw [reserveOne_absent hk hs hnew hv] at hlog ⊢
          split_ifs at hlog ⊢ with hrc hbig
          · exact absurd (describe_succeeded hb rfl hlog).1.1 hrc
          · have hsize := (describe_succeeded hb rfl hlog).1.2
            rw [h.cfg] at hbig
            omega
          · have hnext := h.take hq (fun k' hk' => List.mem_append_left _ hk')
              (List.mem_append_right _ (List.mem_cons_self ..)) hfresh hk hs hv
              (c.src.describe c.ctx k (c.slotMeta slot)).nbytes
            obtain ⟨-, hlog'⟩ := describe_succeeded hnext.toBatch rfl hlog
            rw [hshift] at hnext hnodup hcap hroom ⊢
            exact reserve_reserving hq ks hnext hnodup hrange' hcap hroom hlog'

end Reserving

/-! ## Phases 2 and 3 -/

/-- Every work item that was loaded has its call in the log. -/
theorem loadAll_logged : ∀ (ws : List Work) (c : EngCache σ m),
    ∃ new, (loadAll c ws).1.log = new ++ c.log ∧ ∀ w ∈ (loadAll c ws).2,
      ∃ given off buf, Event.load w.key w.slot given w.need w.got off buf ∈ new
  | [], c => ⟨[], rfl, fun w hw => by cases hw⟩
  | x :: xs, c => by
      obtain ⟨new, hlog, hev⟩ := loadAll_logged xs (c.loaded x.key x.slot x.need)
      refine ⟨new ++ [.load x.key x.slot (c.slotMeta x.slot) x.need (c.load x.key x.slot).got
        (c.load x.key x.slot).payloadOff (c.load x.key x.slot).buf], ?_, ?_⟩
      · rw [List.append_assoc]
        exact hlog
      · intro w hw
        rcases List.mem_cons.mp hw with rfl | hw
        · exact ⟨_, _, _, List.mem_append_right _ (List.mem_singleton.mpr rfl)⟩
        · obtain ⟨given, off, buf, hmem⟩ := hev w hw
          exact ⟨given, off, buf, List.mem_append_left _ hmem⟩

/-- An item comes back from the reads with its slot and key. -/
theorem loadAll_item : ∀ (ws : List Work) (c : EngCache σ m), ∀ x ∈ ws,
    ∃ y ∈ (loadAll c ws).2, y.slot = x.slot ∧ y.key = x.key
  | [], c, x, hx => by cases hx
  | w :: ws, c, x, hx => by
      rcases List.mem_cons.mp hx with rfl | hx
      · exact ⟨_, List.mem_cons_self .., rfl, rfl⟩
      · obtain ⟨y, hy, hrec⟩ := loadAll_item ws (c.loaded w.key w.slot w.need) x hx
        exact ⟨y, List.mem_cons_of_mem _ hy, hrec⟩

/-- When everything arrived in full, every key of the work list is registered in its slot. -/
theorem publishAll_full : ∀ (ws : List Work) {c : EngCache σ m} (ok : Nat), Batch c ws →
    (∀ w ∈ ws, w.got = w.need) →
    (publishAll c ws ok).2 = ok + ws.length ∧
      ∀ w ∈ ws, (publishAll c ws ok).1.keyOf w.slot = .key w.key
  | [], c, ok, _, _ => ⟨rfl, fun w hw => by cases hw⟩
  | x :: xs, c, ok, h, hfull => by
      have hb : Batch { (c.publish x.key x.slot x.got x.pad) with
          prefetchReads := c.prefetchReads + 1 } xs :=
        (h.publish x.got x.pad).congr rfl rfl rfl rfl rfl
      unfold publishAll
      rw [if_neg (not_not.mpr (hfull x (List.mem_cons_self ..)))]
      obtain ⟨hcount, hkeys⟩ := publishAll_full xs (ok + 1) hb
        fun w hw => hfull w (List.mem_cons_of_mem _ hw)
      obtain ⟨-, -, hother, -⟩ := publishAll_ok xs (ok + 1) hb
      refine ⟨by rw [hcount, List.length_cons]; omega, fun w hw => ?_⟩
      rcases List.mem_cons.mp hw with rfl | hw
      · rw [hother w.slot (List.nodup_cons.mp h.slots).1]
        exact Function.update_self ..
      · exact hkeys w hw

/-- The early return of an empty work list is what the later phases would do. -/
theorem engCacheGetMany_eq (c : EngCache σ m) (ks : List Nat) :
    engCacheGetMany c ks =
      publishAll (loadAll (reserve c ks []).1 (issueOrder (reserve c ks []).1 (reserve c ks []).2)).1
        (loadAll (reserve c ks []).1 (issueOrder (reserve c ks []).1 (reserve c ks []).2)).2 0 := by
  unfold engCacheGetMany
  simp only
  split_ifs with hnil
  · have hperm := issueOrder_perm (reserve c ks []).1 (reserve c ks []).2
    have hempty : issueOrder (reserve c ks []).1 (reserve c ks []).2 = [] :=
      (hperm.trans (List.Perm.of_eq hnil)).eq_nil
    rw [hempty]
    rfl
  · rfl

/-- Every call to the source that the batch makes succeeds: descriptions with a size that fits,
loads in full. -/
def BatchSucceeds (c : EngCache σ m) (ks : List Nat) : Prop :=
  ∃ new, (engCacheGetMany c ks).1.log = new ++ c.log ∧ ∀ e ∈ new, e.succeeded c.cfg.slotBytes

/-- What a batch that succeeds leaves: the work list, each of its keys in its slot, and every other
slot as it was. -/
structure Landed (c : EngCache σ m) (ks : List Nat) (w : List Work) : Prop where
  reserved : Reserving c ks ks (reserve c ks []).1 w
  count : (engCacheGetMany c ks).2 = w.length
  registered : ∀ x ∈ w, (engCacheGetMany c ks).1.keyOf x.slot = .key x.key
  other : ∀ s, s ∉ w.map Work.slot → (engCacheGetMany c ks).1.keyOf s = c.keyOf s

theorem getMany_landed (hq : Quiet c) {ks : List Nat} (hnodup : ks.Nodup) (hrange : ∀ k ∈ ks, c.inRange k)
    (hcap : ks.length ≤ engCacheMaxBatch) (hroom : ks.length ≤ (unpinned c).card)
    (hok : BatchSucceeds c ks) : ∃ w, Landed c ks w := by
  obtain ⟨new, hlog, hsucc⟩ := hok
  obtain ⟨hb, -⟩ := reserve_batch ks hq
  have hperm := issueOrder_perm (reserve c ks []).1 (reserve c ks []).2
  have hb' := hb.perm (hperm.map _) (hperm.map _)
  have hb₂ := loadAll_batch hb'
  obtain ⟨newL, hlogL, hev⟩ := loadAll_logged
    (issueOrder (reserve c ks []).1 (reserve c ks []).2) (reserve c ks []).1
  obtain ⟨hslots, hkeys⟩ := loadAll_works
    (issueOrder (reserve c ks []).1 (reserve c ks []).2) (reserve c ks []).1
  obtain ⟨-, -, -, -, hko, -, -⟩ := loadAll_frame _ hb'.unpinned
  obtain ⟨-, hf, hother, -⟩ := publishAll_ok _ 0 hb₂
  rw [engCacheGetMany_eq] at hlog
  have hlog' := hf.log.symm.trans hlog
  rw [List.nil_append, hlogL] at hlog'
  -- the calls of the batch: first the descriptions, then the loads
  have hsplit : ∀ new₁, (reserve c ks []).1.log = new₁ ++ c.log → new = newL ++ new₁ := by
    intro new₁ h₁
    rw [h₁, ← List.append_assoc] at hlog'
    exact (List.append_cancel_right hlog').symm
  have hres : Reserving c ks ks (reserve c ks []).1 (reserve c ks []).2 := by
    have hstart : Reserving c ([] ++ ks) [] c [] := Reserving.start hq ks
    refine reserve_reserving hq ks hstart hnodup hrange hcap hroom ?_
    intro new₁ h₁ e he
    exact hsucc e (hsplit new₁ h₁ ▸ List.mem_append_right _ he)
  have hfull : ∀ x ∈ (loadAll (reserve c ks []).1 (issueOrder (reserve c ks []).1
      (reserve c ks []).2)).2, x.got = x.need := by
    obtain ⟨-, new₁, -, hf₁⟩ := reserve_batch ks hq
    intro x hx
    obtain ⟨given, off, buf, hmem⟩ := hev x hx
    exact hsucc _ (hsplit new₁ hf₁.log ▸ List.mem_append_left _ hmem)
  obtain ⟨hcount, hreg⟩ := publishAll_full _ 0 hb₂ hfull
  rw [← engCacheGetMany_eq] at hcount hreg hother
  refine ⟨_, hres, ?_, ?_, ?_⟩
  · rw [hcount, Nat.zero_add, ← List.length_map (f := Work.slot), hslots, List.length_map, hperm.length_eq]
  · intro x hx
    obtain ⟨y, hy, hslot, hkey⟩ := loadAll_item _ (reserve c ks []).1 x (hperm.mem_iff.mpr hx)
    rw [← hslot, ← hkey]
    exact hreg y hy
  · intro s hs
    have hs' : s ∉ (issueOrder (reserve c ks []).1 (reserve c ks []).2).map Work.slot :=
      fun hmem => hs ((hperm.map _).mem_iff.mp hmem)
    rw [hother s (by rw [hslots]; exact hs'), hko]
    exact (hres.outside s hs).1

/-! ## The batch is resident -/

/-- What a batch request is for: afterwards every key of the batch is resident with its own bytes,
and the return value is the number of those that were not resident before. -/
def BatchResident (c : EngCache σ m) (ks : List Nat) : Prop :=
  (∀ k ∈ ks, ∃ e, engCachePeek (engCacheGetMany c ks).1 k = some e ∧
      OwnBytes (engCacheGetMany c ks).1 k e) ∧
    (engCacheGetMany c ks).2 = missing c ks

section Landed

variable {ks : List Nat} {w : List Work}

/-- Where a key of the batch is afterwards: in the slot it was read into, or where it was. -/
theorem Landed.slotOf (h : Landed c ks w) (hq : Quiet c) {k s : Nat} :
    (engCacheGetMany c ks).1.slotOf k = some s ↔
      (∃ x ∈ w, x.key = k ∧ x.slot = s) ∨ (c.slotOf k = some s ∧ s ∉ w.map Work.slot) := by
  obtain ⟨new, hok⟩ := engCacheGetMany_ok hq ks
  rw [hok.quiet.inverse k s, hq.inverse k s]
  by_cases hs : s ∈ w.map Work.slot
  · obtain ⟨x, hx, rfl⟩ := List.mem_map.mp hs
    rw [h.registered x hx]
    constructor
    · intro hk
      exact Or.inl ⟨x, hx, SlotState.key.inj hk, rfl⟩
    · rintro (⟨y, hy, rfl, hslot⟩ | hk)
      · rw [List.inj_on_of_nodup_map h.reserved.slots hy hx hslot]
      · exact absurd hs hk.2
  · rw [h.other s hs]
    constructor
    · intro hk
      exact Or.inr ⟨hk, hs⟩
    · rintro (⟨y, hy, -, rfl⟩ | hk)
      · exact absurd (List.mem_map_of_mem hy) hs
      · exact hk.1

/-- With the condition the batch reads the missing keys and no others. -/
theorem Landed.count_of_keeps (h : Landed c ks w) (hnodup : ks.Nodup) (hkeep : KeepsBatch c ks) :
    w.length = missing c ks := by
  have hle : (w.map Work.key).length ≤ missing c ks := by
    apply length_le_missing h.reserved.keys
    intro k hk
    obtain ⟨x, hx, rfl⟩ := List.mem_map.mp hk
    exact ⟨h.reserved.asked x hx, h.reserved.kept hkeep x hx⟩
  have hge : missing c ks ≤ (w.map Work.key).length := missing_le_length hnodup h.reserved.served
  rw [List.length_map] at hle hge
  omega

theorem Landed.resident_of_keeps (h : Landed c ks w) (hq : Quiet c) (hkeep : KeepsBatch c ks) {k : Nat}
    (hk : k ∈ ks) : ∃ s, (engCacheGetMany c ks).1.slotOf k = some s := by
  cases hs : c.slotOf k with
  | none =>
      obtain ⟨x, hx, hkey⟩ := List.mem_map.mp (h.reserved.served k hk hs)
      exact ⟨x.slot, (h.slotOf hq).mpr (Or.inl ⟨x, hx, hkey, rfl⟩)⟩
  | some s =>
      have hnot := h.reserved.not_taken (fun _ hk' => hk') hkeep hk hs
      exact ⟨s, (h.slotOf hq).mpr (Or.inr ⟨hs, hnot⟩)⟩

/-- A batch that ends resident, with the right count, took no slot of its own. -/
theorem Landed.keeps_of_resident (h : Landed c ks w) (hq : Quiet c) (hnodup : ks.Nodup)
    (hres : ∀ k ∈ ks, ∃ s, (engCacheGetMany c ks).1.slotOf k = some s)
    (hcount : w.length = missing c ks) : KeepsBatch c ks := by
  intro k hk s hs hpin
  by_contra hfew
  have hun : s ∈ unpinned c := by
    refine Finset.mem_filter.mpr ⟨Finset.mem_range.mpr ?_, hpin⟩
    apply hq.bound s
    rw [(hq.inverse k s).mp hs]
    intro hempty
    cases hempty
  -- fewer slots go before it than were taken, so its own was taken
  have htaken : s ∈ w.map Work.slot := by
    rw [← List.mem_toFinset, h.reserved.taken.mem_iff (age_injective c) hun, h.reserved.card]
    omega
  obtain ⟨s', hs'⟩ := hres k hk
  rcases (h.slotOf hq).mp hs' with ⟨x, hx, hkey, -⟩ | ⟨hsame, hnot⟩
  · -- it was read again, beside all the missing keys: one too many
    have hmore : missing c ks + 1 ≤ (w.map Work.key).length := by
      have hnot : k ∉ ks.filter fun k => (c.slotOf k).isNone := by simp [hs]
      refine (List.Nodup.subperm (List.nodup_cons.mpr ⟨hnot, hnodup.filter _⟩) ?_).length_le
      intro k' hk'
      rcases List.mem_cons.mp hk' with rfl | hk'
      · exact hkey ▸ List.mem_map_of_mem hx
      · obtain ⟨hmem, habs⟩ := List.mem_filter.mp hk'
        exact h.reserved.served k' hmem (by simpa using habs)
    rw [List.length_map] at hmore
    omega
  · rw [hs] at hsame
    exact hnot (Option.some.inj hsame ▸ htaken)

end Landed

/-- **When a batch is resident.**  From every reachable state, for every batch of distinct keys with
room for all of them whose source calls all succeed: the batch ends resident, its own bytes in place
and its missing keys counted, iff each of its keys that is resident and not pinned is preceded in the
order of victims by at least as many slots as the batch has missing keys. -/
theorem getMany_resident_iff {cfg : EngCacheCfg} {src : EngCacheSrc σ m} {ctx : σ} {arena : Int → UInt8}
    (hc : engCacheCreate cfg src ctx arena = some c₀) (hsrc : src.Widens)
    (hr : Reaches step anyChoice c₀ c) {ks : List Nat} (hnodup : ks.Nodup)
    (hrange : ∀ k ∈ ks, c.inRange k) (hcap : ks.length ≤ engCacheMaxBatch)
    (hroom : ks.length ≤ (unpinned c).card) (hok : BatchSucceeds c ks) :
    BatchResident c ks ↔ KeepsBatch c ks := by
  obtain ⟨hq, hsrc', hbytes⟩ := reaches_bytesOk hc hsrc hr
  obtain ⟨w, h⟩ := getMany_landed hq hnodup hrange hcap hroom hok
  obtain ⟨new, hcall⟩ := engCacheGetMany_ok hq ks
  have hpeek : ∀ k ∈ ks, engCachePeek (engCacheGetMany c ks).1 k =
      ((engCacheGetMany c ks).1.slotOf k).map (engCacheGetMany c ks).1.entryOf := by
    intro k hk
    have : (engCacheGetMany c ks).1.inRange k := by
      have := hrange k hk
      unfold EngCache.inRange at this ⊢
      rwa [hcall.cfg]
    unfold engCachePeek
    rw [if_pos this]
  constructor
  · rintro ⟨hres, hcount⟩
    refine h.keeps_of_resident hq hnodup ?_ (h.count.symm.trans hcount)
    intro k hk
    obtain ⟨e, he, -⟩ := hres k hk
    rw [hpeek k hk] at he
    obtain ⟨s, hs, -⟩ := Option.map_eq_some_iff.mp he
    exact ⟨s, hs⟩
  · intro hkeep
    refine ⟨fun k hk => ?_, h.count.trans (h.count_of_keeps hnodup hkeep)⟩
    obtain ⟨s, hs⟩ := h.resident_of_keeps hq hkeep hk
    have hown := engCacheGetMany_bytesOk (hsrc' ▸ hsrc) hq hbytes ks s k List.not_mem_nil
      ((hcall.quiet.inverse k s).mp hs)
    exact ⟨_, by rw [hpeek k hk, hs]; rfl, hown.ownBytes⟩

/-- Two slots over a source that serves everything, holding key 0 and then key 1. -/
def twoResident : EngCache Unit 1 :=
  applyOp (applyOp { tinyCache 2 with src := servesAll } (.get 0)) (.get 1)

theorem twoResident_reaches :
    engCacheCreate (tinyCfg 2) servesAll () (fun _ => 0) = some { tinyCache 2 with src := servesAll } ∧
      Reaches step anyChoice { tinyCache 2 with src := servesAll } twoResident :=
  ⟨rfl, .next (.next .start trivial rfl) trivial rfl⟩

theorem servesAll_widens : servesAll.Widens := by
  intro ctx k given buf cap _
  show (0 : Int) < engIoAlign
  decide

/-- The younger resident key and a missing one: the older slot is the victim, and the batch ends
resident. -/
theorem younger_batch_resident :
    missing twoResident [1, 2] = 1 ∧ twoResident.slotOf 1 = some 1 ∧
      BatchResident twoResident [1, 2] := by
  obtain ⟨hc, hr⟩ := twoResident_reaches
  have hok : BatchSucceeds twoResident [1, 2] :=
    ⟨[.load 2 0 #v[12] 1 1 0 (fun _ => 22), .describe 2 0 1 #v[12]], rfl, by decide⟩
  refine ⟨by decide, rfl, (getMany_resident_iff hc servesAll_widens hr (by decide) (by decide)
    (by decide) (by decide) hok).mpr ?_⟩
  intro k hk s hs _
  have hs' : s = 1 := by
    rcases List.mem_cons.mp hk with rfl | hk
    · exact (Option.some.inj hs).symm
    · obtain rfl := List.mem_singleton.mp hk
      cases hs
  subst hs'
  decide

/-- **The evicted batch key.**  The older resident key and a missing one: the resident key is passed
over, and then its slot goes to the missing key.  In the other order it is read a second time. -/
theorem older_batch_evicted :
    engCacheCreate (tinyCfg 2) servesAll () (fun _ => 0) = some { tinyCache 2 with src := servesAll } ∧
      Reaches step anyChoice { tinyCache 2 with src := servesAll } twoResident ∧
      servesAll.Widens ∧ [0, 2].Nodup ∧ (∀ k ∈ [0, 2], twoResident.inRange k) ∧
      [0, 2].length ≤ (unpinned twoResident).card ∧ BatchSucceeds twoResident [0, 2] ∧
      BatchSucceeds twoResident [2, 0] ∧ (engCacheGetMany twoResident [0, 2]).1.slotOf 0 = none ∧
      (engCacheGetMany twoResident [2, 0]).2 = 2 ∧ missing twoResident [2, 0] = 1 ∧
      ¬ BatchResident twoResident [0, 2] ∧ ¬ BatchResident twoResident [2, 0] := by
  obtain ⟨hc, hr⟩ := twoResident_reaches
  refine ⟨hc, hr, servesAll_widens, by decide, by decide, by decide, ?_, ?_, rfl, rfl, by decide, ?_, ?_⟩
  · exact ⟨[.load 2 0 #v[12] 1 1 0 (fun _ => 22), .describe 2 0 1 #v[12]], rfl, by decide⟩
  · exact ⟨[.load 0 1 #v[10] 1 1 0 (fun _ => 20), .load 2 0 #v[12] 1 1 0 (fun _ => 22),
      .describe 0 0 1 #v[10], .describe 2 0 1 #v[12]], rfl, by decide⟩
  · rintro ⟨hres, -⟩
    obtain ⟨e, he, -⟩ := hres 0 (by decide)
    cases he
  · rintro ⟨-, hcount⟩
    exact absurd hcount (by decide)

end LlmEngine.Storage.Cache
