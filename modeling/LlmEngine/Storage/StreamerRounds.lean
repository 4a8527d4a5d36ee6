/-
# LlmEngine.Storage.StreamerRounds — the sizing loop as rounds of one function.

`eng_streamer_create` does not know how large a ring slot must be before it knows which blocks are pinned,
nor how many can be pinned before it knows what the ring costs.  So it goes round: a slot for the largest
block that is not pinned, as many slots as the budget leaves, the blocks that fit beside them, and again.

A pass of the sizing loop takes a number of pinned blocks to the next one (`pins`); a fixed point
ends the loop early and changes nothing, so four passes are `pins` four times over
(`engStreamerCreate_rounds`).  The slot of the last pass was sized for the prefix of the third: the
two agree when the last round does not take a pin back.

* The prefix that is pinned is the longest that fits beside the ring (`le_pinPrefix_iff`), so a ring that costs
  less never pins fewer (`pinPrefix_anti`).
* Pinning more never needs a larger slot (`ringSlotFor_anti`), but a smaller slot may give the ring one more:
  this is why a round is not monotone.
* `Built` is what a created streamer was built with.
-/
import LlmEngine.Storage.StreamerSizing
import Mathlib.Algebra.Order.BigOperators.Group.List

namespace LlmEngine.Storage.Streamer

open LlmEngine.Storage

/-! ## One round -/

section Rounds

variable (blk : List EngBlock) (budget extra : Int) (ringWant : Nat)

/-- What the ring of a pass costs, when the pass before it pinned `p` blocks. -/
def ringSpend (p : Nat) : Int :=
  (dropSlots (ringSlotFor blk extra p) budget ringWant : Int) * ringSlotFor blk extra p

/-- One round: how many blocks the pass pins. -/
def pins (p : Nat) : Nat := (pinPrefix budget extra blk (ringSpend blk budget extra ringWant p)).1

/-- Where a pass leaves the loop. -/
def sizingAt (p : Nat) : Sizing where
  ringSlot := ringSlotFor blk extra p
  npin := pins blk budget extra ringWant p
  ring := dropSlots (ringSlotFor blk extra p) budget ringWant
  spent := (pinPrefix budget extra blk (ringSpend blk budget extra ringWant p)).2

/-- **Passes are rounds**: leaving the loop at a fixed point is the same as going on. -/
theorem sizingLoop_at : ∀ (passes p : Nat),
    sizingLoop blk budget extra ringWant passes (sizingAt blk budget extra ringWant p) =
      sizingAt blk budget extra ringWant ((pins blk budget extra ringWant)^[passes] p)
  | 0, _ => rfl
  | passes + 1, p => by
      rw [sizingLoop, Function.iterate_succ_apply, ← sizingLoop_at passes]
      split_ifs with hfix
      · obtain ⟨hslot, hpins⟩ := hfix
        have hsame : pins blk budget extra ringWant (pins blk budget extra ringWant p) =
            pins blk budget extra ringWant p := hpins
        have hstay := Function.iterate_fixed hsame passes
        rw [sizingLoop_at passes, hstay]
        unfold sizingAt
        rw [hsame, Sizing.mk.injEq]
        exact ⟨hslot.symm, rfl, rfl, rfl⟩
      · rfl

end Rounds

/-! ## The prefix that is pinned -/

section Prefix

variable {blk : List EngBlock} {budget extra : Int}

/-- What the first `k` blocks cost when they are pinned. -/
def prefixNeed (extra : Int) (blk : List EngBlock) (k : Nat) : Int :=
  ((blk.take k).map (pinNeed extra)).sum

theorem pinNeed_large {b : EngBlock} (hb : 0 ≤ b.nbytes) (hextra : 0 ≤ extra) :
    engIoAlign ≤ pinNeed extra b := by
  unfold pinNeed alignUp engIoAlign
  omega

theorem prefixNeed_nonneg (hnn : ∀ b ∈ blk, 0 ≤ b.nbytes) (hextra : 0 ≤ extra) (k : Nat) :
    0 ≤ prefixNeed extra blk k := by
  apply List.sum_nonneg
  intro n hn
  obtain ⟨b, hb, rfl⟩ := List.mem_map.mp hn
  have hlarge := pinNeed_large (hnn b (List.mem_of_mem_take hb)) hextra
  unfold engIoAlign at hlarge
  omega

/-- The greedy prefix spends what its blocks need. -/
theorem pinPrefix_spent : ∀ (blk : List EngBlock) (sp : Int),
    (pinPrefix budget extra blk sp).2 =
      sp + prefixNeed extra blk (pinPrefix budget extra blk sp).1
  | [], sp => by simp [pinPrefix, prefixNeed]
  | b :: bs, sp => by
      rw [pinPrefix]
      split_ifs with hover
      · simp [prefixNeed]
      · have ih := pinPrefix_spent bs (sp + pinNeed extra b)
        simp only [prefixNeed, List.take_succ_cons, List.map_cons, List.sum_cons] at ih ⊢
        rw [ih]
        ring

theorem pinPrefix_within (extra : Int) : ∀ (blk : List EngBlock) {sp : Int}, sp ≤ budget →
    (pinPrefix budget extra blk sp).2 ≤ budget
  | [], _, h => h
  | b :: bs, sp, h => by
      rw [pinPrefix]
      split_ifs with hover
      · exact h
      · exact pinPrefix_within extra bs (not_lt.mp hover)

/-- **The greedy prefix is the longest that fits.** -/
theorem le_pinPrefix_iff : ∀ {blk : List EngBlock} {sp : Int} {k : Nat}, (∀ b ∈ blk, 0 ≤ b.nbytes) →
    0 ≤ extra → 0 < k → k ≤ blk.length →
    (k ≤ (pinPrefix budget extra blk sp).1 ↔ sp + prefixNeed extra blk k ≤ budget)
  | [], _, k, _, _, hk, hlen => by
      simp only [List.length_nil] at hlen
      omega
  | b :: bs, sp, k + 1, hnn, hextra, _, hlen => by
      have hnn' : ∀ b' ∈ bs, 0 ≤ b'.nbytes := fun b' hb' => hnn b' (List.mem_cons_of_mem b hb')
      have hrest := prefixNeed_nonneg hnn' hextra k
      have hcons : prefixNeed extra (b :: bs) (k + 1) = pinNeed extra b + prefixNeed extra bs k := rfl
      rw [pinPrefix, hcons]
      split_ifs with hover
      · simp only [Nat.le_zero, Nat.succ_ne_zero, false_iff]
        omega
      · simp only [Nat.add_le_add_iff_right]
        rcases Nat.eq_zero_or_pos k with rfl | hk
        · have hzero : prefixNeed extra bs 0 = 0 := rfl
          simp only [Nat.zero_le, true_iff]
          omega
        · rw [le_pinPrefix_iff hnn' hextra hk (by simpa using hlen), add_assoc]

theorem pinPrefix_anti : ∀ (blk : List EngBlock) {sp sp' : Int}, sp ≤ sp' →
    (pinPrefix budget extra blk sp').1 ≤ (pinPrefix budget extra blk sp).1
  | [], _, _, _ => le_rfl
  | b :: bs, sp, sp', h => by
      rw [pinPrefix, pinPrefix]
      split_ifs with hover' hover hover
      · exact le_rfl
      · exact Nat.zero_le _
      · omega
      · have ih := pinPrefix_anti bs (add_le_add_left h (pinNeed extra b))
        exact Nat.succ_le_succ ih

/-- A block of the prefix is paid for, and so is at least a page for each of the others. -/
theorem le_prefixNeed (hextra : 0 ≤ extra) : ∀ {blk : List EngBlock} {j k : Nat},
    (∀ b ∈ blk, 0 ≤ b.nbytes) → j < k → k ≤ blk.length →
    pinNeed extra (blk.getD j default) + (k - 1 : Int) * engIoAlign ≤ prefixNeed extra blk k
  | [], _, _, _, hj, hk => by
      simp only [List.length_nil] at hk
      omega
  | b :: bs, j, k + 1, hnn, hj, hk => by
      have hnn' : ∀ b' ∈ bs, 0 ≤ b'.nbytes := fun b' hb' => hnn b' (List.mem_cons_of_mem b hb')
      have hcons : prefixNeed extra (b :: bs) (k + 1) = pinNeed extra b + prefixNeed extra bs k := rfl
      have hlen : k ≤ bs.length := by simpa using hk
      have hrest : ∀ i ≤ bs.length, (i : Int) * engIoAlign ≤ prefixNeed extra bs i := by
        intro i hi
        rcases Nat.eq_zero_or_pos i with rfl | hipos
        · simp [prefixNeed]
        · have hfirst := le_prefixNeed hextra hnn' hipos hi
          have hmem : bs.getD 0 default ∈ bs := by
            rw [List.getD_eq_getElem?_getD, List.getElem?_eq_getElem (by omega)]
            exact List.getElem_mem _
          have hlarge := pinNeed_large (hnn' _ hmem) hextra
          linarith
      rw [hcons]
      push_cast
      cases j with
      | zero =>
          have hk' := hrest k hlen
          simp only [List.getD_cons_zero]
          linarith
      | succ j =>
          have hlarge := pinNeed_large (hnn b List.mem_cons_self) hextra
          have ih := le_prefixNeed hextra hnn' (Nat.lt_of_succ_lt_succ hj) hlen
          simp only [List.getD_cons_succ]
          linarith

end Prefix

/-! ## The ring of a pass -/

section Ring

variable {blk : List EngBlock} {budget extra : Int} {ringWant : Nat}

theorem dropSlots_le (rs budget : Int) : ∀ n, dropSlots rs budget n ≤ n
  | 0 => le_rfl
  | 1 => le_rfl
  | n + 2 => by
      rw [dropSlots]
      split_ifs
      · exact (dropSlots_le rs budget (n + 1)).trans (Nat.le_succ _)
      · exact le_rfl

theorem dropSlots_all {rs budget : Int} {n : Nat} (h : (n : Int) * rs ≤ budget) :
    dropSlots rs budget n = n := by
  match n with
  | 0 => rfl
  | 1 => rfl
  | n + 2 => rw [dropSlots, if_neg (not_lt.mpr h)]

/-- A slot that was dropped did not fit. -/
theorem dropSlots_next {rs budget : Int} : ∀ {n : Nat}, 0 < n → dropSlots rs budget n < n →
    budget < (dropSlots rs budget n + 1 : Int) * rs
  | 1, _, h => absurd h (lt_irrefl 1)
  | n + 2, _, h => by
      rw [dropSlots] at h ⊢
      split_ifs at h ⊢ with hmany
      · rcases Nat.lt_or_ge (dropSlots rs budget (n + 1)) (n + 1) with hlt | hge
        · exact dropSlots_next (Nat.succ_pos n) hlt
        · have heq := le_antisymm (dropSlots_le rs budget (n + 1)) hge
          rw [heq]
          push_cast at hmany ⊢
          linarith
      · omega

theorem getD_mem {b : Nat} (h : b < blk.length) : blk.getD b default ∈ blk := by
  rw [List.getD_eq_getElem?_getD, List.getElem?_eq_getElem h]
  exact List.getElem_mem h

theorem getD_mem_drop {b p : Nat} (hp : p ≤ b) (h : b < blk.length) :
    blk.getD b default ∈ blk.drop p := by
  rw [List.getD_eq_getElem?_getD, List.getElem?_eq_getElem h]
  exact List.mem_drop_iff_getElem.mpr ⟨b - p, by omega, by simp [Nat.add_sub_cancel' hp]⟩

/-- While something streams, the slot of a pass is the slot for the largest block that does. -/
theorem ringSlotFor_streams (extra : Int) (hnn : ∀ b ∈ blk, 0 ≤ b.nbytes) {p : Nat}
    (hp : p < blk.length) :
    ringSlotFor blk extra p = slotFor (largest ((blk.drop p).map (·.nbytes))) extra := by
  have hlast : blk.length - 1 < blk.length := by omega
  have hle := le_largest (List.mem_map_of_mem (f := (·.nbytes)) (getD_mem_drop (by omega : p ≤ _) hlast))
  have hb := hnn _ (getD_mem hlast)
  unfold ringSlotFor
  simp only [largestStreaming_eq]
  split_ifs with hzero
  · -- only empty blocks stream, the last of them too
    rw [hzero] at hle
    rw [le_antisymm hle hb, hzero]
    rfl
  · rfl

/-- Where nothing streams it is the slot for the last block. -/
theorem ringSlotFor_all (extra : Int) {p : Nat} (hp : blk.length ≤ p) :
    ringSlotFor blk extra p = slotFor (blk.getD (blk.length - 1) default).nbytes extra := by
  have hzero : largestStreaming blk p = 0 := by
    unfold largestStreaming
    rw [List.drop_of_length_le hp]
    rfl
  unfold ringSlotFor
  simp only [hzero, if_true]
  rfl

theorem slotFor_le_ringSlotFor (extra : Int) (hnn : ∀ b ∈ blk, 0 ≤ b.nbytes) {b p : Nat} (hp : p ≤ b)
    (hb : b < blk.length) :
    slotFor (blk.getD b default).nbytes extra ≤ ringSlotFor blk extra p := by
  rw [ringSlotFor_streams extra hnn (hp.trans_lt hb)]
  exact slotFor_mono (le_largest (List.mem_map_of_mem (getD_mem_drop hp hb))) extra

/-- The slot of a pass is the slot for a block that streams, or for the last. -/
theorem exists_ringSlotFor (extra : Int) (hnn : ∀ b ∈ blk, 0 ≤ b.nbytes) (hne : blk ≠ []) (p : Nat) :
    ∃ b < blk.length, (p ≤ b ∨ b = blk.length - 1) ∧
      ringSlotFor blk extra p = slotFor (blk.getD b default).nbytes extra := by
  have hlen := List.length_pos_iff.mpr hne
  rcases Nat.lt_or_ge p blk.length with hp | hp
  · rw [ringSlotFor_streams extra hnn hp]
    have hle := le_largest (List.mem_map_of_mem (f := (·.nbytes)) (getD_mem_drop le_rfl hp))
    have hfirst := hnn _ (getD_mem hp)
    rcases largest_mem ((blk.drop p).map (·.nbytes)) with hzero | hmem
    · rw [hzero] at hle
      exact ⟨p, hp, .inl le_rfl, by rw [hzero, le_antisymm hle hfirst]⟩
    · obtain ⟨b, hb, heq⟩ := List.mem_map.mp hmem
      obtain ⟨i, hi, rfl⟩ := List.mem_iff_getElem.mp hb
      rw [List.length_drop] at hi
      refine ⟨p + i, by omega, .inl (by omega), ?_⟩
      rw [← heq, List.getElem_drop, List.getD_eq_getElem?_getD, List.getElem?_eq_getElem (by omega)]
      rfl
  · exact ⟨blk.length - 1, by omega, .inr rfl, ringSlotFor_all extra hp⟩

/-- **Pinning more never needs a larger slot.** -/
theorem ringSlotFor_anti (extra : Int) (hnn : ∀ b ∈ blk, 0 ≤ b.nbytes) (hne : blk ≠ []) {p q : Nat}
    (h : p ≤ q) : ringSlotFor blk extra q ≤ ringSlotFor blk extra p := by
  have hlen := List.length_pos_iff.mpr hne
  obtain ⟨b, hb, hfrom, heq⟩ := exists_ringSlotFor extra hnn hne q
  rcases Nat.lt_or_ge p blk.length with hp | hp
  · rw [heq]
    apply slotFor_le_ringSlotFor extra hnn _ hb
    omega
  · rw [ringSlotFor_all extra hp, ringSlotFor_all extra (hp.trans h)]

end Ring

/-! ## The streamer that is built -/

/-- `s->extra_bytes`. -/
def EngStreamerCfg.scratch (cfg : EngStreamerCfg) : Int :=
  if cfg.extraBytes > 0 then cfg.extraBytes else 0

/-- `ring_want`. -/
def EngStreamerCfg.slots (cfg : EngStreamerCfg) : Nat :=
  if cfg.ringWant > 0 then cfg.ringWant.toNat else 2

theorem EngStreamerCfg.scratch_nonneg (cfg : EngStreamerCfg) : 0 ≤ cfg.scratch := by
  unfold scratch
  split_ifs <;> omega

theorem EngStreamerCfg.slots_pos (cfg : EngStreamerCfg) : 0 < cfg.slots := by
  unfold slots
  split_ifs <;> omega

/-- One round over this configuration. -/
def EngStreamerCfg.round (cfg : EngStreamerCfg) : Nat → Nat :=
  pins cfg.blocks cfg.budgetBytes cfg.scratch cfg.slots

/-- How many blocks are pinned when the last pass starts. -/
def EngStreamerCfg.lastRound (cfg : EngStreamerCfg) : Nat := cfg.round^[3] 0

/-- What the last pass leaves behind in a streamer. -/
structure Built (cfg : EngStreamerCfg) (s : EngStreamer) : Prop where
  blk : s.blk = cfg.blocks
  nonempty : cfg.blocks ≠ []
  extraBytes : s.extraBytes = cfg.scratch
  slotBytes : s.slotBytes = ringSlotFor cfg.blocks cfg.scratch cfg.lastRound
  nslot : s.nslot = dropSlots s.slotBytes cfg.budgetBytes cfg.slots
  npin : s.npin = cfg.round cfg.lastRound
  first : slotFor (largest (cfg.blocks.map (·.nbytes))) cfg.scratch ≤ cfg.budgetBytes

/-- **A streamer is built by four rounds.** -/
theorem engStreamerCreate_rounds {store : EngStorage} {cfg : EngStreamerCfg} {threadOk : Bool}
    {s : EngStreamer} (hnn : ∀ b ∈ cfg.blocks, 0 ≤ b.nbytes)
    (h : engStreamerCreate store cfg threadOk = some s) : Built cfg s := by
  have hfits := (engStreamerCreate_isSome_iff store cfg threadOk hnn).mp (by rw [h]; rfl)
  have hslot : ringSlotFor cfg.blocks cfg.scratch 0 =
      slotFor (largest (cfg.blocks.map (·.nbytes))) cfg.scratch := ringSlotFor_zero hfits.1 hnn
  have hslotPos := slotFor_pos (largest_nonneg (cfg.blocks.map (·.nbytes))) cfg.scratch_nonneg
  have hloop : sizingLoop cfg.blocks cfg.budgetBytes cfg.scratch cfg.slots 4
      { ringSlot := 0, npin := 0, ring := cfg.slots, spent := 0 } =
        sizingAt cfg.blocks cfg.budgetBytes cfg.scratch cfg.slots cfg.lastRound := by
    rw [sizingLoop, if_neg fun hfix => hslotPos.ne' (hslot.symm.trans hfix.1)]
    exact sizingLoop_at cfg.blocks cfg.budgetBytes cfg.scratch cfg.slots 3 0
  have hcreate : engStreamerCreate store cfg threadOk =
      if cfg.blocks = [] then none
      else
        let z := sizingLoop cfg.blocks cfg.budgetBytes cfg.scratch cfg.slots 4
          { ringSlot := 0, npin := 0, ring := cfg.slots, spent := 0 }
        if z.ringSlot ≤ 0 ∨ (z.ring : Int) * z.ringSlot > cfg.budgetBytes then none
        else some
          { store := store, blk := cfg.blocks, npin := z.npin, nslot := z.ring
            slotBytes := z.ringSlot, extraBytes := cfg.scratch
            hasIo := cfg.async && decide (z.ring ≥ 2) && threadOk } := rfl
  rw [hcreate, if_neg hfits.1, hloop] at h
  dsimp only at h
  split_ifs at h with hover
  obtain rfl := Option.some.inj h
  exact ⟨rfl, hfits.1, rfl, rfl, rfl, rfl, hfits.2⟩

end LlmEngine.Storage.Streamer
