/-
# LlmEngine.Storage.StreamerSound — does the streamer fit what it was sized for.

A buffer holds a block (`HoldsBlock`) when the widened read window fits it at every file offset, and
behind the payload there is room for the scratch area `eng_streamer_get` hands out.  A pinned block
has a buffer of its own and always fits; what remains is whether a ring slot holds every block that
streams, which it does unless the last round took back a pin the slot was sized for.

It does in one case.  Where the first block alone is the largest, a ring without it can have a slot
more, and scratch that is no whole number of pages makes the block cheaper to pin than to ring.  A
budget between the two pins it, un-pins it, pins it and un-pins it, and the fourth pass leaves it to
a ring that was sized without it (`engStreamerCreate_sound_iff`).

    blocks of 20480 and 12288 bytes, 100 bytes of scratch, two slots, a budget of 56000

The argument goes by rounds (`Storage.StreamerRounds`): a ring that gave up a slot loses its largest block to the
pins only if that is the first one (`round_zero_eq_one`), and where no block swings the last round takes
nothing back (`lastRound_le`).  The last part says when everything ends up pinned (`Built.npin_all_iff`).
-/
import LlmEngine.Storage.StreamerRounds

namespace LlmEngine.Storage.Streamer

open LlmEngine.Storage

/-! ## What a buffer must hold -/

/-- A buffer of `cap` bytes takes a block of `nbytes` from any offset of any container, and behind it
the scratch area. -/
def HoldsBlock (nbytes extra cap : Int) : Prop :=
  ∀ (store : EngStorage) (off : Int), 0 ≤ off →
    (fileReadAligned store off nbytes cap).refused = false ∧
      -- the scratch starts behind the payload and ends inside the buffer
      (fileReadAligned store off nbytes cap).pad + nbytes ≤
        (fileReadAligned store off nbytes cap).pad + alignUp nbytes engIoAlign ∧
      (fileReadAligned store off nbytes cap).pad + alignUp nbytes engIoAlign + extra ≤ cap

section Holds

variable {nbytes extra cap : Int}

/-- Room for the payload behind the largest pad, for the scratch behind it, and for one page of
widening, is enough. -/
theorem holdsBlock_of_room (hn : 0 ≤ nbytes)
    (hroom : alignUp nbytes engIoAlign + (engIoAlign - 1) + extra ≤ cap)
    (hwide : alignUp nbytes engIoAlign + engIoAlign ≤ cap) : HoldsBlock nbytes extra cap := by
  intro store off hoff
  have hge := alignUp_ge nbytes
  unfold fileReadAligned
  rw [if_neg (by omega)]
  by_cases hd : store.direct = false
  · rw [if_pos hd, if_neg (by unfold alignUp engIoAlign at *; omega)]
    refine ⟨rfl, by simpa using hge, ?_⟩
    unfold alignUp engIoAlign at *
    dsimp only
    omega
  · have hwin : ¬ alignUp (off + nbytes) engIoAlign - off / engIoAlign * engIoAlign > cap := by
      unfold alignUp engIoAlign at *
      omega
    rw [if_neg hd]
    dsimp only
    rw [if_neg hwin]
    refine ⟨rfl, by simpa using hge, ?_⟩
    unfold alignUp engIoAlign at *
    dsimp only
    omega

/-- The buffer of a pinned block, and a slot for a block, are enough. -/
theorem holdsBlock_of_pinNeed (hn : 0 ≤ nbytes) (hextra : 0 ≤ extra)
    (h : alignUp nbytes engIoAlign + engIoAlign + extra ≤ cap) : HoldsBlock nbytes extra cap := by
  apply holdsBlock_of_room hn <;> linarith

theorem le_slotFor (nbytes extra : Int) :
    alignUp nbytes engIoAlign + engIoAlign + extra ≤ slotFor nbytes extra := alignUp_ge _

/-- A block one byte before the end of a page needs the room. -/
theorem HoldsBlock.room (h : HoldsBlock nbytes extra cap) (hn : 0 ≤ nbytes) :
    alignUp nbytes engIoAlign + (engIoAlign - 1) + extra ≤ cap := by
  obtain ⟨hfits, -, hscratch⟩ :=
    h { direct := true, byte := fun _ => 0, size := 0 } (engIoAlign - 1) (by decide)
  have hpad : ((fileReadAligned { direct := true, byte := fun _ => 0, size := 0 } (engIoAlign - 1) nbytes
      cap).pad : Int) = engIoAlign - 1 := by
    unfold fileReadAligned at hfits ⊢
    rw [if_neg (by unfold engIoAlign; omega)] at hfits ⊢
    simp only [Bool.true_eq_false, if_false] at hfits ⊢
    split_ifs at hfits ⊢ with hwin
    · simp [ReadWindow.refuse] at hfits
    · simp [engIoAlign]
  rw [hpad] at hscratch
  linarith

end Holds

/-! ## A sound streamer -/

/-- **What sizing owes**: ring slots and pinned buffers hold their blocks, within the budget. -/
structure Sound (s : EngStreamer) (budget : Int) : Prop where
  ring : ∀ b, s.npin ≤ b → b < s.nblocks → HoldsBlock (s.block b).nbytes s.extraBytes s.slotBytes
  pinned : ∀ b, b < s.npin →
    HoldsBlock (s.block b).nbytes s.extraBytes (pinNeed s.extraBytes (s.block b))
  within : (s.nslot : Int) * s.slotBytes + prefixNeed s.extraBytes s.blk s.npin ≤ budget

section Rounds

variable {cfg : EngStreamerCfg} (hnn : ∀ b ∈ cfg.blocks, 0 ≤ b.nbytes) (hne : cfg.blocks ≠ [])

/-- The slot of the round that starts with `p` pinned blocks. -/
def EngStreamerCfg.slotAt (cfg : EngStreamerCfg) (p : Nat) : Int := ringSlotFor cfg.blocks cfg.scratch p

/-- How many of them there are. -/
def EngStreamerCfg.ringAt (cfg : EngStreamerCfg) (p : Nat) : Nat :=
  dropSlots (cfg.slotAt p) cfg.budgetBytes cfg.slots

/-- What they cost. -/
def EngStreamerCfg.spendAt (cfg : EngStreamerCfg) (p : Nat) : Int := (cfg.ringAt p : Int) * cfg.slotAt p

/-- What pinning the first block costs. -/
def EngStreamerCfg.firstNeed (cfg : EngStreamerCfg) : Int :=
  pinNeed cfg.scratch (cfg.blocks.getD 0 default)

theorem round_congr {p q : Nat} (h : cfg.slotAt p = cfg.slotAt q) : cfg.round p = cfg.round q := by
  have hslot : ringSlotFor cfg.blocks cfg.scratch p = ringSlotFor cfg.blocks cfg.scratch q := h
  unfold EngStreamerCfg.round pins ringSpend
  rw [hslot]

include hnn in
theorem le_round_iff {k p : Nat} (hk : 0 < k) (hlen : k ≤ cfg.blocks.length) :
    k ≤ cfg.round p ↔ cfg.spendAt p + prefixNeed cfg.scratch cfg.blocks k ≤ cfg.budgetBytes :=
  le_pinPrefix_iff hnn cfg.scratch_nonneg hk hlen

include hnn hne in
theorem one_le_round_iff {p : Nat} :
    1 ≤ cfg.round p ↔ cfg.spendAt p + cfg.firstNeed ≤ cfg.budgetBytes := by
  rw [le_round_iff hnn one_pos (List.length_pos_iff.mpr hne)]
  have hone : prefixNeed cfg.scratch cfg.blocks 1 = cfg.firstNeed := by
    obtain ⟨b, bs, hcons⟩ := List.exists_cons_of_ne_nil hne
    unfold EngStreamerCfg.firstNeed prefixNeed
    simp [hcons]
  rw [hone]

include hnn hne in
/-- With a full ring, more pinned blocks leave room for more. -/
theorem round_mono {a p q : Nat} (hfull : (cfg.slots : Int) * cfg.slotAt a ≤ cfg.budgetBytes)
    (ha : a ≤ p) (hpq : p ≤ q) : cfg.round p ≤ cfg.round q := by
  have hp := ringSlotFor_anti cfg.scratch hnn hne ha
  have hq := ringSlotFor_anti cfg.scratch hnn hne hpq
  have hfullp := (mul_le_mul_of_nonneg_left hp (Int.natCast_nonneg cfg.slots)).trans hfull
  have hless := mul_le_mul_of_nonneg_left hq (Int.natCast_nonneg cfg.slots)
  apply pinPrefix_anti
  unfold ringSpend
  rw [dropSlots_all hfullp, dropSlots_all (hless.trans hfullp)]
  exact hless

theorem slotFor_lt (n extra : Int) :
    slotFor n extra < alignUp n engIoAlign + engIoAlign + extra + engIoAlign := by
  unfold slotFor alignUp engIoAlign
  omega

include hnn hne in
/-- **A ring that gave up a slot** can lose its largest block to the pins only if that is the first
one, and then it is the only block pinned. -/
theorem round_zero_eq_one (hshort : cfg.ringAt 0 < cfg.slots) (hpin : 0 < cfg.round 0)
    (hless : cfg.slotAt (cfg.round 0) < cfg.slotAt 0) :
    cfg.round 0 = 1 ∧ cfg.slotAt 0 = slotFor (cfg.blocks.getD 0 default).nbytes cfg.scratch := by
  obtain ⟨b, hb, -, hslot⟩ := exists_ringSlotFor cfg.scratch hnn hne 0
  -- the largest block is among those pinned
  have hpinned : b < cfg.round 0 := by
    by_contra hout
    have hle := slotFor_le_ringSlotFor cfg.scratch hnn (not_lt.mp hout) hb
    rw [← hslot] at hle
    exact absurd hless (not_lt.mpr hle)
  have hlen : cfg.round 0 ≤ cfg.blocks.length := pinPrefix_le _ _ _ _
  have hpaid := (le_round_iff hnn hpin hlen).mp le_rfl
  have hneed := le_prefixNeed cfg.scratch_nonneg hnn hpinned hlen
  have hover := dropSlots_next cfg.slots_pos hshort
  have hroom : cfg.budgetBytes < cfg.spendAt 0 + cfg.slotAt 0 := by
    unfold EngStreamerCfg.spendAt
    unfold EngStreamerCfg.ringAt at *
    linarith
  have hslot' : cfg.slotAt 0 = slotFor (cfg.blocks.getD b default).nbytes cfg.scratch := hslot
  have hlt := slotFor_lt (cfg.blocks.getD b default).nbytes cfg.scratch
  rw [← hslot'] at hlt
  have hfew : ((cfg.round 0 : Int) - 1) * (engIoAlign) < engIoAlign := by
    unfold pinNeed at hneed
    linarith
  have hone : cfg.round 0 = 1 := by
    unfold engIoAlign at hfew
    omega
  refine ⟨hone, ?_⟩
  obtain rfl : b = 0 := by omega
  exact hslot'

/-- The first block can be pinned beside a ring that has to hold it, but not beside the ring that no
longer has to. -/
def EngStreamerCfg.FirstSwings (cfg : EngStreamerCfg) : Prop :=
  cfg.spendAt 0 + cfg.firstNeed ≤ cfg.budgetBytes ∧ cfg.budgetBytes < cfg.spendAt 1 + cfg.firstNeed

include hnn hne in
/-- **A block that swings** is pinned by every other round. -/
theorem EngStreamerCfg.FirstSwings.rounds (h : cfg.FirstSwings) : cfg.round 0 = 1 ∧ cfg.round 1 = 0 ∧
    cfg.slotAt 1 < cfg.slotAt 0 ∧
    cfg.slotAt 0 = slotFor (cfg.blocks.getD 0 default).nbytes cfg.scratch := by
  obtain ⟨hin, hout⟩ := h
  have hanti : cfg.slotAt 1 ≤ cfg.slotAt 0 := ringSlotFor_anti cfg.scratch hnn hne (Nat.zero_le 1)
  have hspend : cfg.spendAt 0 < cfg.spendAt 1 := by linarith
  have hless : cfg.slotAt 1 < cfg.slotAt 0 := by
    apply lt_of_le_of_ne hanti
    intro heq
    unfold EngStreamerCfg.spendAt EngStreamerCfg.ringAt at hspend
    rw [heq] at hspend
    exact lt_irrefl _ hspend
  have hshort : cfg.ringAt 0 < cfg.slots := by
    apply lt_of_le_of_ne (dropSlots_le _ _ _)
    intro hfull
    have hring : cfg.ringAt 1 ≤ cfg.ringAt 0 := (dropSlots_le _ _ _).trans hfull.ge
    have hslot0 : 0 ≤ cfg.slotAt 0 := by
      obtain ⟨b, hb, -, hslot⟩ := exists_ringSlotFor cfg.scratch hnn hne 0
      unfold EngStreamerCfg.slotAt
      rw [hslot]
      exact (slotFor_pos (hnn _ (getD_mem hb)) cfg.scratch_nonneg).le
    have hcost := mul_le_mul (Int.ofNat_le.mpr hring) hanti
      (by unfold EngStreamerCfg.spendAt at hspend; nlinarith) (Int.natCast_nonneg _)
    exact absurd hspend (not_lt.mpr hcost)
  have hpin := (one_le_round_iff hnn hne).mpr hin
  have hdrop : cfg.slotAt (cfg.round 0) < cfg.slotAt 0 :=
    lt_of_le_of_lt (ringSlotFor_anti cfg.scratch hnn hne hpin) hless
  obtain ⟨hone, hlargest⟩ := round_zero_eq_one hnn hne hshort hpin hdrop
  refine ⟨hone, ?_, hless, hlargest⟩
  by_contra hsome
  exact absurd ((one_le_round_iff hnn hne).mp (Nat.pos_of_ne_zero hsome)) (not_le.mpr hout)

end Rounds

section Built

variable {cfg : EngStreamerCfg} {s : EngStreamer} (hnn : ∀ b ∈ cfg.blocks, 0 ≤ b.nbytes)

theorem Built.npin_le (h : Built cfg s) : s.npin ≤ s.nblocks := by
  rw [h.npin, EngStreamer.nblocks, h.blk]
  exact pinPrefix_le _ _ _ _

include hnn

theorem Built.slotAt_zero (h : Built cfg s) : cfg.slotAt 0 ≤ cfg.budgetBytes := by
  unfold EngStreamerCfg.slotAt
  rw [ringSlotFor_zero h.nonempty hnn]
  exact h.first

theorem Built.block_nonneg (h : Built cfg s) {b : Nat} (hb : b < s.nblocks) : 0 ≤ (s.block b).nbytes := by
  unfold EngStreamer.nblocks at hb
  unfold EngStreamer.block
  rw [h.blk] at hb ⊢
  exact hnn _ (getD_mem hb)

/-- A pinned block fits its buffer. -/
theorem Built.pinned (h : Built cfg s) {b : Nat} (hb : b < s.npin) :
    HoldsBlock (s.block b).nbytes s.extraBytes (pinNeed s.extraBytes (s.block b)) := by
  apply holdsBlock_of_pinNeed (h.block_nonneg hnn (hb.trans_le h.npin_le))
  · rw [h.extraBytes]
    exact cfg.scratch_nonneg
  · exact le_rfl

/-- Ring and pins stay within the budget. -/
theorem Built.within (h : Built cfg s) :
    (s.nslot : Int) * s.slotBytes + prefixNeed s.extraBytes s.blk s.npin ≤ cfg.budgetBytes := by
  have hslot : ringSlotFor cfg.blocks cfg.scratch cfg.lastRound ≤ cfg.budgetBytes :=
    (ringSlotFor_anti cfg.scratch hnn h.nonempty (Nat.zero_le _)).trans (h.slotAt_zero hnn)
  have hring := dropSlots_fits hslot cfg.slots cfg.slots_pos
  have hwithin := pinPrefix_within cfg.scratch cfg.blocks hring
  rw [pinPrefix_spent] at hwithin
  rw [h.nslot, h.slotBytes, h.extraBytes, h.blk, h.npin]
  exact hwithin

/-- A ring slot holds the blocks it was sized for. -/
theorem Built.ring (h : Built cfg s) {b : Nat} (hlast : cfg.lastRound ≤ b) (hb : b < s.nblocks) :
    HoldsBlock (s.block b).nbytes s.extraBytes s.slotBytes := by
  have hn := h.block_nonneg hnn hb
  unfold EngStreamer.nblocks at hb
  unfold EngStreamer.block at hn ⊢
  rw [h.blk] at hb hn ⊢
  rw [h.extraBytes, h.slotBytes]
  apply holdsBlock_of_pinNeed hn cfg.scratch_nonneg
  exact (le_slotFor _ _).trans (slotFor_le_ringSlotFor cfg.scratch hnn hlast hb)

end Built

section All

variable {cfg : EngStreamerCfg} {s : EngStreamer}

/-- Four rounds that end with every block pinned, each beside the full ring the round before it asks
for. -/
def EngStreamerCfg.PinsAll (cfg : EngStreamerCfg) : Prop :=
  ∃ p₁ p₂ p₃ : Nat, p₁ ≤ cfg.blocks.length ∧ p₂ ≤ cfg.blocks.length ∧ p₃ ≤ cfg.blocks.length ∧
    cfg.slots * cfg.slotAt 0 + prefixNeed cfg.scratch cfg.blocks p₁ ≤ cfg.budgetBytes ∧
    cfg.slots * cfg.slotAt p₁ + prefixNeed cfg.scratch cfg.blocks p₂ ≤ cfg.budgetBytes ∧
    cfg.slots * cfg.slotAt p₂ + prefixNeed cfg.scratch cfg.blocks p₃ ≤ cfg.budgetBytes ∧
    cfg.slots * cfg.slotAt p₃ + prefixNeed cfg.scratch cfg.blocks cfg.blocks.length ≤ cfg.budgetBytes

/-- Without scratch a block costs the same pinned and in a slot. -/
theorem pinNeed_eq_slotFor (b : EngBlock) : pinNeed 0 b = slotFor b.nbytes 0 := by
  unfold pinNeed slotFor alignUp engIoAlign
  omega

/-- **A ring that gave up a slot never pins its largest block**, where there is no scratch. -/
theorem slotAt_lastRound (hnn : ∀ b ∈ cfg.blocks, 0 ≤ b.nbytes) (hne : cfg.blocks ≠ [])
    (hscratch : cfg.scratch = 0) (hshort : cfg.ringAt 0 < cfg.slots) :
    cfg.slotAt cfg.lastRound = cfg.slotAt 0 := by
  unfold EngStreamerCfg.lastRound
  rcases Nat.eq_zero_or_pos (cfg.round 0) with hnone | hpin
  · rw [Function.iterate_fixed hnone]
  have hanti : cfg.slotAt (cfg.round 0) ≤ cfg.slotAt 0 :=
    ringSlotFor_anti cfg.scratch hnn hne (Nat.zero_le _)
  rcases eq_or_lt_of_le hanti with hsame | hless
  · have hfix : cfg.round (cfg.round 0) = cfg.round 0 := round_congr hsame
    rw [Function.iterate_succ_apply, Function.iterate_fixed hfix, hsame]
  · -- the first block would have to be pinned beside a ring of its own size
    obtain ⟨-, hlargest⟩ := round_zero_eq_one hnn hne hshort hpin hless
    have hin := (one_le_round_iff hnn hne).mp hpin
    have hover := dropSlots_next cfg.slots_pos hshort
    have hneed : cfg.firstNeed = cfg.slotAt 0 := by
      rw [hlargest, EngStreamerCfg.firstNeed, hscratch]
      exact pinNeed_eq_slotFor _
    rw [hneed] at hin
    unfold EngStreamerCfg.spendAt EngStreamerCfg.ringAt at hin
    linarith

theorem prefixNeed_le_iff_round (hnn : ∀ b ∈ cfg.blocks, 0 ≤ b.nbytes) (hne : cfg.blocks ≠ [])
    (hfull : (cfg.slots : Int) * cfg.slotAt 0 ≤ cfg.budgetBytes) {k p : Nat}
    (hk : k ≤ cfg.blocks.length) :
    cfg.slots * cfg.slotAt p + prefixNeed cfg.scratch cfg.blocks k ≤ cfg.budgetBytes ↔
      k ≤ cfg.round p := by
  have hanti : cfg.slotAt p ≤ cfg.slotAt 0 := ringSlotFor_anti cfg.scratch hnn hne (Nat.zero_le _)
  have hfits := (mul_le_mul_of_nonneg_left hanti (Int.natCast_nonneg cfg.slots)).trans hfull
  have hspend : cfg.spendAt p = cfg.slots * cfg.slotAt p := by
    unfold EngStreamerCfg.spendAt EngStreamerCfg.ringAt
    rw [dropSlots_all hfits]
  rcases Nat.eq_zero_or_pos k with rfl | hpos
  · have hzero : prefixNeed cfg.scratch cfg.blocks 0 = 0 := rfl
    rw [hzero, add_zero]
    exact iff_of_true hfits (Nat.zero_le _)
  · rw [le_round_iff hnn hpos hk, hspend]

/-- **When everything ends up pinned.** -/
theorem Built.npin_all_iff (hnn : ∀ b ∈ cfg.blocks, 0 ≤ b.nbytes) (hb : Built cfg s)
    (hscratch : cfg.scratch = 0) : s.npin = s.nblocks ↔ cfg.PinsAll := by
  have hlen : s.nblocks = cfg.blocks.length := by rw [EngStreamer.nblocks, hb.blk]
  have hle : ∀ p, cfg.round p ≤ cfg.blocks.length := fun p => pinPrefix_le _ _ _ _
  rw [hb.npin, hlen]
  constructor
  · intro hall
    have hfull : (cfg.slots : Int) * cfg.slotAt 0 ≤ cfg.budgetBytes := by
      by_contra hover
      have hshort : cfg.ringAt 0 < cfg.slots := by
        apply lt_of_le_of_ne (dropSlots_le _ _ _)
        intro hring
        have hfits := dropSlots_fits (hb.slotAt_zero hnn) cfg.slots cfg.slots_pos
        exact hover (hring ▸ hfits)
      -- all the blocks, the largest among them, beside a ring for the largest
      have hlast := slotAt_lastRound hnn hb.nonempty hscratch hshort
      have hpaid := (le_round_iff hnn (List.length_pos_iff.mpr hb.nonempty) le_rfl).mp hall.ge
      obtain ⟨b, hbl, -, hslot⟩ := exists_ringSlotFor cfg.scratch hnn hb.nonempty 0
      have hneed := le_prefixNeed cfg.scratch_nonneg hnn hbl le_rfl
      have hdrop := dropSlots_next cfg.slots_pos hshort
      have hspend : cfg.spendAt cfg.lastRound = cfg.ringAt 0 * cfg.slotAt 0 := by
        unfold EngStreamerCfg.spendAt EngStreamerCfg.ringAt
        rw [hlast]
      have hslot0 : cfg.slotAt 0 = pinNeed cfg.scratch (cfg.blocks.getD b default) := by
        rw [hscratch, pinNeed_eq_slotFor, ← hscratch]
        exact hslot
      rw [hspend] at hpaid
      unfold EngStreamerCfg.ringAt at hpaid
      have hlen1 : (0 : Int) ≤ ((cfg.blocks.length : Int) - 1) * engIoAlign := by
        have := List.length_pos_iff.mpr hb.nonempty
        unfold engIoAlign
        omega
      linarith
    have hiff : ∀ {k p : Nat}, k ≤ cfg.blocks.length → _ := fun {k p} hk =>
      prefixNeed_le_iff_round hnn hb.nonempty hfull (k := k) (p := p) hk
    refine ⟨cfg.round 0, cfg.round^[2] 0, cfg.round^[3] 0, hle _, hle _, hle _, ?_, ?_, ?_, ?_⟩
    · exact (hiff (hle _)).mpr le_rfl
    · exact (hiff (hle _)).mpr le_rfl
    · exact (hiff (hle _)).mpr le_rfl
    · exact (hiff le_rfl).mpr hall.ge
  · rintro ⟨p₁, p₂, p₃, h₁, h₂, h₃, hr₁, hr₂, hr₃, hr₄⟩
    have hneed := prefixNeed_nonneg hnn cfg.scratch_nonneg p₁
    have hfull : (cfg.slots : Int) * cfg.slotAt 0 ≤ cfg.budgetBytes := by linarith
    have hmono : ∀ {p q : Nat}, p ≤ q → cfg.round p ≤ cfg.round q := fun hpq =>
      round_mono hnn hb.nonempty hfull (Nat.zero_le _) hpq
    rw [prefixNeed_le_iff_round hnn hb.nonempty hfull h₁] at hr₁
    rw [prefixNeed_le_iff_round hnn hb.nonempty hfull h₂] at hr₂
    rw [prefixNeed_le_iff_round hnn hb.nonempty hfull h₃] at hr₃
    rw [prefixNeed_le_iff_round hnn hb.nonempty hfull le_rfl] at hr₄
    have hthree : p₃ ≤ cfg.lastRound := hr₃.trans (hmono (hr₂.trans (hmono hr₁)))
    exact le_antisymm (hle _) (hr₄.trans (hmono hthree))

end All

end LlmEngine.Storage.Streamer
