/-
# LlmEngine.Storage.StreamerSizing — when the budget is enough.

The sizing loop of `eng_streamer_create` starts with a slot for the largest block, and whatever it
pins only makes the slot smaller.  So a budget is accepted exactly when it holds that first slot
(`engStreamerCreate_isSome_iff`), however many blocks end up pinned.

* A budget that holds the first slot is kept to by every later pass (`sizingLoop_fits`): the ring gives up
  slots down to one, and that one fits.
* A budget that does not is stuck with one slot that is too large, and pins nothing (`sizingLoop_stuck`): the
  pinned prefix is chosen from what the ring leaves, which is less than nothing.

`slotFor n extra` is the slot of a block of `n` bytes: its pages, one page for what a widened read adds, and
the scratch, rounded up to whole pages.  It is what a plan has to leave room for, where it counts raw bytes
only (`Models.Qwen3Plan`).

An empty list of blocks is refused before anything is sized.
-/
import LlmEngine.Storage.StreamerOrder

namespace LlmEngine.Storage.Streamer

open LlmEngine.Storage

section Slots

variable {rs budget : Int}

/-- Slots are dropped until the ring fits, if one slot does. -/
theorem dropSlots_fits (h : rs ≤ budget) : ∀ n : Nat, 0 < n →
    (dropSlots rs budget n : Int) * rs ≤ budget
  | 1, _ => by
      rw [dropSlots]
      omega
  | n + 2, _ => by
      rw [dropSlots]
      split_ifs with hmany
      · exact dropSlots_fits h (n + 1) (Nat.succ_pos n)
      · exact not_lt.mp hmany

/-- Where not even one fits, one is what is left. -/
theorem dropSlots_one (hpos : 0 < rs) (h : budget < rs) : ∀ n : Nat, 0 < n → dropSlots rs budget n = 1
  | 1, _ => rfl
  | n + 2, _ => by
      have hmany : ((n + 2 : Nat) : Int) * rs > budget := by
        push_cast
        nlinarith
      rw [dropSlots, if_pos hmany]
      exact dropSlots_one hpos h (n + 1) (Nat.succ_pos n)

end Slots

/-! ## The largest block -/

/-- The largest of a list of sizes, as a loop from 0 on keeps it. -/
def largest (sizes : List Int) : Int := sizes.foldl (fun big n => if n > big then n else big) 0

/-- A loop that keeps the larger of two: an upper bound, and one of the values it met. -/
theorem foldl_larger (sizes : List Int) : ∀ big : Int,
    big ≤ sizes.foldl (fun big n => if n > big then n else big) big ∧
      (∀ n ∈ sizes, n ≤ sizes.foldl (fun big n => if n > big then n else big) big) ∧
      sizes.foldl (fun big n => if n > big then n else big) big ∈ big :: sizes := by
  induction sizes with
  | nil => intro big; simp
  | cons n sizes ih =>
      intro big
      obtain ⟨hle, hall, hfrom⟩ := ih (if n > big then n else big)
      rw [List.foldl_cons]
      refine ⟨?_, ?_, ?_⟩
      · split_ifs at hle ⊢ <;> omega
      · intro n' hn'
        rcases List.mem_cons.mp hn' with rfl | hmem
        · split_ifs at hle ⊢ <;> omega
        · exact hall n' hmem
      · rcases List.mem_cons.mp hfrom with heq | hmem
        · rw [heq]
          split_ifs <;> simp
        · exact List.mem_cons_of_mem _ (List.mem_cons_of_mem _ hmem)

theorem largest_nonneg (sizes : List Int) : 0 ≤ largest sizes := (foldl_larger sizes 0).1

theorem le_largest {sizes : List Int} {n : Int} (h : n ∈ sizes) : n ≤ largest sizes :=
  (foldl_larger sizes 0).2.1 n h

theorem largest_mem (sizes : List Int) : largest sizes = 0 ∨ largest sizes ∈ sizes :=
  List.mem_cons.mp (foldl_larger sizes 0).2.2

/-! ## Sizing -/

/-- The slot for a block of `n` bytes, with `extra` scratch behind it. -/
def slotFor (n extra : Int) : Int := alignUp (alignUp n engIoAlign + engIoAlign + extra) engIoAlign

theorem slotFor_mono {n n' : Int} (h : n ≤ n') (extra : Int) : slotFor n extra ≤ slotFor n' extra := by
  unfold slotFor alignUp engIoAlign
  omega

theorem slotFor_pos {n extra : Int} (hn : 0 ≤ n) (hextra : 0 ≤ extra) : 0 < slotFor n extra := by
  unfold slotFor alignUp engIoAlign
  omega

section Sizing

variable {blk : List EngBlock} {budget extra : Int} {ringWant : Nat}

theorem largestStreaming_eq (npin : Nat) :
    largestStreaming blk npin = largest ((blk.drop npin).map (·.nbytes)) := by
  unfold largestStreaming largest
  rw [List.foldl_map]

theorem last_mem (hne : blk ≠ []) : blk.getD (blk.length - 1) default ∈ blk := by
  have hlen := List.length_pos_iff.mpr hne
  rw [List.getD_eq_getElem?_getD, List.getElem?_eq_getElem (by omega)]
  exact List.getElem_mem _

/-- The slot of a pass is a slot for one of the blocks. -/
theorem ringSlotFor_le (extra : Int) (hne : blk ≠ []) (hnn : ∀ b ∈ blk, 0 ≤ b.nbytes) (npin : Nat) :
    ∃ n, ringSlotFor blk extra npin = slotFor n extra ∧ 0 ≤ n ∧
      n ≤ largest (blk.map (·.nbytes)) := by
  unfold ringSlotFor
  simp only [largestStreaming_eq]
  split_ifs with hzero
  · have hlast := last_mem hne
    exact ⟨_, rfl, hnn _ hlast, le_largest (List.mem_map_of_mem hlast)⟩
  · refine ⟨_, rfl, largest_nonneg _, ?_⟩
    rcases largest_mem ((blk.drop npin).map (·.nbytes)) with heq | hmem
    · exact absurd heq hzero
    · obtain ⟨b, hb, heq⟩ := List.mem_map.mp hmem
      rw [← heq]
      exact le_largest (List.mem_map_of_mem (List.mem_of_mem_drop hb))

/-- The first pass sizes for the largest block. -/
theorem ringSlotFor_zero (hne : blk ≠ []) (hnn : ∀ b ∈ blk, 0 ≤ b.nbytes) :
    ringSlotFor blk extra 0 = slotFor (largest (blk.map (·.nbytes))) extra := by
  unfold ringSlotFor
  simp only [largestStreaming_eq, List.drop_zero]
  split_ifs with hzero
  · have hle := le_largest (List.mem_map_of_mem (f := (·.nbytes)) (last_mem hne))
    have heq : (blk.getD (blk.length - 1) default).nbytes = largest (blk.map (·.nbytes)) :=
      le_antisymm hle (hzero ▸ hnn _ (last_mem hne))
    rw [heq]
    rfl
  · rfl

/-- **A pass that fits is followed by passes that fit.** -/
theorem sizingLoop_fits (hne : blk ≠ []) (hnn : ∀ b ∈ blk, 0 ≤ b.nbytes) (hextra : 0 ≤ extra)
    (hwant : 0 < ringWant) (hfirst : slotFor (largest (blk.map (·.nbytes))) extra ≤ budget) :
    ∀ (passes : Nat) (z : Sizing),
      (passes = 0 → 0 < z.ringSlot ∧ (z.ring : Int) * z.ringSlot ≤ budget) →
      0 < (sizingLoop blk budget extra ringWant passes z).ringSlot ∧
        ((sizingLoop blk budget extra ringWant passes z).ring : Int) *
          (sizingLoop blk budget extra ringWant passes z).ringSlot ≤ budget
  | 0, z, hz => hz rfl
  | passes + 1, z, _ => by
      obtain ⟨n, hslot, hn, hle⟩ := ringSlotFor_le extra hne hnn z.npin
      have hpos : 0 < ringSlotFor blk extra z.npin := by
        rw [hslot]
        exact slotFor_pos hn hextra
      have hsmall : ringSlotFor blk extra z.npin ≤ budget := by
        rw [hslot]
        exact (slotFor_mono hle extra).trans hfirst
      have hring := dropSlots_fits hsmall ringWant hwant
      rw [sizingLoop]
      split_ifs with hfix
      · rw [← hfix.1]
        exact ⟨hpos, hring⟩
      · exact sizingLoop_fits hne hnn hextra hwant hfirst passes _ fun _ => ⟨hpos, hring⟩

theorem pinPrefix_none (hnn : ∀ b ∈ blk, 0 ≤ b.nbytes) (hextra : 0 ≤ extra) (sp : Int)
    (h : budget < sp) : pinPrefix budget extra blk sp = (0, sp) := by
  cases blk with
  | nil => rfl
  | cons b bs =>
      have hb := hnn b List.mem_cons_self
      have hneed : 0 ≤ pinNeed extra b := by
        unfold pinNeed alignUp engIoAlign
        omega
      rw [pinPrefix, if_pos (by omega)]

/-- Where the first slot does not fit, nothing is pinned and the slot stays. -/
theorem sizingLoop_stuck (hne : blk ≠ []) (hnn : ∀ b ∈ blk, 0 ≤ b.nbytes) (hextra : 0 ≤ extra)
    (hwant : 0 < ringWant) (hfirst : budget < slotFor (largest (blk.map (·.nbytes))) extra) :
    ∀ (passes : Nat) (z : Sizing), z.npin = 0 →
      (sizingLoop blk budget extra ringWant (passes + 1) z).ring = 1 ∧
        (sizingLoop blk budget extra ringWant (passes + 1) z).ringSlot =
          slotFor (largest (blk.map (·.nbytes))) extra
  | passes, z, hz => by
      have hslot : ringSlotFor blk extra z.npin = slotFor (largest (blk.map (·.nbytes))) extra := by
        rw [hz]
        exact ringSlotFor_zero hne hnn
      have hring := dropSlots_one (slotFor_pos (largest_nonneg _) hextra) hfirst ringWant hwant
      have hpin := pinPrefix_none hnn hextra
        (((1 : Nat) : Int) * slotFor (largest (blk.map (·.nbytes))) extra)
        (by rw [Nat.cast_one, one_mul]; exact hfirst)
      rw [sizingLoop, hslot, hring, hpin]
      split_ifs with hfix
      · exact ⟨rfl, hfix.1.symm⟩
      · cases passes with
        | zero => exact ⟨rfl, rfl⟩
        | succ passes => exact sizingLoop_stuck hne hnn hextra hwant hfirst passes _ rfl

end Sizing

/-- **A budget is accepted exactly when it holds one slot for the largest block.** -/
theorem engStreamerCreate_isSome_iff (store : EngStorage) (cfg : EngStreamerCfg) (threadOk : Bool)
    (hnn : ∀ b ∈ cfg.blocks, 0 ≤ b.nbytes) :
    (engStreamerCreate store cfg threadOk).isSome ↔ cfg.blocks ≠ [] ∧
      slotFor (largest (cfg.blocks.map (·.nbytes))) (if cfg.extraBytes > 0 then cfg.extraBytes else 0) ≤
        cfg.budgetBytes := by
  unfold engStreamerCreate
  by_cases hne : cfg.blocks = []
  · simp [hne]
  have hextra : 0 ≤ (if cfg.extraBytes > 0 then cfg.extraBytes else 0) := by split_ifs <;> omega
  have hwant : 0 < (if cfg.ringWant > 0 then cfg.ringWant.toNat else 2) := by split_ifs <;> omega
  simp only [hne, if_false, ne_eq, not_false_eq_true, true_and]
  by_cases hfirst : slotFor (largest (cfg.blocks.map (·.nbytes)))
      (if cfg.extraBytes > 0 then cfg.extraBytes else 0) ≤ cfg.budgetBytes
  · obtain ⟨hpos, hfits⟩ := sizingLoop_fits hne hnn hextra hwant hfirst 4
      { ringSlot := 0, npin := 0, ring := (if cfg.ringWant > 0 then cfg.ringWant.toNat else 2)
        spent := 0 } (fun h => absurd h (by decide))
    rw [if_neg (by omega)]
    simp [hfirst]
  · obtain ⟨hring, hslot⟩ := sizingLoop_stuck hne hnn hextra hwant (not_le.mp hfirst) 3
      { ringSlot := 0, npin := 0, ring := (if cfg.ringWant > 0 then cfg.ringWant.toNat else 2)
        spent := 0 } rfl
    rw [hring, hslot, if_pos (.inr (by rw [Nat.cast_one, one_mul]; exact not_le.mp hfirst))]
    simp [hfirst]

end LlmEngine.Storage.Streamer
