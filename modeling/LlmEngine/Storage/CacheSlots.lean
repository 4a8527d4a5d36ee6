/-
# LlmEngine.Storage.CacheSlots — a slot has room for a widened read (`src/storage/cache.c`).

A direct read of an object is widened outward to whole pages, and a slot is its payload and two pages,
rounded up to whole pages.  The window of every object that fits the payload fits the slot, wherever the
object lies in its file: what the two ends add is less than two pages (`window_le_stride`).

The slot size is computed in an `int64_t`.  A cache whose budget is one has slots whose size is one too
(`Sized`): with a larger slot the budget would hold none, and nothing is created.

* `HoldsRead` is what a slot owes a read of `n` bytes at any offset: neither reader refuses for want of room, and
  what arrives lies inside the slot.
* `SlotsApart`: the slots lie side by side on pages, in an arena that starts on a page, and end inside it.
* `slots_hold_reads` has both for every state that a created cache reaches; no operation changes the slots
  (`applyOp_slots`).
-/
import LlmEngine.Storage.CacheIndex
import LlmEngine.Storage.ReadAligned

namespace LlmEngine.Storage.Cache

open LlmEngine.Lib
open LlmEngine.Storage
open EngCache

variable {σ : Type} {m : Nat}

/-! ## The rounding -/

/-- A slot is a whole number of pages. -/
theorem engCacheStrideFor_pages (p : Int) : engIoAlign ∣ engCacheStrideFor p := by
  unfold engCacheStrideFor alignUp
  split_ifs
  · exact dvd_zero _
  · exact Dvd.intro_left _ rfl

/-- A slot is its payload and two pages at least. -/
theorem engCacheStrideFor_room {p : Int} (hp : 0 ≤ p) : p + 2 * engIoAlign ≤ engCacheStrideFor p := by
  unfold engCacheStrideFor
  rw [if_neg (by omega)]
  exact alignUp_ge _

/-- **The window of an object that fits the payload fits the slot**, whatever the offset. -/
theorem window_le_stride {p off n : Int} (hp : 0 ≤ p) (hn : n ≤ p) :
    alignUp (off + n) engIoAlign - windowLo off ≤ engCacheStrideFor p := by
  have hroom := engCacheStrideFor_room hp
  unfold windowLo alignUp engIoAlign at *
  omega

/-! ## The slots of a cache -/

/-- What `eng_cache_create` makes of a configuration: the slots are those of the payload, there is one at
least, and the sums behind their size stay in an `int64_t`. -/
structure Sized (cfg : EngCacheCfg) (c : EngCache σ m) : Prop where
  stride : c.stride = engCacheStrideFor cfg.slotBytes
  payload : 1 ≤ cfg.slotBytes
  slots : 1 ≤ c.nslot
  exact_sum : cfg.slotBytes + 2 * engIoAlign + engIoAlign - 1 < 2 ^ 63
  stride_lt : c.stride < 2 ^ 63

theorem engCacheCreate_sized {cfg : EngCacheCfg} {src : EngCacheSrc σ m} {ctx : σ} {arena : Int → UInt8}
    {c : EngCache σ m} (hbudget : -2 ^ 63 ≤ cfg.budgetBytes ∧ cfg.budgetBytes < 2 ^ 63)
    (hc : engCacheCreate cfg src ctx arena = some c) : Sized cfg c := by
  unfold engCacheCreate at hc
  simp only at hc
  split_ifs at hc with hcfg hfew
  cases hc
  have hslots : 1 ≤ toInt32 (cfg.budgetBytes.tdiv (engCacheStrideFor cfg.slotBytes)) := by omega
  -- with a slot of 2 ^ 63 bytes the budget would hold none, or minus one
  have hlt : engCacheStrideFor cfg.slotBytes < 2 ^ 63 := by
    by_contra hbig
    have hquot : cfg.budgetBytes.tdiv (engCacheStrideFor cfg.slotBytes) = 0 ∨
        cfg.budgetBytes.tdiv (engCacheStrideFor cfg.slotBytes) = -1 := by
      rcases Int.le_total 0 cfg.budgetBytes with hpos | hneg
      · exact .inl (Int.tdiv_eq_zero_of_lt hpos (by omega))
      · obtain ⟨b, hb⟩ : ∃ b, cfg.budgetBytes = -b := ⟨-cfg.budgetBytes, by omega⟩
        rw [hb, Int.neg_tdiv]
        rcases Int.lt_or_eq_of_le (show b ≤ engCacheStrideFor cfg.slotBytes by omega) with hless | heq
        · exact .inl (by rw [Int.tdiv_eq_zero_of_lt (by omega) hless]; rfl)
        · exact .inr (by rw [heq, Int.tdiv_self (by omega)])
    rcases hquot with h | h <;> rw [h] at hslots <;> revert hslots <;> decide
  refine ⟨rfl, by omega, by simp only; omega, ?_, hlt⟩
  unfold engCacheStrideFor alignUp engIoAlign at hlt
  unfold engIoAlign
  rw [if_neg (by omega)] at hlt
  omega

/-- No call changes the slots. -/
theorem applyOp_slots {c : EngCache σ m} (h : Quiet c) (op : Op) :
    (applyOp c op).stride = c.stride ∧ (applyOp c op).nslot = c.nslot := by
  cases op with
  | get key =>
      obtain ⟨new, hok⟩ := engCacheGet_ok h key
      exact ⟨hok.stride, hok.nslot⟩
  | getMany keys =>
      obtain ⟨new, hok⟩ := engCacheGetMany_ok h keys
      exact ⟨hok.stride, hok.nslot⟩
  | peek key => exact ⟨rfl, rfl⟩
  | pin key pin =>
      show (engCachePin c key pin).1.stride = c.stride ∧ (engCachePin c key pin).1.nslot = c.nslot
      unfold engCachePin
      split_ifs
      · cases c.slotOf key <;> exact ⟨rfl, rfl⟩
      · exact ⟨rfl, rfl⟩
  | resetStats => exact ⟨rfl, rfl⟩

theorem reaches_sized {cfg : EngCacheCfg} {src : EngCacheSrc σ m} {ctx : σ} {arena : Int → UInt8}
    {c₀ c : EngCache σ m} (hbudget : -2 ^ 63 ≤ cfg.budgetBytes ∧ cfg.budgetBytes < 2 ^ 63)
    (hc : engCacheCreate cfg src ctx arena = some c₀) (hr : Reaches step anyChoice c₀ c) : Sized cfg c := by
  have hstep : ∀ (s : EngCache σ m) (op : Op) (s' : EngCache σ m), (Quiet s ∧ Sized cfg s) → anyChoice s op →
      step s op = some s' → Quiet s' ∧ Sized cfg s' := by
    intro s op s' h _ hs
    obtain rfl := Option.some.inj hs
    obtain ⟨hquiet, hsized⟩ := h
    obtain ⟨hstride, hnslot⟩ := applyOp_slots hquiet op
    exact ⟨(applyOp_ok hquiet op).1, ⟨hstride.trans hsized.stride, hsized.payload, hnslot ▸ hsized.slots,
      hsized.exact_sum, hstride ▸ hsized.stride_lt⟩⟩
  exact (hr.invariant ⟨engCacheCreate_quiet hc, engCacheCreate_sized hbudget hc⟩ hstep).2

/-! ## Loads and slots -/

/-- **A slot holds a read of `n` bytes at `off`.**  The window fits, neither reader refuses for want of room
(each returns what the file has of the object), and the payload lies inside the slot, where `pad` keeps its
place. -/
structure HoldsRead (c : EngCache σ m) (off n : Int) : Prop where
  window : windowLen off n ≤ c.stride
  file_read : ∀ (f : FileCtx) (k kd : Kernel f.file.size) (payloadOff : Int) (buf : Int → UInt8),
    Delivers f.file off n c.stride buf (f.readAligned k kd off n c.stride payloadOff buf)
  shard_read : ∀ (s : K3St) (shard : Int), 0 ≤ shard ∧ shard < s.nshard →
    ∀ (k kd : Kernel (s.shard shard.toNat).size) (payloadOff : Int) (buf : Int → UInt8),
      Delivers (s.shard shard.toNat) off n c.stride buf (k3StReadAligned s shard k kd off n c.stride payloadOff buf)
  payload : 0 ≤ off - windowLo off ∧ off - windowLo off + n ≤ c.stride
  pad : toInt32 (off - windowLo off) = off - windowLo off

/-- **The slots lie side by side on pages**, in an arena that starts on a page. -/
structure SlotsApart (c : EngCache σ m) : Prop where
  pages : ∀ base : Int, engIoAlign ∣ base → ∀ s : Nat, engIoAlign ∣ base + c.slotBase s
  disjoint : ∀ s s' : Nat, s ≠ s' → c.slotBase s + c.stride ≤ c.slotBase s' ∨ c.slotBase s' + c.stride ≤ c.slotBase s
  inside : ∀ s < c.nslot, 0 ≤ c.slotBase s ∧ c.slotBase s + c.stride ≤ c.nslot * c.stride

theorem Sized.holdsRead {cfg : EngCacheCfg} {c : EngCache σ m} (h : Sized cfg c) {off n : Int} (hoff : 0 ≤ off)
    (hlt : off < 2 ^ 63) (hn : 0 ≤ n) (hle : n ≤ cfg.slotBytes) : HoldsRead c off n := by
  have hpayload := h.payload
  have hroom := engCacheStrideFor_room (show 0 ≤ cfg.slotBytes by omega)
  rw [← h.stride] at hroom
  have hask : Asked off n c.stride := ⟨hoff, hlt, hn, by omega, h.stride_lt⟩
  obtain ⟨-, hlo, hstart, hcover, hfits⟩ := hask.window
  refine ⟨hfits, fun f k kd payloadOff buf => f.readAligned_delivers k kd hask payloadOff buf,
    fun s shard hshard k kd payloadOff buf => k3StReadAligned_delivers s hshard k kd hask payloadOff buf,
    ⟨by omega, by omega⟩, ?_⟩
  unfold toInt32 windowLo engIoAlign
  rw [Int.bmod_eq_of_le (by omega) (by omega)]

theorem Sized.slotsApart {cfg : EngCacheCfg} {c : EngCache σ m} (h : Sized cfg c) : SlotsApart c := by
  have hpages : engIoAlign ∣ c.stride := h.stride ▸ engCacheStrideFor_pages _
  have hroom := engCacheStrideFor_room (show 0 ≤ cfg.slotBytes from Int.le_of_lt h.payload)
  have hpos : 0 ≤ c.stride := by
    have hpayload := h.payload
    rw [h.stride]
    unfold engIoAlign at hroom
    omega
  -- a slot ends where the next one begins
  have hnext : ∀ s s' : Nat, s < s' → c.slotBase s + c.stride ≤ c.slotBase s' := by
    intro s s' hlt
    have hle : ((s + 1 : Nat) : Int) * c.stride ≤ s' * c.stride :=
      Int.mul_le_mul_of_nonneg_right (Int.ofNat_le.mpr hlt) hpos
    rw [Nat.cast_add, Nat.cast_one, Int.add_mul, Int.one_mul] at hle
    exact hle
  refine ⟨fun base hbase s => Int.dvd_add hbase (Dvd.dvd.mul_left hpages _), fun s s' hne => ?_, fun s hs => ?_⟩
  · rcases Nat.lt_or_gt_of_ne hne with hlt | hgt
    · exact .inl (hnext s s' hlt)
    · exact .inr (hnext s' s hgt)
  · exact ⟨Int.mul_nonneg (Int.natCast_nonneg s) hpos, hnext s c.nslot hs⟩

/-- **Cache slots hold any widened read.**  The window of an object that fits the payload is no longer than
the slot, at every offset; and in every state of a cache the readers are never refused for want of room, the
payload lies inside its slot, and the slots are on pages, apart, and inside the arena. -/
theorem slots_hold_reads (p : Int) (hp : 1 ≤ p) :
    (∀ off n : Int, n ≤ p → alignUp (off + n) engIoAlign - windowLo off ≤ engCacheStrideFor p) ∧
      ∀ (cfg : EngCacheCfg) (src : EngCacheSrc σ m) (ctx : σ) (arena : Int → UInt8) (c₀ c : EngCache σ m),
        cfg.slotBytes = p → -2 ^ 63 ≤ cfg.budgetBytes ∧ cfg.budgetBytes < 2 ^ 63 →
        engCacheCreate cfg src ctx arena = some c₀ → Reaches step anyChoice c₀ c →
        c.stride = engCacheStrideFor p ∧ p + 2 * engIoAlign + engIoAlign - 1 < 2 ^ 63 ∧ SlotsApart c ∧
          ∀ off n : Int, 0 ≤ off → off < 2 ^ 63 → 0 ≤ n → n ≤ p → HoldsRead c off n := by
  refine ⟨fun off n hn => window_le_stride (by omega) hn, ?_⟩
  rintro cfg src ctx arena c₀ c rfl hbudget hc hr
  have hsized := reaches_sized hbudget hc hr
  exact ⟨hsized.stride, hsized.exact_sum, hsized.slotsApart,
    fun off n hoff hlt hn hle => hsized.holdsRead hoff hlt hn hle⟩

/-- Two bytes on either side of a page's end, in a cache of two slots. -/
theorem straddling_read_held :
    ∃ c : EngCache Unit 1, engCacheCreate { tinyCfg 2 with slotBytes := 2 } refusesOne () (fun _ => 0) = some c ∧
      SlotsApart c ∧ HoldsRead c 4095 2 := by
  have hsome : (engCacheCreate { tinyCfg 2 with slotBytes := 2 } refusesOne () (fun _ => 0)).isSome = true := rfl
  obtain ⟨c, hc⟩ := Option.isSome_iff_exists.mp hsome
  obtain ⟨-, hcache⟩ := slots_hold_reads (σ := Unit) (m := 1) 2 (by decide)
  obtain ⟨-, -, hapart, hholds⟩ := hcache _ refusesOne () (fun _ => 0) c c rfl (by decide) hc .start
  exact ⟨c, hc, hapart, hholds 4095 2 (by decide) (by decide) (by decide) (by decide)⟩

end LlmEngine.Storage.Cache
