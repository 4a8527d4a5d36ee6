/-
# LlmEngine.Storage.StreamerInv — what the streamer keeps true, and when.

A `prefetch` takes the slot under the ring cursor and marks it with nothing: `block_of` says empty
until the block is collected, and only `io.slot` remembers that a read is (or was) aimed there.
Two later steps move the cursor again and do not look at that mark: the synchronous miss in `get`
may take the reserved slot, and `prefetch` may take the slot the caller still computes on.

`Clear` is exactly the absence of those two collisions.  `Inv` is inductive along steps that are
`Clear` (`step_inv`), so every run of clear steps keeps every promised pointer good.  Whether a
given caller makes only clear steps is a question about its call order (`Storage.StreamerWalk`).

The invariant has two layers.  `Core` is about the shared record and the arrays: what a slot is registered to
it holds, a read under way is aimed at a slot that nobody is registered to, and its bytes so far are those of
its block (`Job.Good`).  `Inv` adds the promised pointers.  A read in progress and a registered slot never share
an address (`slotBase_disjoint`), which is all that the memory frames need.

There is one lemma per transition, from `enterGet_inv` to `readerStep_inv`, and `step_inv` puts them together.
-/
import LlmEngine.Storage.Streamer

namespace LlmEngine.Storage.Streamer

open LlmEngine.Storage LlmEngine.Lib

variable {s : EngStreamer} {st st' : State}

/-! ## What a buffer holds -/

/-- The `nbytes` of block `b` stand at `base` of `buf`. -/
def Holds (s : EngStreamer) (mem : Buf → Nat → UInt8) (buf : Buf) (base b : Nat) : Prop :=
  ∀ i < (s.block b).nbytes.toNat, mem buf (base + i) = s.blockByte b i

/-- The pointer `p` addresses exactly the bytes of block `b`. -/
def Addresses (s : EngStreamer) (st : State) (b : Nat) (p : BlockPtr) : Prop :=
  Holds s st.mem p.buf p.base b

/-- Ring slot `slot` holds block `b`, inside the slot. -/
def SlotHolds (s : EngStreamer) (st : State) (slot b : Nat) : Prop :=
  st.slotPad slot + (s.block b).nbytes.toNat ≤ s.slotBytes.toNat ∧
    Holds s st.mem .arena (State.slotBase s slot + st.slotPad slot) b

/-- A read in progress has delivered the front of its window, and nothing else. -/
structure Job.Good (s : EngStreamer) (mem : Buf → Nat → UInt8) (j : Job) (cap : Int) : Prop where
  win_eq : j.win = fileReadAligned s.store (s.block j.block).off (s.block j.block).nbytes cap
  got_le : j.got ≤ j.win.len
  front : ∀ i < j.got, mem j.dst (j.start + i) = s.store.byte (j.win.lo + i)

theorem Job.good_enter (s : EngStreamer) (mem : Buf → Nat → UInt8) (b : Nat) (dst : Buf)
    (start : Nat) (cap : Int) : (Job.enter s b dst start cap).Good s mem cap :=
  ⟨rfl, Nat.zero_le _, fun _ hi => absurd hi (Nat.not_lt_zero _)⟩

/-- The window of a read fits its buffer. -/
theorem Job.Good.len_le {mem : Buf → Nat → UInt8} {j : Job} {cap : Int} (h : j.Good s mem cap) :
    j.win.len ≤ cap.toNat := by
  rw [h.win_eq]
  cases hr : (fileReadAligned s.store (s.block j.block).off (s.block j.block).nbytes cap).refused with
  | true => simp [fileReadAligned_refused hr, ReadWindow.refuse]
  | false =>
      have := (fileReadAligned_fits hr).2.2.2.2
      omega

theorem Job.Good.pread {mem : Buf → Nat → UInt8} {j : Job} {cap : Int} {r : Nat}
    (h : j.Good s mem cap) (hr : j.canRead s r = true) :
    ({ j with got := j.got + r } : Job).Good s (j.store s r mem) cap := by
  simp only [Job.canRead, decide_eq_true_eq] at hr
  refine ⟨h.win_eq, hr.2.1, fun i hi => ?_⟩
  simp only [Job.store]
  by_cases hc : i < j.got
  · rw [if_neg (by omega)]
    exact h.front i hc
  · have hi' : i < j.got + r := hi
    rw [if_pos ⟨trivial, by omega, by omega⟩]
    congr 1
    omega

/-- **A read that reports success has delivered its block.** -/
theorem Job.Good.holds {mem : Buf → Nat → UInt8} {j : Job} {cap : Int}
    (h : j.Good s mem cap) (hok : j.ok s = true) :
    Holds s mem j.dst (j.start + j.win.pad) j.block := by
  intro i hi
  simp only [Job.ok, decide_eq_true_eq] at hok
  rw [h.win_eq] at hok
  obtain ⟨hlt, hoff⟩ := payload_full hok i hi
  rw [← h.win_eq] at hlt hoff
  rw [Nat.add_assoc, h.front _ hlt, hoff]
  rfl

/-- The payload of a successful read stays inside the buffer. -/
theorem Job.Good.pad_le {mem : Buf → Nat → UInt8} {j : Job} {cap : Int}
    (h : j.Good s mem cap) (hok : j.ok s = true) :
    j.win.pad + (s.block j.block).nbytes.toNat ≤ cap.toNat := by
  by_cases hn : (s.block j.block).nbytes.toNat = 0
  · rw [h.win_eq, hn]
    cases hr : (fileReadAligned s.store (s.block j.block).off (s.block j.block).nbytes cap).refused with
    | true => simp [fileReadAligned_refused hr, ReadWindow.refuse]
    | false =>
        have := fileReadAligned_fits hr
        omega
  · simp only [Job.ok, decide_eq_true_eq] at hok
    have hwin := h.win_eq
    rw [h.win_eq] at hok
    obtain ⟨hlt, -⟩ := payload_full hok ((s.block j.block).nbytes.toNat - 1) (by omega)
    have := h.got_le
    have := h.len_le
    rw [← h.win_eq] at hlt
    omega

/-! ## The invariant -/

/-- A geometry `eng_streamer_create` can produce, as far as running it is concerned. -/
structure WF (s : EngStreamer) : Prop where
  nonempty : 0 < s.nblocks
  nslot_pos : 0 < s.nslot
  npin_le : s.npin ≤ s.nblocks
  /-- the two-slot rule -/
  two_slots : s.hasIo = true → 2 ≤ s.nslot

/-- A request was issued and not yet collected: `busy || done`. -/
def State.Outstanding (st : State) : Prop := st.io.busy = true ∨ st.io.done = true

/-- No ring pointer is promised any more. -/
def State.NoRingLive (s : EngStreamer) (st : State) : Prop := ∀ e ∈ st.live, e.1 < s.npin

/-- A read aimed at ring slot `slot`. -/
structure RingJob (s : EngStreamer) (mem : Buf → Nat → UInt8) (slot b : Nat) (j : Job) : Prop where
  block_eq : j.block = b
  dst_eq : j.dst = .arena
  start_eq : j.start = State.slotBase s slot
  good : j.Good s mem s.slotBytes

def CallerOk (s : EngStreamer) (st : State) : Prop :=
  match st.caller with
  | .idle => True
  | .pinLoad b job =>
      b < s.npin ∧ st.slotOf b = none ∧ job.block = b ∧ job.dst = .pin b ∧ job.start = 0 ∧
        job.Good s st.mem (pinNeed s.extraBytes (s.block b))
  | .collect b => s.npin ≤ b ∧ b < s.nblocks ∧ st.NoRingLive s
  | .waiting b => s.npin ≤ b ∧ b < s.nblocks ∧ st.NoRingLive s ∧ st.Outstanding ∧ st.io.block = b
  | .scan b => s.npin ≤ b ∧ b < s.nblocks ∧ st.NoRingLive s ∧ (st.Outstanding → st.io.block ≠ b)
  | .ringLoad b slot job =>
      s.npin ≤ b ∧ b < s.nblocks ∧ st.NoRingLive s ∧ (st.Outstanding → st.io.block ≠ b) ∧
        slot < s.nslot ∧ st.blockOf slot = none ∧ st.slotOf b = none ∧
        (st.Outstanding → st.io.slot ≠ slot) ∧ RingJob s st.mem slot b job
  | .request b => s.npin ≤ b ∧ b < s.nblocks ∧ s.hasIo = true

def ReaderOk (s : EngStreamer) (st : State) : Prop :=
  match st.reader with
  | .idle => True
  | .reading slot job =>
      st.io.busy = true ∧ slot = st.io.slot ∧ RingJob s st.mem slot st.io.block job
  | .posting rc => st.io.busy = true ∧ (rc = true → SlotHolds s st st.io.slot st.io.block)

/-- The pointer is one of those `get` computes for `b`, and its block is still where it was. -/
def LiveOk (s : EngStreamer) (st : State) (b : Nat) (p : BlockPtr) : Prop :=
  (b < s.npin ∧ st.slotOf b ≠ none ∧ p = st.pinnedPtr s b) ∨
    (s.npin ≤ b ∧ ∃ slot, st.blockOf slot = some b ∧ p = st.slotPtr s b slot)

/-- The part of the invariant that does not depend on where the caller stands. -/
structure Core (s : EngStreamer) (st : State) : Prop where
  ring_lt : st.ring < s.nslot
  /-- every occupied slot is in range, holds an unpinned block, and `slot_of` points back -/
  index : ∀ slot b, st.blockOf slot = some b →
    slot < s.nslot ∧ s.npin ≤ b ∧ b < s.nblocks ∧ st.slotOf b = some slot
  index_inv : ∀ b slot, s.npin ≤ b → st.slotOf b = some slot → st.blockOf slot = some b
  /-- what is published was read -/
  resident : ∀ slot b, st.blockOf slot = some b → SlotHolds s st slot b
  pinned : ∀ b, b < s.npin → st.slotOf b ≠ none → Holds s st.mem (.pin b) (st.pinPad b) b
  live : ∀ b p, (b, p) ∈ st.live → LiveOk s st b p
  /-- the slot of an outstanding request is reserved: nothing is published there -/
  reserved : st.Outstanding → s.hasIo = true ∧ st.io.slot < s.nslot ∧ st.blockOf st.io.slot = none ∧
    s.npin ≤ st.io.block ∧ st.io.block < s.nblocks ∧ st.slotOf st.io.block = none
  exclusive : st.io.busy = true → st.io.done = false
  landed : st.io.done = true → st.io.result = true → SlotHolds s st st.io.slot st.io.block
  reader : ReaderOk s st

structure Inv (s : EngStreamer) (st : State) : Prop extends Core s st where
  caller : CallerOk s st
  /-- the last `get` to return handed out what it returned -/
  returned : (st.caller = .idle ∨ ∃ b, st.caller = .request b) →
    ∀ b p, st.ret = some (b, some p) → (b.toNat, p) ∈ st.live

/-- **The two collisions.**  `scan` is about to read into a slot a request reserved; `request` is
about to aim a read at a slot whose block the caller still holds. -/
def Clear (s : EngStreamer) (st : State) : Choice → Prop
  | .caller =>
      match st.caller with
      | .scan b => st.findSlot s b = none → st.Outstanding → st.io.slot ≠ st.ring
      | .request b =>
          ¬ st.Outstanding → st.slotOf b = none →
            ∀ e ∈ st.live, s.npin ≤ e.1 → st.slotOf e.1 ≠ some st.ring
      | _ => True
  | _ => True

/-! ## Memory frames -/

/-- Two slots of the arena do not overlap. -/
theorem slotBase_disjoint {slot slot' i j : Nat} (hne : slot ≠ slot')
    (hi : i < s.slotBytes.toNat) (hj : j < s.slotBytes.toNat) :
    State.slotBase s slot + i ≠ State.slotBase s slot' + j := by
  intro h
  have hpos : 0 < s.slotBytes.toNat := by omega
  have h1 : (State.slotBase s slot + i) / s.slotBytes.toNat = slot := by
    rw [State.slotBase, Nat.mul_comm, Nat.mul_add_div hpos, Nat.div_eq_of_lt hi, Nat.add_zero]
  have h2 : (State.slotBase s slot' + j) / s.slotBytes.toNat = slot' := by
    rw [State.slotBase, Nat.mul_comm, Nat.mul_add_div hpos, Nat.div_eq_of_lt hj, Nat.add_zero]
  exact hne (h1 ▸ h2 ▸ congrArg (· / s.slotBytes.toNat) h)

/-- A `pread` of a ring read touches its own slot only. -/
theorem RingJob.store_other {mem : Buf → Nat → UInt8} {slot b : Nat} {j : Job} {r : Nat}
    (h : RingJob s mem slot b j) (hr : j.canRead s r = true) {slot' i : Nat} (hne : slot' ≠ slot)
    (hi : i < s.slotBytes.toNat) :
    j.store s r mem .arena (State.slotBase s slot' + i) = mem .arena (State.slotBase s slot' + i) := by
  simp only [Job.canRead, decide_eq_true_eq] at hr
  simp only [Job.store]
  rw [if_neg]
  rintro ⟨-, hlo, hhi⟩
  rw [h.start_eq] at hlo hhi
  have hlen := h.good.len_le
  refine slotBase_disjoint (s := s) hne hi
    (show State.slotBase s slot' + i - State.slotBase s slot < s.slotBytes.toNat by omega) ?_
  omega

theorem RingJob.store_pin {mem : Buf → Nat → UInt8} {slot b : Nat} {j : Job} {r : Nat}
    (h : RingJob s mem slot b j) (q i : Nat) :
    j.store s r mem (.pin q) i = mem (.pin q) i := by
  simp only [Job.store, h.dst_eq]
  rw [if_neg]
  rintro ⟨hbuf, -⟩
  cases hbuf

/-- Content of a slot survives whatever leaves its bytes and its payload offset alone. -/
theorem SlotHolds.frame {st st' : State} {slot b : Nat} (h : SlotHolds s st slot b)
    (hpad : st'.slotPad slot = st.slotPad slot)
    (hmem : ∀ i < s.slotBytes.toNat,
      st'.mem .arena (State.slotBase s slot + i) = st.mem .arena (State.slotBase s slot + i)) :
    SlotHolds s st' slot b := by
  refine ⟨by rw [hpad]; exact h.1, fun i hi => ?_⟩
  rw [hpad, Nat.add_assoc, hmem _ (by have := h.1; omega), ← Nat.add_assoc]
  exact h.2 i hi

/-- Every promised pointer addresses its block. -/
theorem Core.addresses (h : Core s st) {b : Nat} {p : BlockPtr} (hp : (b, p) ∈ st.live) :
    Addresses s st b p := by
  rcases h.live b p hp with ⟨hb, hs, rfl⟩ | ⟨_, slot, hs, rfl⟩
  · exact h.pinned b hb hs
  · exact (h.resident slot b hs).2

/-! ## One lemma per transition -/

theorem Core.returns_none (h : Core s st) (b : Nat) : Inv s (st.returns b none) :=
  { h with
    caller := trivial
    returned := fun _ b' p hr => by simp [State.returns] at hr }

theorem Core.returns_some (h : Core s st) {b : Nat} {p : BlockPtr} (hp : LiveOk s st b p) :
    Inv s (st.returns b (some p)) :=
  { h with
    live := fun b' p' hmem => by
      rcases List.mem_cons.mp hmem with heq | hmem
      · cases heq
        exact hp
      · exact h.live b' p' hmem
    caller := trivial
    returned := fun _ b' p' hr => by
      simp only [State.returns, Option.some.injEq, Prod.mk.injEq] at hr
      obtain ⟨rfl, rfl⟩ := hr
      exact List.mem_cons_self .. }

theorem enterGet_inv (h : Inv s st) (b : Int) :
    Inv s (enterGet s st b) := by
  unfold enterGet
  split_ifs with hrange hpin
  · exact { h with returned := fun _ b' p hr => by simp at hr }
  · cases hs : st.slotOf b.toNat with
    | none =>
        refine { h with caller := ?_, returned := fun hc => ?_ }
        · exact ⟨hpin, hs, rfl, rfl, rfl, Job.good_enter _ _ _ _ _ _⟩
        · rcases hc with hc | ⟨b', hc⟩ <;> simp at hc
    | some slot =>
        have hcore : Core s { st with hits := st.hits + 1 } := { h with }
        exact hcore.returns_some (Or.inl ⟨hpin, by simp [hs], rfl⟩)
  · refine { h with live := fun b' p hmem => ?_, caller := ?_, returned := fun hc => ?_ }
    · exact h.live b' p (List.mem_filter.mp hmem).1
    · refine ⟨by omega, by omega, fun e he => ?_⟩
      simpa using (List.mem_filter.mp he).2
    · rcases hc with hc | ⟨b', hc⟩ <;> simp at hc

theorem enterPrefetch_inv (h : Inv s st) (hidle : st.caller = .idle) (b : Int) :
    Inv s (enterPrefetch s st b) := by
  unfold enterPrefetch
  split_ifs with hrange hpin hio
  · exact h
  · exact h
  · exact h
  · cases st.findSlot s b.toNat with
    | some slot => exact h
    | none =>
        have hio' : s.hasIo = true := by simpa using hio
        exact { h with
          caller := ⟨by omega, by omega, hio'⟩
          returned := fun _ => h.returned (Or.inl hidle) }

/-- `find?` over the slots answers with an occupied slot. -/
theorem findSlot_some {b slot : Nat} (h : st.findSlot s b = some slot) :
    slot < s.nslot ∧ st.blockOf slot = some b := by
  refine ⟨List.mem_range.mp (List.mem_of_find?_eq_some h), ?_⟩
  simpa using List.find?_some h

theorem findSlot_none {b slot : Nat} (h : st.findSlot s b = none) (hslot : slot < s.nslot) :
    st.blockOf slot ≠ some b := by
  have := List.find?_eq_none.mp h slot (List.mem_range.mpr hslot)
  simpa using this

/-- An unpinned block that no slot holds is not resident. -/
theorem Core.slotOf_none (h : Core s st) {b : Nat} (hb : s.npin ≤ b)
    (hf : st.findSlot s b = none) : st.slotOf b = none := by
  cases hs : st.slotOf b with
  | none => rfl
  | some slot =>
      have hbo := h.index_inv b slot hb hs
      exact absurd hbo (findSlot_none hf (h.index slot b hbo).1)

@[simp] theorem takeSlot_blockOf (s : EngStreamer) (st : State) :
    (st.takeSlot s).blockOf = Function.update st.blockOf st.ring none := rfl

theorem takeSlot_slotOf (s : EngStreamer) (st : State) (b : Nat) :
    (st.takeSlot s).slotOf b = if st.blockOf st.ring = some b then none else st.slotOf b := by
  unfold State.takeSlot
  cases hold : st.blockOf st.ring with
  | none => simp
  | some old =>
      by_cases hb : b = old
      · subst hb
        simp
      · simp [Function.update_of_ne hb, Ne.symm hb]

/-- A slot other than the one just taken keeps its block. -/
theorem takeSlot_blockOf_some {slot b : Nat} (h : (st.takeSlot s).blockOf slot = some b) :
    slot ≠ st.ring ∧ st.blockOf slot = some b := by
  rw [takeSlot_blockOf] at h
  by_cases hr : slot = st.ring
  · subst hr
    simp at h
  · rw [Function.update_of_ne hr] at h
    exact ⟨hr, h⟩

/-- Taking the slot under the cursor is harmless when neither an outstanding request nor a promised
pointer is there. -/
theorem Core.takeSlot (hwf : WF s) (h : Core s st) (hres : st.Outstanding → st.io.slot ≠ st.ring)
    (hlive : ∀ e ∈ st.live, s.npin ≤ e.1 → st.slotOf e.1 ≠ some st.ring) :
    Core s (st.takeSlot s) where
  ring_lt := Nat.mod_lt _ hwf.nslot_pos
  index := by
    intro slot b hb
    -- what is still published is not the taken slot's
    obtain ⟨hne, hb⟩ := takeSlot_blockOf_some hb
    obtain ⟨hlt, hpin, hlt', hs⟩ := h.index slot b hb
    refine ⟨hlt, hpin, hlt', ?_⟩
    rw [takeSlot_slotOf, if_neg, hs]
    intro hring
    rw [(h.index _ _ hring).2.2.2] at hs
    exact hne (Option.some.inj hs).symm
  index_inv := by
    intro b slot hb hs
    rw [takeSlot_slotOf] at hs
    split_ifs at hs with hring
    have hbo := h.index_inv b slot hb hs
    have hne : slot ≠ st.ring := by
      rintro rfl
      exact hring hbo
    rw [takeSlot_blockOf, Function.update_of_ne hne]
    exact hbo
  resident := fun slot b hb => h.resident slot b (takeSlot_blockOf_some hb).2
  pinned := by
    intro b hb hs
    refine h.pinned b hb fun hnone => hs ?_
    rw [takeSlot_slotOf, hnone, ite_self]
  live := by
    intro b p hmem
    rcases h.live b p hmem with ⟨hb, hs, rfl⟩ | ⟨hb, slot, hs, rfl⟩
    · refine Or.inl ⟨hb, ?_, rfl⟩
      rw [takeSlot_slotOf, if_neg]
      · exact hs
      · intro hring
        have := (h.index _ _ hring).2.1
        omega
    · refine Or.inr ⟨hb, slot, ?_, rfl⟩
      have hne : slot ≠ st.ring := by
        rintro rfl
        exact hlive _ hmem hb (h.index _ _ hs).2.2.2
      rw [takeSlot_blockOf, Function.update_of_ne hne]
      exact hs
  reserved := by
    intro ho
    obtain ⟨hio, hlt, hnone, hpin, hlt', hs⟩ := h.reserved ho
    refine ⟨hio, hlt, ?_, hpin, hlt', ?_⟩
    · rw [takeSlot_blockOf]
      exact (Function.update_of_ne (hres ho) _ _).trans hnone
    · rw [takeSlot_slotOf]
      split_ifs
      · rfl
      · exact hs
  exclusive := h.exclusive
  landed := h.landed
  reader := h.reader

/-- Publishing a block that is not resident, in an unpublished slot that holds it and that no other
request reserved. -/
theorem Core.publish (h : Core s st) {b : Nat} (slot : Nat) (hpin : s.npin ≤ b) (hb : b < s.nblocks)
    (hslot : slot < s.nslot) (hnone : st.blockOf slot = none) (hnot : st.slotOf b = none)
    (hres : st.Outstanding → st.io.slot ≠ slot ∧ st.io.block ≠ b)
    (hholds : SlotHolds s st slot b) : Core s (st.publish b slot) where
  ring_lt := h.ring_lt
  index := by
    intro slot' b' hb'
    -- only the published slot changes; at every other the old entry stands, of another block
    by_cases heq : slot' = slot
    · subst heq
      have hb'' : b = b' := by simpa [State.publish] using hb'
      subst hb''
      exact ⟨hslot, hpin, hb, by simp [State.publish]⟩
    · have hold : st.blockOf slot' = some b' := by
        simpa [State.publish, Function.update_of_ne heq] using hb'
      obtain ⟨h1, h2, h3, h4⟩ := h.index slot' b' hold
      refine ⟨h1, h2, h3, ?_⟩
      have hne : b' ≠ b := by
        rintro rfl
        simp [hnot] at h4
      simpa [State.publish, Function.update_of_ne hne] using h4
  index_inv := by
    intro b' slot' hb' hs'
    by_cases heq : b' = b
    · subst heq
      have : slot = slot' := by simpa [State.publish] using hs'
      subst this
      simp [State.publish]
    · have hold : st.slotOf b' = some slot' := by
        simpa [State.publish, Function.update_of_ne heq] using hs'
      have hbo := h.index_inv b' slot' hb' hold
      have hne : slot' ≠ slot := by
        rintro rfl
        simp [hnone] at hbo
      simpa [State.publish, Function.update_of_ne hne] using hbo
  resident := by
    intro slot' b' hb'
    by_cases heq : slot' = slot
    · subst heq
      have : b = b' := by simpa [State.publish] using hb'
      subst this
      exact hholds
    · exact h.resident slot' b' (by simpa [State.publish, Function.update_of_ne heq] using hb')
  pinned := by
    intro b' hb' hs'
    have hne : b' ≠ b := by omega
    exact h.pinned b' hb' (by simpa [State.publish, Function.update_of_ne hne] using hs')
  live := by
    intro b' p hmem
    rcases h.live b' p hmem with ⟨hb', hs', rfl⟩ | ⟨hb', slot', hs', rfl⟩
    · have hne : b' ≠ b := by omega
      exact Or.inl ⟨hb', by simpa [State.publish, Function.update_of_ne hne] using hs', rfl⟩
    · have hne : slot' ≠ slot := by
        rintro rfl
        simp [hnone] at hs'
      exact Or.inr ⟨hb', slot', by simpa [State.publish, Function.update_of_ne hne] using hs', rfl⟩
  reserved := by
    intro ho
    obtain ⟨hio, hlt, hbo, hp, hlt', hs⟩ := h.reserved ho
    refine ⟨hio, hlt, ?_, hp, hlt', ?_⟩
    · simpa [State.publish, Function.update_of_ne (hres ho).1] using hbo
    · simpa [State.publish, Function.update_of_ne (hres ho).2] using hs
  exclusive := h.exclusive
  landed := h.landed
  reader := h.reader

/-- While the result of a request waits to be collected, the reader sleeps. -/
theorem Core.reader_idle (h : Core s st) (hb : st.io.busy = false) : st.reader = .idle := by
  have hr := h.reader
  unfold ReaderOk at hr
  cases hpc : st.reader with
  | idle => rfl
  | reading slot job => simp [hpc, hb] at hr
  | posting rc => simp [hpc, hb] at hr

theorem Core.busy_false (h : Core s st) (hd : st.io.done = true) : st.io.busy = false := by
  cases hb : st.io.busy with
  | false => rfl
  | true => simp [h.exclusive hb] at hd

/-- Dropping a finished request leaves nothing outstanding. -/
theorem Core.clearDone (h : Core s st) (hd : st.io.done = true) :
    Core s { st with io := { st.io with done := false } } ∧
      ¬ State.Outstanding { st with io := { st.io with done := false } } := by
  have hb := h.busy_false hd
  have hno : ¬ State.Outstanding { st with io := { st.io with done := false } } := by
    simp [State.Outstanding, hb]
  refine ⟨{ h with
    reserved := fun ho => absurd ho hno
    exclusive := fun _ => rfl
    landed := fun hd' => by simp at hd'
    reader := ?_ }, hno⟩
  have hr := h.reader_idle hb
  simp only [ReaderOk]
  rw [hr]
  trivial

theorem collectDone_inv (h : Inv s st) {b : Nat} (hd : st.io.done = true) (hb : st.io.block = b) :
    Inv s (collectDone s st b) := by
  obtain ⟨_, hslot, hnone, hpin, hlt, hnot⟩ := h.reserved (Or.inr hd)
  obtain ⟨hcore, hno⟩ := h.toCore.clearDone hd
  unfold collectDone
  cases hr : st.io.result with
  | false =>
      simp only [Bool.false_eq_true, if_false]
      exact hcore.returns_none b
  | true =>
      simp only [if_true]
      subst hb
      have hpub := hcore.publish st.io.slot hpin hlt hslot hnone hnot
        (fun ho => absurd ho hno) (h.landed hd hr)
      refine hpub.returns_some (Or.inr ⟨hpin, st.io.slot, ?_, rfl⟩)
      simp [State.publish]

theorem scanRing_inv (hwf : WF s) (h : Inv s st) {b : Nat} (hpc : st.caller = .scan b)
    (hclear : Clear s st .caller) : Inv s (scanRing s st b) := by
  have hc := h.caller
  simp only [CallerOk, hpc] at hc
  obtain ⟨hpin, hlt, hnl, hio⟩ := hc
  simp only [Clear, hpc] at hclear
  unfold scanRing
  cases hf : st.findSlot s b with
  | some slot =>
      have hcore : Core s { st with hits := st.hits + 1 } := { h.toCore with }
      exact hcore.returns_some (Or.inr ⟨hpin, slot, (findSlot_some hf).2, rfl⟩)
  | none =>
      have hcore := h.toCore.takeSlot hwf (hclear hf)
        (fun e he hpe => absurd (hnl e he) (by omega))
      refine { hcore with caller := ?_, returned := fun hc => ?_ }
      · refine ⟨hpin, hlt, hnl, hio, h.ring_lt, ?_, ?_, hclear hf, rfl, rfl, rfl,
          Job.good_enter _ _ _ _ _ _⟩
        · simp
        · have hnone := h.toCore.slotOf_none hpin hf
          show (st.takeSlot s).slotOf b = none
          rw [takeSlot_slotOf, hnone, ite_self]
      · rcases hc with hc | ⟨b', hc⟩ <;> simp at hc

theorem issueRequest_inv (hwf : WF s) (h : Inv s st) {b : Nat} (hpc : st.caller = .request b)
    (hclear : Clear s st .caller) : Inv s (issueRequest s st b) := by
  have hc := h.caller
  simp only [CallerOk, hpc] at hc
  obtain ⟨hpin, hlt, hio⟩ := hc
  simp only [Clear, hpc] at hclear
  have hret := h.returned (Or.inr ⟨b, hpc⟩)
  unfold issueRequest
  split_ifs with hskip
  · exact { h with caller := trivial, returned := fun _ => hret }
  · have hno : ¬ st.Outstanding := fun ho => hskip (by
      rcases ho with ho | ho
      · exact Or.inl ho
      · exact Or.inr (Or.inl ho))
    have hnone : st.slotOf b = none := by
      cases hs : st.slotOf b with
      | none => rfl
      | some slot => exact absurd (Or.inr (Or.inr (by simp [hs]))) hskip
    have hcore := h.toCore.takeSlot hwf (fun ho => absurd ho hno) (hclear hno hnone)
    have hbusy : st.io.busy = false := by
      cases hb : st.io.busy with
      | false => rfl
      | true => exact absurd (Or.inl hb) hno
    refine { hcore with
      reserved := fun _ => ⟨hio, h.ring_lt, by simp, hpin, hlt, ?_⟩
      exclusive := fun _ => rfl
      landed := fun hd => by simp at hd
      reader := ?_
      caller := trivial
      returned := fun _ => hret }
    · show (st.takeSlot s).slotOf b = none
      rw [takeSlot_slotOf, hnone, ite_self]
    · have hr : (st.takeSlot s).reader = .idle := h.toCore.reader_idle hbusy
      simp only [ReaderOk]
      rw [hr]
      trivial

/-- A read in progress does not notice writes outside its slot. -/
theorem RingJob.frame {mem mem' : Buf → Nat → UInt8} {slot b : Nat} {j : Job}
    (h : RingJob s mem slot b j)
    (hmem : ∀ i < s.slotBytes.toNat,
      mem' .arena (State.slotBase s slot + i) = mem .arena (State.slotBase s slot + i)) :
    RingJob s mem' slot b j := by
  refine ⟨h.block_eq, h.dst_eq, h.start_eq, h.good.win_eq, h.good.got_le, fun i hi => ?_⟩
  have hlen := h.good.len_le
  have hgot := h.good.got_le
  have hfront := h.good.front i hi
  rw [h.dst_eq, h.start_eq] at hfront ⊢
  rw [hmem i (by omega)]
  exact hfront

/-- The caller's own read, into a slot that is neither published nor reserved. -/
theorem Core.ringPread (h : Core s st) {slot b r : Nat} {j : Job} (hnone : st.blockOf slot = none)
    (hres : st.Outstanding → st.io.slot ≠ slot) (hj : RingJob s st.mem slot b j)
    (hr : j.canRead s r = true) : Core s { st with mem := j.store s r st.mem } := by
  have hother : ∀ slot', slot' ≠ slot → ∀ i < s.slotBytes.toNat,
      j.store s r st.mem .arena (State.slotBase s slot' + i)
        = st.mem .arena (State.slotBase s slot' + i) :=
    fun slot' hne i hi => hj.store_other hr hne hi
  refine { h with
    resident := fun slot' b' hb' => ?_
    pinned := fun b' hb' hs' i hi => ?_
    landed := fun hd hres' => ?_
    reader := ?_ }
  · have hne : slot' ≠ slot := by
      rintro rfl
      simp [hnone] at hb'
    exact (h.resident slot' b' hb').frame rfl (hother slot' hne)
  · exact (hj.store_pin b' _).trans (h.pinned b' hb' hs' i hi)
  · exact (h.landed hd hres').frame rfl (hother _ (hres (Or.inr hd)))
  · have hrd := h.reader
    unfold ReaderOk at hrd ⊢
    cases hpc : st.reader with
    | idle => trivial
    | reading slot' job =>
        simp only [hpc] at hrd ⊢
        obtain ⟨hbusy, rfl, hjob⟩ := hrd
        exact ⟨hbusy, rfl, hjob.frame (hother _ (hres (Or.inl hbusy)))⟩
    | posting rc =>
        simp only [hpc] at hrd ⊢
        exact ⟨hrd.1, fun hrc => (hrd.2 hrc).frame rfl (hother _ (hres (Or.inl hrd.1)))⟩

theorem callerPread_inv (h : Inv s st) {r : Nat} (hs : callerPread s st r = some st') :
    Inv s st' := by
  have hc := h.caller
  unfold callerPread at hs
  cases hpc : st.caller with
  | pinLoad b job =>
      simp only [hpc] at hs
      simp only [CallerOk, hpc] at hc
      obtain ⟨hb, hnone, hblk, hdst, hstart, hgood⟩ := hc
      split_ifs at hs with hr
      obtain rfl := Option.some.inj hs
      -- a pinned load writes outside the arena, so nothing the ring holds is touched
      have harena : ∀ i, job.store s r st.mem .arena i = st.mem .arena i := fun i => by
        simp only [Job.store, hdst]
        rw [if_neg]
        rintro ⟨hbuf, -⟩
        cases hbuf
      refine { h with
        resident := fun slot b' hb' => (h.resident slot b' hb').frame rfl fun i _ => harena _
        pinned := fun b' hb' hs' i hi => ?_
        landed := fun hd hres => (h.landed hd hres).frame rfl fun i _ => harena _
        reader := ?_
        caller := ⟨hb, hnone, hblk, hdst, hstart, hgood.pread hr⟩
        returned := fun hc => ?_ }
      · -- another pinned buffer
        have hne : b' ≠ b := by
          rintro rfl
          exact hs' hnone
        simp only [Job.store, hdst]
        rw [if_neg]
        · exact h.pinned b' hb' hs' i hi
        · rintro ⟨hbuf, -⟩
          exact hne (Buf.pin.inj hbuf)
      · have hrd := h.reader
        unfold ReaderOk at hrd ⊢
        cases hrpc : st.reader with
        | idle => trivial
        | reading slot' job' =>
            simp only [hrpc] at hrd ⊢
            exact ⟨hrd.1, hrd.2.1, hrd.2.2.frame fun i _ => harena _⟩
        | posting rc =>
            simp only [hrpc] at hrd ⊢
            exact ⟨hrd.1, fun hrc => (hrd.2 hrc).frame rfl fun i _ => harena _⟩
      · rcases hc with hc | ⟨b', hc⟩ <;> simp at hc
  | ringLoad b slot job =>
      simp only [hpc] at hs
      simp only [CallerOk, hpc] at hc
      obtain ⟨hpin, hlt, hnl, hio, hslot, hnone, hnot, hres, hjob⟩ := hc
      split_ifs at hs with hr
      obtain rfl := Option.some.inj hs
      refine { h.toCore.ringPread hnone hres hjob hr with caller := ?_, returned := fun hc => ?_ }
      · exact ⟨hpin, hlt, hnl, hio, hslot, hnone, hnot, hres, hjob.block_eq, hjob.dst_eq,
          hjob.start_eq, hjob.good.pread hr⟩
      · rcases hc with hc | ⟨b', hc⟩ <;> simp at hc
  | idle => simp [hpc] at hs
  | collect b => simp [hpc] at hs
  | waiting b => simp [hpc] at hs
  | scan b => simp [hpc] at hs
  | request b => simp [hpc] at hs

theorem readerPread_inv (h : Inv s st) {r : Nat} (hs : readerPread s st r = some st') :
    Inv s st' := by
  have hrd := h.reader
  unfold readerPread at hs
  cases hpc : st.reader with
  | idle => simp [hpc] at hs
  | posting rc => simp [hpc] at hs
  | reading slot job =>
      simp only [hpc] at hs
      simp only [ReaderOk, hpc] at hrd
      obtain ⟨hbusy, rfl, hjob⟩ := hrd
      split_ifs at hs with hr
      obtain rfl := Option.some.inj hs
      obtain ⟨hio, hslot, hnone, hpin, hlt, hnot⟩ := h.reserved (Or.inl hbusy)
      -- the job writes into the reserved slot only
      have hother : ∀ slot', slot' ≠ st.io.slot → ∀ i < s.slotBytes.toNat,
          job.store s r st.mem .arena (State.slotBase s slot' + i)
            = st.mem .arena (State.slotBase s slot' + i) :=
        fun slot' hne i hi => hjob.store_other hr hne hi
      refine { h with
        resident := fun slot' b' hb' => ?_
        pinned := fun b' hb' hs' i hi => ?_
        landed := fun hd => ?_
        reader := ⟨hbusy, rfl, hjob.block_eq, hjob.dst_eq, hjob.start_eq, hjob.good.pread hr⟩
        caller := ?_ }
      · -- the reserved slot holds no block, so a slot that holds one is another
        have hne : slot' ≠ st.io.slot := by
          rintro rfl
          simp [hnone] at hb'
        exact (h.resident slot' b' hb').frame rfl (hother slot' hne)
      · exact (hjob.store_pin b' _).trans (h.pinned b' hb' hs' i hi)
      · have := h.exclusive hbusy
        simp_all
      · have hc := h.caller
        unfold CallerOk at hc ⊢
        cases hcpc : st.caller with
        | pinLoad b job' =>
            simp only [hcpc] at hc ⊢
            obtain ⟨hb, hn, hblk, hdst, hstart, hgood⟩ := hc
            refine ⟨hb, hn, hblk, hdst, hstart, hgood.win_eq, hgood.got_le, fun i hi => ?_⟩
            have hfront := hgood.front i hi
            rw [hdst] at hfront ⊢
            rw [hjob.store_pin b _]
            exact hfront
        | ringLoad b slot' job' =>
            simp only [hcpc] at hc ⊢
            -- the caller loads into the ring by itself, beside the slot that is reserved
            obtain ⟨h1, h2, h3, h4, h5, h6, h7, hres, hjob'⟩ := hc
            exact ⟨h1, h2, h3, h4, h5, h6, h7, hres,
              hjob'.frame (hother slot' (hres (Or.inl hbusy)).symm)⟩
        | idle => trivial
        | collect b => simp only [hcpc] at hc ⊢; exact hc
        | waiting b => simp only [hcpc] at hc ⊢; exact hc
        | scan b => simp only [hcpc] at hc ⊢; exact hc
        | request b => simp only [hcpc] at hc ⊢; exact hc

/-- The caller's standing does not depend on the reader's steps, as long as an outstanding request
stays outstanding and stays where it is. -/
theorem CallerOk.frame {st st' : State} (h : CallerOk s st) (hcaller : st'.caller = st.caller)
    (hlive : st'.live = st.live) (hblockOf : st'.blockOf = st.blockOf)
    (hslotOf : st'.slotOf = st.slotOf) (hmem : st'.mem = st.mem)
    (hout : st'.Outstanding ↔ st.Outstanding) (hblock : st'.io.block = st.io.block)
    (hslot : st'.io.slot = st.io.slot) : CallerOk s st' := by
  unfold CallerOk at h ⊢
  rw [hcaller]
  cases hpc : st.caller <;>
    simp only [hpc, State.NoRingLive, hlive, hblockOf, hslotOf, hmem, hout, hblock, hslot] at h ⊢ <;>
    exact h

theorem readerStep_inv (h : Inv s st) (hs : readerStep s st = some st') : Inv s st' := by
  have hrd := h.reader
  unfold readerStep at hs
  cases hpc : st.reader with
  | idle =>
      simp only [hpc] at hs
      split_ifs at hs with hgo
      obtain rfl := Option.some.inj hs
      refine { h with reader := ?_, caller := h.caller.frame rfl rfl rfl rfl rfl Iff.rfl rfl rfl }
      exact ⟨hgo.2, rfl, rfl, rfl, rfl, Job.good_enter _ _ _ _ _ _⟩
  | reading slot job =>
      simp only [hpc] at hs
      simp only [ReaderOk, hpc] at hrd
      obtain ⟨hbusy, rfl, hjob⟩ := hrd
      obtain ⟨hio, hslot, hnone, hpin, hlt, hnot⟩ := h.reserved (Or.inl hbusy)
      split_ifs at hs with hok
      · obtain rfl := Option.some.inj hs
        -- only the payload offset of the reserved slot moves, and nothing published is there
        have hpad : ∀ slot', slot' ≠ st.io.slot →
            Function.update st.slotPad st.io.slot job.win.pad slot' = st.slotPad slot' :=
          fun slot' hne => Function.update_of_ne hne _ _
        refine { h with
          resident := fun slot' b' hb' => ?_
          live := fun b' p hmem => ?_
          landed := fun hd => ?_
          reader := ⟨hbusy, fun _ => ?_⟩
          caller := h.caller.frame rfl rfl rfl rfl rfl Iff.rfl rfl rfl }
        · have hne : slot' ≠ st.io.slot := by
            rintro rfl
            simp [hnone] at hb'
          exact (h.resident slot' b' hb').frame (hpad slot' hne) fun _ _ => rfl
        · rcases h.live b' p hmem with hp | ⟨hb', slot', hs', rfl⟩
          · exact Or.inl hp
          · have hne : slot' ≠ st.io.slot := by
              rintro rfl
              simp [hnone] at hs'
            refine Or.inr ⟨hb', slot', hs', ?_⟩
            simp only [State.slotPtr, hpad slot' hne]
        · have := h.exclusive hbusy
          simp_all
        · have hpad_le := hjob.good.pad_le hok
          have hholds := hjob.good.holds hok
          rw [hjob.block_eq, hjob.dst_eq, hjob.start_eq] at hholds
          rw [hjob.block_eq] at hpad_le
          refine ⟨?_, ?_⟩
          · simpa using hpad_le
          · simpa using hholds
      · obtain rfl := Option.some.inj hs
        exact { h with
          reader := ⟨hbusy, fun hrc => by simp at hrc⟩
          caller := h.caller.frame rfl rfl rfl rfl rfl Iff.rfl rfl rfl }
  | posting rc =>
      simp only [hpc] at hs
      simp only [ReaderOk, hpc] at hrd
      obtain ⟨hbusy, hholds⟩ := hrd
      obtain rfl := Option.some.inj hs
      exact { h with
        reserved := fun _ => h.reserved (Or.inl hbusy)
        exclusive := fun hb => by simp at hb
        landed := fun _ hres => hholds hres
        reader := trivial
        caller := h.caller.frame rfl rfl rfl rfl rfl (by simp [State.Outstanding, hbusy]) rfl rfl }

/-- A pinned block that has been read is marked resident. -/
theorem Core.pinLoaded (h : Core s st) {b pad : Nat} (hb : b < s.npin) (hnone : st.slotOf b = none)
    (hholds : Holds s st.mem (.pin b) pad b) (misses bytes : Nat) :
    Core s { st with
      pinPad := Function.update st.pinPad b pad
      slotOf := Function.update st.slotOf b (some b)
      misses := misses
      bytesRead := bytes } := by
  have hne : ∀ b', s.npin ≤ b' → b' ≠ b := fun b' hb' => by omega
  exact { h with
    index := fun slot b' hb' => by
      obtain ⟨h1, h2, h3, h4⟩ := h.index slot b' hb'
      exact ⟨h1, h2, h3, (Function.update_of_ne (hne b' h2) _ _).trans h4⟩
    index_inv := fun b' slot hb' hs' =>
      h.index_inv b' slot hb' ((Function.update_of_ne (hne b' hb') _ _).symm.trans hs')
    pinned := fun b' hb' hs' => by
      by_cases heq : b' = b
      · subst heq
        simpa using hholds
      · simp only [Function.update_of_ne heq] at hs' ⊢
        exact h.pinned b' hb' hs'
    live := fun b' p hmem => by
      rcases h.live b' p hmem with ⟨hb', hs', rfl⟩ | hp
      · -- a promised pinned block was resident before, so it is another one
        have heq : b' ≠ b := by
          rintro rfl
          exact hs' hnone
        refine Or.inl ⟨hb', ?_, ?_⟩
        · simpa only [Function.update_of_ne heq] using hs'
        · simp only [State.pinnedPtr, Function.update_of_ne heq]
      · exact Or.inr hp
    reserved := fun ho => by
      obtain ⟨h1, h2, h3, h4, h5, h6⟩ := h.reserved ho
      exact ⟨h1, h2, h3, h4, h5, (Function.update_of_ne (hne _ h4) _ _).trans h6⟩ }

/-- The padding of a slot without a published block, and without a request, is free to change. -/
theorem Core.setPad (h : Core s st) {slot : Nat} (hnone : st.blockOf slot = none)
    (hnl : st.NoRingLive s) (hres : st.Outstanding → st.io.slot ≠ slot) (pad bytes : Nat) :
    Core s { st with slotPad := Function.update st.slotPad slot pad, bytesRead := bytes } := by
  have hpad : ∀ slot', slot' ≠ slot →
      Function.update st.slotPad slot pad slot' = st.slotPad slot' :=
    fun slot' hne => Function.update_of_ne hne _ _
  exact { h with
    resident := fun slot' b' hb' => by
      have hne : slot' ≠ slot := by
        rintro rfl
        simp [hnone] at hb'
      exact (h.resident slot' b' hb').frame (hpad slot' hne) fun _ _ => rfl
    live := fun b' p hmem => by
      have hb' := hnl _ hmem
      rcases h.live b' p hmem with hp | ⟨hb'', -⟩
      · exact Or.inl hp
      · exact absurd hb' (Nat.not_lt.mpr hb'')
    landed := fun hd hr => (h.landed hd hr).frame (hpad _ (hres (Or.inr hd))) fun _ _ => rfl
    reader := by
      have hrd := h.reader
      unfold ReaderOk at hrd ⊢
      cases hrpc : st.reader with
      | idle => trivial
      | reading slot' job' => simp only [hrpc] at hrd ⊢; exact hrd
      | posting rc =>
          simp only [hrpc] at hrd ⊢
          exact ⟨hrd.1, fun hrc =>
            (hrd.2 hrc).frame (hpad _ (hres (Or.inl hrd.1))) fun _ _ => rfl⟩ }

theorem callerStep_inv (hwf : WF s) (h : Inv s st) (hclear : Clear s st .caller)
    (hs : callerStep s st = some st') : Inv s st' := by
  have hc := h.caller
  unfold callerStep at hs
  cases hpc : st.caller with
  | idle => simp [hpc] at hs
  | pinLoad b job =>
      simp only [hpc] at hs
      simp only [CallerOk, hpc] at hc
      obtain ⟨hb, hnone, hblk, hdst, hstart, hgood⟩ := hc
      split_ifs at hs with hok
      · obtain rfl := Option.some.inj hs
        -- the read came back full, so the pinned slot holds its block
        have hholds := hgood.holds hok
        rw [hblk, hdst, hstart, Nat.zero_add] at hholds
        have hcore := h.toCore.pinLoaded hb hnone hholds (st.misses + 1)
          (st.bytesRead + (s.block b).nbytes.toNat)
        exact hcore.returns_some (Or.inl ⟨hb, by simp, rfl⟩)
      · obtain rfl := Option.some.inj hs
        exact h.toCore.returns_none b
  | collect b =>
      simp only [hpc] at hs
      simp only [CallerOk, hpc] at hc
      obtain ⟨hpin, hlt, hnl⟩ := hc
      split_ifs at hs with hmine hdone
      · obtain rfl := Option.some.inj hs
        exact collectDone_inv h hdone hmine.2.2
      · obtain rfl := Option.some.inj hs
        exact { h with
          caller := ⟨hpin, hlt, hnl, hmine.2.1, hmine.2.2⟩
          returned := fun hc => by rcases hc with hc | ⟨b', hc⟩ <;> simp at hc }
      · obtain rfl := Option.some.inj hs
        exact { h with
          caller := ⟨hpin, hlt, hnl, fun ho heq => hmine ⟨(h.reserved ho).1, ho, heq⟩⟩
          returned := fun hc => by rcases hc with hc | ⟨b', hc⟩ <;> simp at hc }
  | waiting b =>
      simp only [hpc] at hs
      simp only [CallerOk, hpc] at hc
      split_ifs at hs with hdone
      obtain rfl := Option.some.inj hs
      exact collectDone_inv h hdone hc.2.2.2.2
  | scan b =>
      simp only [hpc] at hs
      obtain rfl := Option.some.inj hs
      exact scanRing_inv hwf h hpc hclear
  | ringLoad b slot job =>
      simp only [hpc] at hs
      simp only [CallerOk, hpc] at hc
      obtain ⟨hpin, hlt, hnl, hio, hslot, hnone, hnot, hres, hjob⟩ := hc
      split_ifs at hs with hok
      · obtain rfl := Option.some.inj hs
        have hcore := h.toCore.setPad hnone hnl hres job.win.pad
          (st.bytesRead + (s.block b).nbytes.toNat)
        have hholds := hjob.good.holds hok
        have hpad_le := hjob.good.pad_le hok
        rw [hjob.block_eq, hjob.dst_eq, hjob.start_eq] at hholds
        rw [hjob.block_eq] at hpad_le
        -- the slot is unpublished and nobody else has it: publishing keeps the core
        have hpub := hcore.publish slot hpin hlt hslot hnone hnot
          (fun ho => ⟨hres ho, hio ho⟩)
          ⟨by simpa using hpad_le, by simpa using hholds⟩
        exact hpub.returns_some (Or.inr ⟨hpin, slot, by simp [State.publish], rfl⟩)
      · obtain rfl := Option.some.inj hs
        exact h.toCore.returns_none b
  | request b =>
      simp only [hpc] at hs
      obtain rfl := Option.some.inj hs
      exact issueRequest_inv hwf h hpc hclear

/-- **Every clear step keeps the invariant.** -/
theorem step_inv (hwf : WF s) (h : Inv s st) {c : Choice} (hclear : Clear s st c)
    (hs : step s st c = some st') : Inv s st' := by
  cases c with
  | call c =>
      simp only [step] at hs
      split_ifs at hs with hidle
      cases c with
      | get b =>
          obtain rfl := Option.some.inj hs
          exact enterGet_inv h b
      | prefetch b =>
          obtain rfl := Option.some.inj hs
          exact enterPrefetch_inv h hidle b
  | caller => exact callerStep_inv hwf h hclear hs
  | callerPread r => exact callerPread_inv h hs
  | reader => exact readerStep_inv h hs
  | readerPread r => exact readerPread_inv h hs

theorem init_inv (hwf : WF s) (mem : Buf → Nat → UInt8) : Inv s (State.init mem) where
  ring_lt := hwf.nslot_pos
  index := fun _ _ h => by simp [State.init] at h
  index_inv := fun _ _ _ h => by simp [State.init] at h
  resident := fun _ _ h => by simp [State.init] at h
  pinned := fun _ _ h => by simp [State.init] at h
  live := fun _ _ h => by simp [State.init] at h
  reserved := fun h => by simp [State.Outstanding, State.init] at h
  exclusive := fun h => by simp [State.init] at h
  landed := fun h => by simp [State.init] at h
  reader := trivial
  caller := trivial
  returned := fun _ _ _ h => by simp [State.init] at h

end LlmEngine.Storage.Streamer
