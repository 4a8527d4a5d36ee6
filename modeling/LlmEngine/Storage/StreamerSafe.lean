/-
# LlmEngine.Storage.StreamerSafe — what the layer walk may rely on.

The invariant of `StreamerInv` read as promises to the caller: a pointer handed out addresses its
block, nothing in progress touches it, and nothing takes it back before the next `get` of a block
outside the pinned prefix.  The first three hold in every state (`Safe`); the last is about a step
(`StepSafe`) and follows from what a step can do to the promises and to the published slots
(`Effect`).

* `Inv.safe`: from the invariant, in any state.  A read in progress is aimed at a slot without a published
  block, and a promised pointer is at a published one (`RingJob.misses`).
* `step_effect`: a step leaves the promises alone, returns one, publishes a slot or takes one.
* `walk_safe`: both, in every state that a walk over the layers reaches, for every accepted configuration,
  any number of passes, any interleaving of the caller and the reader thread and any outcome of the reads.

The walk stops at the first NULL.  A caller that goes on behind it is outside of this, and so is any other
order of calls (`Storage.StreamerOrder`).
-/
import LlmEngine.Storage.StreamerWalk

namespace LlmEngine.Storage.Streamer

open LlmEngine.Storage LlmEngine.Lib

variable {s : EngStreamer} {st st' : State}

/-! ## In a state and across a step -/

/-- A read in progress, the caller's or the reader's. -/
def State.Reading (st : State) (j : Job) : Prop :=
  (∃ b, st.caller = .pinLoad b j) ∨ (∃ b slot, st.caller = .ringLoad b slot j) ∨
    ∃ slot, st.reader = .reading slot j

/-- What holds in a state: every promised pointer addresses its block, no read in progress has a
byte of it in its window, and no request is aimed at its slot. -/
structure Safe (s : EngStreamer) (st : State) : Prop where
  returned : st.caller = .idle → ∀ b p, st.ret = some (b, some p) → (b.toNat, p) ∈ st.live
  addresses : ∀ b p, (b, p) ∈ st.live → Addresses s st b p
  untouched : ∀ j, st.Reading j → ∀ b p, (b, p) ∈ st.live → p.buf = j.dst →
    ∀ i < (s.block b).nbytes.toNat, p.base + i < j.start ∨ j.start + j.win.len ≤ p.base + i
  untargeted : st.Outstanding → ∀ b p, (b, p) ∈ st.live → s.npin ≤ b → st.slotOf b ≠ some st.io.slot
  published : ∀ slot b, st.blockOf slot = some b → SlotHolds s st slot b

/-- The read of block `b` into ring slot `slot` has reported success. -/
def State.ReadOk (s : EngStreamer) (st : State) (slot b : Nat) : Prop :=
  (∃ job, st.caller = .ringLoad b slot job ∧ job.ok s = true) ∨
    (st.io.done = true ∧ st.io.result = true ∧ st.io.slot = slot ∧ st.io.block = b)

/-- The one step that ends the promise of a ring pointer. -/
def Choice.unpinnedGet (s : EngStreamer) : Choice → Bool
  | .call (.get b) => decide (s.npin ≤ b.toNat)
  | _ => false

/-- What holds of a step: a promise ends only at a `get` of an unpinned block, and never for a
pinned block; until then not a byte changes; a slot is published for a read that succeeded only. -/
structure StepSafe (s : EngStreamer) (st : State) (c : Choice) (st' : State) : Prop where
  promised : ∀ b p, (b, p) ∈ st.live → b < s.npin ∨ c.unpinnedGet s = false → (b, p) ∈ st'.live
  unchanged : ∀ b p, (b, p) ∈ st.live → b < s.npin ∨ c.unpinnedGet s = false →
    ∀ i < (s.block b).nbytes.toNat, st'.mem p.buf (p.base + i) = st.mem p.buf (p.base + i)
  published : ∀ slot b, st'.blockOf slot = some b → st.blockOf slot = some b ∨ st.ReadOk s slot b

/-- A ring read in progress is aimed at a slot without a published block, hence not at a promise. -/
theorem RingJob.misses (hinv : Core s st) {slot b : Nat} {j : Job} (hj : RingJob s st.mem slot b j)
    (hnone : st.blockOf slot = none) {b' : Nat} {p : BlockPtr} (hlive : (b', p) ∈ st.live)
    (hbuf : p.buf = j.dst) {i : Nat} (hi : i < (s.block b').nbytes.toNat) :
    p.base + i < j.start ∨ j.start + j.win.len ≤ p.base + i := by
  rcases hinv.live b' p hlive with ⟨_, _, rfl⟩ | ⟨_, slot', hs', rfl⟩
  · rw [hj.dst_eq] at hbuf
    cases hbuf
  · have hne : slot' ≠ slot := by
      rintro rfl
      rw [hnone] at hs'
      cases hs'
    have hfit := (hinv.resident slot' b' hs').1
    have hlen := hj.good.len_le
    have hin : st.slotPad slot' + i < s.slotBytes.toNat := by omega
    rw [hj.start_eq]
    by_contra hcon
    push Not at hcon
    simp only [State.slotPtr] at hcon
    refine slotBase_disjoint (s := s) hne hin
      (show State.slotBase s slot' + st.slotPad slot' + i - State.slotBase s slot
        < s.slotBytes.toNat by omega) ?_
    omega

theorem Inv.safe (h : Inv s st) : Safe s st where
  returned := fun hidle => h.returned (Or.inl hidle)
  addresses := fun _ _ hp => h.addresses hp
  untouched := by
    rintro j (⟨b₀, hpc⟩ | ⟨b₀, slot, hpc⟩ | ⟨slot, hpc⟩) b p hlive hbuf i hi
    · have hc := h.caller
      simp only [CallerOk, hpc] at hc
      obtain ⟨_, hnone, _, hdst, _, _⟩ := hc
      rcases h.live b p hlive with ⟨_, hs, rfl⟩ | ⟨_, slot', _, rfl⟩
      · rw [hdst] at hbuf
        rw [Buf.pin.inj hbuf] at hs
        exact absurd hnone hs
      · rw [hdst] at hbuf
        cases hbuf
    · have hc := h.caller
      simp only [CallerOk, hpc] at hc
      obtain ⟨_, _, _, _, _, hnone, _, _, hjob⟩ := hc
      exact hjob.misses h.toCore hnone hlive hbuf hi
    · have hrd := h.reader
      simp only [ReaderOk, hpc] at hrd
      obtain ⟨hbusy, rfl, hjob⟩ := hrd
      exact hjob.misses h.toCore (h.reserved (Or.inl hbusy)).2.2.1 hlive hbuf hi
  untargeted := by
    intro ho b p hlive hb hslot
    have hbo := h.index_inv b _ hb hslot
    rw [(h.reserved ho).2.2.1] at hbo
    cases hbo
  published := h.resident

/-- What one step does to the promises and to the published blocks. -/
structure Effect (s : EngStreamer) (st : State) (c : Choice) (st' : State) : Prop where
  live : st.live ⊆ st'.live ∨
    (c.unpinnedGet s = true ∧ st'.live = st.live.filter fun e => decide (e.1 < s.npin))
  blockOf : ∀ slot b, st'.blockOf slot = some b → st.blockOf slot = some b ∨ st.ReadOk s slot b

theorem Effect.same {c : Choice} (hlive : st'.live = st.live) (hblockOf : st'.blockOf = st.blockOf) :
    Effect s st c st' :=
  ⟨Or.inl (hlive ▸ List.Subset.refl _), fun _ _ hb => Or.inl (hblockOf ▸ hb)⟩

/-- A `get` returns without publishing anything. -/
theorem Effect.returns {c : Choice} {st₀ : State} (hlive : st₀.live = st.live)
    (hblockOf : st₀.blockOf = st.blockOf) (b : Nat) (q : Option BlockPtr) :
    Effect s st c (st₀.returns b q) := by
  refine ⟨Or.inl ?_, fun _ _ hb => Or.inl (hblockOf ▸ hb)⟩
  cases q with
  | none => exact hlive ▸ List.Subset.refl _
  | some q => exact hlive ▸ List.subset_cons_self _ _

/-- A `get` returns after publishing what a read delivered. -/
theorem Effect.publishes {c : Choice} {st₀ : State} {b₀ slot₀ : Nat} (hlive : st₀.live = st.live)
    (hblockOf : st₀.blockOf = Function.update st.blockOf slot₀ (some b₀))
    (hok : st.ReadOk s slot₀ b₀) (q : BlockPtr) : Effect s st c (st₀.returns b₀ (some q)) := by
  refine ⟨Or.inl (hlive ▸ List.subset_cons_self _ _), fun slot b hb => ?_⟩
  have hb : st₀.blockOf slot = some b := hb
  rw [hblockOf] at hb
  by_cases hslot : slot = slot₀
  · subst hslot
    rw [Function.update_self] at hb
    exact Or.inr (Option.some.inj hb ▸ hok)
  · rw [Function.update_of_ne hslot] at hb
    exact Or.inl hb

/-- A slot is taken. -/
theorem Effect.takes {c : Choice} (hlive : st'.live = st.live)
    (hblockOf : st'.blockOf = (st.takeSlot s).blockOf) : Effect s st c st' :=
  ⟨Or.inl (hlive ▸ List.Subset.refl _),
    fun _ _ hb => Or.inl (takeSlot_blockOf_some (s := s) (hblockOf ▸ hb)).2⟩

theorem collectDone_effect {c : Choice} {b₀ : Nat} (hd : st.io.done = true)
    (hb : st.io.block = b₀) : Effect s st c (collectDone s st b₀) := by
  unfold collectDone
  split_ifs with hres
  · apply Effect.publishes (by rfl) (by rfl)
    exact Or.inr ⟨hd, hres, rfl, hb⟩
  · apply Effect.returns <;> rfl

theorem callerStep_effect (hinv : Inv s st) (hs : callerStep s st = some st') :
    Effect s st .caller st' := by
  have hc := hinv.caller
  unfold callerStep at hs
  cases hpc : st.caller with
  | idle => simp [hpc] at hs
  | pinLoad b₀ job =>
      simp only [hpc] at hs
      split_ifs at hs <;> obtain rfl := Option.some.inj hs <;> apply Effect.returns <;> rfl
  | collect b₀ =>
      simp only [hpc] at hs
      split_ifs at hs with hmine hdone <;> obtain rfl := Option.some.inj hs
      · exact collectDone_effect hdone hmine.2.2
      · exact .same rfl rfl
      · exact .same rfl rfl
  | waiting b₀ =>
      simp only [hpc] at hs
      simp only [CallerOk, hpc] at hc
      split_ifs at hs with hdone
      obtain rfl := Option.some.inj hs
      exact collectDone_effect hdone hc.2.2.2.2
  | scan b₀ =>
      simp only [hpc] at hs
      obtain rfl := Option.some.inj hs
      unfold scanRing
      cases st.findSlot s b₀ with
      | none => exact .takes rfl rfl
      | some slot => apply Effect.returns <;> rfl
  | ringLoad b₀ slot job =>
      simp only [hpc] at hs
      split_ifs at hs with hok <;> obtain rfl := Option.some.inj hs
      · apply Effect.publishes (by rfl) (by rfl)
        exact Or.inl ⟨job, hpc, hok⟩
      · apply Effect.returns <;> rfl
  | request b₀ =>
      simp only [hpc] at hs
      obtain rfl := Option.some.inj hs
      unfold issueRequest
      split_ifs
      · exact .same rfl rfl
      · exact .takes rfl rfl

theorem step_effect (hinv : Inv s st) {c : Choice} (hs : step s st c = some st') :
    Effect s st c st' := by
  cases c with
  | call c =>
      simp only [step] at hs
      split_ifs at hs
      cases c with
      | get b₀ =>
          obtain rfl := Option.some.inj hs
          unfold enterGet
          split_ifs with hrange hpin
          · exact .same rfl rfl
          · cases st.slotOf b₀.toNat with
            | none => exact .same rfl rfl
            | some slot => apply Effect.returns <;> rfl
          · exact ⟨Or.inr ⟨decide_eq_true (by omega), rfl⟩, fun _ _ hb => Or.inl hb⟩
      | prefetch b₀ =>
          obtain rfl := Option.some.inj hs
          unfold enterPrefetch
          split_ifs
          · exact .same rfl rfl
          · exact .same rfl rfl
          · exact .same rfl rfl
          · cases st.findSlot s b₀.toNat <;> exact .same rfl rfl
  | caller => exact callerStep_effect hinv hs
  | callerPread n =>
      have hview := (callerPread_view hs).1
      exact .same (congrArg View.live hview) (congrArg View.blockOf hview)
  | reader =>
      have hview := (reader_view hinv (Or.inl rfl) hs).1
      exact .same (congrArg View.live hview) (congrArg View.blockOf hview)
  | readerPread n =>
      have hview := (reader_view hinv (Or.inr ⟨n, rfl⟩) hs).1
      exact .same (congrArg View.live hview) (congrArg View.blockOf hview)

theorem Effect.stepSafe {c : Choice} (he : Effect s st c st') (h : Inv s st) (h' : Inv s st') :
    StepSafe s st c st' := by
  have hkeep : ∀ b p, (b, p) ∈ st.live → b < s.npin ∨ c.unpinnedGet s = false → (b, p) ∈ st'.live := by
    intro b p hlive hc
    rcases he.live with hsub | ⟨hget, hfilter⟩
    · exact hsub hlive
    · rw [hget] at hc
      rw [hfilter]
      exact List.mem_filter.mpr ⟨hlive, decide_eq_true (hc.resolve_right (by simp))⟩
  refine ⟨hkeep, fun b p hlive hc i hi => ?_, he.blockOf⟩
  rw [h'.addresses (hkeep b p hlive hc) i hi, h.addresses hlive i hi]

/-- **The walk is safe**: for every accepted configuration, any number of passes, any interleaving
and any outcome of the reads, in every state reached and across every step taken from it. -/
theorem walk_safe {store : EngStorage} {cfg : EngStreamerCfg} {threadOk : Bool} {s : EngStreamer}
    (hs : engStreamerCreate store cfg threadOk = some s) (mem : Buf → Nat → UInt8) {w : Walk}
    (hr : Reaches (walkStep s) anyChoice (Walk.init mem) w) :
    Safe s w.st ∧ ∀ c w', walkStep s w c = some w' → StepSafe s w.st c w'.st := by
  have hwf := engStreamerCreate_wf hs
  have hinv : Inv s w.st ∧ Walks s w.st w.layer w.phase :=
    hr.invariant (P := fun w => Inv s w.st ∧ Walks s w.st w.layer w.phase)
      ⟨init_inv hwf mem, init_walks hwf mem⟩
      fun w c w' h _ hstep => walkStep_walks hwf h.1 h.2 hstep
  refine ⟨hinv.1.safe, fun c w' hstep => ?_⟩
  have hinv' := (walkStep_walks hwf hinv.1 hinv.2 hstep).1
  exact (step_effect hinv.1 (walkStep_step hstep)).stepSafe hinv.1 hinv'

/-- A pass over three blocks in a ring of two: block 0 read by the caller, block 1 by the reader
while block 0 is promised, block 2 asked for while block 1 is. -/
def firstPass : List Choice :=
  [.call (.get 0), .caller, .caller, .callerPread 1, .caller,
   .call (.prefetch 1), .caller, .reader, .readerPread 1, .reader, .reader,
   .call (.get 1), .caller, .call (.prefetch 2), .caller, .reader]

theorem firstPass_safe :
    ∃ w, engStreamerCreate tenElevenTwelve threeBlocks true = some threeBlocksStreamer ∧
      Reaches (walkStep threeBlocksStreamer) anyChoice (Walk.init fun _ _ => 0) w ∧
      w.st.live = [(1, ⟨.arena, 8192, 12288⟩)] ∧ Safe threeBlocksStreamer w.st ∧
      ∀ c w', walkStep threeBlocksStreamer w c = some w' →
        StepSafe threeBlocksStreamer w.st c w'.st := by
  have hcreate : engStreamerCreate tenElevenTwelve threeBlocks true = some threeBlocksStreamer := by
    rfl
  have hrun : (run (walkStep threeBlocksStreamer) anyChoice (Walk.init fun _ _ => 0) firstPass).map
      (fun w => w.st.live) = some [(1, ⟨.arena, 8192, 12288⟩)] := by
    rfl
  obtain ⟨w, hw, hlive⟩ := Option.map_eq_some_iff.mp hrun
  have hr := reaches_of_run firstPass .start hw
  exact ⟨w, hcreate, hr, hlive, walk_safe hcreate _ hr⟩

end LlmEngine.Storage.Streamer
