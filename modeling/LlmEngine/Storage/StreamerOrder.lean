/-
# LlmEngine.Storage.StreamerOrder — the header's contract under any order of calls.

`streamer.h` promises, for any caller, that `get` makes its block resident, that the pointer stays
valid until the next `get` of an unpinned block, and that `prefetch` only starts a read.  The
promise is kept by every run whose steps are `Clear` (`clear_runs_keep_contract`), and it is broken
by a run that is not: a prefetch that is not collected at once, followed by enough other gets for
the ring to come round to its slot (`contract_broken_by_uncollected_prefetch`).

    prefetch(0)  get(1)  get(2)  get(0)        two slots: get(2) takes the slot of the read of 0

What holds in every state of such a run is `Contract`: the pointer that was returned and those that are still
promised address their blocks, and the two arrays are inverse to each other on the ring.

The first part shows that whatever `eng_streamer_create` accepts can be run (`WF`): there are blocks and slots,
two of them where there is a reader, and no more blocks are pinned than there are.  A created streamer
streams the blocks it was given, from the store it was given (`engStreamerCreate_streams`).
-/
import LlmEngine.Storage.StreamerInv

namespace LlmEngine.Storage.Streamer

open LlmEngine.Storage LlmEngine.Lib

/-! ## Every accepted geometry is well formed -/

theorem dropSlots_pos (rs budget : Int) : ∀ n, 0 < n → 0 < dropSlots rs budget n
  | 0, h => absurd h (Nat.lt_irrefl 0)
  | 1, _ => Nat.one_pos
  | n + 2, _ => by
      unfold dropSlots
      split_ifs
      · exact dropSlots_pos rs budget (n + 1) (Nat.succ_pos n)
      · omega

theorem pinPrefix_le (budget extra : Int) : ∀ (bs : List EngBlock) (sp : Int),
    (pinPrefix budget extra bs sp).1 ≤ bs.length
  | [], _ => Nat.le_refl 0
  | b :: bs, sp => by
      unfold pinPrefix
      split_ifs
      · exact Nat.zero_le _
      · exact Nat.succ_le_succ (pinPrefix_le budget extra bs _)

/-- Every pass of the sizing loop leaves at least one ring slot and pins blocks that exist. -/
theorem sizingLoop_wf (blk : List EngBlock) (budget extra : Int) {ringWant : Nat}
    (hw : 0 < ringWant) : ∀ (passes : Nat) (z : Sizing), 0 < z.ring → z.npin ≤ blk.length →
      0 < (sizingLoop blk budget extra ringWant passes z).ring ∧
        (sizingLoop blk budget extra ringWant passes z).npin ≤ blk.length
  | 0, z, hr, hp => ⟨hr, hp⟩
  | passes + 1, z, hr, hp => by
      unfold sizingLoop
      have hring := dropSlots_pos (ringSlotFor blk extra z.npin) budget ringWant hw
      simp only
      split_ifs
      · exact ⟨hring, hp⟩
      · exact sizingLoop_wf blk budget extra hw passes _ hring (pinPrefix_le _ _ _ _)

/-- What it is given to stream, and where from. -/
theorem engStreamerCreate_streams {store : EngStorage} {cfg : EngStreamerCfg} {threadOk : Bool} {s : EngStreamer}
    (h : engStreamerCreate store cfg threadOk = some s) : s.store = store ∧ s.blk = cfg.blocks := by
  unfold engStreamerCreate at h
  dsimp only at h
  split_ifs at h <;> obtain rfl := Option.some.inj h
  all_goals exact ⟨rfl, rfl⟩

theorem engStreamerCreate_wf {store : EngStorage} {cfg : EngStreamerCfg} {threadOk : Bool}
    {s : EngStreamer} (h : engStreamerCreate store cfg threadOk = some s) : WF s := by
  unfold engStreamerCreate at h
  simp only at h
  split_ifs at h with hne hbad <;> obtain rfl := Option.some.inj h
  all_goals
    refine ⟨List.length_pos_iff.mpr hne, ?_, ?_, ?_⟩
    · exact (sizingLoop_wf _ _ _ (by omega) 4 _ (by simp only; omega) (Nat.zero_le _)).1
    · exact (sizingLoop_wf _ _ _ (by omega) 4 _ (by simp only; omega) (Nat.zero_le _)).2
    · intro hio
      simp only [Bool.and_eq_true, decide_eq_true_eq] at hio
      exact hio.1.2

/-! ## The contract -/

/-- What the header promises of a state: the pointer `get` has just returned addresses its block,
so does every pointer handed out earlier that is still promised, and `block_of`/`slot_of` are
mutually inverse on the ring. -/
structure Contract (s : EngStreamer) (st : State) : Prop where
  returned : st.caller = .idle → ∀ b p, st.ret = some (b, some p) → Addresses s st b.toNat p
  kept : ∀ b p, (b, p) ∈ st.live → Addresses s st b p
  inverse : ∀ slot b, (st.blockOf slot = some b ∧ s.npin ≤ b) ↔ (s.npin ≤ b ∧ st.slotOf b = some slot)

theorem Inv.contract {s : EngStreamer} {st : State} (h : Inv s st) : Contract s st where
  returned := fun hidle b p hr => h.addresses (h.returned (Or.inl hidle) b p hr)
  kept := fun _ _ hp => h.addresses hp
  inverse := fun slot b =>
    ⟨fun hb => ⟨hb.2, (h.index slot b hb.1).2.2.2⟩, fun hb => ⟨h.index_inv b slot hb.1 hb.2, hb.1⟩⟩

instance (st : State) : Decidable st.Outstanding :=
  inferInstanceAs (Decidable (_ ∨ _))

instance (s : EngStreamer) (st : State) (c : Choice) : Decidable (Clear s st c) := by
  unfold Clear
  cases c with
  | caller => cases st.caller <;> infer_instance
  | call c => exact inferInstanceAs (Decidable True)
  | callerPread r => exact inferInstanceAs (Decidable True)
  | reader => exact inferInstanceAs (Decidable True)
  | readerPread r => exact inferInstanceAs (Decidable True)

/-- **The contract holds along every run of clear steps**, whatever the order of the calls, the
interleaving with the reader and the outcome of each read. -/
theorem clear_runs_keep_contract {store : EngStorage} {cfg : EngStreamerCfg} {threadOk : Bool}
    {s : EngStreamer} (hs : engStreamerCreate store cfg threadOk = some s)
    (mem : Buf → Nat → UInt8) {st : State}
    (hr : Reaches (step s) (Clear s) (State.init mem) st) : Contract s st := by
  have hwf := engStreamerCreate_wf hs
  have hinv : Inv s st := hr.invariant (init_inv hwf mem) fun _ _ _ h hg hstep => step_inv hwf h hg hstep
  exact hinv.contract

/-- Three one-byte blocks, a budget for two ring slots and nothing pinned. -/
def threeBlocks : EngStreamerCfg :=
  { blocks := [⟨0, 1⟩, ⟨1, 1⟩, ⟨2, 1⟩]
    budgetBytes := 20000
    extraBytes := 0
    ringWant := 2
    async := true }

/-- A file whose byte `i` is `10 + i`, without a direct descriptor. -/
def tenElevenTwelve : EngStorage :=
  { byte := fun i => UInt8.ofNat (10 + i), size := 3, direct := false }

def threeBlocksStreamer : EngStreamer :=
  { store := tenElevenTwelve
    blk := [⟨0, 1⟩, ⟨1, 1⟩, ⟨2, 1⟩]
    npin := 0
    nslot := 2
    slotBytes := 8192
    extraBytes := 0
    hasIo := true }

/-- `get(1)` read synchronously, then `prefetch(2)` loaded by the reader, then `get(2)`. -/
def collectedPrefetch : List Choice :=
  [.call (.get 1), .caller, .caller, .callerPread 1, .caller,
   .call (.prefetch 2), .caller, .reader, .readerPread 1, .reader, .reader,
   .call (.get 2), .caller]

theorem collectedPrefetch_keeps_contract :
    ∃ st, engStreamerCreate tenElevenTwelve threeBlocks true = some threeBlocksStreamer ∧
      Reaches (step threeBlocksStreamer) (Clear threeBlocksStreamer) (State.init fun _ _ => 0) st ∧
      st.ret = some (2, some ⟨.arena, 8192, 12288⟩) ∧ Contract threeBlocksStreamer st := by
  have hcreate : engStreamerCreate tenElevenTwelve threeBlocks true = some threeBlocksStreamer := by
    rfl
  have hrun : (run (step threeBlocksStreamer) (Clear threeBlocksStreamer) (State.init fun _ _ => 0)
      collectedPrefetch).map State.ret = some (some (2, some ⟨.arena, 8192, 12288⟩)) := by
    rfl
  obtain ⟨st, hst, hret⟩ := Option.map_eq_some_iff.mp hrun
  have hr := reaches_of_run collectedPrefetch .start hst
  exact ⟨st, hcreate, hr, hret, clear_runs_keep_contract hcreate _ hr⟩

/-- `prefetch(0)` lands in slot 0 and is not collected; `get(1)` and `get(2)` bring the ring round
to slot 0 again; `get(0)` then collects a slot that holds block 2. -/
def uncollectedPrefetch : List Choice :=
  [.call (.prefetch 0), .caller, .reader, .readerPread 1, .reader, .reader,
   .call (.get 1), .caller, .caller, .callerPread 1, .caller,
   .call (.get 2), .caller, .caller, .callerPread 1, .caller,
   .call (.get 0), .caller]

theorem contract_broken_by_uncollected_prefetch :
    ¬ ∀ (store : EngStorage) (cfg : EngStreamerCfg) (threadOk : Bool) (s : EngStreamer)
        (mem : Buf → Nat → UInt8) (st : State),
        engStreamerCreate store cfg threadOk = some s →
        Reaches (step s) anyChoice (State.init mem) st → Contract s st := by
  intro h
  have hrun : (run (step threeBlocksStreamer) anyChoice (State.init fun _ _ => 0)
      uncollectedPrefetch).map (fun st => (st.caller, st.ret, st.mem .arena 0))
        = some (.idle, some (0, some ⟨.arena, 0, 4096⟩), 12) := by
    rfl
  obtain ⟨st, hst, hobs⟩ := Option.map_eq_some_iff.mp hrun
  simp only [Prod.mk.injEq] at hobs
  obtain ⟨hidle, hret, hbyte⟩ := hobs
  have hc := h tenElevenTwelve threeBlocks true threeBlocksStreamer _ st rfl
    (reaches_of_run uncollectedPrefetch .start hst)
  -- the pointer returned for block 0 must show its byte, 10
  have hten : st.mem .arena 0 = 10 := hc.returned hidle 0 ⟨.arena, 0, 4096⟩ hret 0 (by decide)
  rw [hbyte] at hten
  exact absurd hten (by decide)

end LlmEngine.Storage.Streamer
