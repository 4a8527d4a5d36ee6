/-
# LlmEngine.Storage.StreamerWalk — the layer walk never collides with itself.

The one order of calls the engine uses is `get(0), prefetch(1), get(1), prefetch(2), …`, pass after
pass, stopping at the first NULL.  Along it the ring is a sliding window: fetch number `j` takes
slot `j % nslot` and brings in the `j`-th unpinned block met by the walk, so with `f` fetches made
the slots hold the last `nslot` of them.  If the next block is not in that window then the block
the caller computes on is the newest fetch, and with two slots or more the cursor is elsewhere.

`RingInv` says this of the shared state, `PosOk` ties it to the position of the walk, and both
together make every step of the walk `Clear` (`walk_clear`), so the invariant of `StreamerInv` holds
along it.

Neither is about memory: `View` is the part of the state that the order of calls can influence, and reads in
progress only move bytes.  What a step does to the window is one of a few turns (`Turn`): nothing, a slot
taken, a load that landed, a hit, a pinned block found or loaded.  There is one `_moves` lemma per transition and
`walkStep_moves` for all of them.
-/
import Mathlib.Data.Nat.ModEq
import LlmEngine.Storage.StreamerOrder

namespace LlmEngine.Storage.Streamer

open LlmEngine.Storage LlmEngine.Lib

/-! ## The walk -/

/-- Which call of the layer the walk makes next. -/
inductive Phase where
  | get
  | prefetch
  deriving DecidableEq, Repr

/-- The streamer under a caller that walks the blocks in order. -/
structure Walk where
  st : State
  layer : Nat
  phase : Phase

def Walk.init (mem : Buf → Nat → UInt8) : Walk :=
  { st := State.init mem, layer := 0, phase := .get }

/-- The calls the walk may make now.  After the last layer the hint is `0` (the test's walk) or the
out-of-range `nblocks` (the forward pass). -/
def Walk.calls (s : EngStreamer) (w : Walk) : List Call :=
  match w.phase with
  | .get => [.get w.layer]
  | .prefetch =>
      if w.layer + 1 < s.nblocks then [.prefetch (w.layer + 1 : Nat)]
      else [.prefetch 0, .prefetch s.nblocks]

/-- The position once that call has been entered. -/
def Walk.advance (s : EngStreamer) (w : Walk) (st : State) : Walk :=
  match w.phase with
  | .get => { w with st := st, phase := .prefetch }
  | .prefetch => { st := st, layer := (w.layer + 1) % s.nblocks, phase := .get }

/-- The last `get` returned NULL: the walk makes no further call. -/
def State.stopped (st : State) : Bool :=
  match st.ret with
  | some (_, none) => true
  | _ => false

def walkStep (s : EngStreamer) (w : Walk) : Choice → Option Walk
  | .call c =>
      if w.st.stopped = false ∧ c ∈ w.calls s then (step s w.st (.call c)).map (w.advance s) else none
  | c => (step s w.st c).map fun st => { w with st := st }

/-- The `j`-th unpinned block the walk meets. -/
def ringBlock (s : EngStreamer) (j : Nat) : Nat := s.npin + j % (s.nblocks - s.npin)

theorem ringBlock_succ {s : EngStreamer} {i j : Nat} (h : ringBlock s i = ringBlock s j) :
    ringBlock s (i + 1) = ringBlock s (j + 1) := by
  have hmod : i % (s.nblocks - s.npin) = j % (s.nblocks - s.npin) := Nat.add_left_cancel h
  exact congrArg (s.npin + ·) (Nat.ModEq.add_right 1 hmod)

/-- The unpinned block after a given one, inside a pass and across its end. -/
theorem ringBlock_next {s : EngStreamer} {v : Nat} (hv : 0 < v) (hm : s.npin < s.nblocks) :
    if ringBlock s (v - 1) + 1 < s.nblocks then ringBlock s v = ringBlock s (v - 1) + 1
    else v % (s.nblocks - s.npin) = 0 := by
  obtain ⟨u, rfl⟩ : ∃ u, v = u + 1 := ⟨v - 1, by omega⟩
  have hpos : 0 < s.nblocks - s.npin := by omega
  have hlt := Nat.mod_lt u hpos
  simp only [ringBlock, Nat.add_sub_cancel]
  split_ifs with hend
  · rw [Nat.add_mod_eq_ite]
    have hone : 1 % (s.nblocks - s.npin) = 1 := Nat.mod_eq_of_lt (by omega)
    rw [hone, if_neg (by omega)]
    omega
  · have hlast : u % (s.nblocks - s.npin) + 1 = s.nblocks - s.npin := by omega
    rw [Nat.add_mod, Nat.add_mod_mod, hlast, Nat.mod_self]

/-! ## What the walk sees of the streamer -/

/-- The caller is inside a `get` of this unpinned block. -/
def CallerPc.getting : CallerPc → Option Nat
  | .collect b | .waiting b | .scan b | .ringLoad b _ _ => some b
  | _ => none

/-- The slot the caller's own read is aimed at. -/
def CallerPc.loading : CallerPc → Option Nat
  | .ringLoad _ slot _ => some slot
  | _ => none

def CallerPc.requesting : CallerPc → Option Nat
  | .request b => some b
  | _ => none

/-- The part of the state the order of calls can influence; reads in progress only move bytes. -/
structure View where
  ring : Nat
  blockOf : Nat → Option Nat
  outstanding : Bool
  ioSlot : Nat
  ioBlock : Nat
  live : List (Nat × BlockPtr)
  getting : Option Nat
  loading : Option Nat
  requesting : Option Nat

def State.view (st : State) : View :=
  { ring := st.ring
    blockOf := st.blockOf
    outstanding := st.io.busy || st.io.done
    ioSlot := st.io.slot
    ioBlock := st.io.block
    live := st.live
    getting := st.caller.getting
    loading := st.caller.loading
    requesting := st.caller.requesting }

theorem view_outstanding {st : State} : st.view.outstanding = true ↔ st.Outstanding := by
  simp [State.view, State.Outstanding]

/-- A slot has been taken and its block is not published yet. -/
def View.Pending (r : View) : Prop := r.outstanding = true ∨ r.loading ≠ none

variable {s : EngStreamer} {st st' : State} {r r' : View} {v f : Nat}

/-- **The window.**  `v` gets of unpinned blocks have returned, `f` slots have been taken. -/
structure RingInv (s : EngStreamer) (r : View) (v f : Nat) : Prop where
  cursor : r.ring = f % s.nslot
  /-- the last `nslot` fetches are published, except the newest while it is pending -/
  window : ∀ j < f, f ≤ j + s.nslot → (r.Pending → j + 1 ≠ f) →
    r.blockOf (j % s.nslot) = some (ringBlock s j)
  /-- nothing else is -/
  found : ∀ slot b, r.blockOf slot = some b →
    ∃ j < f, f ≤ j + s.nslot ∧ slot = j % s.nslot ∧ b = ringBlock s j
  /-- a pending fetch is the newest one, and it is of the block the walk gets next -/
  pending : r.Pending → 0 < f ∧ ringBlock s (f - 1) = ringBlock s v
  request : r.outstanding = true → r.ioSlot = (f - 1) % s.nslot ∧ r.ioBlock = ringBlock s v
  load : ∀ slot, r.loading = some slot → slot = (f - 1) % s.nslot ∧ r.outstanding = false
  fresh : v = 0 → (r.Pending ∧ f = 1) ∨ (¬ r.Pending ∧ f = 0)
  /-- the block the caller computes on is published and not the pending one -/
  current : 0 < v → r.loading = none →
    ∃ i < f, (r.outstanding = true → i + 1 < f) ∧ f ≤ i + s.nslot ∧ ringBlock s i = ringBlock s (v - 1)
  live : ∀ e ∈ r.live, s.npin ≤ e.1 → 0 < v ∧ e.1 = ringBlock s (v - 1)

/-- Where the walk stands, against the number of unpinned gets that have returned. -/
def PosOk (s : EngStreamer) (r : View) (v layer : Nat) : Phase → Prop
  | .get =>
      layer < s.nblocks ∧ (layer < s.npin → v % (s.nblocks - s.npin) = 0) ∧
        (s.npin ≤ layer → layer = ringBlock s v) ∧ r.getting = none ∧
        ∀ b, r.requesting = some b → b = ringBlock s v
  | .prefetch =>
      layer < s.nblocks ∧ (layer < s.npin → v % (s.nblocks - s.npin) = 0) ∧ r.requesting = none ∧
        match r.getting with
        | some b => b = layer ∧ b = ringBlock s v
        | none => s.npin ≤ layer → 0 < v ∧ layer = ringBlock s (v - 1)

/-! ## The window moves -/

/-- **The newest fetch.**  With nothing pending, a next block that is not published means the caller
computes on the newest fetch, and the next fetch number is the next block's. -/
theorem RingInv.newest (h : RingInv s r v f) (hno : ¬ r.Pending)
    (hmiss : ∀ slot, r.blockOf slot ≠ some (ringBlock s v)) :
    ringBlock s f = ringBlock s v ∧ (0 < v → 0 < f ∧ ringBlock s (f - 1) = ringBlock s (v - 1)) := by
  rcases Nat.eq_zero_or_pos v with hv | hv
  · subst hv
    rcases h.fresh rfl with ⟨hp, _⟩ | ⟨_, rfl⟩
    · exact absurd hp hno
    · exact ⟨rfl, fun hv => absurd hv (Nat.lt_irrefl 0)⟩
  · have hload : r.loading = none := by
      by_contra hl
      exact hno (Or.inr hl)
    obtain ⟨i, hi, _, hwin, hblk⟩ := h.current hv hload
    have hnext : ringBlock s (i + 1) = ringBlock s v := by
      have := ringBlock_succ hblk
      rwa [Nat.sub_add_cancel hv] at this
    have hi' : i + 1 = f := by
      by_contra hne
      -- otherwise fetch `i + 1` brought the next block in, and it is still in the window
      have := h.window (i + 1) (by omega) (by omega) (fun hp => absurd hp hno)
      exact hmiss _ (hnext ▸ this)
    subst hi'
    exact ⟨hnext, fun _ => ⟨Nat.succ_pos i, hblk⟩⟩

/-- Two fetches closer than `nslot` are in different slots. -/
theorem mod_ne_of_lt_add {i f n : Nat} (hi : i < f) (hf : f < i + n) : i % n ≠ f % n := by
  intro h
  have hdvd := (Nat.modEq_iff_dvd' (Nat.le_of_lt hi)).mp h
  exact absurd (Nat.le_of_dvd (by omega) hdvd) (by omega)

/-- Taking the slot under the cursor for the next block, to be read by the reader or by the caller. -/
theorem RingInv.take (h : RingInv s r v f) (hno : ¬ r.Pending)
    (hmiss : ∀ slot, r.blockOf slot ≠ some (ringBlock s v))
    (hring : r'.ring = (r.ring + 1) % s.nslot)
    (hblockOf : r'.blockOf = Function.update r.blockOf r.ring none)
    (hlive : r'.live = r.live)
    (hwho : (r'.outstanding = true ∧ r'.ioSlot = r.ring ∧ r'.ioBlock = ringBlock s v ∧
        r'.loading = none ∧ 2 ≤ s.nslot) ∨
      (r'.outstanding = false ∧ r'.loading = some r.ring)) : RingInv s r' v (f + 1) := by
  obtain ⟨hnext, hcur⟩ := h.newest hno hmiss
  have hpend : r'.Pending := by
    rcases hwho with ⟨ho, -⟩ | ⟨-, hl⟩
    · exact Or.inl ho
    · exact Or.inr (by simp [hl])
  refine ⟨?_, ?_, ?_, fun _ => ⟨Nat.succ_pos f, by simpa using hnext⟩, ?_, ?_, ?_, ?_, ?_⟩
  · rw [hring, h.cursor, Nat.mod_add_mod]
  · intro j hj hwin hne
    have hjf : j < f := by
      have := hne hpend
      omega
    rw [hblockOf, h.cursor, Function.update_of_ne (mod_ne_of_lt_add hjf (by omega))]
    exact h.window j hjf (by omega) (fun hp => absurd hp hno)
  · intro slot b hb
    rw [hblockOf] at hb
    by_cases hslot : slot = r.ring
    · subst hslot
      simp at hb
    · rw [Function.update_of_ne hslot] at hb
      obtain ⟨j, hj, hwin, rfl, hblk⟩ := h.found slot b hb
      refine ⟨j, by omega, ?_, rfl, hblk⟩
      by_contra hout
      apply hslot
      have hfj : f = j + s.nslot := by omega
      rw [h.cursor, hfj, Nat.add_mod_right]
  · intro ho
    rcases hwho with ⟨_, hs, hb, _⟩ | ⟨ho', _⟩
    · exact ⟨by rw [hs, h.cursor, Nat.add_sub_cancel], hb⟩
    · simp [ho'] at ho
  · intro slot hl
    rcases hwho with ⟨_, _, _, hl', _⟩ | ⟨ho, hl'⟩
    · simp [hl'] at hl
    · rw [hl'] at hl
      exact ⟨by rw [← Option.some.inj hl, h.cursor, Nat.add_sub_cancel], ho⟩
  · intro hv
    rcases h.fresh hv with ⟨hp, _⟩ | ⟨_, rfl⟩
    · exact absurd hp hno
    · exact Or.inl ⟨hpend, rfl⟩
  · intro hv hl
    obtain ⟨hf, hblk⟩ := hcur hv
    rcases hwho with ⟨_, _, _, _, htwo⟩ | ⟨_, hl'⟩
    · exact ⟨f - 1, by omega, fun _ => by omega, by omega, hblk⟩
    · simp [hl'] at hl
  · rw [hlive]
    exact h.live

/-- Publishing the pending fetch and handing it out. -/
theorem RingInv.collect (h : RingInv s r v f) (hpos : 0 < s.nslot) (hpend : r.Pending)
    (hno' : ¬ r'.Pending) (hring : r'.ring = r.ring)
    (hblockOf : r'.blockOf = Function.update r.blockOf ((f - 1) % s.nslot) (some (ringBlock s v)))
    (hlive : ∀ e ∈ r'.live, s.npin ≤ e.1 → e.1 = ringBlock s v) : RingInv s r' (v + 1) f := by
  obtain ⟨hf, hblk⟩ := h.pending hpend
  refine ⟨?_, ?_, ?_, fun hp => absurd hp hno', fun ho => absurd (Or.inl ho) hno', ?_,
    fun hv => absurd hv (Nat.succ_ne_zero v), ?_, fun e he hpin => ⟨Nat.succ_pos v, hlive e he hpin⟩⟩
  · rw [hring, h.cursor]
  · intro j hj hwin _
    rw [hblockOf]
    by_cases hlast : j + 1 = f
    · have hj' : j = f - 1 := by omega
      rw [hj', Function.update_self, hblk]
    · have hne : j % s.nslot ≠ (f - 1) % s.nslot := mod_ne_of_lt_add (by omega) (by omega)
      rw [Function.update_of_ne hne]
      exact h.window j hj hwin fun _ => hlast
  · intro slot b hb
    rw [hblockOf] at hb
    by_cases hslot : slot = (f - 1) % s.nslot
    · subst hslot
      rw [Function.update_self] at hb
      exact ⟨f - 1, by omega, by omega, rfl, by rw [hblk]; exact (Option.some.inj hb).symm⟩
    · rw [Function.update_of_ne hslot] at hb
      exact h.found slot b hb
  · intro slot hl
    exact absurd (Or.inr (by simp [hl])) hno'
  · intro _ _
    exact ⟨f - 1, by omega, fun ho => absurd (Or.inl ho) hno', by omega, hblk⟩

/-- Handing out a block that is already in the window. -/
theorem RingInv.hit (h : RingInv s r v f) (hno : ¬ r.Pending) (hno' : ¬ r'.Pending)
    {slot : Nat} (hslot : r.blockOf slot = some (ringBlock s v))
    (hring : r'.ring = r.ring) (hblockOf : r'.blockOf = r.blockOf)
    (hlive : ∀ e ∈ r'.live, s.npin ≤ e.1 → e.1 = ringBlock s v) : RingInv s r' (v + 1) f := by
  refine ⟨hring ▸ h.cursor, ?_, ?_, fun hp => absurd hp hno', fun ho => absurd (Or.inl ho) hno', ?_,
    fun hv => absurd hv (Nat.succ_ne_zero v), ?_, fun e he hpin => ⟨Nat.succ_pos v, hlive e he hpin⟩⟩
  · intro j hj hwin _
    rw [hblockOf]
    exact h.window j hj hwin fun hp => absurd hp hno
  · rw [hblockOf]
    exact h.found
  · intro slot hl
    exact absurd (Or.inr (by simp [hl])) hno'
  · intro _ _
    obtain ⟨j, hj, hwin, -, hblk⟩ := h.found _ _ hslot
    exact ⟨j, hj, fun ho => absurd (Or.inl ho) hno', hwin, hblk.symm⟩

/-- Nothing the window depends on has moved, except that promises may have been dropped. -/
theorem RingInv.keep (h : RingInv s r v f) (hring : r'.ring = r.ring)
    (hblockOf : r'.blockOf = r.blockOf) (hout : r'.outstanding = r.outstanding)
    (hslot : r'.ioSlot = r.ioSlot) (hblock : r'.ioBlock = r.ioBlock) (hload : r'.loading = r.loading)
    (hlive : ∀ e ∈ r'.live, s.npin ≤ e.1 → e ∈ r.live) : RingInv s r' v f := by
  have hp : r'.Pending ↔ r.Pending := by simp only [View.Pending, hout, hload]
  refine ⟨hring ▸ h.cursor, ?_, ?_, ?_, ?_, ?_, ?_, ?_, fun e he hpin => h.live e (hlive e he hpin) hpin⟩
  · simpa only [hp, hblockOf] using h.window
  · simpa only [hblockOf] using h.found
  · simpa only [hp] using h.pending
  · simpa only [hout, hslot, hblock] using h.request
  · simpa only [hload, hout] using h.load
  · simpa only [hp] using h.fresh
  · simpa only [hload, hout] using h.current

/-! ## The position moves -/

theorem PosOk.keep {layer : Nat} {φ : Phase} (h : PosOk s r v layer φ) (hget : r'.getting = r.getting)
    (hreq : r'.requesting = r.requesting) : PosOk s r' v layer φ := by
  cases φ with
  | get => simpa only [PosOk, hget, hreq] using h
  | prefetch => simpa only [PosOk, hget, hreq] using h

/-- Inside a `get` of an unpinned block the walk stands at that block. -/
theorem PosOk.getting {layer b : Nat} {φ : Phase} (h : PosOk s r v layer φ)
    (hget : r.getting = some b) :
    φ = .prefetch ∧ b = layer ∧ b = ringBlock s v ∧ layer < s.nblocks := by
  cases φ with
  | get =>
      obtain ⟨_, _, _, hnone, _⟩ := h
      simp [hnone] at hget
  | prefetch =>
      simp only [PosOk, hget] at h
      exact ⟨rfl, h.2.2.2.1, h.2.2.2.2, h.1⟩

/-- Inside a `prefetch` it stands before the block that is asked for. -/
theorem PosOk.requesting {layer b : Nat} {φ : Phase} (h : PosOk s r v layer φ)
    (hreq : r.requesting = some b) : φ = .get ∧ b = ringBlock s v := by
  cases φ with
  | get => exact ⟨rfl, h.2.2.2.2 b hreq⟩
  | prefetch =>
      obtain ⟨_, _, hnone, _⟩ := h
      simp [hnone] at hreq

/-- The `get` of an unpinned block has returned. -/
theorem PosOk.returned {layer b : Nat} {φ : Phase} (h : PosOk s r v layer φ)
    (hget : r.getting = some b) (hget' : r'.getting = none) (hreq' : r'.requesting = none) :
    PosOk s r' (v + 1) layer φ := by
  obtain ⟨rfl, rfl, hb, hlt⟩ := h.getting hget
  refine ⟨hlt, fun hpin => ?_, hreq', ?_⟩
  · have : s.npin ≤ b := hb ▸ Nat.le_add_right _ _
    omega
  · rw [hget']
    exact fun _ => ⟨Nat.succ_pos v, hb⟩

/-- The `prefetch` has made its request, or none. -/
theorem PosOk.requested {layer : Nat} {φ : Phase} (h : PosOk s r v layer φ) {b : Nat}
    (hreq : r.requesting = some b) (hget' : r'.getting = none) (hreq' : r'.requesting = none) :
    PosOk s r' v layer φ := by
  obtain ⟨rfl, _⟩ := h.requesting hreq
  obtain ⟨h1, h2, h3, _, _⟩ := h
  exact ⟨h1, h2, h3, hget', fun b' hb' => by simp [hreq'] at hb'⟩

/-- The next layer of the walk, and the unpinned block the hint may ask for. -/
theorem PosOk.next {layer : Nat} (h : PosOk s r v layer .prefetch) (hidle : r.getting = none) :
    (layer + 1) % s.nblocks < s.nblocks ∧
      ((layer + 1) % s.nblocks < s.npin → v % (s.nblocks - s.npin) = 0) ∧
      (s.npin ≤ (layer + 1) % s.nblocks → (layer + 1) % s.nblocks = ringBlock s v) := by
  obtain ⟨hlt, hpin, _, hring⟩ := h
  rw [hidle] at hring
  have hend : v % (s.nblocks - s.npin) = 0 → ringBlock s v = s.npin := fun hv => by
    simp [ringBlock, hv]
  by_cases hin : layer < s.npin
  · have hv := hpin hin
    refine ⟨Nat.mod_lt _ (by omega), fun _ => hv, fun hge => ?_⟩
    rw [hend hv]
    have hle := Nat.mod_le (layer + 1) s.nblocks
    omega
  · obtain ⟨hv, hlay⟩ := hring (by omega)
    have hnext := ringBlock_next (s := s) hv (by omega)
    rw [← hlay] at hnext
    split_ifs at hnext with hlast
    · rw [Nat.mod_eq_of_lt hlast]
      exact ⟨hlast, fun h => by omega, fun _ => hnext.symm⟩
    · have hwrap : layer + 1 = s.nblocks := by omega
      rw [hwrap, Nat.mod_self, hend hnext]
      exact ⟨by omega, fun _ => hnext, fun h => by omega⟩

/-! ## Every step of the walk is clear -/

/-- Nothing is promised in the ring once only pinned promises and the block just handed out are. -/
theorem live_returned {b : Nat} {p : BlockPtr} (hnl : st.NoRingLive s) :
    ∀ e ∈ (b, p) :: st.live, s.npin ≤ e.1 → e.1 = b := by
  intro e he hpin
  rcases List.mem_cons.mp he with rfl | he
  · rfl
  · exact absurd (hnl e he) (by omega)

/-- **No collision.**  In the walk a synchronous read never meets a reserved slot, and a prefetch
never meets the slot the caller computes on. -/
theorem walk_clear (hwf : WF s) (hinv : Inv s st) {layer : Nat} {φ : Phase}
    (hr : RingInv s st.view v f) (hp : PosOk s st.view v layer φ) (c : Choice) : Clear s st c := by
  cases c with
  | call c => trivial
  | callerPread n => trivial
  | reader => trivial
  | readerPread n => trivial
  | caller =>
      have hc := hinv.caller
      unfold Clear
      cases hpc : st.caller with
      | scan b =>
          simp only [CallerOk, hpc] at hc
          intro _ ho
          obtain ⟨_, _, hb, _⟩ := hp.getting (b := b) (by simp [State.view, hpc, CallerPc.getting])
          -- an outstanding request is for this very block, so it would have been collected
          exact absurd ((hr.request (view_outstanding.mpr ho)).2.trans hb.symm) (hc.2.2.2 ho)
      | request b =>
          simp only [CallerOk, hpc] at hc
          intro hno hnone e he hpin hslot
          obtain ⟨_, hb⟩ := hp.requesting (b := b) (by simp [State.view, hpc, CallerPc.requesting])
          have hnp : ¬ st.view.Pending := by
            rintro (ho | hl)
            · exact hno (view_outstanding.mp ho)
            · exact hl (by simp [State.view, hpc, CallerPc.loading])
          obtain ⟨_, hcur⟩ := hr.newest hnp fun slot hs => by
            have := (hinv.index slot _ hs).2.2.2
            rw [← hb, hnone] at this
            cases this
          obtain ⟨hv, heb⟩ := hr.live e he hpin
          obtain ⟨hf, hblk⟩ := hcur hv
          have htwo := hwf.two_slots hc.2.2
          have hwin := hr.window (f - 1) (by omega) (by omega) fun h => absurd h hnp
          have hslot' := (hinv.index _ _ hwin).2.2.2
          rw [hblk, ← heb, hslot] at hslot'
          have hring : st.ring = f % s.nslot := hr.cursor
          exact mod_ne_of_lt_add (i := f - 1) (f := f) (by omega) (by omega)
            ((Option.some.inj hslot').symm.trans hring)
      | idle => trivial
      | pinLoad b job => trivial
      | collect b => trivial
      | waiting b => trivial
      | ringLoad b slot job => trivial

/-! ## Every step of the walk keeps the window -/

/-- What a step of the walk leads to: it has stopped, or the window and the position still agree. -/
def Walks (s : EngStreamer) (st : State) (layer : Nat) (φ : Phase) : Prop :=
  (st.stopped = true ∧ st.caller = .idle) ∨
    ∃ v f, RingInv s st.view v f ∧ PosOk s st.view v layer φ

/-- 1 inside a `get`, 0 outside. -/
def CallerPc.inGet : CallerPc → Nat
  | .pinLoad _ _ | .collect _ | .waiting _ | .scan _ | .ringLoad _ _ _ => 1
  | .idle | .request _ => 0

/-- **What a step does** to the window (`v` gets of unpinned blocks returned, `f` slots taken) and to
the counters; the last index is 1 if a `get` is served.  `layer` is where the walk stands. -/
inductive Turn (s : EngStreamer) (st st' : State) (layer v f : Nat) : Nat → Nat → Nat → Prop
  | quiet (hits : st'.hits = st.hits) (misses : st'.misses = st.misses)
      (pending : st'.view.Pending ↔ st.view.Pending) (pins : ∀ b < s.npin, st'.slotOf b = st.slotOf b) :
      Turn s st st' layer v f v f 0
  | taken (hits : st'.hits = st.hits) (misses : st'.misses = st.misses) (free : ¬ st.view.Pending)
      (streams : s.npin < s.nblocks)
      (absent : ∀ slot, st.view.blockOf slot ≠ some (ringBlock s v)) (pending : st'.view.Pending)
      (pins : ∀ b < s.npin, st'.slotOf b = st.slotOf b) : Turn s st st' layer v f v (f + 1) 0
  | landed (hits : st'.hits = st.hits) (misses : st'.misses = st.misses + 1)
      (pending : st.view.Pending) (free : ¬ st'.view.Pending) (at_ : layer = ringBlock s v)
      (pins : ∀ b < s.npin, st'.slotOf b = st.slotOf b) : Turn s st st' layer v f (v + 1) f 1
  | hit {slot : Nat} (hits : st'.hits = st.hits + 1) (misses : st'.misses = st.misses)
      (free : ¬ st.view.Pending) (free' : ¬ st'.view.Pending)
      (resident : st.view.blockOf slot = some (ringBlock s v)) (at_ : layer = ringBlock s v)
      (pins : ∀ b < s.npin, st'.slotOf b = st.slotOf b) : Turn s st st' layer v f (v + 1) f 1
  | pinHit (hits : st'.hits = st.hits + 1) (misses : st'.misses = st.misses)
      (pending : st'.view.Pending ↔ st.view.Pending) (pinned : layer < s.npin)
      (resident : st.slotOf layer ≠ none) (pins : ∀ b < s.npin, st'.slotOf b = st.slotOf b) :
      Turn s st st' layer v f v f 1
  | pinMiss {b : Nat} {job : Job} (hits : st'.hits = st.hits) (misses : st'.misses = st.misses + 1)
      (pending : st'.view.Pending ↔ st.view.Pending) (pinned : b < s.npin)
      (call : st.caller = .pinLoad b job) (absent : st.slotOf b = none)
      (slotOf : st'.slotOf = Function.update st.slotOf b (some b)) : Turn s st st' layer v f v f 1

/-- Where a step leads: the walk has stopped, or it took its turn.  `called` is 1 for a step that
enters a `get`, and `layer` and `φ` are where the walk stands after the step. -/
def Moves (s : EngStreamer) (st st' : State) (v f called layer : Nat) (φ : Phase) : Prop :=
  (st'.stopped = true ∧ st'.caller = .idle) ∨
    ∃ v' f' served, RingInv s st'.view v' f' ∧ PosOk s st'.view v' layer φ ∧
      Turn s st st' layer v f v' f' served ∧
      served + st'.caller.inGet = st.caller.inGet + called

theorem Moves.walks {called layer : Nat} {φ : Phase} (h : Moves s st st' v f called layer φ) :
    Walks s st' layer φ := by
  rcases h with hstop | ⟨v', f', _, hr, hp, _⟩
  · exact Or.inl hstop
  · exact Or.inr ⟨v', f', hr, hp⟩

/-- A `get` that returns NULL stops the walk. -/
theorem returns_none_moves (st₀ : State) (b called layer : Nat) (φ : Phase) :
    Moves s st (st₀.returns b none) v f called layer φ :=
  Or.inl ⟨rfl, rfl⟩

/-- Taking a slot does not touch the pinned blocks. -/
theorem takeSlot_pins (hinv : Core s st) : ∀ b < s.npin, (st.takeSlot s).slotOf b = st.slotOf b := by
  intro b hb
  unfold State.takeSlot
  cases hold : st.blockOf st.ring with
  | none => rfl
  | some old =>
      have hpin := (hinv.index _ _ hold).2.1
      exact Function.update_of_ne (by omega) _ _

/-- Nor does publishing an unpinned one. -/
theorem publish_pins {b₀ : Nat} (hb₀ : s.npin ≤ b₀) (slot : Nat) :
    ∀ b < s.npin, (st.publish b₀ slot).slotOf b = st.slotOf b := by
  intro b hb
  exact Function.update_of_ne (by omega) _ _

/-- A pinned block is handed out: the ring does not notice. -/
theorem RingInv.returns_pinned (h : RingInv s st.view v f) (hload : st.caller.loading = none) {b : Nat}
    (hb : b < s.npin) (p : BlockPtr) : RingInv s (st.returns b (some p)).view v f := by
  refine h.keep rfl rfl rfl rfl rfl hload.symm fun e he hpin => ?_
  rcases List.mem_cons.mp he with rfl | he
  · exact absurd hb (Nat.not_lt.mpr hpin)
  · exact he

theorem enterGet_moves {layer : Nat} (hidle : st.caller = .idle) (hr : RingInv s st.view v f)
    (hp : PosOk s st.view v layer .get) : Moves s st (enterGet s st layer) v f 1 layer .prefetch := by
  obtain ⟨hlt, hpin, hring, -, -⟩ := hp
  have hload : st.caller.loading = none := by rw [hidle]; rfl
  have hzero : st.caller.inGet = 0 := by rw [hidle]; rfl
  -- whatever the `get` does first, the ring is not asked for a slot
  have hpend : ∀ st' : State, st'.io = st.io → st'.caller.loading = none →
      (st'.view.Pending ↔ st.view.Pending) := fun st' hio hl => by
    simp only [View.Pending, State.view, hio, hl, hload]
  unfold enterGet
  rw [if_neg (by omega), Int.toNat_natCast]
  split_ifs with hin
  · -- a pinned block: nothing in the ring moves
    have hpos : ∀ r' : View, r'.getting = none → r'.requesting = none →
        PosOk s r' v layer .prefetch := fun r' hg hq => by
      refine ⟨hlt, hpin, hq, ?_⟩
      rw [hg]
      exact fun h => absurd hin (Nat.not_lt.mpr h)
    cases hres : st.slotOf layer with
    | none =>
        exact Or.inr ⟨v, f, 0, hr.keep rfl rfl rfl rfl rfl hload.symm fun e he _ => he, hpos _ rfl rfl,
          .quiet rfl rfl (hpend _ rfl rfl) fun _ _ => rfl, by rw [hzero]; rfl⟩
    | some slot =>
        have hr' : RingInv s { st with hits := st.hits + 1 }.view v f :=
          hr.keep rfl rfl rfl rfl rfl rfl fun e he _ => he
        exact Or.inr ⟨v, f, 1, hr'.returns_pinned hload hin _, hpos _ rfl rfl,
          .pinHit rfl rfl (hpend _ rfl rfl) hin (by simp [hres]) fun _ _ => rfl, by rw [hzero]; rfl⟩
  · refine Or.inr ⟨v, f, 0, hr.keep rfl rfl rfl rfl rfl hload.symm fun e he _ => (List.mem_filter.mp he).1,
      ?_, .quiet rfl rfl (hpend _ rfl rfl) fun _ _ => rfl, by rw [hzero]; rfl⟩
    exact ⟨hlt, fun h => absurd h hin, rfl, rfl, hring (by omega)⟩

/-- With nothing asked for, the walk stands at its next block. -/
theorem PosOk.idle_next {layer : Nat} (hidle : st.caller = .idle)
    (hp : PosOk s st.view v layer .prefetch) : PosOk s st.view v ((layer + 1) % s.nblocks) .get := by
  have hget : st.view.getting = none := by simp [State.view, hidle, CallerPc.getting]
  obtain ⟨hlt, hpin, hring⟩ := hp.next hget
  exact ⟨hlt, hpin, hring, hget, fun b' hb' => by
    simp [State.view, hidle, CallerPc.requesting] at hb'⟩

theorem enterPrefetch_moves {w : Walk} {b : Int} (hphase : w.phase = .prefetch)
    (hidle : w.st.caller = .idle) (hb : Call.prefetch b ∈ w.calls s)
    (hr : RingInv s w.st.view v f) (hp : PosOk s w.st.view v w.layer .prefetch) :
    Moves s w.st (enterPrefetch s w.st b) v f 0 ((w.layer + 1) % s.nblocks) .get := by
  obtain ⟨hlt, hpin, hring, -, -⟩ := hp.idle_next hidle
  have hzero : w.st.caller.inGet = 0 := by rw [hidle]; rfl
  -- the hint is the walk's next block, or out of range
  have hhint : b = ((w.layer + 1) % s.nblocks : Nat) ∨ b = s.nblocks := by
    simp only [Walk.calls, hphase] at hb
    split_ifs at hb with hlast
    · simp only [List.mem_singleton, Call.prefetch.injEq] at hb
      exact Or.inl (by rw [Nat.mod_eq_of_lt hlast]; exact hb)
    · simp only [List.mem_cons, Call.prefetch.injEq, List.not_mem_nil, or_false] at hb
      rcases hb with rfl | rfl
      · have hwrap : w.layer + 1 = s.nblocks := by
          have := hp.1
          omega
        exact Or.inl (by rw [hwrap, Nat.mod_self]; rfl)
      · exact Or.inr rfl
  have hkeep : Moves s w.st w.st v f 0 ((w.layer + 1) % s.nblocks) .get :=
    Or.inr ⟨v, f, 0, hr, hp.idle_next hidle, .quiet rfl rfl Iff.rfl fun _ _ => rfl, by omega⟩
  unfold enterPrefetch
  split_ifs with hrange hin hio
  · exact hkeep
  · exact hkeep
  · exact hkeep
  · cases w.st.findSlot s b.toNat with
    | some slot => exact hkeep
    | none =>
        have hb' : b.toNat = (w.layer + 1) % s.nblocks := by omega
        have hload : w.st.caller.loading = none := by rw [hidle]; rfl
        refine Or.inr ⟨v, f, 0, hr.keep rfl rfl rfl rfl rfl hload.symm fun e he _ => he, ?_,
          .quiet rfl rfl (by simp only [View.Pending, State.view, hload]; rfl) fun _ _ => rfl,
          by rw [hzero]; rfl⟩
        refine ⟨hlt, hpin, hring, rfl, fun b₁ hb₁ => ?_⟩
        rw [← Option.some.inj (show some b.toNat = some b₁ from hb₁), hb']
        exact hring (by omega)

theorem getting_inGet {b : Nat} (h : st.caller.getting = some b) : st.caller.inGet = 1 := by
  cases hpc : st.caller with
  | idle => simp [hpc, CallerPc.getting] at h
  | pinLoad b job => simp [hpc, CallerPc.getting] at h
  | request b => simp [hpc, CallerPc.getting] at h
  | collect b => rfl
  | waiting b => rfl
  | scan b => rfl
  | ringLoad b slot job => rfl

theorem collectDone_moves (hinv : Inv s st) (hwf : WF s) {layer b : Nat} {φ : Phase}
    (hr : RingInv s st.view v f) (hp : PosOk s st.view v layer φ) (hget : st.caller.getting = some b)
    (hnl : st.NoRingLive s) (hd : st.io.done = true) :
    Moves s st (collectDone s st b) v f 0 layer φ := by
  unfold collectDone
  cases hres : st.io.result with
  | false =>
      simp only [Bool.false_eq_true, if_false]
      exact returns_none_moves _ b 0 layer φ
  | true =>
      simp only [if_true]
      obtain ⟨-, hbl, hb, -⟩ := hp.getting hget
      have ho : st.view.outstanding = true := view_outstanding.mpr (Or.inr hd)
      have hbusy := hinv.busy_false hd
      have hpin : s.npin ≤ b := hb ▸ Nat.le_add_right _ _
      have hfree : ¬ (({ (st.publish b st.io.slot) with io := { st.io with done := false } }.returns b
          (some (State.slotPtr s { (st.publish b st.io.slot) with io := { st.io with done := false } } b
            st.io.slot))).view.Pending) := by
        rintro (h | h)
        · simp [State.view, State.returns, State.publish, hbusy] at h
        · exact h rfl
      refine Or.inr ⟨v + 1, f, 1, ?_, hp.returned hget rfl rfl,
        .landed rfl rfl (Or.inl ho) hfree (hbl ▸ hb) (publish_pins hpin _), by rw [getting_inGet hget]; rfl⟩
      refine hr.collect hwf.nslot_pos (Or.inl ho) hfree rfl ?_ ?_
      · have hslot : st.io.slot = (f - 1) % s.nslot := (hr.request ho).1
        rw [← hslot, ← hb]
        rfl
      · rw [← hb]
        exact live_returned hnl

theorem scanRing_moves (hinv : Inv s st) {layer b : Nat} {φ : Phase}
    (hr : RingInv s st.view v f) (hp : PosOk s st.view v layer φ) (hpc : st.caller = .scan b) :
    Moves s st (scanRing s st b) v f 0 layer φ := by
  have hc := hinv.caller
  simp only [CallerOk, hpc] at hc
  obtain ⟨hpin, hlt, hnl, hio⟩ := hc
  have hget : st.view.getting = some b := by simp [State.view, hpc, CallerPc.getting]
  obtain ⟨rfl, hbl, hb, hlay⟩ := hp.getting hget
  have hno : ¬ st.view.Pending := by
    rintro (ho | hl)
    · exact hio (view_outstanding.mp ho) ((hr.request ho).2.trans hb.symm)
    · exact hl (by simp [State.view, hpc, CallerPc.loading])
  have hout : st.view.outstanding = false := by
    cases h : st.view.outstanding with
    | false => rfl
    | true => exact absurd (Or.inl h) hno
  unfold scanRing
  cases hf : st.findSlot s b with
  | some slot =>
      have hslot : st.view.blockOf slot = some (ringBlock s v) := hb ▸ (findSlot_some hf).2
      have hfree : ¬ ({ st with hits := st.hits + 1 }.returns b (some (st.slotPtr s b slot))).view.Pending := by
        rintro (h | h)
        · exact absurd (h.symm.trans hout) (by simp)
        · exact h rfl
      refine Or.inr ⟨v + 1, f, 1, ?_, hp.returned hget rfl rfl,
        .hit rfl rfl hno hfree hslot (hbl ▸ hb) fun _ _ => rfl, by rw [hpc]; rfl⟩
      exact hr.hit hno hfree hslot rfl rfl (hb ▸ live_returned hnl)
  | none =>
      have hmiss : ∀ slot, st.view.blockOf slot ≠ some (ringBlock s v) := fun slot hs => by
        rw [← hb] at hs
        exact findSlot_none hf (hinv.index slot b hs).1 hs
      refine Or.inr ⟨v, f + 1, 0, hr.take hno hmiss rfl rfl rfl (Or.inr ⟨hout, rfl⟩), ?_,
        .taken rfl rfl hno (by omega) hmiss (Or.inr (by simp [State.view, CallerPc.loading]))
          (takeSlot_pins hinv.toCore),
        by rw [hpc]; rfl⟩
      exact hp.keep hget.symm (by simp [State.view, hpc, CallerPc.requesting])

theorem issueRequest_moves (hinv : Inv s st) (hwf : WF s) {layer b : Nat} {φ : Phase}
    (hr : RingInv s st.view v f) (hp : PosOk s st.view v layer φ) (hpc : st.caller = .request b) :
    Moves s st (issueRequest s st b) v f 0 layer φ := by
  have hc := hinv.caller
  simp only [CallerOk, hpc] at hc
  have hreq : st.view.requesting = some b := by simp [State.view, hpc, CallerPc.requesting]
  have hload : st.caller.loading = none := by rw [hpc]; rfl
  obtain ⟨-, hb⟩ := hp.requesting hreq
  unfold issueRequest
  split_ifs with hskip
  · exact Or.inr ⟨v, f, 0, hr.keep rfl rfl rfl rfl rfl hload.symm fun e he _ => he,
      hp.requested hreq rfl rfl,
      .quiet rfl rfl (by simp only [View.Pending, State.view, hload]; rfl) fun _ _ => rfl, by rw [hpc]; rfl⟩
  · have hno : ¬ st.view.Pending := by
      rintro (ho | hl)
      · rcases view_outstanding.mp ho with h | h
        · exact hskip (Or.inl h)
        · exact hskip (Or.inr (Or.inl h))
      · exact hl hload
    have hmiss : ∀ slot, st.view.blockOf slot ≠ some (ringBlock s v) := fun slot hs => by
      rw [← hb] at hs
      exact hskip (Or.inr (Or.inr (by rw [(hinv.index slot b hs).2.2.2]; rfl)))
    exact Or.inr ⟨v, f + 1, 0,
      hr.take hno hmiss rfl rfl rfl (Or.inl ⟨rfl, rfl, hb, rfl, hwf.two_slots hc.2.2⟩),
      hp.requested hreq rfl rfl,
      .taken rfl rfl hno (by omega) hmiss (Or.inl rfl) (takeSlot_pins hinv.toCore), by rw [hpc]; rfl⟩

theorem callerStep_moves (hinv : Inv s st) (hwf : WF s) {layer : Nat} {φ : Phase}
    (hr : RingInv s st.view v f) (hp : PosOk s st.view v layer φ)
    (hs : callerStep s st = some st') : Moves s st st' v f 0 layer φ := by
  have hc := hinv.caller
  unfold callerStep at hs
  cases hpc : st.caller with
  | idle => simp [hpc] at hs
  | pinLoad b job =>
      simp only [hpc] at hs
      simp only [CallerOk, hpc] at hc
      split_ifs at hs with hok <;> obtain rfl := Option.some.inj hs
      · have hload : st.caller.loading = none := by rw [hpc]; rfl
        refine Or.inr ⟨v, f, 1, ?_, hp.keep ?_ ?_,
          .pinMiss rfl rfl (by simp only [View.Pending, State.view, hload]; rfl) hc.1 hpc hc.2.1 rfl,
          by rw [hpc]; rfl⟩
        -- a pinned block is not in the ring; its load moves no position
        · refine RingInv.returns_pinned ?_ hload hc.1 _
          exact hr.keep rfl rfl rfl rfl rfl rfl fun e he _ => he
        · simp [State.view, State.returns, hpc, CallerPc.getting]
        · simp [State.view, State.returns, hpc, CallerPc.requesting]
      · exact returns_none_moves _ b 0 layer φ
  | collect b =>
      simp only [hpc] at hs
      simp only [CallerOk, hpc] at hc
      have hget : st.caller.getting = some b := by rw [hpc]; rfl
      have hload : st.caller.loading = none := by rw [hpc]; rfl
      have hreq : st.caller.requesting = none := by rw [hpc]; rfl
      split_ifs at hs with hmine hdone <;> obtain rfl := Option.some.inj hs
      · exact collectDone_moves hinv hwf hr hp hget hc.2.2 hdone
      · exact Or.inr ⟨v, f, 0, hr.keep rfl rfl rfl rfl rfl hload.symm fun e he _ => he,
          hp.keep hget.symm hreq.symm,
          .quiet rfl rfl (by simp only [View.Pending, State.view, hload]; rfl) fun _ _ => rfl,
          by rw [hpc]; rfl⟩
      · exact Or.inr ⟨v, f, 0, hr.keep rfl rfl rfl rfl rfl hload.symm fun e he _ => he,
          hp.keep hget.symm hreq.symm,
          .quiet rfl rfl (by simp only [View.Pending, State.view, hload]; rfl) fun _ _ => rfl,
          by rw [hpc]; rfl⟩
  | waiting b =>
      simp only [hpc] at hs
      simp only [CallerOk, hpc] at hc
      have hget : st.caller.getting = some b := by rw [hpc]; rfl
      split_ifs at hs with hdone
      obtain rfl := Option.some.inj hs
      exact collectDone_moves hinv hwf hr hp hget hc.2.2.1 hdone
  | scan b =>
      simp only [hpc] at hs
      obtain rfl := Option.some.inj hs
      exact scanRing_moves hinv hr hp hpc
  | ringLoad b slot job =>
      simp only [hpc] at hs
      simp only [CallerOk, hpc] at hc
      have hget : st.view.getting = some b := by simp [State.view, hpc, CallerPc.getting]
      have hload : st.view.loading = some slot := by simp [State.view, hpc, CallerPc.loading]
      obtain ⟨-, hbl, hb, -⟩ := hp.getting hget
      obtain ⟨hslot, hout⟩ := hr.load slot hload
      -- the load that was pending lands in the slot it was issued for
      have hpend : st.view.Pending := Or.inr (by simp [hload])
      split_ifs at hs with hok <;> obtain rfl := Option.some.inj hs
      · have hfree : ∀ st₁ : State, st₁.view.outstanding = st.view.outstanding → st₁.caller = .idle →
            ¬ st₁.view.Pending := by
          rintro st₁ ho hidle (h | h)
          · exact absurd ((ho.symm.trans h).symm.trans hout) (by simp)
          · exact h (by simp [State.view, hidle, CallerPc.loading])
        refine Or.inr ⟨v + 1, f, 1, ?_, hp.returned hget rfl rfl,
          .landed rfl rfl hpend (hfree _ rfl rfl) (hbl ▸ hb) (publish_pins hc.1 _), by rw [hpc]; rfl⟩
        refine hr.collect hwf.nslot_pos hpend (hfree _ rfl rfl) rfl ?_ ?_
        · rw [← hslot, ← hb]
          rfl
        · rw [← hb]
          exact live_returned hc.2.2.1
      · exact returns_none_moves _ b 0 layer φ
  | request b =>
      simp only [hpc] at hs
      obtain rfl := Option.some.inj hs
      exact issueRequest_moves hinv hwf hr hp hpc

/-- What a turn counts. -/
def State.counts (st : State) : Nat × Nat × (Nat → Option Nat) × Nat :=
  (st.hits, st.misses, st.slotOf, st.caller.inGet)

/-- A step that shows in neither is no turn. -/
theorem Moves.of_view {layer : Nat} {φ : Phase} (hr : RingInv s st.view v f)
    (hp : PosOk s st.view v layer φ) (hview : st'.view = st.view) (hcounts : st'.counts = st.counts) :
    Moves s st st' v f 0 layer φ := by
  simp only [State.counts, Prod.mk.injEq] at hcounts
  obtain ⟨hhits, hmisses, hslotOf, hin⟩ := hcounts
  refine Or.inr ⟨v, f, 0, by rw [hview]; exact hr, by rw [hview]; exact hp,
    .quiet hhits hmisses (by rw [hview]) fun b _ => congrFun hslotOf b, ?_⟩
  omega

/-- Reads in progress, the caller's or the reader's, are not visible to the walk. -/
theorem callerPread_view {n : Nat} (hs : callerPread s st n = some st') :
    st'.view = st.view ∧ st'.counts = st.counts := by
  unfold callerPread at hs
  cases hpc : st.caller with
  | pinLoad b job =>
      simp only [hpc] at hs
      split_ifs at hs
      obtain rfl := Option.some.inj hs
      simp [State.view, State.counts, hpc, CallerPc.getting, CallerPc.loading, CallerPc.requesting,
        CallerPc.inGet]
  | ringLoad b slot job =>
      simp only [hpc] at hs
      split_ifs at hs
      obtain rfl := Option.some.inj hs
      simp [State.view, State.counts, hpc, CallerPc.getting, CallerPc.loading, CallerPc.requesting,
        CallerPc.inGet]
  | idle => simp [hpc] at hs
  | collect b => simp [hpc] at hs
  | waiting b => simp [hpc] at hs
  | scan b => simp [hpc] at hs
  | request b => simp [hpc] at hs

theorem reader_view (hinv : Inv s st) {c : Choice} (hc : c = .reader ∨ ∃ n, c = .readerPread n)
    (hs : step s st c = some st') :
    st'.view = st.view ∧ st'.caller = st.caller ∧ st'.ret = st.ret ∧ st'.counts = st.counts := by
  have hrd := hinv.reader
  rcases hc with rfl | ⟨n, rfl⟩
  · simp only [step, readerStep] at hs
    cases hpc : st.reader with
    | idle =>
        simp only [hpc] at hs
        split_ifs at hs
        obtain rfl := Option.some.inj hs
        exact ⟨rfl, rfl, rfl, rfl⟩
    | reading slot job =>
        simp only [hpc] at hs
        split_ifs at hs <;> obtain rfl := Option.some.inj hs <;> exact ⟨rfl, rfl, rfl, rfl⟩
    | posting rc =>
        simp only [hpc] at hs
        simp only [ReaderOk, hpc] at hrd
        obtain rfl := Option.some.inj hs
        -- the request stays outstanding, from `busy` to `done`
        exact ⟨by simp [State.view, hrd.1], rfl, rfl, rfl⟩
  · simp only [step, readerPread] at hs
    cases hpc : st.reader with
    | idle => simp [hpc] at hs
    | posting rc => simp [hpc] at hs
    | reading slot job =>
        simp only [hpc] at hs
        split_ifs at hs
        obtain rfl := Option.some.inj hs
        exact ⟨rfl, rfl, rfl, rfl⟩

theorem walkStep_step {w w' : Walk} {c : Choice} (h : walkStep s w c = some w') :
    step s w.st c = some w'.st := by
  cases c with
  | call c =>
      simp only [walkStep] at h
      split_ifs at h
      obtain ⟨st, hst, rfl⟩ := Option.map_eq_some_iff.mp h
      rw [hst]
      unfold Walk.advance
      cases w.phase <;> rfl
  | caller | callerPread n | reader | readerPread n =>
      obtain ⟨st, hst, rfl⟩ := Option.map_eq_some_iff.mp h
      exact hst

/-- 1 for the step that enters a `get`. -/
def Choice.isGet : Choice → Nat
  | .call (.get _) => 1
  | _ => 0

/-- **One step of the walk, while it has not stopped.** -/
theorem walkStep_moves (hwf : WF s) {w w' : Walk} {c : Choice} (hinv : Inv s w.st)
    (hr : RingInv s w.st.view v f) (hp : PosOk s w.st.view v w.layer w.phase)
    (h : walkStep s w c = some w') : Moves s w.st w'.st v f c.isGet w'.layer w'.phase := by
  cases c with
  | call c =>
      simp only [walkStep] at h
      split_ifs at h with hgo
      obtain ⟨st, hst, rfl⟩ := Option.map_eq_some_iff.mp h
      simp only [step] at hst
      split_ifs at hst with hidle
      cases hphase : w.phase with
      | get =>
          have hc := hgo.2
          simp only [Walk.calls, hphase, List.mem_singleton] at hc
          subst hc
          obtain rfl := Option.some.inj hst
          rw [hphase] at hp
          simpa only [Walk.advance, hphase, Choice.isGet] using enterGet_moves hidle hr hp
      | prefetch =>
          have hc := hgo.2
          obtain ⟨b, rfl⟩ : ∃ b, c = .prefetch b := by
            simp only [Walk.calls, hphase] at hc
            split_ifs at hc
            · exact ⟨_, List.mem_singleton.mp hc⟩
            · rcases List.mem_cons.mp hc with hc | hc
              · exact ⟨_, hc⟩
              · exact ⟨_, List.mem_singleton.mp hc⟩
          obtain rfl := Option.some.inj hst
          rw [hphase] at hp
          simpa only [Walk.advance, hphase, Choice.isGet] using enterPrefetch_moves hphase hidle hc hr hp
  | caller =>
      obtain ⟨st, hst, rfl⟩ := Option.map_eq_some_iff.mp h
      exact callerStep_moves hinv hwf hr hp hst
  | callerPread n =>
      obtain ⟨st, hst, rfl⟩ := Option.map_eq_some_iff.mp h
      obtain ⟨hview, hcounts⟩ := callerPread_view hst
      exact .of_view hr hp hview hcounts
  | reader =>
      obtain ⟨st, hst, rfl⟩ := Option.map_eq_some_iff.mp h
      obtain ⟨hview, -, -, hcounts⟩ := reader_view hinv (Or.inl rfl) hst
      exact .of_view hr hp hview hcounts
  | readerPread n =>
      obtain ⟨st, hst, rfl⟩ := Option.map_eq_some_iff.mp h
      obtain ⟨hview, -, -, hcounts⟩ := reader_view hinv (Or.inr ⟨n, rfl⟩) hst
      exact .of_view hr hp hview hcounts

/-- **A walk that has stopped** stays as it is; only the reader is left to move. -/
theorem walkStep_stopped {w w' : Walk} {c : Choice} (hinv : Inv s w.st) (hstop : w.st.stopped = true)
    (hidle : w.st.caller = .idle) (h : walkStep s w c = some w') :
    Clear s w.st c ∧ w'.st.stopped = true ∧ w'.st.caller = .idle := by
  have hstep := walkStep_step h
  have hreader : c = .reader ∨ (∃ n, c = .readerPread n) →
      Clear s w.st c ∧ w'.st.stopped = true ∧ w'.st.caller = .idle := fun hc => by
    obtain ⟨-, hcaller, hret, -⟩ := reader_view hinv hc hstep
    refine ⟨by rcases hc with rfl | ⟨n, rfl⟩ <;> trivial, ?_, hcaller.trans hidle⟩
    unfold State.stopped
    rw [hret]
    exact hstop
  cases c with
  | call c =>
      simp only [walkStep] at h
      rw [if_neg (by simp [hstop])] at h
      cases h
  | caller => simp [step, callerStep, hidle] at hstep
  | callerPread n => simp [step, callerPread, hidle] at hstep
  | reader => exact hreader (Or.inl rfl)
  | readerPread n => exact hreader (Or.inr ⟨n, rfl⟩)

/-- **One step of the walk.** -/
theorem walkStep_walks (hwf : WF s) {w w' : Walk} {c : Choice} (hinv : Inv s w.st)
    (hw : Walks s w.st w.layer w.phase) (h : walkStep s w c = some w') :
    Inv s w'.st ∧ Walks s w'.st w'.layer w'.phase := by
  have hstep := walkStep_step h
  rcases hw with ⟨hstop, hidle⟩ | ⟨v, f, hr, hp⟩
  · obtain ⟨hclear, hstop'⟩ := walkStep_stopped hinv hstop hidle h
    exact ⟨step_inv hwf hinv hclear hstep, Or.inl hstop'⟩
  · exact ⟨step_inv hwf hinv (walk_clear hwf hinv hr hp c) hstep,
      (walkStep_moves hwf hinv hr hp h).walks⟩

theorem init_ringInv (mem : Buf → Nat → UInt8) : RingInv s (State.init mem).view 0 0 := by
  have hno : ¬ (State.init mem).view.Pending := by
    rintro (h | h)
    · simp [State.view, State.init] at h
    · exact h rfl
  refine ⟨?_, ?_, ?_, ?_, ?_, ?_, ?_, ?_, ?_⟩
  · exact (Nat.zero_mod _).symm
  · exact fun j hj => absurd hj (Nat.not_lt_zero j)
  · exact fun slot b hb => by simp [State.view, State.init] at hb
  · exact fun hp => absurd hp hno
  · exact fun ho => absurd (Or.inl ho) hno
  · exact fun slot hl => absurd (Or.inr (by simp [hl])) hno
  · exact fun _ => Or.inr ⟨hno, rfl⟩
  · exact fun hv => absurd hv (Nat.lt_irrefl 0)
  · exact fun e he => by simp [State.view, State.init] at he

theorem init_posOk (hwf : WF s) (mem : Buf → Nat → UInt8) :
    PosOk s (State.init mem).view 0 0 .get := by
  refine ⟨hwf.nonempty, fun _ => Nat.zero_mod _, fun h => ?_, rfl, fun b hb => ?_⟩
  · simp only [ringBlock, Nat.zero_mod]
    omega
  · simp [State.view, State.init, CallerPc.requesting] at hb

theorem init_walks (hwf : WF s) (mem : Buf → Nat → UInt8) : Walks s (State.init mem) 0 .get :=
  Or.inr ⟨0, 0, init_ringInv mem, init_posOk hwf mem⟩

end LlmEngine.Storage.Streamer
