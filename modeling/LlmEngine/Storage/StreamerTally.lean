/-
# LlmEngine.Storage.StreamerTally — the hits and misses of a cyclic scan.

A scan is the layer walk with the hint left out wherever the caller likes, and a count of the gets it
has entered.  `get` number `n` (from 0) is for block `n % nblocks`.  It is a hit exactly when it is
not in the first pass and its block is pinned, or the streamed blocks all have a slot (`Repeats`):
the window of `StreamerWalk` then either never holds the next block or, from the second pass on,
always does.  A miss is counted where the bytes move, by the reader or by the caller, once a block.

* `Tally` relates the counters to the number of gets served, with the number of slots taken beside it;
  `Turn.tally` is its step, by the kinds of turn of the walk.
* `AtGet` is where the walk stands when `n` gets have been served; `walkStep_atGet` is its step, by the choices.
* `Scans` puts the two and the window together, and `scanStep_scans` is the step of the scan.

`scan_hit_rate` is the exact figure after any number of complete passes, whatever the interleaving and whichever
hints were given.  With everything pinned, no read is under way from the second pass on (`scan_rests`).
-/
import LlmEngine.Storage.StreamerSafe
import Mathlib.Data.Nat.Count

namespace LlmEngine.Storage.Streamer

open LlmEngine.Storage LlmEngine.Lib

/-! ## The scan -/

/-- A walk and the gets it has entered. -/
structure Scan where
  walk : Walk
  gets : Nat

def Scan.init (mem : Buf → Nat → UInt8) : Scan := { walk := Walk.init mem, gets := 0 }

inductive Move where
  | choice (c : Choice)
  /-- the caller goes on without a hint -/
  | skip
  deriving DecidableEq, Repr

def scanStep (s : EngStreamer) (x : Scan) : Move → Option Scan
  | .choice c => (walkStep s x.walk c).map fun w => { walk := w, gets := x.gets + c.isGet }
  | .skip =>
      if x.walk.phase = .prefetch ∧ x.walk.st.caller = .idle ∧ x.walk.st.stopped = false then
        some { x with walk := x.walk.advance s x.walk.st }
      else none

/-! ## What is expected -/

section Expected

variable (s : EngStreamer)

/-- `get` number `n` finds its block. -/
def Repeats (n : Nat) : Prop :=
  s.nblocks ≤ n ∧ (n % s.nblocks < s.npin ∨ s.nblocks - s.npin ≤ s.nslot)

instance : DecidablePred (Repeats s) := fun _ => inferInstanceAs (Decidable (_ ∧ _))

/-- How many of the first `n` gets are for unpinned blocks. -/
def ringGets (n : Nat) : Nat := n / s.nblocks * (s.nblocks - s.npin) + (n % s.nblocks - s.npin)

/-- How many slots have been taken when `v` unpinned gets have returned and none is pending. -/
def fetched (v : Nat) : Nat :=
  if s.nblocks - s.npin ≤ s.nslot then min v (s.nblocks - s.npin) else v

variable {s}

theorem ringGets_succ (hwf : WF s) (n : Nat) :
    ringGets s (n + 1) = ringGets s n + if n % s.nblocks < s.npin then 0 else 1 := by
  have hlt := Nat.mod_lt n hwf.nonempty
  have hle := hwf.npin_le
  unfold ringGets
  by_cases hlast : n % s.nblocks + 1 = s.nblocks
  · -- the pass ends here
    have hmod : (n + 1) % s.nblocks = 0 := by
      rw [Nat.add_mod, Nat.add_mod_mod, hlast, Nat.mod_self]
    have hdiv : (n + 1) / s.nblocks = n / s.nblocks + 1 := by
      rw [Nat.succ_div, if_pos (Nat.dvd_of_mod_eq_zero hmod)]
    rw [hmod, hdiv, Nat.add_mul, one_mul, Nat.zero_sub]
    split_ifs <;> omega
  · have hmod : (n + 1) % s.nblocks = n % s.nblocks + 1 := by
      rw [Nat.add_mod, Nat.add_mod_mod]
      exact Nat.mod_eq_of_lt (by omega)
    have hdiv : (n + 1) / s.nblocks = n / s.nblocks := by
      rw [Nat.succ_div, if_neg fun hd => by have := Nat.mod_eq_zero_of_dvd hd; omega, Nat.add_zero]
    rw [hmod, hdiv]
    split_ifs <;> omega

/-- An unpinned get is in the first pass exactly when its number among them is. -/
theorem ringGets_lt_iff (hwf : WF s) {n : Nat} (h : s.npin ≤ n % s.nblocks) :
    ringGets s n < s.nblocks - s.npin ↔ n < s.nblocks := by
  have hlt := Nat.mod_lt n hwf.nonempty
  unfold ringGets
  constructor
  · intro hless
    by_contra hge
    have hdiv : 1 ≤ n / s.nblocks := (Nat.one_le_div_iff hwf.nonempty).mpr (not_lt.mp hge)
    have hmul := Nat.mul_le_mul_right (s.nblocks - s.npin) hdiv
    omega
  · intro hless
    rw [Nat.div_eq_of_lt hless, Nat.mod_eq_of_lt hless] at *
    omega

end Expected

/-! ## The tally -/

/-- **The tally** after `n` gets have been served. -/
structure Tally (s : EngStreamer) (st : State) (n v f : Nat) : Prop where
  hits : st.hits = Nat.count (Repeats s) n
  total : st.hits + st.misses = n
  /-- a pinned block stays once it was got -/
  pins : ∀ b < s.npin, st.slotOf b ≠ none ↔ b < n
  unpinned : v = ringGets s n
  free : ¬ st.view.Pending → f = fetched s v
  pending : st.view.Pending →
    f = fetched s v + 1 ∧ (s.nblocks - s.npin ≤ s.nslot → v < s.nblocks - s.npin)

section Window

variable {s : EngStreamer} {st st' : State} {r : View} {layer n v f : Nat}

/-- With a slot for every streamed block, a block that is absent was not met before. -/
theorem RingInv.absent_first (h : RingInv s r v f) (hno : ¬ r.Pending) (hf : f = fetched s v)
    (hstreams : s.npin < s.nblocks) (habsent : ∀ slot, r.blockOf slot ≠ some (ringBlock s v))
    (hroom : s.nblocks - s.npin ≤ s.nslot) : v < s.nblocks - s.npin := by
  by_contra hge
  have hpos : 0 < s.nblocks - s.npin := by omega
  have hlt := Nat.mod_lt v hpos
  rw [fetched, if_pos hroom, min_eq_right (not_lt.mp hge)] at hf
  have hwin := h.window (v % (s.nblocks - s.npin)) (by omega) (by omega) fun hp => absurd hp hno
  apply habsent _
  rw [hwin]
  simp [ringBlock]

/-- A block that is found was met before, and the streamed blocks all have a slot. -/
theorem RingInv.found_again (h : RingInv s r v f) (hf : f = fetched s v) {slot : Nat} (hfound : r.blockOf slot = some (ringBlock s v)) :
    s.nblocks - s.npin ≤ s.nslot ∧ s.nblocks - s.npin ≤ v := by
  obtain ⟨j, hj, hwin, -, hblk⟩ := h.found _ _ hfound
  have hmod : v % (s.nblocks - s.npin) = j % (s.nblocks - s.npin) := Nat.add_left_cancel hblk
  unfold fetched at hf
  split_ifs at hf with hroom
  · refine ⟨hroom, ?_⟩
    by_contra hless
    rw [Nat.mod_eq_of_lt (by omega), Nat.mod_eq_of_lt (by omega)] at hmod
    omega
  · exact absurd hmod.symm (mod_ne_of_lt_add (by omega) (by omega))

/-- A load that landed was not in the ring before: the first get of its block, or of one the ring had dropped. -/
theorem Tally.landed_new (h : Tally s st n v f) (hwf : WF s) (hpending : st.view.Pending) (hring : s.npin ≤ n % s.nblocks) :
    ¬ Repeats s n := by
  obtain ⟨-, hfirst⟩ := h.pending hpending
  rintro ⟨hge, hin | hroom⟩
  · omega
  · have hless := hfirst hroom
    rw [h.unpinned, ringGets_lt_iff hwf hring] at hless
    omega

/-- What is found resident in the ring was got on an earlier round. -/
theorem Tally.found_repeats (h : Tally s st n v f) (hwf : WF s) (hr : RingInv s st.view v f) (hno : ¬ st.view.Pending) {slot : Nat}
    (hfound : st.view.blockOf slot = some (ringBlock s v)) (hring : s.npin ≤ n % s.nblocks) : Repeats s n := by
  obtain ⟨hroom, hagain⟩ := hr.found_again (h.free hno) hfound
  refine ⟨?_, .inr hroom⟩
  by_contra hless
  have hfirst := (ringGets_lt_iff hwf hring).mpr (not_le.mp hless)
  rw [← h.unpinned] at hfirst
  omega

/-- So was a pinned block that is there. -/
theorem Tally.pin_repeats (h : Tally s st n v f) (hpinned : n % s.nblocks < s.npin) (hthere : st.slotOf (n % s.nblocks) ≠ none) :
    Repeats s n := by
  have hbefore := (h.pins _ hpinned).mp hthere
  refine ⟨?_, .inl hpinned⟩
  by_contra hless
  rw [Nat.mod_eq_of_lt (not_le.mp hless)] at hbefore
  omega

/-- A pinned block misses once, on the first round. -/
theorem Tally.pin_first (h : Tally s st n v f) (hpinned : n % s.nblocks < s.npin) (habsent : st.slotOf (n % s.nblocks) = none) :
    n % s.nblocks = n := by
  have hnew : ¬ n % s.nblocks < n := fun hb => (h.pins _ hpinned).mpr hb habsent
  have hmod := Nat.mod_le n s.nblocks
  omega

/-- A get from the ring is of no pinned block. -/
theorem lt_succ_of_ring (hring : s.npin ≤ n % s.nblocks) {b : Nat} (hb : b < s.npin) : b < n ↔ b < n + 1 := by
  have hmod := Nat.mod_le n s.nblocks
  constructor
  · exact fun hlt => Nat.lt_succ_of_lt hlt
  · intro
    omega

/-- **A get from the ring** adds to the tally what it found. -/
theorem Tally.ring (h : Tally s st n v f) (hwf : WF s) (hring : s.npin ≤ n % s.nblocks)
    (hhits : st'.hits = st.hits + if Repeats s n then 1 else 0) (htotal : st'.hits + st'.misses = st.hits + st.misses + 1)
    (hpins : ∀ b < s.npin, st'.slotOf b ≠ none ↔ st.slotOf b ≠ none) {f' : Nat} (hf : f' = fetched s (v + 1))
    (hno : ¬ st'.view.Pending) : Tally s st' (n + 1) (v + 1) f' := by
  refine ⟨?_, by rw [htotal, h.total], fun b hb => ?_, ?_, fun _ => hf, fun hp => absurd hp hno⟩
  · rw [hhits, h.hits, Nat.count_succ]
  · rw [hpins b hb, h.pins b hb]
    exact lt_succ_of_ring hring hb
  · rw [ringGets_succ hwf, if_neg (not_lt.mpr hring), h.unpinned]

/-- **A get of a pinned block** does, and leaves the ring alone. -/
theorem Tally.pinned (h : Tally s st n v f) (hwf : WF s) (hpinned : n % s.nblocks < s.npin)
    (hhits : st'.hits = st.hits + if Repeats s n then 1 else 0) (htotal : st'.hits + st'.misses = st.hits + st.misses + 1)
    (hpins : ∀ b < s.npin, st'.slotOf b ≠ none ↔ b < n + 1) (hpending : st'.view.Pending ↔ st.view.Pending) :
    Tally s st' (n + 1) v f := by
  refine ⟨?_, by rw [htotal, h.total], hpins, ?_, fun hno => h.free fun hp => hno (hpending.mpr hp),
    fun hp => h.pending (hpending.mp hp)⟩
  · rw [hhits, h.hits, Nat.count_succ]
  · rw [ringGets_succ hwf, if_pos hpinned, h.unpinned, Nat.add_zero]

/-- **A turn keeps the tally.** -/
theorem Turn.tally {v' f' served : Nat} (hturn : Turn s st st' layer v f v' f' served) (hwf : WF s)
    (hr : RingInv s st.view v f) (h : Tally s st n v f) (hat : served = 1 → layer = n % s.nblocks)
    (hload : ∀ b job, st.caller = .pinLoad b job → b = layer) :
    Tally s st' (n + served) v' f' := by
  have hle := hwf.npin_le
  cases hturn with
  | quiet hits misses pending pins =>
      refine ⟨hits.trans h.hits, by rw [hits, misses]; exact h.total, fun b hb => ?_, h.unpinned, ?_, ?_⟩
      · rw [pins b hb]
        exact h.pins b hb
      · exact fun hno => h.free fun hp => hno (pending.mpr hp)
      · exact fun hp => h.pending (pending.mp hp)
  | taken hits misses free streams absent pending pins =>
      have hf := h.free free
      refine ⟨hits.trans h.hits, by rw [hits, misses]; exact h.total, fun b hb => ?_, h.unpinned, ?_, ?_⟩
      · rw [pins b hb]
        exact h.pins b hb
      · exact fun hno => absurd pending hno
      · exact fun _ => ⟨by rw [hf], hr.absent_first free hf streams absent⟩
  | landed hits misses pending free at_ pins =>
      obtain ⟨hf, hfirst⟩ := h.pending pending
      have hlayer := hat rfl
      have hring : s.npin ≤ n % s.nblocks := by
        rw [← hlayer, at_]
        exact Nat.le_add_right _ _
      refine h.ring hwf hring ?_ (by omega) (fun b hb => by rw [pins b hb]) ?_ free
      · rw [hits, if_neg (h.landed_new hwf pending hring)]
        rfl
      · unfold fetched at hf ⊢
        split_ifs at hf ⊢ with hroom
        · have hless := hfirst hroom
          omega
        · exact hf
  | hit hits misses free free' resident at_ pins =>
      have hf := h.free free
      have hlayer := hat rfl
      have hring : s.npin ≤ n % s.nblocks := by
        rw [← hlayer, at_]
        exact Nat.le_add_right _ _
      obtain ⟨hroom, hagain⟩ := hr.found_again hf resident
      refine h.ring hwf hring ?_ (by omega) (fun b hb => by rw [pins b hb]) ?_ free'
      · rw [hits, if_pos (h.found_repeats hwf hr free resident hring)]
      · rw [hf, fetched, fetched, if_pos hroom, if_pos hroom]
        omega
  | pinHit hits misses pending pinned resident pins =>
      obtain rfl := hat rfl
      have hagain := h.pin_repeats pinned resident
      refine h.pinned hwf pinned ?_ (by omega) (fun b hb => ?_) pending
      · rw [hits, if_pos hagain]
      · rw [pins b hb, h.pins b hb]
        have hge := hagain.1
        omega
  | @pinMiss b job hits misses pending pinned call absent slotOf =>
      obtain rfl := hload b job call
      obtain rfl := hat rfl
      have hfirst := h.pin_first pinned absent
      have hnot : ¬ Repeats s n := fun hrep => by
        have hge := hrep.1
        omega
      refine h.pinned hwf pinned ?_ (by omega) (fun b' hb' => ?_) pending
      · rw [hits, if_neg hnot]
        rfl
      · rw [slotOf, hfirst]
        by_cases hsame : b' = n
        · subst hsame
          simp only [Function.update_self, ne_eq, reduceCtorEq, not_false_eq_true, true_iff]
          omega
        · rw [Function.update_of_ne hsame, h.pins b' hb']
          omega

end Window

/-! ## The position of the scan -/

section Position

variable {s : EngStreamer} {w w' : Walk} {n : Nat}

/-- Where the walk stands when `n` gets have been served. -/
def AtGet (s : EngStreamer) (w : Walk) (n : Nat) : Prop :=
  (∀ b job, w.st.caller = .pinLoad b job → b = w.layer) ∧
    match w.phase with
    | .get => w.st.caller.inGet = 0 ∧ w.layer = n % s.nblocks
    | .prefetch =>
        w.st.caller.inGet = 1 ∧ w.layer = n % s.nblocks ∨
          w.st.caller.inGet = 0 ∧ 0 < n ∧ w.layer = (n - 1) % s.nblocks

/-- A step inside a call never starts the first read of a pinned block. -/
theorem callerStep_pinLoad {st st' : State} {b : Nat} {job : Job} (h : callerStep s st = some st') :
    st'.caller ≠ .pinLoad b job := by
  have hreturns : ∀ (st₀ : State) b₀ p, (st₀.returns b₀ p).caller ≠ .pinLoad b job := by
    intro st₀ b₀ p
    simp [State.returns]
  have hdone : ∀ b₀, (collectDone s st b₀).caller ≠ .pinLoad b job := by
    intro b₀
    unfold collectDone
    split_ifs
    · exact hreturns _ _ _
    · exact hreturns _ _ _
  unfold callerStep at h
  cases hpc : st.caller with
  | idle => simp [hpc] at h
  | pinLoad b₀ job₀ =>
      simp only [hpc] at h
      split_ifs at h <;> obtain rfl := Option.some.inj h <;> exact hreturns _ _ _
  | collect b₀ =>
      simp only [hpc] at h
      split_ifs at h <;> obtain rfl := Option.some.inj h
      · exact hdone b₀
      · simp
      · simp
  | waiting b₀ =>
      simp only [hpc] at h
      split_ifs at h
      obtain rfl := Option.some.inj h
      exact hdone b₀
  | scan b₀ =>
      simp only [hpc] at h
      obtain rfl := Option.some.inj h
      unfold scanRing
      cases st.findSlot s b₀ with
      | some slot => exact hreturns _ _ _
      | none => simp
  | ringLoad b₀ slot job₀ =>
      simp only [hpc] at h
      split_ifs at h <;> obtain rfl := Option.some.inj h <;> exact hreturns _ _ _
  | request b₀ =>
      simp only [hpc] at h
      obtain rfl := Option.some.inj h
      unfold issueRequest
      split_ifs <;> simp

/-- Nor does entering a call, but for the `get` of that block. -/
theorem step_call_pinLoad {st st' : State} {c : Call} {b : Nat} {job : Job}
    (h : step s st (.call c) = some st') (hcall : st'.caller = .pinLoad b job) : c = .get b := by
  simp only [step] at h
  split_ifs at h with hidle
  cases c with
  | get b₀ =>
      obtain rfl := Option.some.inj h
      unfold enterGet at hcall
      split_ifs at hcall with hrange hpin
      · simp [hidle] at hcall
      · cases hres : st.slotOf b₀.toNat with
        | none =>
            simp only [hres, CallerPc.pinLoad.injEq] at hcall
            have hb : b₀ = b := by omega
            rw [hb]
        | some slot => simp [hres, State.returns] at hcall
  | prefetch b₀ =>
      obtain rfl := Option.some.inj h
      unfold enterPrefetch at hcall
      cases hfind : st.findSlot s b₀.toNat <;> simp only [hfind] at hcall <;>
        split_ifs at hcall <;> simp [hidle] at hcall

/-- A chunk of a read leaves the caller inside the same read. -/
theorem callerPread_pinLoad {st st' : State} {r b : Nat} {job : Job}
    (h : callerPread s st r = some st') (hcall : st'.caller = .pinLoad b job) :
    ∃ job', st.caller = .pinLoad b job' := by
  unfold callerPread at h
  cases hpc : st.caller with
  | pinLoad b₀ job₀ =>
      simp only [hpc] at h
      split_ifs at h
      obtain rfl := Option.some.inj h
      simp only [CallerPc.pinLoad.injEq] at hcall
      exact ⟨job₀, by rw [hcall.1]⟩
  | ringLoad b₀ slot job₀ =>
      simp only [hpc] at h
      split_ifs at h
      obtain rfl := Option.some.inj h
      simp at hcall
  | idle => simp [hpc] at h
  | collect b₀ => simp [hpc] at h
  | waiting b₀ => simp [hpc] at h
  | scan b₀ => simp [hpc] at h
  | request b₀ => simp [hpc] at h

/-- The walk goes to its next layer without a call, or with a hint that serves nothing. -/
theorem AtGet.next (h : AtGet s w n) (hphase : w.phase = .prefetch)
    (hidle : w.st.caller.inGet = 0) : (w.layer + 1) % s.nblocks = n % s.nblocks := by
  obtain ⟨-, hplace⟩ := h
  rw [hphase] at hplace
  rcases hplace with ⟨hone, -⟩ | ⟨-, hn, hlayer⟩
  · omega
  · rw [hlayer, Nat.mod_add_mod, Nat.sub_add_cancel hn]

/-- After a `get` the position stays until the call has been served. -/
theorem AtGet.served (h : AtGet s w n) {served : Nat} (hserved : served + w'.st.caller.inGet = w.st.caller.inGet)
    (hphase : w'.phase = w.phase) (hlayer : w'.layer = w.layer) (hload : ∀ b job, w'.st.caller = .pinLoad b job → b = w.layer) :
    AtGet s w' (n + served) := by
  obtain ⟨-, hplace⟩ := h
  refine ⟨hlayer ▸ hload, ?_⟩
  rw [hphase, hlayer]
  cases hw : w.phase with
  | get =>
      simp only [hw] at hplace ⊢
      obtain ⟨hzero, hl⟩ := hplace
      obtain rfl : served = 0 := by omega
      exact ⟨by omega, hl⟩
  | prefetch =>
      simp only [hw] at hplace ⊢
      rcases hplace with ⟨hone, hl⟩ | ⟨hzero, hn, hl⟩
      · rcases Nat.eq_zero_or_pos served with rfl | hpos
        · exact Or.inl ⟨by omega, hl⟩
        · obtain rfl : served = 1 := by omega
          exact Or.inr ⟨by omega, Nat.succ_pos n, by rw [Nat.add_sub_cancel]; exact hl⟩
      · obtain rfl : served = 0 := by omega
        exact Or.inr ⟨by omega, hn, hl⟩

/-- The `get` a walk is inside is of the block that is due. -/
theorem AtGet.due (h : AtGet s w n) (hin : 1 ≤ w.st.caller.inGet) : w.layer = n % s.nblocks := by
  obtain ⟨-, hplace⟩ := h
  cases hw : w.phase with
  | get =>
      simp only [hw] at hplace
      omega
  | prefetch =>
      simp only [hw] at hplace
      rcases hplace with ⟨-, hl⟩ | ⟨hzero, -⟩
      · exact hl
      · omega

/-- **Inside a call**, phase and layer stay. -/
theorem AtGet.inside (h : AtGet s w n) {served : Nat} (hserved : served + w'.st.caller.inGet = w.st.caller.inGet)
    (hphase : w'.phase = w.phase) (hlayer : w'.layer = w.layer)
    (hpin : ∀ b job, w'.st.caller = .pinLoad b job → ∃ job', w.st.caller = .pinLoad b job') :
    AtGet s w' (n + served) ∧ (served = 1 → w'.layer = n % s.nblocks) ∧
      ∀ b job, w.st.caller = .pinLoad b job → b = w'.layer := by
  have hload : ∀ b job, w'.st.caller = .pinLoad b job → b = w.layer := by
    intro b job hb
    obtain ⟨job', hb'⟩ := hpin b job hb
    exact h.1 b job' hb'
  exact ⟨h.served hserved hphase hlayer hload, fun hone => hlayer.trans (h.due (by omega)),
    fun b job hb => hlayer ▸ h.1 b job hb⟩

/-- A call is entered between calls, of those the walk makes. -/
theorem walkStep_call {c : Call} (hstep : walkStep s w (.call c) = some w') :
    c ∈ w.calls s ∧ w.st.caller = .idle ∧ ∃ st, step s w.st (.call c) = some st ∧ w' = w.advance s st := by
  simp only [walkStep] at hstep
  split_ifs at hstep with hgo
  obtain ⟨st, hcall, rfl⟩ := Option.map_eq_some_iff.mp hstep
  refine ⟨hgo.2, ?_, st, hcall, rfl⟩
  simp only [step] at hcall
  split_ifs at hcall with hidle
  exact hidle

/-- In its second phase the walk only hints. -/
theorem calls_hint {c : Call} (hphase : w.phase = .prefetch) (hc : c ∈ w.calls s) : (Choice.call c).isGet = 0 := by
  simp only [Walk.calls, hphase] at hc
  split_ifs at hc
  · rw [List.mem_singleton.mp hc]
    rfl
  · rcases List.mem_cons.mp hc with rfl | hc
    · rfl
    · rw [List.mem_singleton.mp hc]
      rfl

/-- **A call** is a `get` of the block that is due, or a hint on the way to the next layer. -/
theorem AtGet.call (h : AtGet s w n) {c : Call} {served : Nat} (hstep : walkStep s w (.call c) = some w')
    (hserved : served + w'.st.caller.inGet = w.st.caller.inGet + (Choice.call c).isGet) :
    AtGet s w' (n + served) ∧ (served = 1 → w'.layer = n % s.nblocks) ∧
      ∀ b job, w.st.caller = .pinLoad b job → b = w'.layer := by
  obtain ⟨hc, hidle, st, hcall, rfl⟩ := walkStep_call hstep
  have hzero : w.st.caller.inGet = 0 := by rw [hidle]; rfl
  have hnoload : ∀ b job, w.st.caller = .pinLoad b job → b = (w.advance s st).layer := fun b job hb => by
    rw [hidle] at hb
    cases hb
  cases hw : w.phase with
  | get =>
      obtain ⟨-, hplace⟩ := h
      simp only [Walk.calls, hw, List.mem_singleton] at hc
      subst hc
      simp only [hw] at hplace
      simp only [Walk.advance, hw, Choice.isGet] at hserved hnoload ⊢
      refine ⟨⟨fun b job hb => ?_, ?_⟩, fun _ => hplace.2, hnoload⟩
      · have hget := step_call_pinLoad hcall hb
        simp only [Call.get.injEq, Nat.cast_inj] at hget
        exact hget.symm
      · dsimp only
        rcases Nat.eq_zero_or_pos served with rfl | hpos
        · exact Or.inl ⟨by omega, hplace.2⟩
        · obtain rfl : served = 1 := by omega
          exact Or.inr ⟨by omega, Nat.succ_pos n, by rw [Nat.add_sub_cancel]; exact hplace.2⟩
  | prefetch =>
      have hhint := calls_hint hw hc
      have hnext := h.next hw hzero
      rw [hhint] at hserved
      obtain ⟨rfl, hout⟩ : served = 0 ∧ (w.advance s st).st.caller.inGet = 0 := by omega
      simp only [Walk.advance, hw] at hout hnoload ⊢
      refine ⟨⟨fun b job hb => ?_, ⟨hout, hnext⟩⟩, fun h01 => by omega, hnoload⟩
      have hget := step_call_pinLoad hcall hb
      subst hget
      simp [Choice.isGet] at hhint

/-- **A step of the walk** keeps the position, and serves a `get` only of the block that is due. -/
theorem walkStep_atGet {c : Choice} {served : Nat} (hinv : Inv s w.st) (h : AtGet s w n)
    (hstep : walkStep s w c = some w')
    (hserved : served + w'.st.caller.inGet = w.st.caller.inGet + c.isGet) :
    AtGet s w' (n + served) ∧ (served = 1 → w'.layer = n % s.nblocks) ∧
      ∀ b job, w.st.caller = .pinLoad b job → b = w'.layer := by
  have hst := walkStep_step hstep
  cases c with
  | call c => exact h.call hstep hserved
  | caller =>
      obtain ⟨st, hc, rfl⟩ := Option.map_eq_some_iff.mp hstep
      exact h.inside hserved rfl rfl fun b job hb => absurd hb (callerStep_pinLoad hc)
  | callerPread r =>
      obtain ⟨st, hc, rfl⟩ := Option.map_eq_some_iff.mp hstep
      exact h.inside hserved rfl rfl fun b job hb => callerPread_pinLoad hc hb
  | reader =>
      obtain ⟨st, hc, rfl⟩ := Option.map_eq_some_iff.mp hstep
      obtain ⟨-, hcaller, -, -⟩ := reader_view hinv (Or.inl rfl) hst
      exact h.inside hserved rfl rfl fun b job hb => ⟨job, hcaller ▸ hb⟩
  | readerPread r =>
      obtain ⟨st, hc, rfl⟩ := Option.map_eq_some_iff.mp hstep
      obtain ⟨-, hcaller, -, -⟩ := reader_view hinv (Or.inr ⟨r, rfl⟩) hst
      exact h.inside hserved rfl rfl fun b job hb => ⟨job, hcaller ▸ hb⟩

end Position

/-! ## Whole scans -/

section Runs

variable {s : EngStreamer}

/-- **The invariant of a scan**: it has stopped, or window, position and tally agree. -/
def Scans (s : EngStreamer) (x : Scan) : Prop :=
  Inv s x.walk.st ∧
    ((x.walk.st.stopped = true ∧ x.walk.st.caller = .idle) ∨
      ∃ n v f, RingInv s x.walk.st.view v f ∧ PosOk s x.walk.st.view v x.walk.layer x.walk.phase ∧
        Tally s x.walk.st n v f ∧ n + x.walk.st.caller.inGet = x.gets ∧ AtGet s x.walk n)

theorem init_scans (hwf : WF s) (mem : Buf → Nat → UInt8) : Scans s (Scan.init mem) := by
  have hno : ¬ (State.init mem).view.Pending := by
    rintro (h | h)
    · simp [State.view, State.init] at h
    · exact h rfl
  refine ⟨init_inv hwf mem, Or.inr ⟨0, 0, 0, ?_⟩⟩
  refine ⟨init_ringInv mem, init_posOk hwf mem, ⟨?_, rfl, ?_, ?_, ?_, fun hp => absurd hp hno⟩, rfl, ?_, ?_⟩
  · exact (Nat.count_zero _).symm
  · intro b _
    simp [Scan.init, Walk.init, State.init]
  · simp [ringGets]
  · intro _
    unfold fetched
    split_ifs <;> simp
  · intro b job hb
    cases hb
  · exact ⟨rfl, (Nat.zero_mod _).symm⟩

/-- **One step of a scan.** -/
theorem scanStep_scans (hwf : WF s) {x x' : Scan} {m : Move} (h : Scans s x)
    (hstep : scanStep s x m = some x') : Scans s x' := by
  obtain ⟨hinv, hcase⟩ := h
  cases m with
  | choice c =>
      obtain ⟨w', hw, rfl⟩ := Option.map_eq_some_iff.mp hstep
      have hst := walkStep_step hw
      rcases hcase with ⟨hstop, hidle⟩ | ⟨n, v, f, hr, hp, ht, hgets, hat⟩
      · obtain ⟨hclear, hstop'⟩ := walkStep_stopped hinv hstop hidle hw
        exact ⟨step_inv hwf hinv hclear hst, Or.inl hstop'⟩
      · refine ⟨step_inv hwf hinv (walk_clear hwf hinv hr hp c) hst, ?_⟩
        rcases walkStep_moves hwf hinv hr hp hw with hstop | ⟨v', f', served, hr', hp', hturn, hserved⟩
        · exact Or.inl hstop
        · obtain ⟨hat', hdue, hload⟩ := walkStep_atGet hinv hat hw hserved
          have ht' := hturn.tally hwf hr ht hdue hload
          exact Or.inr ⟨n + served, v', f', hr', hp', ht', by simp only; omega, hat'⟩
  | skip =>
      simp only [scanStep] at hstep
      split_ifs at hstep with hgo
      obtain ⟨hphase, hidle, hrun⟩ := hgo
      obtain rfl := Option.some.inj hstep
      simp only [Walk.advance, hphase]
      refine ⟨hinv, Or.inr ?_⟩
      rcases hcase with ⟨hstop, -⟩ | ⟨n, v, f, hr, hp, ht, hgets, hat⟩
      · exact absurd hstop (by simp [hrun])
      · have hzero : x.walk.st.caller.inGet = 0 := by rw [hidle]; rfl
        rw [hphase] at hp
        refine ⟨n, v, f, hr, hp.idle_next hidle, ht, hgets, fun b job hb => ?_, hzero, ?_⟩
        · rw [hidle] at hb
          cases hb
        · exact hat.next hphase hzero

/-- The hits of `P` passes. -/
theorem count_repeats (hwf : WF s) : ∀ P : Nat,
    Nat.count (Repeats s) (s.nblocks * (P + 1)) =
      if s.nblocks - s.npin > s.nslot then s.npin * P else s.nblocks * P
  | 0 => by
      rw [Nat.zero_add, Nat.mul_one, Nat.mul_zero, Nat.mul_zero, ite_self]
      apply Nat.count_iff_forall_not.mpr
      rintro n hn ⟨hge, -⟩
      omega
  | P + 1 => by
      have hle := hwf.npin_le
      have hat : ∀ k < s.nblocks, (s.nblocks * (P + 1) + k) % s.nblocks = k := fun k hk => by
        rw [Nat.mul_add_mod, Nat.mod_eq_of_lt hk]
      have hlater : ∀ k, s.nblocks ≤ s.nblocks * (P + 1) + k := fun k =>
        (Nat.le_mul_of_pos_right _ (Nat.succ_pos P)).trans (Nat.le_add_right _ _)
      have hpins : Nat.count (fun k => Repeats s (s.nblocks * (P + 1) + k)) s.npin = s.npin := by
        apply Nat.count_iff_forall.mpr
        intro k hk
        exact ⟨hlater k, Or.inl (by rw [hat k (by omega)]; exact hk)⟩
      have hring : Nat.count (fun k => Repeats s (s.nblocks * (P + 1) + (s.npin + k)))
          (s.nblocks - s.npin) =
            if s.nblocks - s.npin > s.nslot then 0 else s.nblocks - s.npin := by
        split_ifs with hroom
        · apply Nat.count_iff_forall_not.mpr
          rintro k hk ⟨-, hin | hfits⟩
          · rw [hat (s.npin + k) (by omega)] at hin
            omega
          · omega
        · apply Nat.count_iff_forall.mpr
          exact fun k _ => ⟨hlater _, Or.inr (not_lt.mp hroom)⟩
      have hpass : Nat.count (fun k => Repeats s (s.nblocks * (P + 1) + k)) s.nblocks =
          if s.nblocks - s.npin > s.nslot then s.npin else s.nblocks := by
        have hsplit : Nat.count (fun k => Repeats s (s.nblocks * (P + 1) + k))
            (s.npin + (s.nblocks - s.npin)) =
              s.npin + if s.nblocks - s.npin > s.nslot then 0 else s.nblocks - s.npin := by
          rw [Nat.count_add, hpins, hring]
        rw [Nat.add_sub_cancel' hle] at hsplit
        rw [hsplit]
        split_ifs <;> omega
      rw [Nat.mul_add _ (P + 1) 1, Nat.mul_one, Nat.count_add, count_repeats hwf P, hpass]
      split_ifs <;> ring

end Runs

/-- **The hit rate of a cyclic scan**, after `P` complete passes in which no `get` returned NULL, with
or without a hint after each, under every interleaving and every chunking of the reads. -/
theorem scan_hit_rate {store : EngStorage} {cfg : EngStreamerCfg} {threadOk : Bool} {s : EngStreamer}
    (hs : engStreamerCreate store cfg threadOk = some s) (mem : Buf → Nat → UInt8) {x : Scan}
    (hr : Reaches (scanStep s) anyChoice (Scan.init mem) x) {P : Nat} (hP : 1 ≤ P)
    (hgets : x.gets = s.nblocks * P) (hidle : x.walk.st.caller = .idle)
    (hok : x.walk.st.stopped = false) :
    x.walk.st.hits =
        (if s.nblocks - s.npin > s.nslot then s.npin * (P - 1) else s.nblocks * (P - 1)) ∧
      x.walk.st.hits + x.walk.st.misses = s.nblocks * P := by
  have hwf := engStreamerCreate_wf hs
  have hscans := hr.invariant (init_scans hwf mem) fun _ _ _ h _ hstep => scanStep_scans hwf h hstep
  rcases hscans.2 with ⟨hstop, -⟩ | ⟨n, v, f, -, -, ht, hn, -⟩
  · exact absurd hstop (by simp [hok])
  · have hserved : n = s.nblocks * P := by
      rw [hidle] at hn
      exact hn.trans hgets
    obtain ⟨P, rfl⟩ : ∃ Q, P = Q + 1 := ⟨P - 1, by omega⟩
    refine ⟨?_, ht.total.trans hserved⟩
    rw [ht.hits, hserved, count_repeats hwf P, Nat.add_sub_cancel]

/-- Four one-byte blocks, the first of them pinned, and a ring of two for the rest. -/
def fourBlocks : EngStreamerCfg :=
  { blocks := [⟨0, 1⟩, ⟨1, 1⟩, ⟨2, 1⟩, ⟨2, 1⟩]
    budgetBytes := 25000
    extraBytes := 0
    ringWant := 2
    async := true }

def fourBlocksStreamer : EngStreamer :=
  { store := tenElevenTwelve
    blk := [⟨0, 1⟩, ⟨1, 1⟩, ⟨2, 1⟩, ⟨2, 1⟩]
    npin := 1
    nslot := 2
    slotBytes := 8192
    extraBytes := 0
    hasIo := true }

/-- `get` of an unpinned block, read by the caller. -/
def readGet (b : Nat) : List Move :=
  [.choice (.call (.get b)), .choice .caller, .choice .caller, .choice (.callerPread 1), .choice .caller]

/-- `prefetch` and `get` of an unpinned block, read by the reader. -/
def hintedGet (b : Nat) : List Move :=
  [.choice (.call (.prefetch b)), .choice .caller, .choice .reader, .choice (.readerPread 1),
   .choice .reader, .choice .reader, .choice (.call (.get b)), .choice .caller]

/-- Two passes, with a hint before block 2 of the first and before block 3 of the second. -/
def twoPasses : List Move :=
  [.choice (.call (.get 0)), .choice (.callerPread 1), .choice .caller, .skip] ++ readGet 1 ++
    hintedGet 2 ++ [.skip] ++ readGet 3 ++ [.choice (.call (.prefetch 0)), .choice (.call (.get 0)), .skip] ++
    readGet 1 ++ [.skip] ++ readGet 2 ++ hintedGet 3

theorem twoPasses_hit_rate :
    ∃ x, engStreamerCreate tenElevenTwelve fourBlocks true = some fourBlocksStreamer ∧
      Reaches (scanStep fourBlocksStreamer) anyChoice (Scan.init fun _ _ => 0) x ∧
      x.walk.st.hits = 1 ∧ x.walk.st.hits + x.walk.st.misses = 8 := by
  have hcreate : engStreamerCreate tenElevenTwelve fourBlocks true = some fourBlocksStreamer := by
    rfl
  have hrun : (run (scanStep fourBlocksStreamer) anyChoice (Scan.init fun _ _ => 0) twoPasses).map
      (fun x => (x.gets, x.walk.st.caller, x.walk.st.stopped)) = some (8, .idle, false) := by
    rfl
  obtain ⟨x, hx, hobs⟩ := Option.map_eq_some_iff.mp hrun
  simp only [Prod.mk.injEq] at hobs
  obtain ⟨hgets, hidle, hok⟩ := hobs
  have hr := reaches_of_run twoPasses .start hx
  exact ⟨x, hcreate, hr,
    scan_hit_rate hcreate _ hr (P := 2) (by decide) hgets hidle hok⟩

/-- **Everything pinned, everything read once**: from the second pass on no read is under way in any
state, neither by the caller nor by the reader. -/
theorem scan_rests {s : EngStreamer} (hwf : WF s) (hall : s.npin = s.nblocks)
    (mem : Buf → Nat → UInt8) {x : Scan} (hr : Reaches (scanStep s) anyChoice (Scan.init mem) x)
    (hfirst : s.nblocks + x.walk.st.caller.inGet ≤ x.gets) (j : Job) : ¬ x.walk.st.Reading j := by
  obtain ⟨hinv, hcase⟩ :=
    hr.invariant (init_scans hwf mem) fun _ _ _ h _ hstep => scanStep_scans hwf h hstep
  have hcaller := hinv.caller
  have hreader := hinv.reader
  rintro (⟨b, hpc⟩ | ⟨b, slot, hpc⟩ | ⟨slot, hpc⟩)
  · -- a pinned block would have been got in the first pass
    simp only [CallerOk, hpc] at hcaller
    obtain ⟨hb, hnone, -⟩ := hcaller
    rcases hcase with ⟨-, hidle⟩ | ⟨n, v, f, -, -, ht, hn, -⟩
    · rw [hidle] at hpc
      cases hpc
    · exact (ht.pins b hb).mpr (by omega) hnone
  · simp only [CallerOk, hpc] at hcaller
    omega
  · simp only [ReaderOk, hpc] at hreader
    obtain ⟨-, -, -, hpin, hlt, -⟩ := hinv.reserved (Or.inl hreader.1)
    omega

end LlmEngine.Storage.Streamer
