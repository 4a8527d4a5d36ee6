/-
# LlmEngine.Cli.GenerateSerial — speculative decode is serial decode.

Every round of the loop advances the run by some ids that serial greedy decode would have emitted
next, and leaves the carried state serial decode would have there.  The drafter decides only how
many ids one round emits.

* `DraftOnly`: what proposing and resynchronising may touch is the draft half and the part of the sequence above the
  accepted ids.
* `Advances`: the step a round takes, in terms of serial decode; there is one lemma for each kind of round
  (`roundFirst_advances`, `roundSingle_advances`, `roundNext_advances`).
* `settleExact_spec` is where a partial acceptance is undone and replayed.
* `LoopInv` is kept by one iteration (`LoopInv.step`) and so by any number (`rounds_inv`), and `gen` of them put
  out exactly `gen` ids (`rounds_done`).

`speculative_decode_is_serial` reads it off for a fresh run, `Cli.Resume` for one that is entered with part of the
prompt consumed.
-/
import LlmEngine.Cli.Generate

namespace LlmEngine.Cli

open LlmEngine.Lib.Buffer

variable {κ ρ κd ρd : Type}

/-! ## The drafters -/

theorem continuation_length (seq : Nat → Tok) (T n m1 : Nat) (m2 : Option Nat) (left : Nat) :
    ∀ i, (continuation seq T n m1 m2 left i).length ≤ left := by
  induction left with
  | zero => intro i; exact Nat.le_refl 0
  | succ left ih =>
      intro i
      have hcons : (seq (m1 + n + i) :: continuation seq T n m1 m2 left (i + 1)).length
          ≤ left + 1 := Nat.succ_le_succ (ih (i + 1))
      rw [continuation]
      split_ifs with hT
      · cases m2 with
        | none => exact hcons
        | some m2 =>
            show (if _ then _ else _ : List Tok).length ≤ left + 1
            split_ifs with hcut
            · exact Nat.zero_le _
            · exact hcons
      · exact Nat.zero_le _

theorem draftAt_length (seq : Nat → Tok) (T cap n : Nat) : (draftAt seq T cap n).length ≤ cap := by
  unfold draftAt
  split_ifs with hT
  · exact Nat.zero_le _
  · split
    · exact Nat.zero_le _
    · exact continuation_length seq T n _ _ cap 0

theorem specDraft_length (seq : Nat → Tok) (T cap : Nat) : (specDraft seq T cap).length ≤ cap := by
  have hcap : min cap specMax ≤ cap := Nat.min_le_left _ _
  unfold specDraft
  simp only
  split
  · exact Nat.le_trans (draftAt_length seq T _ 3) hcap
  · exact Nat.le_trans (draftAt_length seq T _ 4) hcap

/-! ## What a pass may touch -/

/-- Everything but the carried states and the history is as before, and every new pass stays below
`bound`. -/
structure Kept (bound : Nat) (s s' : GenState κ ρ κd ρd) : Prop where
  seq : s'.seq = s.seq
  T : s'.T = s.T
  out : s'.out = s.out
  emitted : s'.emitted = s.emitted
  fed : ∀ f ∈ s'.fed, f ∈ s.fed ∨ f.1 + f.2 ≤ bound

/-- The draft side moves nothing the emitted ids depend on. -/
structure DraftOnly (bound : Nat) (s s' : GenState κ ρ κd ρd) : Prop extends Kept bound s s' where
  w : s'.w = s.w

theorem Kept.trans {b : Nat} {s s' s'' : GenState κ ρ κd ρd} (h : Kept b s s')
    (h' : Kept b s' s'') : Kept b s s'' := by
  refine ⟨h'.seq.trans h.seq, h'.T.trans h.T, h'.out.trans h.out, h'.emitted.trans h.emitted,
    fun f hf => ?_⟩
  rcases h'.fed f hf with hold | hnew
  · exact h.fed f hold
  · exact .inr hnew

theorem Kept.pass {b pos n : Nat} {s s' : GenState κ ρ κd ρd} (hseq : s'.seq = s.seq)
    (hT : s'.T = s.T) (hout : s'.out = s.out) (hemitted : s'.emitted = s.emitted)
    (hfed : s'.fed = s.fed ++ [(pos, n)]) (hb : pos + n ≤ b) : Kept b s s' := by
  refine ⟨hseq, hT, hout, hemitted, fun f hf => ?_⟩
  rw [hfed] at hf
  rcases List.mem_append.mp hf with hold | hnew
  · exact .inl hold
  · rw [List.mem_singleton.mp hnew]
    exact .inr hb

namespace DraftOnly

theorem refl (bound : Nat) (s : GenState κ ρ κd ρd) : DraftOnly bound s s :=
  ⟨⟨rfl, rfl, rfl, rfl, fun _ hf => .inl hf⟩, rfl⟩

theorem trans {b : Nat} {s s' s'' : GenState κ ρ κd ρd} (h : DraftOnly b s s')
    (h' : DraftOnly b s' s'') : DraftOnly b s s'' :=
  ⟨h.toKept.trans h'.toKept, h'.w.trans h.w⟩

/-- One draft pass of `n` positions, however `dw.cached` is moved afterwards. -/
theorem pass (M : Models κ ρ κd ρd) (s : GenState κ ρ κd ρd) (ids : List Tok) {b : Nat} (k : Nat)
    (hb : s.dw.cached + ids.length ≤ b) :
    DraftOnly b s ((s.draftPass M ids).2.setDraftCached k) :=
  ⟨.pass rfl rfl rfl rfl rfl hb, rfl⟩

end DraftOnly

section Rounds

variable (fw : Forward κ ρ) {draft : Nat → Carried κd ρd → List Tok → Pass κd ρd}
  (hdraft : ∀ n z ids, (draft n z ids).ok = true) (c : GenCfg)

/-- Both models at work: the exact one is a forward pass. -/
def withDraft (draft : Nat → Carried κd ρd → List Tok → Pass κd ρd) : Models κ ρ κd ρd :=
  { exact := fw.run, draft := draft }

include hdraft in
theorem draftFollow_some (s : GenState κ ρ κd ρd) (ids : List Tok) {b : Nat} (k : Nat)
    (hb : s.dw.cached + ids.length ≤ b) :
    ∃ s', draftFollow (withDraft fw draft) s ids k = some s' ∧ DraftOnly b s s' ∧
      s'.dw.cached = k := by
  have hok : (s.draftPass (withDraft fw draft) ids).1.ok = true := hdraft _ _ _
  refine ⟨_, ?_, DraftOnly.pass (withDraft fw draft) s ids k hb, rfl⟩
  show (if (s.draftPass (withDraft fw draft) ids).1.ok then _ else _) = _
  rw [if_pos hok]
  rfl

include hdraft in
/-- `n` chained draft steps give `n` drafts and move the draft's state `n` positions on. -/
theorem draftChain_spec (n : Nat) : ∀ (prev : Tok) (s : GenState κ ρ κd ρd) {b : Nat},
    s.dw.cached + n ≤ b →
    DraftOnly b s (draftChain (withDraft fw draft) n prev s).2 ∧
      (draftChain (withDraft fw draft) n prev s).1.length = n ∧
      (draftChain (withDraft fw draft) n prev s).2.dw.cached = s.dw.cached + n := by
  induction n with
  | zero => intro prev s b _; exact ⟨.refl b s, rfl, rfl⟩
  | succ n ih =>
      intro prev s b hb
      have hok : (s.draftPass (withDraft fw draft) [prev]).1.ok = true := hdraft _ _ _
      have hpass := DraftOnly.pass (withDraft fw draft) s [prev] (s.dw.cached + 1)
        (show s.dw.cached + [prev].length ≤ b by rw [List.length_singleton]; omega)
      obtain ⟨honly, hlen, hcached⟩ :=
        ih (s.draftPass (withDraft fw draft) [prev]).1.lastArg
          ((s.draftPass (withDraft fw draft) [prev]).2.setDraftCached (s.dw.cached + 1))
          (show s.dw.cached + 1 + n ≤ b by omega)
      have heq : draftChain (withDraft fw draft) (n + 1) prev s =
          ((s.draftPass (withDraft fw draft) [prev]).1.lastArg ::
            (draftChain (withDraft fw draft) n (s.draftPass (withDraft fw draft) [prev]).1.lastArg
              ((s.draftPass (withDraft fw draft) [prev]).2.setDraftCached (s.dw.cached + 1))).1,
            (draftChain (withDraft fw draft) n (s.draftPass (withDraft fw draft) [prev]).1.lastArg
              ((s.draftPass (withDraft fw draft) [prev]).2.setDraftCached (s.dw.cached + 1))).2) := by
        show (if (s.draftPass (withDraft fw draft) [prev]).1.ok then _ else _) = _
        rw [if_pos hok]
        rfl
      rw [heq]
      refine ⟨hpass.trans honly, by rw [List.length_cons, hlen], ?_⟩
      rw [hcached]
      show s.dw.cached + 1 + n = s.dw.cached + (n + 1)
      omega

/-- There is room for a speculative round. -/
def SpecRoom (s : GenState κ ρ κd ρd) : Prop :=
  s.T + c.specN + 1 < c.tMax ∧ s.w.cached + c.specN + 1 ≤ c.kvCap

include hdraft in
/-- Whoever proposes: at most `spec_n` drafts, none without room, and a draft model has moved one
position per draft. -/
theorem propose_spec (s : GenState κ ρ κd ρd) (hsync : c.draftTrunk → s.dw.cached = s.w.cached) :
    DraftOnly c.kvCap s (propose c (withDraft fw draft) s).2 ∧
      (propose c (withDraft fw draft) s).1.length ≤ c.specN ∧
      ((propose c (withDraft fw draft) s).1 ≠ [] → SpecRoom c s) ∧
      (c.draftTrunk → (propose c (withDraft fw draft) s).2.dw.cached
        = s.w.cached + (propose c (withDraft fw draft) s).1.length) := by
  unfold propose
  by_cases hroom : 0 < c.specN ∧ s.T + c.specN + 1 < c.tMax ∧ s.w.cached + c.specN + 1 ≤ c.kvCap
  · rw [if_pos hroom]
    by_cases hd : c.draftTrunk = true
    · obtain ⟨honly, hlen, hcached⟩ := draftChain_spec fw hdraft c.specN (s.seq s.w.cached) s
        (show s.dw.cached + c.specN ≤ c.kvCap by rw [hsync hd]; omega)
      rw [if_pos hd]
      exact ⟨honly, Nat.le_of_eq hlen, fun _ => hroom.2, fun _ => by rw [hcached, hlen, hsync hd]⟩
    · rw [if_neg hd]
      exact ⟨.refl _ s, specDraft_length _ _ _, fun _ => hroom.2, fun h => absurd h hd⟩
  · rw [if_neg hroom]
    exact ⟨.refl _ s, Nat.zero_le _, fun h => absurd rfl h, fun h => hsync h⟩

/-! ## One round is some steps of serial decode -/

/-- From `s`, where `pending` is still to be fed, the round emits the ids serial decode emits next
and leaves the state serial decode has then. -/
structure Advances (pending : List Tok) (s : GenState κ ρ κd ρd) (emit : List Tok)
    (s' : GenState κ ρ κd ρd) : Prop where
  nonempty : emit ≠ []
  room : s.out.length + emit.length ≤ c.gen
  ids : emit = fw.serialIds s.w pending emit.length
  same : s'.w.Same (fw.serialState s.w pending emit.length)
  seq : ∀ i < s.T, s'.seq i = s.seq i
  T : s'.T = s.T
  out : s'.out = s.out
  emitted : s'.emitted = s.emitted
  draft : c.draftTrunk → s'.dw.cached = s'.w.cached
  fed : ∀ f ∈ s'.fed, f ∈ s.fed ∨ f.1 + f.2 ≤ c.kvCap

variable {fw c}

/-- What the draft side did before does not disturb it. -/
theorem Advances.before {p emit : List Tok} {s₀ s s' : GenState κ ρ κd ρd}
    (h₀ : DraftOnly c.kvCap s₀ s) (h : Advances fw c p s emit s') : Advances fw c p s₀ emit s' := by
  refine ⟨h.nonempty, h₀.out ▸ h.room, h₀.w ▸ h.ids, h₀.w ▸ h.same, fun i hi => ?_,
    h.T.trans h₀.T, h.out.trans h₀.out, h.emitted.trans h₀.emitted, h.draft, fun f hf => ?_⟩
  · rw [h.seq i (h₀.T.symm ▸ hi), h₀.seq]
  · rcases h.fed f hf with hold | hnew
    · exact h₀.fed f hold
    · exact .inr hnew

variable (fw)

variable (draft) in
/-- The state an exact pass over `ids` leaves once `cached` is advanced past them. -/
theorem exactPass_w (s : GenState κ ρ κd ρd) {ids : List Tok} (h : ids ≠ []) :
    ((s.exactPass (withDraft fw draft) ids).2.setCached (s.w.cached + ids.length)).w
      = fw.feedAll s.w ids := (fw.run_eq ids s.w h).1

/-- A round that feeds everything pending, with the draft model following. -/
theorem advances_feed {s s' : GenState κ ρ κd ρd} {pending : List Tok}
    (hne : pending ≠ []) (hgen : s.out.length < c.gen)
    (hcap : s.w.cached + pending.length ≤ c.kvCap)
    (hs' : DraftOnly c.kvCap ((s.exactPass (withDraft fw draft) pending).2.setCached
      (s.w.cached + pending.length)) s')
    (hdw : c.draftTrunk → s'.dw.cached = s.w.cached + pending.length) :
    Advances fw c pending s [((s.exactPass (withDraft fw draft) pending).1).lastArg] s' := by
  have hw : s'.w = fw.feedAll s.w pending := hs'.w.trans (exactPass_w fw draft s hne)
  have hpass : Kept c.kvCap s ((s.exactPass (withDraft fw draft) pending).2.setCached
      (s.w.cached + pending.length)) := .pass rfl rfl rfl rfl rfl hcap
  have hkept : Kept c.kvCap s s' := hpass.trans hs'.toKept
  refine ⟨by simp, hgen, ?_, ?_, fun i _ => by rw [hkept.seq], hkept.T, hkept.out, hkept.emitted,
    fun hd => ?_, hkept.fed⟩
  · show [(fw.run s.w pending).lastArg] = [fw.next s.w pending]
    rw [fw.run_lastArg hne]
    rfl
  · rw [hw]
    exact .refl _
  · rw [hdw hd, hw, fw.feedAll_cached]

include hdraft in
/-- The draft follows, if there is one. -/
theorem follow_spec (s : GenState κ ρ κd ρd) (ids : List Tok) (k : Nat) (emit : List Tok)
    (hb : c.draftTrunk → s.dw.cached + ids.length ≤ c.kvCap) :
    ∃ s', (if c.draftTrunk = true then
        (draftFollow (withDraft fw draft) s ids k).bind fun s' => some (emit, s')
      else some (emit, s)) = some (emit, s') ∧
      DraftOnly c.kvCap s s' ∧ (c.draftTrunk → s'.dw.cached = k) := by
  by_cases hd : c.draftTrunk = true
  · obtain ⟨s', hs', honly, hcached⟩ := draftFollow_some fw hdraft s ids k (hb hd)
    refine ⟨s', ?_, honly, fun _ => hcached⟩
    rw [if_pos hd, hs']
    rfl
  · exact ⟨s, by rw [if_neg hd], .refl _ s, fun h => absurd h hd⟩

include hdraft in
/-- Round 0 feeds `seq[cached..T)`. -/
theorem roundFirst_advances (s : GenState κ ρ κd ρd) (hlt : s.w.cached < s.T)
    (hcap : s.T ≤ c.kvCap) (hgen : s.out.length < c.gen) (hdw : s.dw.cached = 0)
    (hfresh : c.loadState = false → s.w.cached = 0) :
    ∃ emit s', roundFirst c (withDraft fw draft) s = some (emit, s') ∧
      Advances fw c (slice s.seq s.w.cached (s.T - s.w.cached)) s emit s' := by
  have hlen := slice_length s.seq s.w.cached (s.T - s.w.cached)
  have hne : slice s.seq s.w.cached (s.T - s.w.cached) ≠ [] := by
    intro hnil
    rw [hnil, List.length_nil] at hlen
    omega
  have hT : s.w.cached + (s.T - s.w.cached) = s.T := by omega
  have hdb : (if c.loadState then 0 else s.w.cached) = 0 := by
    cases hl : c.loadState with
    | true => rfl
    | false => exact hfresh hl
  obtain ⟨s', hs', honly, hcached⟩ := follow_spec fw (c := c) hdraft
    ((s.exactPass (withDraft fw draft) (slice s.seq s.w.cached (s.T - s.w.cached))).2.setCached s.T)
    (slice s.seq (if c.loadState then 0 else s.w.cached)
      (s.T - (if c.loadState then 0 else s.w.cached))) s.T
    [((s.exactPass (withDraft fw draft) (slice s.seq s.w.cached (s.T - s.w.cached))).1).lastArg]
    (fun _ => by
      show s.dw.cached + (slice _ _ _).length ≤ c.kvCap
      rw [slice_length, hdb, hdw]
      omega)
  refine ⟨_, s', ?_, advances_feed fw hne hgen (by rw [hlen]; omega) (by rw [hlen, hT]; exact honly)
    (fun hd => by rw [hcached hd, hlen, hT])⟩
  rw [← hs', roundFirst, hT]
  rfl

include hdraft in
/-- A round without drafts feeds the one pending token. -/
theorem roundSingle_advances (s : GenState κ ρ κd ρd) (hcap : s.w.cached + 1 ≤ c.kvCap)
    (hgen : s.out.length < c.gen) (hsync : c.draftTrunk → s.dw.cached = s.w.cached) :
    ∃ emit s', roundSingle c (withDraft fw draft) s = some (emit, s') ∧
      Advances fw c [s.seq s.w.cached] s emit s' := by
  have hids : slice s.seq s.w.cached 1 = [s.seq s.w.cached] := rfl
  obtain ⟨s', hs', honly, hcached⟩ := follow_spec fw (c := c) hdraft
    ((s.exactPass (withDraft fw draft) [s.seq s.w.cached]).2.setCached (s.w.cached + 1))
    [s.seq s.w.cached] (s.w.cached + 1)
    [((s.exactPass (withDraft fw draft) [s.seq s.w.cached]).1).lastArg]
    (fun hd => by
      show s.dw.cached + 1 ≤ c.kvCap
      rw [hsync hd]
      exact hcap)
  refine ⟨_, s', ?_, advances_feed fw (by simp) hgen hcap honly (fun hd => hcached hd)⟩
  rw [← hs']
  rfl

/-- The batch that is verified, and the one that is replayed. -/
theorem slice_drafts {s : GenState κ ρ κd ρd} (hT : s.T = s.w.cached + 1) (d : List Tok) {k : Nat}
    (hk : k ≤ d.length) :
    slice (s.writeDrafts d).seq s.w.cached (k + 1) = s.seq s.w.cached :: d.take k := by
  rw [slice_succ, ← hT]
  show overwrite s.seq s.T d s.w.cached :: slice (overwrite s.seq s.T d) s.T k = _
  rw [slice_overwrite _ _ _ hk, overwrite_below _ _ (by omega)]

variable (draft) in
/-- **The exact model settles** on the state in which exactly the pending token and the accepted
drafts are consumed. -/
theorem settleExact_spec {s : GenState κ ρ κd ρd} (hT : s.T = s.w.cached + 1) {d : List Tok}
    {m : Nat} (hm : m ≤ d.length) (hcap : s.w.cached + d.length + 1 ≤ c.kvCap) :
    ∃ s', settleExact (withDraft fw draft) s.w.ks s.w.cached m d.length
        ((s.writeDrafts d).exactPass (withDraft fw draft) (s.seq s.w.cached :: d)).2 = some s' ∧
      Kept c.kvCap (s.writeDrafts d) s' ∧ s'.dw = s.dw ∧
      s'.w.Same (fw.feedAll s.w (s.seq s.w.cached :: d.take m)) := by
  have hbatch : ∀ k, Kept c.kvCap (s.writeDrafts d) ((((s.writeDrafts d).exactPass
      (withDraft fw draft) (s.seq s.w.cached :: d)).2).setCached k) := fun k =>
    .pass rfl rfl rfl rfl rfl hcap
  unfold settleExact
  by_cases hfull : m = d.length
  · rw [if_pos hfull]
    refine ⟨_, rfl, hbatch _, rfl, ?_⟩
    rw [hfull, List.take_length]
    have hw := exactPass_w fw draft (s.writeDrafts d)
      (show s.seq s.w.cached :: d ≠ [] by simp)
    rw [List.length_cons] at hw
    exact hw ▸ .refl _
  · -- the restored state is the old one but for stale rows, and the replay feeds the accepted prefix
    rw [if_neg hfull]
    have hback : ((((s.writeDrafts d).exactPass (withDraft fw draft)
        (s.seq s.w.cached :: d)).2).rewind s.w.ks s.w.cached).w.Same s.w :=
      ⟨rfl, rfl, fun p hp => fw.run_writes s.w _ hp⟩
    have hids := slice_drafts hT d hm
    have hlen : (s.seq s.w.cached :: d.take m).length = m + 1 := by
      rw [List.length_cons, List.length_take, Nat.min_eq_left hm]
    refine ⟨_, rfl, (hbatch s.w.cached).trans ?_, rfl, ?_⟩
    · refine .pass rfl rfl rfl rfl rfl (?_ : s.w.cached + (slice (s.writeDrafts d).seq
        s.w.cached (m + 1)).length ≤ c.kvCap)
      rw [hids, hlen]
      omega
    · have hw := exactPass_w fw draft ((((s.writeDrafts d).exactPass
        (withDraft fw draft) (s.seq s.w.cached :: d)).2).rewind s.w.ks s.w.cached)
        (show s.seq s.w.cached :: d.take m ≠ [] by simp)
      rw [hlen] at hw
      have hsame := (Forward.Same.feedAll fw (s.seq s.w.cached :: d.take m) hback).1
      rw [← hw] at hsame
      show ((((((s.writeDrafts d).exactPass (withDraft fw draft) (s.seq s.w.cached :: d)).2).rewind
        s.w.ks s.w.cached).exactPass (withDraft fw draft) (slice (s.writeDrafts d).seq s.w.cached
        (m + 1))).2.setCached (s.w.cached + m + 1)).w.Same _
      rw [hids]
      exact hsame

include hdraft in
/-- The draft model settles at the same position. -/
theorem settleDraft_spec {s : GenState κ ρ κd ρd} (dsnap : κd) {base m : Nat} {d : List Tok}
    (hm : m ≤ d.length) (hcap : base + d.length + 1 ≤ c.kvCap)
    (hdw : c.draftTrunk → s.dw.cached = base + d.length) :
    ∃ s', settleDraft c (withDraft fw draft) dsnap base m d s = some s' ∧
      DraftOnly c.kvCap s s' ∧ (c.draftTrunk → s'.dw.cached = base + m + 1) := by
  unfold settleDraft
  by_cases hd : c.draftTrunk = true
  · rw [if_pos hd]
    by_cases hfull : m = d.length
    · obtain ⟨s', hs', honly, hcached⟩ := draftFollow_some fw hdraft s [d.getLastD 0]
        (s.dw.cached + 1) (show s.dw.cached + 1 ≤ c.kvCap by rw [hdw hd]; exact hcap)
      rw [if_pos hfull]
      exact ⟨s', hs', honly, fun _ => by rw [hcached, hdw hd, hfull]⟩
    · obtain ⟨s', hs', honly, hcached⟩ := draftFollow_some fw hdraft (s.rewindDraft dsnap base)
        (slice (s.rewindDraft dsnap base).seq base (m + 1)) (base + m + 1)
        (show base + _ ≤ c.kvCap by rw [slice_length]; omega)
      have hback : DraftOnly c.kvCap s (s.rewindDraft dsnap base) :=
        ⟨⟨rfl, rfl, rfl, rfl, fun _ hf => .inl hf⟩, rfl⟩
      rw [if_neg hfull]
      exact ⟨s', hs', hback.trans honly, fun _ => hcached⟩
  · rw [if_neg hd]
    exact ⟨s, rfl, .refl _ s, fun h => absurd h hd⟩

include hdraft in
/-- **A speculative round** emits the accepted drafts and the model's own token after them. -/
theorem verify_advances {s : GenState κ ρ κd ρd} (dsnap : κd) {d : List Tok}
    (hT : s.T = s.w.cached + 1) (hroom : s.out.length + d.length + 1 ≤ c.gen)
    (hcap : s.w.cached + d.length + 1 ≤ c.kvCap)
    (hdw : c.draftTrunk → s.dw.cached = s.w.cached + d.length) :
    ∃ emit s', verify c (withDraft fw draft) dsnap d s = some (emit, s') ∧
      Advances fw c [s.seq s.w.cached] s emit s' := by
  have hm : Forward.agree (fw.args s.w (s.seq s.w.cached :: d)) d ≤ d.length := Forward.agree_le _ _
  obtain ⟨hids, hstate⟩ := fw.serial_accept d s.w (s.seq s.w.cached)
  have hargs := (fw.run_eq (s.seq s.w.cached :: d) s.w (by simp)).2
  have hbatch : slice (s.writeDrafts d).seq s.w.cached (d.length + 1) = s.seq s.w.cached :: d := by
    rw [slice_drafts hT d (Nat.le_refl _), List.take_length]
  generalize hagree : Forward.agree (fw.args s.w (s.seq s.w.cached :: d)) d = m at *
  obtain ⟨s₁, hs₁, hkept₁, hdw₁, hsame⟩ := settleExact_spec fw draft (c := c) hT hm hcap
  obtain ⟨s₂, hs₂, honly, hcached⟩ := settleDraft_spec fw hdraft dsnap hm hcap
    (fun hd => by rw [hdw₁]; exact hdw hd)
  have hlen : (d.take m ++ [(fw.args s.w (s.seq s.w.cached :: d)).getD m 0]).length = m + 1 := by
    rw [List.length_append, List.length_take, Nat.min_eq_left hm, List.length_singleton]
  have hkept : Kept c.kvCap (s.writeDrafts d) s₂ := hkept₁.trans honly.toKept
  refine ⟨d.take m ++ [(fw.args s.w (s.seq s.w.cached :: d)).getD m 0], s₂, ?_, by simp,
    by rw [hlen]; omega, by rw [hlen]; exact hids.symm, ?_, fun i hi => ?_, hkept.T, hkept.out,
    hkept.emitted, fun hd => ?_, hkept.fed⟩
  · show (settleExact (withDraft fw draft) s.w.ks s.w.cached
      (Forward.agree (fw.run s.w (slice (s.writeDrafts d).seq s.w.cached (d.length + 1))).args d)
      d.length ((s.writeDrafts d).exactPass (withDraft fw draft)
        (slice (s.writeDrafts d).seq s.w.cached (d.length + 1))).2).bind _ = _
    rw [hbatch, hargs, hagree, hs₁, Option.bind_some]
    show (settleDraft c (withDraft fw draft) dsnap s.w.cached
      (Forward.agree (fw.run s.w (s.seq s.w.cached :: d)).args d) d s₁).bind _ = _
    rw [hargs, hagree, hs₂, Option.bind_some]
    show some (d.take (Forward.agree (fw.run s.w (s.seq s.w.cached :: d)).args d) ++
      [(fw.run s.w (s.seq s.w.cached :: d)).args.getD
        (Forward.agree (fw.run s.w (s.seq s.w.cached :: d)).args d) 0], s₂) = _
    rw [hargs, hagree]
  · rw [hlen, honly.w, hstate]
    exact hsame
  · rw [hkept.seq]
    exact overwrite_below _ _ hi
  · rw [hcached hd, honly.w, hsame.cached, fw.feedAll_cached, List.length_cons, List.length_take,
      Nat.min_eq_left hm]
    omega

include hdraft in
/-- A round after the first. -/
theorem roundNext_advances (s : GenState κ ρ κd ρd) (hT : s.T = s.w.cached + 1)
    (htmax : s.T + c.gen + 1 = c.tMax + s.out.length) (hgen : s.out.length < c.gen)
    (hsync : c.draftTrunk → s.dw.cached = s.w.cached) :
    ∃ emit s', roundNext c (withDraft fw draft) s = some (emit, s') ∧
      Advances fw c [s.seq s.w.cached] s emit s' := by
  obtain ⟨honly, hlen, hroom, hdw⟩ := propose_spec fw hdraft c s hsync
  have hcap : c.kvCap = c.tMax := rfl
  unfold roundNext
  rcases hprop : propose c (withDraft fw draft) s with ⟨d, s₁⟩
  simp only [hprop] at honly hlen hroom hdw
  have hseq : s₁.seq s₁.w.cached = s.seq s.w.cached := by rw [honly.seq, honly.w]
  have hw₁ : s₁.w.cached = s.w.cached := by rw [honly.w]
  cases d with
  | nil =>
      obtain ⟨emit, s', hs', hadv⟩ := roundSingle_advances fw (c := c) hdraft s₁
        (by omega) (honly.out ▸ hgen) (fun hd => by rw [hdw hd, hw₁]; rfl)
      exact ⟨emit, s', hs', (hseq ▸ hadv).before honly⟩
  | cons x d =>
      obtain ⟨hroomT, hroomCap⟩ := hroom (by simp)
      obtain ⟨emit, s', hs', hadv⟩ := verify_advances fw (c := c) (d := x :: d) hdraft s.dw.ks
        (by rw [honly.T, honly.w]; exact hT) (by rw [honly.out]; omega) (by rw [hw₁]; omega)
        (fun hd => by rw [hdw hd, hw₁])
      exact ⟨emit, s', hs', (hseq ▸ hadv).before honly⟩

variable {fw}

/-! ## The append loop -/

theorem appendEmit_all (emit : List Tok) : ∀ s : GenState κ ρ κd ρd,
    s.out.length + emit.length ≤ c.gen → s.T + emit.length ≤ c.tMax →
    appendEmit c emit s = { s with
      seq := overwrite s.seq s.T emit, T := s.T + emit.length, out := s.out ++ emit } := by
  induction emit with
  | nil =>
      intro s _ _
      rw [appendEmit, overwrite_nil, List.append_nil]
      rfl
  | cons e es ih =>
      intro s hgen hT
      rw [List.length_cons] at hgen hT
      rw [appendEmit, if_pos ⟨by omega, by omega⟩, ih _ (by
        show (s.out ++ [e]).length + es.length ≤ c.gen
        rw [List.length_append, List.length_singleton]
        omega) (by show s.T + 1 + es.length ≤ c.tMax; omega), overwrite_cons, List.append_assoc]
      show GenState.mk _ (s.T + 1 + es.length) _ _ _ _ _ = _
      rw [List.length_cons, Nat.add_assoc, Nat.add_comm 1]
      rfl

/-! ## The whole run -/

/-- What the run entered at `s` still has to feed. -/
def pendingAt (s : GenState κ ρ κd ρd) : List Tok := slice s.seq s.w.cached (s.T - s.w.cached)

/-- The run is where serial decode is: the ids so far are serial decode's, the sequence is the
initial one and these ids, and the carried state is serial decode's; nothing emitted was cut, and
no pass went past the cache. -/
structure AtSerial (fw : Forward κ ρ) (c : GenCfg) (s₀ s : GenState κ ρ κd ρd) : Prop where
  le : s.out.length ≤ c.gen
  emitted : s.emitted = s.out
  out : s.out = fw.serialIds s₀.w (pendingAt s₀) s.out.length
  T : s.T = s₀.T + s.out.length
  seq : slice s.seq 0 s.T = slice s₀.seq 0 s₀.T ++ s.out
  same : s.w.Same (fw.serialState s₀.w (pendingAt s₀) s.out.length)
  fed : ∀ f ∈ s.fed, f.1 + f.2 ≤ c.kvCap

namespace AtSerial

variable {s₀ s : GenState κ ρ κd ρd}

/-- Past the prompt one token is pending. -/
theorem pending_one (h : AtSerial fw c s₀ s) (h₀ : s₀.w.cached < s₀.T) (hout : s.out ≠ []) :
    s.T = s.w.cached + 1 ∧
      [s.seq s.w.cached] = fw.serialPending s₀.w (pendingAt s₀) s.out.length := by
  obtain ⟨n, hn⟩ : ∃ n, s.out.length = n + 1 :=
    Nat.exists_eq_add_one_of_ne_zero fun h0 => hout (List.length_eq_zero_iff.mp h0)
  have hcached : s.w.cached = s₀.w.cached + (s₀.T - s₀.w.cached) + n := by
    rw [h.same.cached, hn, fw.serialState_cached, pendingAt, slice_length]
  have hT : s.T = s.w.cached + 1 := by
    rw [h.T, hn, hcached]
    omega
  refine ⟨hT, ?_⟩
  -- the last id of the sequence is the last one emitted
  have hseq := h.seq
  rw [hT, slice_add, Nat.zero_add] at hseq
  have hlast := congrArg (List.getLastD · 0) hseq
  simp only [List.getLastD_eq_getLast?, List.getLast?_append_of_ne_nil _ hout] at hlast
  rw [hn, fw.serialPending_succ, ← hn, ← h.out, List.getLastD_eq_getLast?, ← hlast,
    List.getLast?_append_of_ne_nil _ (by simp [slice])]
  rfl

/-- **One round** that advances from here leaves the run where serial decode is. -/
theorem round {emit : List Tok} {s' : GenState κ ρ κd ρd} {p : List Tok}
    (h : AtSerial fw c s₀ s) (hT₀ : s₀.T + c.gen ≤ c.tMax)
    (hp : p = fw.serialPending s₀.w (pendingAt s₀) s.out.length)
    (hadv : Advances fw c p s emit s') :
    AtSerial fw c s₀ (appendEmit c emit { s' with emitted := s'.emitted ++ emit }) := by
  have hroom := hadv.room
  have hTs := h.T
  rw [appendEmit_all emit { s' with emitted := s'.emitted ++ emit }
    (by show s'.out.length + emit.length ≤ c.gen; rw [hadv.out]; exact hroom)
    (by show s'.T + emit.length ≤ c.tMax; rw [hadv.T]; omega)]
  obtain ⟨hids, hstate⟩ := Forward.Same.serial fw emit.length h.same p
  have hlen : (s'.out ++ emit).length = s.out.length + emit.length := by
    rw [List.length_append, hadv.out]
  refine ⟨?_, ?_, ?_, ?_, ?_, ?_, fun f hf => ?_⟩
  · show (s'.out ++ emit).length ≤ c.gen
    rw [hlen]
    exact hroom
  · show s'.emitted ++ emit = s'.out ++ emit
    rw [hadv.emitted, hadv.out, h.emitted]
  · show s'.out ++ emit = fw.serialIds s₀.w (pendingAt s₀) (s'.out ++ emit).length
    rw [hlen, fw.serialIds_add, ← hp, ← hids, ← hadv.ids, ← h.out, hadv.out]
  · show s'.T + emit.length = s₀.T + (s'.out ++ emit).length
    rw [hlen, hadv.T, h.T, Nat.add_assoc]
  · show slice (overwrite s'.seq s'.T emit) 0 (s'.T + emit.length) = _ ++ (s'.out ++ emit)
    have hfront : slice (overwrite s'.seq s'.T emit) 0 s'.T = slice s.seq 0 s.T := by
      rw [hadv.T]
      apply slice_congr
      intro i hi
      rw [Nat.zero_add, overwrite_below _ _ hi, hadv.seq i hi]
    rw [slice_add, hfront, Nat.zero_add, slice_overwrite _ _ _ (Nat.le_refl _), List.take_length,
      h.seq, hadv.out, List.append_assoc]
  · show s'.w.Same (fw.serialState s₀.w (pendingAt s₀) (s'.out ++ emit).length)
    rw [hlen, fw.serialState_add, ← hp]
    exact hadv.same.trans hstate
  · rcases hadv.fed f hf with hold | hnew
    · exact h.fed f hold
    · exact hnew

end AtSerial

theorem start_atSerial (seq : Nat → Tok) (w : Carried κ ρ) (dw : Carried κd ρd) :
    AtSerial fw c (GenState.start c seq w dw) (GenState.start c seq w dw) :=
  ⟨Nat.zero_le _, rfl, rfl, rfl, (List.append_nil _).symm, .refl _, fun _ hf => nomatch hf⟩

/-- Where a run may enter the loop: a token is pending, the draft starts empty, and so does the
exact model unless a state was restored. -/
structure Enters (c : GenCfg) (w : Carried κ ρ) (dw : Carried κd ρd) : Prop where
  pending : w.cached < c.prior + c.np
  draft : dw.cached = 0
  fresh : c.loadState = false → w.cached = 0

/-- The loop's invariant after `g` rounds: where serial decode is, with an id out for every round
until `gen` are, and the draft model in step. -/
structure LoopInv (fw : Forward κ ρ) (c : GenCfg) (s₀ : GenState κ ρ κd ρd) (g : Nat)
    (s : GenState κ ρ κd ρd) : Prop where
  at_serial : AtSerial fw c s₀ s
  progress : min g c.gen ≤ s.out.length
  first : g = 0 → s = s₀
  sync : 0 < g → 0 < c.gen → c.draftTrunk → s.dw.cached = s.w.cached

include hdraft in
/-- A round of a running loop feeds what serial decode has pending: the whole tail at first, then
one token. -/
theorem roundEmit_advances {seq : Nat → Tok} {w : Carried κ ρ} {dw : Carried κd ρd}
    (hin : Enters c w dw) {g : Nat} {s : GenState κ ρ κd ρd}
    (h : LoopInv fw c (GenState.start c seq w dw) g s) (hgen : s.out.length < c.gen) :
    ∃ emit s', roundEmit c (withDraft fw draft) g s = some (emit, s') ∧
      ∃ p, p = fw.serialPending w (pendingAt (GenState.start c seq w dw)) s.out.length ∧
        Advances fw c p s emit s' := by
  have htmax : c.tMax = (GenState.start c seq w dw).T + c.gen + 1 := rfl
  have hkv : c.kvCap = c.tMax := rfl
  unfold roundEmit
  by_cases hg : g = 0
  · obtain rfl := h.first hg
    obtain ⟨emit, s', hs', hadv⟩ := roundFirst_advances fw (c := c) hdraft
      (GenState.start c seq w dw) hin.pending (by omega) hgen hin.draft hin.fresh
    exact ⟨emit, s', by rw [if_pos hg]; exact hs', _, rfl, hadv⟩
  · have hprogress := h.progress
    have hout : s.out ≠ [] := by
      intro hnil
      rw [hnil, List.length_nil] at hprogress hgen
      omega
    obtain ⟨hT, hp⟩ := h.at_serial.pending_one hin.pending hout
    obtain ⟨emit, s', hs', hadv⟩ := roundNext_advances fw (c := c) hdraft s hT
      (by rw [htmax, h.at_serial.T]; omega) hgen (h.sync (Nat.pos_of_ne_zero hg) (by omega))
    exact ⟨emit, s', by rw [if_neg hg]; exact hs', _, hp, hadv⟩

include hdraft in
/-- **One iteration of the loop** keeps the invariant. -/
theorem LoopInv.step {seq : Nat → Tok} {w : Carried κ ρ} {dw : Carried κd ρd}
    (hin : Enters c w dw) {g : Nat} {s : GenState κ ρ κd ρd}
    (h : LoopInv fw c (GenState.start c seq w dw) g s) :
    ∃ s', (if running c g s then Cli.round c (withDraft fw draft) g s else some s) = some s' ∧
      LoopInv fw c (GenState.start c seq w dw) (g + 1) s' := by
  have htmax : c.tMax = (GenState.start c seq w dw).T + c.gen + 1 := rfl
  have hprogress := h.progress
  by_cases hgen : s.out.length < c.gen
  · have hT := h.at_serial.T
    have hrun : running c g s = true := by
      simp only [running, Bool.and_eq_true, Bool.or_eq_true, decide_eq_true_eq]
      exact ⟨hgen, .inr (by omega)⟩
    obtain ⟨emit, s', hs', p, hp, hadv⟩ := roundEmit_advances hdraft hin h hgen
    have hround : Cli.round c (withDraft fw draft) g s =
        some (appendEmit c emit { s' with emitted := s'.emitted ++ emit }) := by
      unfold Cli.round
      rw [hs']
      show (if emit = [] then none else _) = _
      rw [if_neg hadv.nonempty]
    have hroom := hadv.room
    have hpos := List.length_pos_of_ne_nil hadv.nonempty
    have happ := appendEmit_all (c := c) emit { s' with emitted := s'.emitted ++ emit }
      (by show s'.out.length + emit.length ≤ c.gen; rw [hadv.out]; exact hroom)
      (by show s'.T + emit.length ≤ c.tMax; rw [hadv.T]; omega)
    rw [if_pos hrun, hround]
    refine ⟨_, rfl, h.at_serial.round (by omega) hp hadv, ?_, fun h0 => absurd h0 (Nat.succ_ne_zero g),
      fun _ _ hd => ?_⟩
    · rw [happ]
      show min (g + 1) c.gen ≤ (s'.out ++ emit).length
      rw [List.length_append, hadv.out]
      omega
    · rw [happ]
      exact hadv.draft hd
  · have hrun : running c g s = false := by
      simp only [running, hgen, decide_false, Bool.false_and]
    rw [hrun]
    refine ⟨s, rfl, h.at_serial, by omega, fun h0 => absurd h0 (Nat.succ_ne_zero g),
      fun _ hpos => h.sync (Nat.pos_of_ne_zero fun hg => ?_) hpos⟩
    -- nothing is out before the first round
    rw [h.first hg] at hgen
    exact hgen hpos

variable (fw)

include hdraft in
/-- **Any number of rounds** keeps it. -/
theorem rounds_inv (seq : Nat → Tok) {w : Carried κ ρ} {dw : Carried κd ρd}
    (hin : Enters c w dw) (g : Nat) :
    ∃ s, rounds c (withDraft fw draft) (GenState.start c seq w dw) g = some s ∧
      LoopInv fw c (GenState.start c seq w dw) g s := by
  induction g with
  | zero =>
      refine ⟨_, rfl, start_atSerial seq w dw, ?_, fun _ => rfl, fun h => absurd h (Nat.lt_irrefl 0)⟩
      rw [Nat.zero_min]
      exact Nat.zero_le _
  | succ g ih =>
      obtain ⟨s, hs, hinv⟩ := ih
      rw [rounds, hs]
      exact hinv.step hdraft hin

include hdraft in
/-- **The run ends**: `gen` rounds are enough, and exactly `gen` ids are out. -/
theorem rounds_done (seq : Nat → Tok) {w : Carried κ ρ} {dw : Carried κd ρd}
    (hin : Enters c w dw) {g : Nat} (hg : c.gen ≤ g) :
    ∃ s, rounds c (withDraft fw draft) (GenState.start c seq w dw) g = some s ∧
      running c g s = false ∧ LoopInv fw c (GenState.start c seq w dw) g s ∧
      s.out = fw.serialIds w (pendingAt (GenState.start c seq w dw)) c.gen := by
  obtain ⟨s, hs, hinv⟩ := rounds_inv fw hdraft seq hin g
  have hlen : s.out.length = c.gen := by
    have hle := hinv.at_serial.le
    have hprogress := hinv.progress
    omega
  refine ⟨s, hs, ?_, hinv, ?_⟩
  · simp only [running, hlen, Nat.lt_irrefl, decide_false, Bool.false_and]
  · rw [← hlen]
    exact hinv.at_serial.out

end Rounds

/-! ## A fresh run -/

section Fresh

variable (fw : Forward κ ρ) (draft : Nat → Carried κd ρd → List Tok → Pass κd ρd)

/-- A run without `--load-state`: the prompt at the front of the buffer, both models empty. -/
def freshCfg (prompt : List Tok) (gen spec : Nat) (draftTrunk : Bool) : GenCfg :=
  { gen := gen, np := prompt.length, prior := 0, spec := spec, draftTrunk := draftTrunk,
    loadState := false }

/-- A fresh run enters with the prompt pending. -/
theorem fresh_enters {prompt : List Tok} (hprompt : 1 ≤ prompt.length) (gen spec : Nat)
    (draftTrunk : Bool) {z : Carried κ ρ} {dz : Carried κd ρd} (hz : z.cached = 0)
    (hdz : dz.cached = 0) : Enters (freshCfg prompt gen spec draftTrunk) z dz :=
  ⟨by show z.cached < 0 + prompt.length; omega, hdz, fun _ => hz⟩

theorem fresh_seq (prompt : List Tok) (gen spec : Nat) (draftTrunk : Bool) (junk : Nat → Tok)
    (z : Carried κ ρ) (dz : Carried κd ρd) :
    slice (GenState.start (freshCfg prompt gen spec draftTrunk) (overwrite junk 0 prompt) z dz).seq 0
      (GenState.start (freshCfg prompt gen spec draftTrunk) (overwrite junk 0 prompt) z dz).T
      = prompt := by
  show slice (overwrite junk 0 prompt) 0 (0 + prompt.length) = prompt
  rw [Nat.zero_add, slice_overwrite _ _ _ (Nat.le_refl _), List.take_length]

theorem fresh_pending (prompt : List Tok) (gen spec : Nat) (draftTrunk : Bool) (junk : Nat → Tok)
    {z : Carried κ ρ} (dz : Carried κd ρd) (hz : z.cached = 0) :
    pendingAt (GenState.start (freshCfg prompt gen spec draftTrunk) (overwrite junk 0 prompt) z dz)
      = prompt := by
  show slice (overwrite junk 0 prompt) z.cached (0 + prompt.length - z.cached) = prompt
  rw [hz, Nat.zero_add, Nat.sub_zero, slice_overwrite _ _ _ (Nat.le_refl _), List.take_length]

/-- **Speculative decode is serial decode.** For every prompt, `gen`, `spec_n` and drafter, after
every round the emitted ids, the sequence and the carried state are serial greedy decode's, one
token is pending, nothing emitted was cut and no pass went past the cache; and after `gen` rounds
at the latest the loop is over with exactly `gen` ids out. -/
theorem speculative_decode_is_serial (hdraft : ∀ n z ids, (draft n z ids).ok = true)
    {prompt : List Tok} (hprompt : 1 ≤ prompt.length) (gen spec : Nat) (draftTrunk : Bool)
    (junk : Nat → Tok) (ks : κ) (rows : Nat → ρ) (dks : κd) (drows : Nat → ρd) :
    let c := freshCfg prompt gen spec draftTrunk
    let z : Carried κ ρ := { ks := ks, rows := rows, cached := 0 }
    let dz : Carried κd ρd := { ks := dks, rows := drows, cached := 0 }
    let s₀ := GenState.start c (overwrite junk 0 prompt) z dz
    (∀ g, ∃ s, rounds c (withDraft fw draft) s₀ g = some s ∧
      s.out = fw.serialIds z prompt s.out.length ∧
      slice s.seq 0 s.T = prompt ++ s.out ∧
      s.w.Same (fw.serialState z prompt s.out.length) ∧
      (0 < g → 0 < gen → s.T = s.w.cached + 1) ∧
      s.emitted = s.out ∧
      ∀ f ∈ s.fed, f.1 + f.2 ≤ c.kvCap) ∧
    ∀ g ≥ gen, ∃ s, rounds c (withDraft fw draft) s₀ g = some s ∧ running c g s = false ∧
      s.out = fw.serialIds z prompt gen := by
  intro c z dz s₀
  have hin : Enters c z dz := fresh_enters hprompt gen spec draftTrunk rfl rfl
  have hpending : pendingAt s₀ = prompt := fresh_pending prompt gen spec draftTrunk junk dz rfl
  refine ⟨fun g => ?_, fun g hg => ?_⟩
  · obtain ⟨s, hs, hinv⟩ := rounds_inv fw hdraft (overwrite junk 0 prompt) hin g
    have hat := hinv.at_serial
    have hprogress := hinv.progress
    refine ⟨s, hs, hpending ▸ hat.out, ?_, hpending ▸ hat.same, fun hg hgen => ?_, hat.emitted,
      hat.fed⟩
    · rw [hat.seq, fresh_seq]
    · refine (hat.pending_one hin.pending fun hnil => ?_).1
      rw [hnil, List.length_nil] at hprogress
      have hgen' : 0 < c.gen := hgen
      omega
  · obtain ⟨s, hs, hdone, _, hout⟩ := rounds_done fw hdraft (overwrite junk 0 prompt) hin hg
    exact ⟨s, hs, hdone, hpending ▸ hout⟩

/-- A counting model, and a draft model whose choice is the number of passes made so far. -/
def countModel : Forward Tok Tok := .ofStep fun ks live t => (ks + t, t, (ks + t + live.length) % 3)

def passCountDraft (n : Nat) (z : Carried Unit Unit) (_ : List Tok) : Pass Unit Unit :=
  { ok := true, ks := z.ks, rows := z.rows, args := [(n % 3 : Nat)] }

/-- Six ids with two drafts a round, of which none, then one, is accepted. -/
theorem speculative_decode_counted :
    ∃ s, rounds (freshCfg [1, 2] 6 2 true) (withDraft countModel passCountDraft)
        (GenState.start (freshCfg [1, 2] 6 2 true) (overwrite (fun _ => 0) 0 [1, 2])
          { ks := 0, rows := fun _ => 0, cached := 0 }
          { ks := (), rows := fun _ => (), cached := 0 }) 6 = some s ∧
      s.out = [1, 0, 1, 0, 1, 0] := by
  have hrun := speculative_decode_is_serial countModel passCountDraft (fun _ _ _ => rfl)
    (show 1 ≤ [1, 2].length by decide) 6 2 true (fun _ => 0) 0 (fun _ => 0) () (fun _ => ())
  obtain ⟨s, hs, _, hout⟩ := hrun.2 6 (Nat.le_refl 6)
  exact ⟨s, hs, hout⟩

end Fresh

end LlmEngine.Cli
