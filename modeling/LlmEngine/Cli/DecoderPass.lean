/-
# LlmEngine.Cli.DecoderPass — `forward` over the decoder is the generate loop's forward pass.

`forward` (`src/cli/k3_run.c`) embeds the fed ids, takes them through the bound layers, aggregates
the snapshots a last time and reads an argmax off every position.  The generate loop knows it only
as a `Forward`: a function of the live rows for which a batch is its tokens one at a time.

`decoderForward` is that function for this decoder, built from one-token steps over the live rows,
and `k3Forward_refines` says that the call on the real buffers is its `run`: what the loop assumes
of a forward pass holds of the pass it calls.

The two differ in what they keep.  The buffers hold recurrent states and rows for every layer, with stale rows at
and above `cached`; the loop carries the states and a list of live rows, one entry for each position.

* `k3Forward_eq`: on the buffers the call is the token machine of `Core.Incremental` over the fed ids.
* `tokenStep_rows`, `tokenStep_pos`: a step writes its own position in the layers that keep rows, and leaves the
  rows below alone.
* `run_tokens`: so the same steps can be taken over the live rows, for any number of tokens, with the states that
  come out similar (`liveStates_sim`): alike up to rows that have not been written.

A layer that keeps no rows has nothing in an entry, whatever the buffer has there (`keepsRows`).
-/
import LlmEngine.Cli.Forward
import LlmEngine.Core.Incremental

namespace LlmEngine.Cli

open LlmEngine.Core LlmEngine.Lib LlmEngine.Lib.Buffer

/-- `K3ModelBind` with the bound layers.  The embedding table is never stored as int8, and the
model-level aggregator is used when both of its vectors are there. -/
structure K3ModelW (F σ : Type) where
  embed : Vec F ⊕ (Nat → BitVec 16)
  outRes : Option (Vec F × Vec F)
  norm : Vec F
  lmHead : Mat F
  layers : Nat → K3LayerW F σ

/-- What `forward` leaves: the argmax after every position and the carried buffers. -/
structure ForwardOut (F σ : Type) where
  args : List Tok
  ks : Nat → KdaState F
  kv : Option (Nat → Kv F)
  io : ExpertIo σ

variable {F D σ : Type} [Arith F] [Arith D] (fp : Fpu F D) (c : K3NumCfg F) (m : K3ModelW F σ)

/-- `k3_embed_row`. -/
def embedRow (t : Tok) : Vec F :=
  match m.embed with
  | .inl W => tab c.hidden fun i => W (t.toNat * c.hidden + i)
  | .inr W => tab c.hidden fun i => fp.bf16f (W (t.toNat * c.hidden + i))

/-- `argmax_`. -/
def argmax (v : Vec F) (n : Nat) : Tok :=
  BitVec.ofNat 32 (loop (n - 1) 0 fun b i => if fp.gt (v (i + 1)) (v b) then i + 1 else b)

/-- The end of `forward` at one position: the model-level aggregation over the `nb` snapshots, the
final norm, the logits and their argmax. -/
def headArg (nb : Nat) (r : TokenRow F) : Tok :=
  let h :=
    match m.outRes with
    | some (norm, proj) => aggregate fp c norm proj nb r.blocks r.h
    | none => r.h
  argmax fp (mmw fp (rmsnorm fp m.norm h c.hidden c.rmsEps) m.lmHead c.hidden c.vocab) c.vocab

/-- `forward` over the first `nBound` layers.  Without a KV cache the recurrent state is cleared and
every layer starts at position 0. -/
def k3Forward (noBatch : Bool) (nBound cap : Nat) (scr : Nat → Scratch F) (ks : Nat → KdaState F)
    (kv : Option (Nat → Kv F)) (cached : Nat) (io : ExpertIo σ) (ids : List Tok) :
    Option (ForwardOut F σ) :=
  let rows := freshRows (ids.map (embedRow fp c m))
  let start : PassState F σ :=
    if kv.isNone then ⟨rows, 0, fun _ => KdaState.zero, none, io⟩ else ⟨rows, 0, ks, kv, io⟩
  (forwardLayers fp c noBatch m.layers (if kv.isNone then 0 else cached) cap scr nBound start).map
    fun st => ⟨st.rows.map (headArg fp c m st.nb), st.ks, st.kv, st.io⟩

/-! ## The pass from the live rows -/

/-- The row all layers together keep of one position. -/
abbrev PosRow (F : Type) := Nat → Vec F × Vec F

/-- Whether layer `L` keeps rows (`mla_slot[L] >= 0`). -/
def keepsRows (nBound L : Nat) : Bool :=
  match (m.layers L).attn with
  | .mla _ => decide (L < nBound)
  | .kda _ => false

/-- The rows of the MLA layers, by position; a layer that keeps none contributes zeros. -/
def posRows (nBound : Nat) (kv : Nat → Kv F) : Nat → PosRow F := fun p L =>
  if keepsRows m nBound L then ((kv L).kv p, (kv L).rope p) else (fun _ => 0, fun _ => 0)

/-- What the decoder carries between passes, as the generate loop sees it. -/
def carriedState (nBound : Nat) (sts : Nat → LayerSt F) (cached : Nat) :
    Carried (Nat → KdaState F) (PosRow F) :=
  ⟨fun L => (sts L).kda, posRows m nBound fun L => (sts L).kv, cached⟩

theorem carriedState_live_length (nBound : Nat) (sts : Nat → LayerSt F) (cached : Nat) :
    (carriedState m nBound sts cached).live.length = cached := by
  rw [Carried.live, List.length_map, List.length_range]
  rfl

variable (ans : Nat → Nat → Option K3ExpertQ) (nBound : Nat)

/-- One token through the bound layers to its argmax. -/
def tokenStep (sts : Nat → LayerSt F) (t : Tok) : Tok × (Nat → LayerSt F) :=
  (headArg fp c m (blocksAt c nBound) (through (layerStep fp c m.layers ans) nBound sts
      ⟨embedRow fp c m t, fun _ _ => 0⟩).1,
    (through (layerStep fp c m.layers ans) nBound sts ⟨embedRow fp c m t, fun _ _ => 0⟩).2)

/-- The layers' buffers holding the live rows and nothing else. -/
def liveStates (ks : Nat → KdaState F) (live : List (PosRow F)) : Nat → LayerSt F := fun L =>
  ⟨ks L, ⟨fun p => (live.getD p fun _ => (fun _ => 0, fun _ => 0)) L |>.1,
    fun p => (live.getD p fun _ => (fun _ => 0, fun _ => 0)) L |>.2⟩, live.length⟩

/-- **The decoder's forward pass**, from one-token steps over the live rows. -/
def decoderForward : Forward (Nat → KdaState F) (PosRow F) :=
  Forward.ofStep fun ks live t =>
    let r := tokenStep fp c m ans nBound (liveStates ks live) t
    (fun L => (r.2 L).kda, posRows m nBound (fun L => (r.2 L).kv) live.length, r.1)

/-! ## The call on the buffers -/

section Refines

variable {nBound}

/-- `forward` with a cache is the token step over the buffers, in order. -/
theorem k3Forward_eq (noBatch : Bool) {cap cached : Nat}
    (hs : ∀ L < nBound, (m.layers L).mlp.Steady c.nExperts (ans L)) (scr : Nat → Scratch F)
    (ks : Nat → KdaState F) (kv : Nat → Kv F) (io : ExpertIo σ) (ids : List Tok)
    (hcap : cached + ids.length ≤ cap) :
    ∃ io', k3Forward fp c m noBatch nBound cap scr ks (some kv) cached io ids =
      some ⟨(scan (tokenStep fp c m ans nBound) (fun L => ⟨ks L, kv L, cached⟩) ids).1,
        fun L => ((scan (tokenStep fp c m ans nBound) (fun L => ⟨ks L, kv L, cached⟩) ids).2 L).kda,
        some fun L =>
          ((scan (tokenStep fp c m ans nBound) (fun L => ⟨ks L, kv L, cached⟩) ids).2 L).kv,
        io'⟩ := by
  have hlen : (some kv).isSome = true →
      cached + (freshRows (ids.map (embedRow fp c m))).length ≤ cap := by
    rw [freshRows, List.length_map, List.length_map]
    exact fun _ => hcap
  obtain ⟨io', hpass⟩ := forwardLayers_eq fp c m.layers ans noBatch hs scr
    (freshRows (ids.map (embedRow fp c m))) ks (some kv) io (fun h => absurd h (by simp)) hlen
  have hscan : scan (tokenStep fp c m ans nBound) (fun L => ⟨ks L, kv L, cached⟩) ids = _ :=
    scan_map (through (layerStep fp c m.layers ans) nBound)
      (fun t => ⟨embedRow fp c m t, fun _ _ => 0⟩) (headArg fp c m (blocksAt c nBound))
      (fun L => ⟨ks L, kv L, cached⟩) ids
  have hrows : freshRows (ids.map (embedRow fp c m)) =
      ids.map fun t => ⟨embedRow fp c m t, fun _ _ => 0⟩ := by
    rw [freshRows, List.map_map]
    rfl
  have hlaunch : launch ks (some kv) scr cached = fun L => ⟨ks L, kv L, cached⟩ := rfl
  refine ⟨io', ?_⟩
  rw [hlaunch, layerMajor_eq_scan, hrows] at hpass
  rw [hscan, k3Forward]
  dsimp only
  rw [Option.isNone_some, if_neg Bool.false_ne_true, if_neg Bool.false_ne_true, hrows, hpass]
  rfl

/-- A token writes no row but its own. -/
theorem layerStep_rows {L : Nat} (s : LayerSt F) (r : TokenRow F) :
    ∀ p ≠ s.pos, (layerStep fp c m.layers ans L s r).2.kv.kv p = s.kv.kv p ∧
      (layerStep fp c m.layers ans L s r).2.kv.rope p = s.kv.rope p := by
  intro p hp
  unfold layerStep layerToken attnToken
  dsimp only
  split
  · exact ⟨rfl, rfl⟩
  · exact ⟨overwrite_singleton_ne _ _ hp, overwrite_singleton_ne _ _ hp⟩

theorem tokenStep_rows {L p : Nat} (hL : L < nBound) (sts : Nat → LayerSt F) (t : Tok)
    (hp : p ≠ (sts L).pos) :
    ((tokenStep fp c m ans nBound sts t).2 L).kv.kv p = (sts L).kv.kv p ∧
      ((tokenStep fp c m ans nBound sts t).2 L).kv.rope p = (sts L).kv.rope p := by
  apply through_each (layerStep fp c m.layers ans)
    (Q := fun s s' => ∀ p ≠ s.pos, s'.kv.kv p = s.kv.kv p ∧ s'.kv.rope p = s.kv.rope p) _ hL
  · exact hp
  · intro L s r
    exact layerStep_rows fp c m ans s r

theorem tokenStep_pos {L : Nat} (hL : L < nBound) (sts : Nat → LayerSt F) (t : Tok) :
    ((tokenStep fp c m ans nBound sts t).2 L).pos = (sts L).pos + 1 := by
  apply through_each (layerStep fp c m.layers ans) (Q := fun s s' => s'.pos = s.pos + 1) _ hL
  exact layerStep_pos fp c m.layers ans

omit [Arith F] in
theorem keepsRows_mla {L : Nat} (h : keepsRows m nBound L = true) :
    ∃ w, (m.layers L).attn = .mla w := by
  unfold keepsRows at h
  split at h
  · next w hw => exact ⟨w, hw⟩
  · exact absurd h Bool.false_ne_true

omit [Arith F] in
theorem keepsRows_lt {L : Nat} (h : keepsRows m nBound L = true) : L < nBound := by
  unfold keepsRows at h
  split at h
  · exact of_decide_eq_true h
  · exact absurd h Bool.false_ne_true

/-- The machine on the live rows is the machine on the buffers, up to rows not written yet. -/
theorem liveStates_sim {sts : Nat → LayerSt F} {cached : Nat}
    (hpos : ∀ L < nBound, (sts L).pos = cached) :
    ∀ L < nBound, (liveStates (fun L => (sts L).kda) (carriedState m nBound sts cached).live L).Sim
      (m.layers L).attn (sts L) := by
  intro L hL
  have hlen := carriedState_live_length m nBound sts cached
  refine ⟨rfl, hlen.trans (hpos L hL).symm, ?_⟩
  intro w hw p hp
  have hp : p < cached := hlen ▸ hp
  have hrow : (carriedState m nBound sts cached).live.getD p (fun _ => (fun _ => 0, fun _ => 0)) =
      posRows m nBound (fun L => (sts L).kv) p := by
    unfold Carried.live
    rw [List.getD_eq_getElem _ _ (by rwa [List.length_map, List.length_range]),
      List.getElem_map, List.getElem_range]
    rfl
  have hkeeps : keepsRows m nBound L = true := by
    unfold keepsRows
    rw [hw]
    exact decide_eq_true hL
  unfold liveStates
  dsimp only
  rw [hrow]
  unfold posRows
  rw [if_pos hkeeps]
  exact ⟨rfl, rfl⟩

/-- The step on the live rows finds what the step on the buffers finds: the argmax, the recurrent
states, and the token's own row. -/
theorem tokenStep_live {sts : Nat → LayerSt F} {cached : Nat}
    (hpos : ∀ L < nBound, (sts L).pos = cached) (t : Tok) {live : List (PosRow F)}
    (hlive : (carriedState m nBound sts cached).live = live) :
    let a := tokenStep fp c m ans nBound (liveStates (fun L => (sts L).kda) live) t
    let b := tokenStep fp c m ans nBound sts t
    a.1 = b.1 ∧ (∀ L, (a.2 L).kda = (b.2 L).kda) ∧
      posRows m nBound (fun L => (a.2 L).kv) cached =
        posRows m nBound (fun L => (b.2 L).kv) cached := by
  intro a b
  have hsim := liveStates_sim m hpos
  rw [hlive] at hsim
  obtain ⟨hout, hnext⟩ := through_sim (layerStep fp c m.layers ans) (Nat.le_refl nBound)
    (R := fun L s t => s.Sim (m.layers L).attn t)
    (fun L _ s t r h => layerStep_sim fp c m.layers ans h r) hsim
    ⟨embedRow fp c m t, fun _ _ => 0⟩
  refine ⟨congrArg (headArg fp c m (blocksAt c nBound)) hout, ?_, ?_⟩
  · intro L
    rcases Nat.lt_or_ge L nBound with hL | hL
    · exact (hnext L hL).kda
    · -- a layer that is not bound is not touched by either
      have ha : a.2 L = liveStates (fun L => (sts L).kda) live L := through_above _ hL _ _
      have hb : b.2 L = sts L := through_above _ hL _ _
      rw [ha, hb]
      rfl
  · funext L
    unfold posRows
    split
    · next hkeeps =>
      have hL := keepsRows_lt m hkeeps
      obtain ⟨w, hw⟩ := keepsRows_mla m hkeeps
      -- the row of this token is below the position reached
      have hmoved : (a.2 L).pos = cached + 1 := by
        rw [← hpos L hL, ← (hsim L hL).pos]
        exact tokenStep_pos fp c m ans hL _ t
      obtain ⟨hkv, hrope⟩ := (hnext L hL).rows w hw cached
        (Nat.lt_of_lt_of_eq (Nat.lt_succ_self cached) hmoved.symm)
      exact Prod.ext hkv hrope
    · rfl

/-- **One token.** -/
theorem run_token {sts : Nat → LayerSt F} {cached : Nat}
    (hpos : ∀ L < nBound, (sts L).pos = cached) (t : Tok) :
    let b := tokenStep fp c m ans nBound sts t
    (decoderForward fp c m ans nBound).run (carriedState m nBound sts cached) [t] =
      ⟨true, fun L => (b.2 L).kda, posRows m nBound fun L => (b.2 L).kv, [b.1]⟩ := by
  intro b
  obtain ⟨harg, hkda, hrow⟩ := tokenStep_live fp c m ans hpos t rfl
  have hlen := carriedState_live_length m nBound sts cached
  generalize hlive : (carriedState m nBound sts cached).live = live at *
  -- a pass of one token writes one row behind the live ones
  have hrun : (decoderForward fp c m ans nBound).run (carriedState m nBound sts cached) [t] =
      let a := tokenStep fp c m ans nBound (liveStates (fun L => (sts L).kda) live) t
      ⟨true, fun L => (a.2 L).kda,
        overwrite (posRows m nBound fun L => (sts L).kv) cached
          [posRows m nBound (fun L => (a.2 L).kv) live.length], [a.1]⟩ := by
    rw [Forward.run, hlive]
    rfl
  rw [hrun, hlen]
  dsimp only
  rw [hrow, harg]
  congr 1
  · funext L
    exact hkda L
  · funext p
    rcases eq_or_ne p cached with rfl | hp
    · rw [overwrite_singleton]
    · -- the rows of the other positions are as they were
      rw [overwrite_singleton_ne _ _ hp]
      funext L
      unfold posRows
      split
      · next hkeeps =>
        have hL := keepsRows_lt m hkeeps
        obtain ⟨hkv, hrope⟩ := tokenStep_rows fp c m ans hL sts t (hpos L hL ▸ hp)
        exact Prod.ext hkv.symm hrope.symm
      · rfl

/-- **The pass over the live rows is the token step over the buffers**, for any number of tokens. -/
theorem run_tokens (ids : List Tok) {sts : Nat → LayerSt F} {cached : Nat}
    (hpos : ∀ L < nBound, (sts L).pos = cached) :
    (decoderForward fp c m ans nBound).run (carriedState m nBound sts cached) ids =
      ⟨true, fun L => ((scan (tokenStep fp c m ans nBound) sts ids).2 L).kda,
        posRows m nBound fun L => ((scan (tokenStep fp c m ans nBound) sts ids).2 L).kv,
        (scan (tokenStep fp c m ans nBound) sts ids).1⟩ := by
  induction ids generalizing sts cached with
  | nil =>
      show Pass.mk true _ (overwrite _ cached []) [] = _
      rw [overwrite_nil]
      rfl
  | cons t ids ih =>
      have hnext : ∀ L < nBound, ((tokenStep fp c m ans nBound sts t).2 L).pos = cached + 1 := by
        intro L hL
        rw [← hpos L hL]
        exact tokenStep_pos fp c m ans hL sts t
      have hone := run_token fp c m ans hpos t
      rw [scan_cons]
      by_cases hids : ids = []
      · subst hids
        exact hone
      · -- the rest starts from what the first token left, one position further
        rw [Forward.run_batch _ _ _ hids, hone]
        exact congrArg (fun b : Pass (Nat → KdaState F) (PosRow F) =>
          Pass.mk true b.ks b.rows ([(tokenStep fp c m ans nBound sts t).1] ++ b.args)) (ih hnext)

/-- **`forward` is the forward pass of the generate loop.**  With room in the cache and experts that
answer alike at all times, the call on the buffers succeeds and is the `run` of `decoderForward` on
what the buffers carry, whatever scratch and the rows at or above `cached` hold. -/
theorem k3Forward_refines (noBatch : Bool) {cap cached : Nat}
    (hs : ∀ L < nBound, (m.layers L).mlp.Steady c.nExperts (ans L)) (scr : Nat → Scratch F)
    (ks : Nat → KdaState F) (kv : Nat → Kv F) (io : ExpertIo σ) (ids : List Tok)
    (hcap : cached + ids.length ≤ cap) :
    ∃ r kv', k3Forward fp c m noBatch nBound cap scr ks (some kv) cached io ids = some r ∧
      r.kv = some kv' ∧
      (decoderForward fp c m ans nBound).run ⟨ks, posRows m nBound kv, cached⟩ ids =
        ⟨true, r.ks, posRows m nBound kv', r.args⟩ := by
  obtain ⟨io', h⟩ := k3Forward_eq fp c m ans noBatch hs scr ks kv io ids hcap
  have hpos : ∀ L < nBound, (⟨ks L, kv L, cached⟩ : LayerSt F).pos = cached := fun _ _ => rfl
  exact ⟨_, _, h, rfl, run_tokens fp c m ans ids hpos⟩

end Refines

end LlmEngine.Cli
