/-
# LlmEngine.Cli.ForwardCalls — one call of `forward` after the other, before any expert source.

`k3_run` feeds the prompt and then what it generates in a number of calls, each on what the last one left:
recurrent states, rows, and the expert source.  Before two sources the decoder cannot tell apart
(`Core.SourceSim`) the calls answer the same argmaxes; before one that answers alike at all times they are
the token machine's.

`forwardCalls` carries what the front end carries: the number of tokens so far, states, rows and the source's state.
A call that fails ends the run, on either side.

* `forwardCalls_sim` is the induction on the calls, from `k3Forward_sim` for one call, which in turn is a pass
  (`Core.SourceSim`) between the embedding and the head.
* A source that answers alike is a special case with no state on the other side, and there the answers are those of
  one-token steps in order (`tokenCalls`).

Scratch of each call may hold anything.
-/
import LlmEngine.Cli.DecoderPass
import LlmEngine.Core.SourceSim

namespace LlmEngine.Cli

open LlmEngine.Core LlmEngine.Lib LlmEngine.Lib.Buffer

variable {F D σ τ : Type} [Arith F] [Arith D] (fp : Fpu F D) (c : K3NumCfg F)

/-! ## `forward` under either source -/

/-- The same model before another source. -/
def K3ModelW.withSrc (m : K3ModelW F σ) (src : K3ExpertSrc τ) : K3ModelW F τ where
  embed := m.embed
  outRes := m.outRes
  norm := m.norm
  lmHead := m.lmHead
  layers := fun L => (m.layers L).withSrc src

omit [Arith F] in
theorem K3ModelW.withSrc_withSrc {υ : Type} (m : K3ModelW F σ) (a : K3ExpertSrc τ) (b : K3ExpertSrc υ) :
    (m.withSrc a).withSrc b = m.withSrc b := by
  unfold withSrc
  dsimp only
  simp only [K3LayerW.withSrc_withSrc]

/-- What two calls of `forward` leave is the same, the sources related. -/
structure ForwardOut.Sim (R : ExpertIo σ → ExpertIo τ → Prop) (r : ForwardOut F σ) (r' : ForwardOut F τ) : Prop where
  args : r.args = r'.args
  ks : r.ks = r'.ks
  kv : r.kv = r'.kv
  io : R r.io r'.io

theorem k3Forward_sim {R : ExpertIo σ → ExpertIo τ → Prop} {src' : K3ExpertSrc τ} {m : K3ModelW F σ}
    (noBatch : Bool) {nBound : Nat} (hm : ∀ L < nBound, (m.layers L).mlp.ServedLike R c.nExperts src') (cap : Nat)
    (scr : Nat → Scratch F) (ks : Nat → KdaState F) (kv : Option (Nat → Kv F)) (cached : Nat) {io : ExpertIo σ}
    {io' : ExpertIo τ} (hio : R io io') (ids : List Tok) :
    Option.Rel (ForwardOut.Sim R) (k3Forward fp c m noBatch nBound cap scr ks kv cached io ids)
      (k3Forward fp c (m.withSrc src') noBatch nBound cap scr ks kv cached io' ids) := by
  have hembed : embedRow fp c (m.withSrc src') = embedRow fp c m := rfl
  have hhead : headArg fp c (m.withSrc src') = headArg fp c m := rfl
  unfold k3Forward
  rw [hembed, hhead]
  apply rel_map
  · apply forwardLayers_sim fp c noBatch _ cap scr hm
    cases kv with
    | none => exact ⟨rfl, rfl, rfl, rfl, hio⟩
    | some kv => exact ⟨rfl, rfl, rfl, rfl, hio⟩
  · rintro s t ⟨hrows, hnb, hks, hkv, hio'⟩
    refine ⟨?_, hks, hkv, hio'⟩
    dsimp only
    rw [hrows, hnb]

/-! ## Call after call -/

/-- What a number of calls leave: the argmaxes of each, and the source. -/
structure CallsOut (σ : Type) where
  args : List (List Tok)
  io : ExpertIo σ

/-- `forward` on one batch of tokens after the other, with everything carried. -/
def forwardCalls (m : K3ModelW F σ) (noBatch : Bool) (nBound cap : Nat) (scr : Nat → Nat → Scratch F) :
    Nat → (Nat → KdaState F) → (Nat → Kv F) → ExpertIo σ → List (List Tok) → Option (CallsOut σ)
  | _, _, _, io, [] => some ⟨[], io⟩
  | cached, ks, kv, io, ids :: calls =>
      (k3Forward fp c m noBatch nBound cap (scr cached) ks (some kv) cached io ids).bind fun r =>
        (forwardCalls m noBatch nBound cap scr (cached + ids.length) r.ks (r.kv.getD kv) r.io calls).map fun q =>
          ⟨r.args :: q.args, q.io⟩

theorem forwardCalls_sim {R : ExpertIo σ → ExpertIo τ → Prop} {src' : K3ExpertSrc τ} {m : K3ModelW F σ}
    (noBatch : Bool) {nBound : Nat} (hm : ∀ L < nBound, (m.layers L).mlp.ServedLike R c.nExperts src') (cap : Nat)
    (scr : Nat → Nat → Scratch F) (calls : List (List Tok)) (cached : Nat) (ks : Nat → KdaState F)
    (kv : Nat → Kv F) (io : ExpertIo σ) (io' : ExpertIo τ) (hio : R io io') :
    Option.Rel (fun (q : CallsOut σ) (q' : CallsOut τ) => q.args = q'.args ∧ R q.io q'.io)
      (forwardCalls fp c m noBatch nBound cap scr cached ks kv io calls)
      (forwardCalls fp c (m.withSrc src') noBatch nBound cap scr cached ks kv io' calls) := by
  induction calls generalizing cached ks kv io io' with
  | nil => exact .some ⟨rfl, hio⟩
  | cons ids calls ih =>
      unfold forwardCalls
      apply rel_bind (k3Forward_sim fp c noBatch hm cap (scr cached) ks (some kv) cached hio ids)
      rintro r r' ⟨hargs, hks, hkv, hio'⟩
      rw [← hks, ← hkv]
      apply rel_map (ih (cached + ids.length) r.ks (r.kv.getD kv) r.io r'.io hio')
      rintro q q' ⟨hq, hrel⟩
      exact ⟨by dsimp only; rw [hargs, hq], hrel⟩

/-- The argmaxes the token machine answers to one batch after the other. -/
def tokenCalls (m : K3ModelW F σ) (ans : Nat → Nat → Option K3ExpertQ) (nBound : Nat) :
    (Nat → LayerSt F) → List (List Tok) → List (List Tok)
  | _, [] => []
  | sts, ids :: calls =>
      (scan (tokenStep fp c m ans nBound) sts ids).1 ::
        tokenCalls m ans nBound (scan (tokenStep fp c m ans nBound) sts ids).2 calls

/-- The layers that are not bound do not matter. -/
theorem scan_tokenStep_congr (m : K3ModelW F σ) (ans : Nat → Nat → Option K3ExpertQ) {nBound : Nat}
    {sts sts' : Nat → LayerSt F} (h : ∀ L < nBound, sts L = sts' L) (ids : List Tok) :
    (scan (tokenStep fp c m ans nBound) sts ids).1 = (scan (tokenStep fp c m ans nBound) sts' ids).1 ∧
      ∀ L < nBound, (scan (tokenStep fp c m ans nBound) sts ids).2 L =
        (scan (tokenStep fp c m ans nBound) sts' ids).2 L := by
  refine scan_sim (tokenStep fp c m ans nBound) (R := fun (s t : Nat → LayerSt F) => ∀ L < nBound, s L = t L) ?_ h ids
  intro s t x hst
  obtain ⟨hout, hrel⟩ := through_sim (layerStep fp c m.layers ans) (Nat.le_refl nBound)
    (R := fun _ s t => s = t) (fun L _ s t r h => by rw [h]; exact ⟨rfl, rfl⟩) hst ⟨embedRow fp c m x, fun _ _ => 0⟩
  exact ⟨congrArg (headArg fp c m (blocksAt c nBound)) hout, hrel⟩

theorem tokenCalls_congr (m : K3ModelW F σ) (ans : Nat → Nat → Option K3ExpertQ) {nBound : Nat}
    (calls : List (List Tok)) {sts sts' : Nat → LayerSt F} (h : ∀ L < nBound, sts L = sts' L) :
    tokenCalls fp c m ans nBound sts calls = tokenCalls fp c m ans nBound sts' calls := by
  induction calls generalizing sts sts' with
  | nil => rfl
  | cons ids calls ih =>
      obtain ⟨hout, hrel⟩ := scan_tokenStep_congr fp c m ans h ids
      rw [tokenCalls, tokenCalls, hout, ih hrel]

theorem scan_tokenStep_pos (m : K3ModelW F σ) (ans : Nat → Nat → Option K3ExpertQ) {nBound L : Nat} (hL : L < nBound)
    (ids : List Tok) (sts : Nat → LayerSt F) :
    ((scan (tokenStep fp c m ans nBound) sts ids).2 L).pos = (sts L).pos + ids.length := by
  induction ids generalizing sts with
  | nil => rfl
  | cons t ids ih =>
      rw [scan_cons, ih, tokenStep_pos fp c m ans hL, List.length_cons, Nat.add_assoc, Nat.add_comm 1]

/-- **Calls are the token machine**, for experts that answer alike at all times and room in the cache. -/
theorem forwardCalls_eq (m : K3ModelW F σ) (ans : Nat → Nat → Option K3ExpertQ) (noBatch : Bool) {nBound cap : Nat}
    (hs : ∀ L < nBound, (m.layers L).mlp.Steady c.nExperts (ans L)) (scr : Nat → Nat → Scratch F)
    (calls : List (List Tok)) (cached : Nat) (ks : Nat → KdaState F) (kv : Nat → Kv F) (io : ExpertIo σ)
    (hcap : cached + calls.flatten.length ≤ cap) :
    ∃ io', forwardCalls fp c m noBatch nBound cap scr cached ks kv io calls =
      some ⟨tokenCalls fp c m ans nBound (fun L => ⟨ks L, kv L, cached⟩) calls, io'⟩ := by
  induction calls generalizing cached ks kv io with
  | nil => exact ⟨io, rfl⟩
  | cons ids calls ih =>
      rw [List.flatten_cons, List.length_append] at hcap
      obtain ⟨io₁, hone⟩ := k3Forward_eq fp c m ans noBatch hs (scr cached) ks kv io ids
        (show cached + ids.length ≤ cap by omega)
      generalize hnext : (scan (tokenStep fp c m ans nBound) (fun L => ⟨ks L, kv L, cached⟩) ids).2 = next at hone
      obtain ⟨io', hrest⟩ := ih (cached + ids.length) (fun L => (next L).kda) (fun L => (next L).kv) io₁ (by omega)
      -- the next call finds the bound layers where this one left them
      have hagree : ∀ L < nBound, (⟨(next L).kda, (next L).kv, cached + ids.length⟩ : LayerSt F) = next L := by
        intro L hL
        have hpos := scan_tokenStep_pos fp c m ans hL ids fun L => ⟨ks L, kv L, cached⟩
        rw [hnext] at hpos
        have hpos : (next L).pos = cached + ids.length := hpos
        rw [← hpos]
      refine ⟨io', ?_⟩
      rw [forwardCalls, hone, Option.bind_some]
      dsimp only
      rw [Option.getD_some, hrest, Option.map_some, tokenCalls, hnext, tokenCalls_congr fp c m ans calls hagree]

end LlmEngine.Cli
