/-
# LlmEngine.Core.SourceSim — what the decoder can see of an expert source.

The decoder asks its source for experts, and hints at batches of them.  Two sources whose related
states give the same answer to every `get`, and stay related whatever is asked or hinted, cannot be
told apart: every block, layer and pass computes the same from the one as from the other, and leaves
them related.  The relation is one on the states and the counted drops.

The two need not have states of one type, and a hint on one side needs no counterpart on the other.
So a source that keeps a cache can be compared with one that keeps nothing.

`SrcSim` is the relation one has to show of two sources, for the experts of one layer: answers and counted drops.
`ServedLike` says that a block, and an MLP, has such a source.  From there on there is one `_sim` lemma for each
function that is handed the source, in the order of `Core.Moe` and `Core.Decoder`, up to a pass over all layers
(`forwardLayers_sim`); none of them looks at what a source is.

What the two calls return is compared by `Option.Rel`, since a pass may fail for want of room in a cache: then both
fail.  The counted drops are part of what is related, so a caller may ask for them to be equal or only for the
answers.
-/
import LlmEngine.Core.Incremental

namespace LlmEngine.Core

open LlmEngine.Lib

variable {F D σ τ : Type} [Arith F] [Arith D] (fp : Fpu F D) (c : K3NumCfg F)

/-! ## The relation -/

/-- The state and the drops after a `get` that answered `r`: one that failed is counted. -/
def afterGet (io : ExpertIo σ) (r : Option K3ExpertQ × σ) : ExpertIo σ :=
  { src := r.2
    drops := match r.1 with
      | some _ => io.drops
      | none => io.drops + 1 }

/-- For the `n` experts of `layer`, the two sources answer alike from related states and stay related; a hint
on either side keeps them related too. -/
structure SrcSim (R : ExpertIo σ → ExpertIo τ → Prop) (layer n : Nat) (src : K3ExpertSrc σ) (src' : K3ExpertSrc τ) :
    Prop where
  get : ∀ io io', R io io' → ∀ e < n, (src.get io.src layer e).1 = (src'.get io'.src layer e).1 ∧
    R (afterGet io (src.get io.src layer e)) (afterGet io' (src'.get io'.src layer e))
  left : ∀ gm ∈ src.getmany, ∀ io io', R io io' → ∀ es : List Nat, (∀ e ∈ es, e < n) →
    R { io with src := gm io.src layer es } io'
  right : ∀ gm ∈ src'.getmany, ∀ io io', R io io' → ∀ es : List Nat, (∀ e ∈ es, e < n) →
    R io { io' with src := gm io'.src layer es }

/-- The same weights before another source; a resident bank stays one. -/
def K3MoeW.withSrc (w : K3MoeW F σ) (src : K3ExpertSrc τ) : K3MoeW F τ where
  gate := w.gate
  bias := w.bias
  w1 := w.w1
  w3 := w.w3
  w2 := w.w2
  latentNorm := w.latentNorm
  down := w.down
  up := w.up
  sh1 := w.sh1
  sh3 := w.sh3
  sh2 := w.sh2
  src := w.src.map fun _ => src
  layer := w.layer
  cacheOnly := false
  draft_resident := fun h => absurd h Bool.false_ne_true

/-- The MoE is not in draft mode, and its source is simulated by `src'`. -/
structure K3MoeW.ServedLike (R : ExpertIo σ → ExpertIo τ → Prop) (n : Nat) (src' : K3ExpertSrc τ) (w : K3MoeW F σ) : Prop where
  exact : w.cacheOnly = false
  sim : ∀ src ∈ w.src, SrcSim R w.layer n src src'

def Mlp.withSrc (m : Mlp F σ) (src : K3ExpertSrc τ) : Mlp F τ :=
  match m with
  | .moe w => .moe (w.withSrc src)
  | .dense gate up down => .dense gate up down

def Mlp.ServedLike (R : ExpertIo σ → ExpertIo τ → Prop) (n : Nat) (src' : K3ExpertSrc τ) (m : Mlp F σ) : Prop :=
  match m with
  | .moe w => w.ServedLike R n src'
  | .dense _ _ _ => True

def K3LayerW.withSrc (w : K3LayerW F σ) (src : K3ExpertSrc τ) : K3LayerW F τ where
  inNorm := w.inNorm
  postNorm := w.postNorm
  attnResNorm := w.attnResNorm
  attnResProj := w.attnResProj
  mlpResNorm := w.mlpResNorm
  mlpResProj := w.mlpResProj
  attn := w.attn
  mlp := w.mlp.withSrc src

omit [Arith F] in
theorem K3MoeW.withSrc_withSrc {υ : Type} (w : K3MoeW F σ) (a : K3ExpertSrc τ) (b : K3ExpertSrc υ) :
    (w.withSrc a).withSrc b = w.withSrc b := by
  simp only [withSrc, Option.map_map, Function.comp_def]

omit [Arith F] in
theorem K3LayerW.withSrc_withSrc {υ : Type} (w : K3LayerW F σ) (a : K3ExpertSrc τ) (b : K3ExpertSrc υ) :
    (w.withSrc a).withSrc b = w.withSrc b := by
  have hmlp : (w.mlp.withSrc a).withSrc b = w.mlp.withSrc b := by
    cases w.mlp with
    | moe w => exact congrArg Mlp.moe (w.withSrc_withSrc a b)
    | dense gate up down => rfl
  unfold withSrc
  dsimp only
  rw [hmlp]

omit [Arith F] in
/-- Behind a new source the weights are served as that source is simulated. -/
theorem Mlp.withSrc_servedLike {υ : Type} {R : ExpertIo τ → ExpertIo υ → Prop} {n : Nat} {m : Mlp F σ}
    {src : K3ExpertSrc τ} {src' : K3ExpertSrc υ} (h : ∀ w, m = .moe w → SrcSim R w.layer n src src') :
    (m.withSrc src).ServedLike R n src' := by
  cases m with
  | dense gate up down => exact trivial
  | moe w =>
      refine ⟨rfl, fun a ha => ?_⟩
      obtain ⟨_, -, rfl⟩ := Option.map_eq_some_iff.mp (Option.mem_def.mp ha)
      exact h w rfl

/-! ## The block -/

section Block

variable {R : ExpertIo σ → ExpertIo τ → Prop} {n : Nat} {w : K3MoeW F σ} {src' : K3ExpertSrc τ} {io : ExpertIo σ} {io' : ExpertIo τ}

omit [Arith F] in
/-- Outside draft mode a fetch is a `get`. -/
theorem fetch_exact (h : w.cacheOnly = false) (src : K3ExpertSrc σ) (io : ExpertIo σ) (e : Nat) :
    fetch w src io e = ((src.get io.src w.layer e).1, afterGet io (src.get io.src w.layer e)) := by
  unfold fetch afterGet
  rw [h, if_neg Bool.false_ne_true]
  rcases src.get io.src w.layer e with ⟨_ | q, s⟩
  · rfl
  · rfl

omit [Arith F] in
theorem fetch_sim (hw : w.ServedLike R n src') {src : K3ExpertSrc σ} (hsrc : src ∈ w.src)
    (hio : R io io') {e : Nat} (he : e < n) :
    (fetch w src io e).1 = (fetch (w.withSrc src') src' io' e).1 ∧
      R (fetch w src io e).2 (fetch (w.withSrc src') src' io' e).2 := by
  rw [fetch_exact hw.exact, fetch_exact (w := w.withSrc src') rfl]
  exact (hw.sim src hsrc).get io io' hio e he

theorem expertOut_sim (hw : w.ServedLike R n src') (z : Vec F) (hio : R io io') {e : Nat} (he : e < n) :
    (expertOut fp c w z io e).1 = (expertOut fp c (w.withSrc src') z io' e).1 ∧
      R (expertOut fp c w z io e).2 (expertOut fp c (w.withSrc src') z io' e).2 := by
  unfold expertOut
  have hsrc' : (w.withSrc src').src = w.src.map fun _ => src' := rfl
  rw [hsrc']
  cases hsrc : w.src with
  | none => exact ⟨rfl, hio⟩
  | some src =>
      obtain ⟨hq, hio'⟩ := fetch_sim hw (Option.mem_def.mpr hsrc) hio he
      exact ⟨congrArg (Option.map fun q => streamedExpert fp c q z) hq, hio'⟩

theorem sumExperts_sim (hw : w.ServedLike R n src') (z : Vec F) {slots : List (Nat × F)}
    (hslots : ∀ p ∈ slots, p.1 < n) (hio : R io io') :
    (sumExperts fp c w z slots io).1 = (sumExperts fp c (w.withSrc src') z slots io').1 ∧
      R (sumExperts fp c w z slots io).2 (sumExperts fp c (w.withSrc src') z slots io').2 := by
  unfold sumExperts
  apply List.foldl_rel (r := fun (s : Vec F × ExpertIo σ) (t : Vec F × ExpertIo τ) => s.1 = t.1 ∧ R s.2 t.2)
  · exact ⟨rfl, hio⟩
  · rintro p hp ⟨acc, jo⟩ ⟨acc', jo'⟩ ⟨rfl, hjo⟩
    obtain ⟨hout, hrel⟩ := expertOut_sim fp c hw z hjo (hslots p hp)
    rcases hout₁ : expertOut fp c w z jo p.1 with ⟨o, ko⟩
    rcases hout₂ : expertOut fp c (w.withSrc src') z jo' p.1 with ⟨o', ko'⟩
    rw [hout₁, hout₂] at hout hrel
    obtain rfl : o = o' := hout
    cases o with
    | none => exact ⟨rfl, hrel⟩
    | some edn => exact ⟨rfl, hrel⟩

omit [Arith F] in
/-- A hint is not seen, on either side. -/
theorem prefetch_sim (hw : w.ServedLike R n src') {experts : List Nat} (hexp : ∀ e ∈ experts, e < n)
    (hio : R io io') : R (prefetch w experts io) (prefetch (w.withSrc src') experts io') := by
  have hexact' : (w.withSrc src').cacheOnly = false := rfl
  have hsrc' : (w.withSrc src').src = w.src.map fun _ => src' := rfl
  have hlayer : (w.withSrc src').layer = w.layer := rfl
  unfold prefetch
  rw [hw.exact, hexact', hsrc', hlayer, if_neg Bool.false_ne_true, if_neg Bool.false_ne_true]
  cases hsrc : w.src with
  | none => exact hio
  | some src =>
      have hsim := hw.sim src (Option.mem_def.mpr hsrc)
      rw [Option.map_some, Option.bind_some, Option.bind_some]
      have hright : ∀ {jo : ExpertIo σ}, R jo io' → ∀ gm' ∈ src'.getmany,
          R jo { io' with src := gm' io'.src w.layer experts } := fun hjo gm' hgm' =>
        hsim.right gm' hgm' _ _ hjo experts hexp
      -- the hint of the one, then the hint of the other
      cases hgm : src.getmany with
      | none =>
          cases hgm' : src'.getmany with
          | none => exact hio
          | some gm' => exact hright hio gm' (Option.mem_def.mpr hgm')
      | some gm =>
          have hleft : R { io with src := gm io.src w.layer experts } io' :=
            hsim.left gm (Option.mem_def.mpr hgm) _ _ hio experts hexp
          cases hgm' : src'.getmany with
          | none => exact hleft
          | some gm' => exact hright hleft gm' (Option.mem_def.mpr hgm')

/-- **One token of `k3_moe`.** -/
theorem moeToken_sim (hw : w.ServedLike R n src') {route : Vec F → List (Nat × F)}
    (hroute : ∀ x, ∀ p ∈ route x, p.1 < n) (hio : R io io') (x : Vec F) :
    (moeToken fp c w route io x).1 = (moeToken fp c (w.withSrc src') route io' x).1 ∧
      R (moeToken fp c w route io x).2 (moeToken fp c (w.withSrc src') route io' x).2 := by
  have hused : usedSlots fp w (route x) io = (route x, io) := by
    unfold usedSlots
    rw [hw.exact, if_neg Bool.false_ne_true]
  have hused' : usedSlots fp (w.withSrc src') (route x) io' = (route x, io') := rfl
  have hexp : ∀ e ∈ (route x).map Prod.fst, e < n := by
    intro e he
    obtain ⟨p, hp, rfl⟩ := List.mem_map.mp he
    exact hroute x p hp
  unfold moeToken
  rw [hused, hused']
  obtain ⟨hacc, hrel⟩ := sumExperts_sim fp c hw (mmw fp x w.down c.hidden c.latent) (hroute x)
    (prefetch_sim hw hexp hio)
  exact ⟨congrArg (moeTail fp c w x) hacc, hrel⟩

theorem moeWith_sim (hw : w.ServedLike R n src') {route : Vec F → List (Nat × F)}
    (hroute : ∀ x, ∀ p ∈ route x, p.1 < n) (hio : R io io') (xs : List (Vec F)) :
    (moeWith fp c w route io xs).1 = (moeWith fp c (w.withSrc src') route io' xs).1 ∧
      R (moeWith fp c w route io xs).2 (moeWith fp c (w.withSrc src') route io' xs).2 := by
  apply scan_sim
  · intro s t x hst
    exact moeToken_sim fp c hw hroute hst x
  · exact hio

omit [Arith D] in
/-- The staging buffer is filled alike. -/
theorem stageAll_sim (hw : w.ServedLike R n src') {src : K3ExpertSrc σ} (hsrc : src ∈ w.src)
    (routes : List (List (Nat × F))) (zz : List (Vec F)) {uniq : List Nat} (huniq : ∀ e ∈ uniq, e < n)
    (contrib : Nat → Nat → Vec F) (hio : R io io') :
    (stageAll fp c w src routes zz uniq contrib io).1 =
        (stageAll fp c (w.withSrc src') src' routes zz uniq contrib io').1 ∧
      R (stageAll fp c w src routes zz uniq contrib io).2
        (stageAll fp c (w.withSrc src') src' routes zz uniq contrib io').2 := by
  have hlayer : (w.withSrc src').layer = w.layer := rfl
  unfold stageAll
  rw [hlayer]
  apply List.foldl_rel (r := fun (s : (Nat → Nat → Vec F) × ExpertIo σ) (t : (Nat → Nat → Vec F) × ExpertIo τ) =>
    s.1 = t.1 ∧ R s.2 t.2)
  · exact ⟨rfl, hio⟩
  · rintro e he ⟨cb, jo⟩ ⟨cb', jo'⟩ ⟨rfl, hjo⟩
    obtain ⟨hsame, hrel⟩ := (hw.sim src hsrc).get jo jo' hjo e (huniq e he)
    dsimp only
    generalize src.get jo.src w.layer e = a at hsame hrel ⊢
    generalize src'.get jo'.src w.layer e = b at hsame hrel ⊢
    obtain ⟨o, s⟩ := a
    obtain ⟨o', t⟩ := b
    obtain rfl : o = o' := hsame
    cases o with
    | none => exact ⟨rfl, hrel⟩
    | some q => exact ⟨rfl, hrel⟩

theorem moePrefillChunk_sim (hw : w.ServedLike R c.nExperts src') {src : K3ExpertSrc σ} (hsrc : src ∈ w.src)
    (route : Vec F → List (Nat × F)) (junk : Nat → Nat → Vec F) (hio : R io io') (xs : List (Vec F)) :
    (moePrefillChunk fp c w src route junk io xs).1 =
        (moePrefillChunk fp c (w.withSrc src') src' route junk io' xs).1 ∧
      R (moePrefillChunk fp c w src route junk io xs).2
        (moePrefillChunk fp c (w.withSrc src') src' route junk io' xs).2 := by
  have huniq := collect_lt c.nExperts (xs.map route).flatten
  obtain ⟨hcb, hrel⟩ := stageAll_sim fp c hw hsrc (xs.map route)
    (xs.map fun x => mmw fp x w.down c.hidden c.latent) huniq junk (prefetch_sim hw huniq hio)
  refine ⟨?_, hrel⟩
  unfold moePrefillChunk
  dsimp only
  rw [hcb]
  rfl

/-- **`k3_moe_prefill`**: the block under either source. -/
theorem moePrefillWith_sim (hw : w.ServedLike R c.nExperts src') {route : Vec F → List (Nat × F)}
    (hroute : ∀ x, ∀ p ∈ route x, p.1 < c.nExperts) (noBatch : Bool) (junk : Nat → Nat → Vec F)
    (hio : R io io') (xs : List (Vec F)) :
    (moePrefillWith fp c w route noBatch junk io xs).1 =
        (moePrefillWith fp c (w.withSrc src') route noBatch junk io' xs).1 ∧
      R (moePrefillWith fp c w route noBatch junk io xs).2
        (moePrefillWith fp c (w.withSrc src') route noBatch junk io' xs).2 := by
  have hsrc' : (w.withSrc src').src = w.src.map fun _ => src' := rfl
  have hexact' : (w.withSrc src').cacheOnly = false := rfl
  unfold moePrefillWith
  rw [hsrc', hw.exact, hexact']
  cases hsrc : w.src with
  | none => exact moeWith_sim fp c hw hroute hio xs
  | some src =>
      rw [Option.map_some]
      dsimp only
      split
      · exact moeWith_sim fp c hw hroute hio xs
      · -- piece after piece
        have hstep : ∀ s t x, R s t →
            (prefillPiece fp c w src route junk s x).1 = (prefillPiece fp c (w.withSrc src') src' route junk t x).1 ∧
              R (prefillPiece fp c w src route junk s x).2 (prefillPiece fp c (w.withSrc src') src' route junk t x).2 := by
          intro s t x hst
          unfold prefillPiece
          split
          · exact moeWith_sim fp c hw hroute hst x
          · exact moePrefillChunk_sim fp c hw (Option.mem_def.mpr hsrc) route junk hst x
        obtain ⟨hout, hrel⟩ := scan_sim (prefillPiece fp c w src route junk) hstep hio (pieces prefillChunk xs)
        exact ⟨congrArg List.flatten hout, hrel⟩

theorem mlpBlock_sim {m : Mlp F σ} (hm : m.ServedLike R c.nExperts src') (noBatch : Bool)
    (contrib : Nat → Nat → Vec F) (hio : R io io') (xs : List (Vec F)) :
    (mlpBlock fp c m noBatch contrib io xs).1 = (mlpBlock fp c (m.withSrc src') noBatch contrib io' xs).1 ∧
      R (mlpBlock fp c m noBatch contrib io xs).2
        (mlpBlock fp c (m.withSrc src') noBatch contrib io' xs).2 := by
  cases m with
  | dense gate up down => exact ⟨rfl, hio⟩
  | moe w =>
      have hroute : ∀ x, ∀ p ∈ router fp c w.gate w.bias x, p.1 < c.nExperts :=
        fun x p hp => router_lt fp c w.gate w.bias x hp
      exact moePrefillWith_sim fp c hm hroute noBatch contrib hio xs

end Block

/-! ## Layers and passes -/

section Pass

/-- Related computations go on alike. -/
theorem rel_bind {α β γ δ : Type} {S : α → β → Prop} {T : γ → δ → Prop} {a : Option α} {b : Option β}
    {f : α → Option γ} {g : β → Option δ} (h : Option.Rel S a b)
    (hfg : ∀ x y, S x y → Option.Rel T (f x) (g y)) : Option.Rel T (a.bind f) (b.bind g) := by
  cases h with
  | none => exact .none
  | some hxy => exact hfg _ _ hxy

theorem rel_map {α β γ δ : Type} {S : α → β → Prop} {T : γ → δ → Prop} {a : Option α} {b : Option β}
    {f : α → γ} {g : β → δ} (h : Option.Rel S a b) (hfg : ∀ x y, S x y → T (f x) (g y)) :
    Option.Rel T (a.map f) (b.map g) := by
  cases h with
  | none => exact .none
  | some hxy => exact .some (hfg _ _ hxy)

variable {R : ExpertIo σ → ExpertIo τ → Prop} {src' : K3ExpertSrc τ}

/-- What two layer calls leave is the same, the sources related. -/
structure LayerOut.Sim (R : ExpertIo σ → ExpertIo τ → Prop) (r : LayerOut F σ) (r' : LayerOut F τ) : Prop where
  rows : r.rows = r'.rows
  nb : r.nb = r'.nb
  state : r.state = r'.state
  cache : r.cache = r'.cache
  io : R r.io r'.io

/-- What two passes hand on is the same, the sources related. -/
structure PassState.Sim (R : ExpertIo σ → ExpertIo τ → Prop) (s : PassState F σ) (t : PassState F τ) : Prop where
  rows : s.rows = t.rows
  nb : s.nb = t.nb
  ks : s.ks = t.ks
  kv : s.kv = t.kv
  io : R s.io t.io

theorem decoderLayerInc_sim (noBatch : Bool) {w : K3LayerW F σ} (hw : w.mlp.ServedLike R c.nExperts src')
    (layerIdx nb : Nat) (rows : List (TokenRow F)) (state : KdaState F) (cache : Option (Kv F)) (cached cap : Nat)
    (scr : Scratch F) {io : ExpertIo σ} {io' : ExpertIo τ} (hio : R io io') :
    Option.Rel (LayerOut.Sim R) (decoderLayerInc fp c noBatch w layerIdx nb rows state cache cached cap scr io)
      (decoderLayerInc fp c noBatch (w.withSrc src') layerIdx nb rows state cache cached cap scr io') := by
  have hin : attnIn fp c (w.withSrc src') nb = attnIn fp c w nb := rfl
  have hattn : (w.withSrc src').attn = w.attn := rfl
  unfold decoderLayerInc
  rw [hin, hattn]
  cases attention fp c w.attn state cache scr.kv cached cap (rows.map (attnIn fp c w nb)) with
  | none => exact .none
  | some a =>
      obtain ⟨hout, hrel⟩ := mlpBlock_sim fp c hw noBatch scr.contrib hio
        ((List.zipWith (afterAttn c layerIdx nb) rows a.1).map (mlpIn fp c w (nextBlocks c layerIdx nb)))
      refine .some ⟨?_, rfl, rfl, rfl, hrel⟩
      exact congrArg (List.zipWith (afterMlp c) (List.zipWith (afterAttn c layerIdx nb) rows a.1)) hout

/-- **Layer after layer.** -/
theorem forwardLayers_sim (noBatch : Bool) {ws : Nat → K3LayerW F σ} (cached cap : Nat) (scr : Nat → Scratch F)
    {n : Nat} (hws : ∀ L < n, (ws L).mlp.ServedLike R c.nExperts src') {s : PassState F σ} {t : PassState F τ}
    (hst : s.Sim R t) :
    Option.Rel (PassState.Sim R) (forwardLayers fp c noBatch ws cached cap scr n s)
      (forwardLayers fp c noBatch (fun L => (ws L).withSrc src') cached cap scr n t) := by
  induction n with
  | zero => exact .some hst
  | succ n ih =>
      unfold forwardLayers
      apply rel_bind (ih fun L hL => hws L (Nat.lt_succ_of_lt hL))
      rintro a b ⟨hrows, hnb, hks, hkv, hio⟩
      rw [← hrows, ← hnb, ← hks, ← hkv]
      apply rel_map (decoderLayerInc_sim fp c noBatch (hws n (Nat.lt_succ_self n)) n a.nb a.rows (a.ks n)
        (a.kv.map fun kv => kv n) cached cap (scr n) hio)
      rintro r r' ⟨hrows', hnb', hstate, hcache, hio'⟩
      refine ⟨hrows', hnb', ?_, ?_, hio'⟩
      · dsimp only
        rw [hstate]
      · dsimp only
        rw [hcache]

end Pass

end LlmEngine.Core
