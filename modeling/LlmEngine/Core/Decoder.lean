/-
# LlmEngine.Core.Decoder — the decoder layer and the passes made of it (`k3_decoder_layer_inc`).

A pass takes a chunk of tokens through all layers.  From layer to layer it hands on the hidden
vectors and the stack of residual snapshots, which starts empty in every pass; from pass to pass
what is carried is each KDA layer's state and each MLA layer's rows.

The stages of a layer are functions of one row (`attnIn`, `afterAttn`, `mlpIn`, `afterMlp`), as the source has
them inside its loops over the tokens, with the attention and the MLP between them on the whole chunk:

    attnIn → attention → afterAttn → mlpIn → dense or MoE → afterMlp

A snapshot is taken at the first layer of a block, and each aggregation reads the snapshots so far and the row
itself.  Scratch that a layer does not clear is a parameter, so it can hold anything.

A pass fails only where a cache has no room for its tokens.  `decodeChunks` is what the front end does: chunk
after chunk, everything carried.
-/
import LlmEngine.Core.Kda
import LlmEngine.Core.Mla
import LlmEngine.Core.Moe

namespace LlmEngine.Core

open LlmEngine.Lib

/-- Exactly one of `kda` and `mla` is non-`NULL`. -/
inductive Attn (F : Type)
  | kda (w : K3KdaW F)
  | mla (w : K3MlaW F)

/-- `moe`, or the dense weights when it is `NULL`. -/
inductive Mlp (F σ : Type)
  | moe (w : K3MoeW F σ)
  | dense (gate up down : Mat F)

/-- `K3LayerW`. -/
structure K3LayerW (F σ : Type) where
  inNorm : Vec F
  postNorm : Vec F
  attnResNorm : Vec F
  attnResProj : Vec F
  mlpResNorm : Vec F
  mlpResProj : Vec F
  attn : Attn F
  mlp : Mlp F σ

/-- Row `t` of the hidden state and of `block_residual`. -/
structure TokenRow (F : Type) where
  h : Vec F
  blocks : Nat → Vec F

/-- What uninitialised memory a layer may be handed: the rows of an uncached attention, and the
staging buffer of a batched MoE. -/
structure Scratch (F : Type) where
  kv : Kv F
  contrib : Nat → Nat → Vec F

variable {F D σ : Type} [Arith F] [Arith D] (fp : Fpu F D) (c : K3NumCfg F)

/-! ## Residual aggregation, per token -/

/-- The aggregation over `nb` snapshots and the running residual; gain and projection fold into one
vector. -/
def aggregate (norm proj : Vec F) (nb : Nat) (blocks : Nat → Vec F) (pref : Vec F) : Vec F :=
  attnRes fp (fun b => if b < nb then blocks b else pref)
    (tab c.hidden fun i => norm i * proj i) (nb + 1) c.hidden c.rmsEps

/-- The normalised input of the attention: aggregated only when snapshots already exist. -/
def attnIn (w : K3LayerW F σ) (nb : Nat) (r : TokenRow F) : Vec F :=
  let h := if 0 < nb then aggregate fp c w.attnResNorm w.attnResProj nb r.blocks r.h else r.h
  rmsnorm fp w.inNorm h c.hidden c.rmsEps

/-- A block boundary. -/
def isBoundary (layerIdx : Nat) : Bool := layerIdx % c.attnResBlock == 0

/-- `*n_blocks` after the layer. -/
def nextBlocks (layerIdx nb : Nat) : Nat := if isBoundary c layerIdx then nb + 1 else nb

/-- The residual and the snapshots after the attention: a boundary pushes the running residual and
starts a new one from the attention's output. -/
def afterAttn (layerIdx nb : Nat) (r : TokenRow F) (tmp : Vec F) : TokenRow F :=
  if isBoundary c layerIdx then ⟨tmp, Function.update r.blocks nb r.h⟩
  else ⟨addTo c.hidden r.h tmp, r.blocks⟩

/-- The normalised input of the MLP: aggregated unconditionally. -/
def mlpIn (w : K3LayerW F σ) (nb : Nat) (r : TokenRow F) : Vec F :=
  rmsnorm fp w.postNorm (aggregate fp c w.mlpResNorm w.mlpResProj nb r.blocks r.h) c.hidden
    c.rmsEps

/-- The residual after the MLP, which is the layer's output. -/
def afterMlp (r : TokenRow F) (tmp : Vec F) : TokenRow F := ⟨addTo c.hidden r.h tmp, r.blocks⟩

/-- The dense MLP on one token. -/
def denseMlp (gate up down : Mat F) (x : Vec F) : Vec F :=
  let dgu := cat c.denseInter (mmw fp x gate c.hidden c.denseInter)
    (mmw fp x up c.hidden c.denseInter)
  mmw fp (situGlu fp c dgu c.denseInter) down c.denseInter c.hidden

/-! ## The layer -/

/-- What a layer call leaves behind. -/
structure LayerOut (F σ : Type) where
  rows : List (TokenRow F)
  nb : Nat
  state : KdaState F
  cache : Option (Kv F)
  io : ExpertIo σ

/-- The attention of a layer: outputs, KDA state, rows. -/
def attention (a : Attn F) (state : KdaState F) (cache : Option (Kv F)) (scr : Kv F)
    (cached cap : Nat) (xs : List (Vec F)) :
    Option (List (Vec F) × KdaState F × Option (Kv F)) :=
  match a with
  | .kda w =>
      some ((kdaLayer fp c w (some state) xs).1,
        (kdaLayer fp c w (some state) xs).2.getD state, cache)
  | .mla w =>
      (mlaCached fp c w cache scr cached cap xs).map fun r => (r.1, state, r.2)

/-- The MLP of a layer. -/
def mlpBlock (m : Mlp F σ) (noBatch : Bool) (contrib : Nat → Nat → Vec F) (io : ExpertIo σ)
    (xs : List (Vec F)) : List (Vec F) × ExpertIo σ :=
  match m with
  | .moe w => k3MoePrefill fp c w noBatch contrib io xs
  | .dense gate up down => (xs.map (denseMlp fp c gate up down), io)

/-- `k3_decoder_layer_inc`; `none` is the fatal cache bound. -/
def decoderLayerInc (noBatch : Bool) (w : K3LayerW F σ) (layerIdx nb : Nat)
    (rows : List (TokenRow F)) (state : KdaState F) (cache : Option (Kv F)) (cached cap : Nat)
    (scr : Scratch F) (io : ExpertIo σ) : Option (LayerOut F σ) :=
  (attention fp c w.attn state cache scr.kv cached cap (rows.map (attnIn fp c w nb))).map fun a =>
    let nb' := nextBlocks c layerIdx nb
    let mids := List.zipWith (afterAttn c layerIdx nb) rows a.1
    let m := mlpBlock fp c w.mlp noBatch scr.contrib io (mids.map (mlpIn fp c w nb'))
    { rows := List.zipWith (afterMlp c) mids m.1
      nb := nb'
      state := a.2.1
      cache := a.2.2
      io := m.2 }

/-! ## Passes -/

/-- What a pass hands from layer to layer. -/
structure PassState (F σ : Type) where
  rows : List (TokenRow F)
  nb : Nat
  ks : Nat → KdaState F
  /-- `NULL` when the pass recomputes everything -/
  kv : Option (Nat → Kv F)
  io : ExpertIo σ

/-- The first `n` layers of a pass. -/
def forwardLayers (noBatch : Bool) (ws : Nat → K3LayerW F σ) (cached cap : Nat)
    (scr : Nat → Scratch F) : Nat → PassState F σ → Option (PassState F σ)
  | 0, st => some st
  | n + 1, st =>
      (forwardLayers noBatch ws cached cap scr n st).bind fun st =>
        (decoderLayerInc fp c noBatch (ws n) n st.nb st.rows (st.ks n) (st.kv.map fun kv => kv n)
            cached cap (scr n) st.io).map fun r =>
          { rows := r.rows
            nb := r.nb
            ks := Function.update st.ks n r.state
            kv := st.kv.map fun kv => Function.update kv n (r.cache.getD (kv n))
            io := r.io }

/-- The rows a pass starts from: no snapshot yet, and the snapshot buffer cleared. -/
def freshRows (hs : List (Vec F)) : List (TokenRow F) := hs.map fun h => ⟨h, fun _ _ => 0⟩

/-- A chunk of hidden vectors through all layers. -/
def forwardChunk (noBatch : Bool) (ws : Nat → K3LayerW F σ) (cached cap : Nat)
    (scr : Nat → Scratch F) (ks : Nat → KdaState F) (kv : Option (Nat → Kv F)) (io : ExpertIo σ)
    (hs : List (Vec F)) : Option (PassState F σ) :=
  forwardLayers fp c noBatch ws cached cap scr c.nLayers ⟨freshRows hs, 0, ks, kv, io⟩

/-- What is left after a number of chunks. -/
structure Decoded (F σ : Type) where
  /-- the hidden vectors of each chunk -/
  outs : List (List (Vec F))
  ks : Nat → KdaState F
  kv : Option (Nat → Kv F)
  io : ExpertIo σ

/-- Chunk after chunk with everything carried, `cached` being the tokens consumed so far.  Scratch
holds whatever it holds at each layer of each pass. -/
def decodeChunks (noBatch : Bool) (ws : Nat → K3LayerW F σ) (cap : Nat)
    (scr : Nat → Nat → Scratch F) :
    Nat → (Nat → KdaState F) → Option (Nat → Kv F) → ExpertIo σ → List (List (Vec F)) →
      Option (Decoded F σ)
  | _, ks, kv, io, [] => some ⟨[], ks, kv, io⟩
  | cached, ks, kv, io, hs :: chunks =>
      (forwardChunk fp c noBatch ws cached cap (scr cached) ks kv io hs).bind fun st =>
        (decodeChunks noBatch ws cap scr (cached + hs.length) st.ks st.kv st.io chunks).map
          fun r => { r with outs := st.rows.map TokenRow.h :: r.outs }

end LlmEngine.Core
