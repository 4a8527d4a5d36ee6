/-
# LlmEngine.Models.Qwen3 — the dense backend (`src/models/qwen3/qwen3.c`).

`qwen3_inspect` reads off a container what the planner needs to know; `qwen3_load` lays the layers out
for the streamer, decides on the LM head, and asks for a streamer with what is left of the plan's
stream budget.  The load is modelled up to that request; the buffers and kernels behind it are not.

`int` and `int64_t` arithmetic is that of the integers, overflow being undefined; a conversion to `int`
keeps the low 32 bits.

* `layerSpan` is the part of the file from the first byte of a layer's tensors to the last, and `layerLens` the
  lengths the planner is told.
* `layLayer` binds the eleven tensors of a layer, each by its offset in the layer's block; what is missing or has no
  kernel is a `LoadFail`.
* `layGguf` is the whole: metadata first, with its defaults, then the layers and the tensors at the ends.
* `wantLmResident` decides on the head, and `streamerCfg` is the request.

Inspection reads the same layers as the load does (`Models.Qwen3Plan`).  What the shapes have to be for the decoder
is not checked here or there (`Models.Qwen3Geometry`).
-/
import LlmEngine.Formats.Gguf
import LlmEngine.Runtime.Planner
import LlmEngine.Storage.Streamer
import LlmEngine.Tokenizer.Bpe

namespace LlmEngine.Models.Qwen3

open LlmEngine.Lib.LittleEndian
open LlmEngine.Formats
open LlmEngine.Runtime
open LlmEngine.Storage.Streamer
open LlmEngine.Tensor
open LlmEngine.Tokenizer (ascii)

/-- `(int)v`. -/
def cInt (v : Int) : Int := v.bmod (2 ^ 32)

/-- `%d` of a number that is not negative. -/
def decimal (n : Nat) : Bytes := (Nat.toDigits 10 n).map fun c => UInt8.ofNat c.toNat

/-- `blk.%d.`. -/
def layerPrefix (layer : Nat) : Bytes := ascii "blk." ++ decimal layer ++ ascii "."

/-! ## Spans -/

/-- One round of `layer_span`: a tensor of the layer is counted into the span from `lo` to `hi`. -/
def widen (layer : Nat) (span : Int × Int) (t : GgufTensor) : Int × Int :=
  if !(layerPrefix layer).isPrefixOf t.name then span
  else
    let a := t.fileOff
    let b := a + t.nbytes
    (if span.1 < 0 ∨ a < span.1 then a else span.1, if span.2 < 0 ∨ b > span.2 then b else span.2)

/-- `layer_span`: offset and length of the run of a layer's tensors. -/
def layerSpan (g : Gguf) (layer : Nat) : Option (Int × Int) :=
  let span := g.t.foldl (widen layer) (-1, -1)
  if span.1 < 0 then none else some (span.1, span.2 - span.1)

/-! ## Inspection -/

/-- The lengths of the layers that have tensors. -/
def layerLens (g : Gguf) (nl : Int) : List Int :=
  (List.range nl.toNat).filterMap fun layer => (layerSpan g layer).map Prod.snd

/-- `shape[i]`, zero beyond the rank. -/
def dimAt (t : GgufTensor) (i : Nat) : Int := t.shape.getD i 0

/-- `qwen3_inspect` of an opened container. -/
def inspectGguf (g : Gguf) : Option EngModelFacts := do
  let nl := cInt (← ggufI64 g (ascii "qwen3.block_count"))
  let dm := cInt (← ggufI64 g (ascii "qwen3.embedding_length"))
  let nh := cInt (← ggufI64 g (ascii "qwen3.attention.head_count"))
  let nkv := cInt (← ggufI64 g (ascii "qwen3.attention.head_count_kv"))
  let hd := cInt (← ggufI64 g (ascii "qwen3.attention.key_length"))
  let ff := cInt (← ggufI64 g (ascii "qwen3.feed_forward_length"))
  let cl := cInt (← ggufI64 g (ascii "qwen3.context_length"))
  let emb ← ggufTensor g (ascii "token_embd.weight")
  let _ ← ggufTensor g (ascii "output.weight")
  let onm ← ggufTensor g (ascii "output_norm.weight")
  let lens := layerLens g nl
  return {
    nLayers := nl
    totalWeightBytes := g.dataBytes
    residentBytes := onm.nbytes
    maxLayerBytes := lens.foldl (fun big len => if len > big then len else big) 0
    avgLayerBytes := if nl ≠ 0 then lens.sum.tdiv nl else 0
    activationBytes := (dm * 6 + nh * hd + 2 * nkv * hd + 2 * ff) * 4 + dimAt emb 1 * 4
    scratchBytes := cl * 4 + 16 * 1024 * 1024
    kvBytesPerPos := 2 * nl * nkv * hd * 4
    contextMax := cl
    nExperts := 0
    topk := 0
    expertBytes := 0 }

/-- `qwen3_inspect`; `none` is -1. -/
def qwen3Inspect (f : File) : Option EngModelFacts := (ggufOpen f).bind inspectGguf

/-! ## Loading -/

/-- `Slot`: where a weight sits in its layer's run. -/
structure Slot where
  rel : Int
  nbytes : Int
  dtype : EngDType
  inputs : Int
  outputs : Int
  deriving DecidableEq, Repr

/-- The weights of a layer, in the order of `LayerSlots`. -/
def slotNames : List Bytes :=
  ["attn_norm", "attn_q", "attn_k", "attn_v", "attn_q_norm", "attn_k_norm", "attn_output",
    "ffn_norm", "ffn_gate", "ffn_up", "ffn_down"].map ascii

/-- `bind_slot`. -/
def bindSlot (g : Gguf) (layer : Nat) (base : Int) (name : Bytes) : Option Slot :=
  (ggufTensor g (layerPrefix layer ++ name ++ ascii ".weight")).map fun t =>
    { rel := t.fileOff - base
      nbytes := t.nbytes
      dtype := t.dtype
      inputs := dimAt t 0
      outputs := if t.shape.length > 1 then dimAt t 1 else 1 }

/-- Where `qwen3_load` gives up before it has a streamer. -/
inductive LoadFail where
  | cannotOpen
  /-- "token_embd, output or output_norm is missing" -/
  | missing
  /-- the remainder by `n_kv = 0`, which has no value -/
  | divByZero
  /-- "query heads do not divide into KV heads" -/
  | heads (nHeads nKv : Int)
  /-- "heads x dim != hidden" -/
  | width (nHeads headDim dModel : Int)
  /-- "layer has no tensors" -/
  | noTensors (layer : Nat)
  /-- "missing tensor", for one slot or more -/
  | unbound (layer : Nat)
  deriving DecidableEq, Repr

/-- The part of `struct EngModel` filled before the LM head is decided, with the streamer's blocks. -/
structure Layout where
  nLayers : Int
  dModel : Int
  nHeads : Int
  nKv : Int
  headDim : Int
  dFf : Int
  vocab : Int
  ctxMax : Int
  embd : GgufTensor
  lmHead : GgufTensor
  outNorm : GgufTensor
  blocks : List EngBlock
  slots : List (List Slot)
  deriving DecidableEq

/-- `gguf_i64(g, key, &v)` with its result ignored: an absent key leaves `v` as it was. -/
def keyOr (g : Gguf) (v : Int) (key : String) : Int := (ggufI64 g (ascii key)).getD v

/-- One round of the layer loop. -/
def layLayer (g : Gguf) (layer : Nat) : Except LoadFail (EngBlock × List Slot) :=
  match layerSpan g layer with
  | none => .error (.noTensors layer)
  | some (off, len) =>
      match slotNames.mapM (bindSlot g layer off) with
      | none => .error (.unbound layer)
      | some slots => .ok (⟨off, len⟩, slots)

/-- `qwen3_load` of an opened container, up to the LM head. -/
def layGguf (g : Gguf) : Except LoadFail Layout :=
  let v₁ := keyOr g 0 "qwen3.block_count"
  let v₂ := keyOr g v₁ "qwen3.embedding_length"
  let v₃ := keyOr g v₂ "qwen3.attention.head_count"
  let v₄ := keyOr g v₃ "qwen3.attention.head_count_kv"
  let v₅ := keyOr g v₄ "qwen3.attention.key_length"
  let v₆ := keyOr g v₅ "qwen3.feed_forward_length"
  let v₇ := keyOr g v₆ "qwen3.context_length"
  match ggufTensor g (ascii "token_embd.weight"), ggufTensor g (ascii "output.weight"),
      ggufTensor g (ascii "output_norm.weight") with
  | some embd, some lmHead, some onm =>
      if cInt v₄ = 0 then .error .divByZero
      else if (cInt v₃).tmod (cInt v₄) ≠ 0 then .error (.heads (cInt v₃) (cInt v₄))
      else if cInt v₃ * cInt v₅ ≠ cInt v₂ then .error (.width (cInt v₃) (cInt v₅) (cInt v₂))
      else
        match (List.range (cInt v₁).toNat).mapM (layLayer g) with
        | .error e => .error e
        | .ok layers => .ok
            { nLayers := cInt v₁, dModel := cInt v₂, nHeads := cInt v₃, nKv := cInt v₄
              headDim := cInt v₅, dFf := cInt v₆, vocab := cInt (dimAt embd 1), ctxMax := cInt v₇
              embd := embd, lmHead := lmHead, outNorm := onm
              blocks := layers.map Prod.fst, slots := layers.map Prod.snd }
  | _, _, _ => .error .missing

/-- `qwen3_load`, up to the LM head. -/
def qwen3Layout (f : File) : Except LoadFail Layout :=
  match ggufOpen f with
  | none => .error .cannotOpen
  | some g => layGguf g

/-- `lm_need`. -/
def Layout.lmNeed (l : Layout) : Int :=
  l.vocab * ((quantRowBytes l.lmHead.dtype).getD (fun n => n * 4)) l.dModel

/-- `big_layer`. -/
def Layout.bigLayer (l : Layout) : Int :=
  l.blocks.foldl (fun big b => if b.nbytes > big then b.nbytes else big) 0

/-- `want_lm_resident`; `force` is `ENG_LM_RESIDENT` where it is 0 or 1. -/
def wantLmResident (have_ lmNeed bigLayer nLayers : Int) : Option Bool → Bool
  | some wanted => wanted && !decide (have_ < lmNeed + bigLayer)
  | none => have_ ≥ lmNeed + nLayers.tdiv 2 * bigLayer

/-- What `qwen3_load` asks `eng_streamer_create` for. -/
def Layout.streamerCfg (l : Layout) (plan : Option EngPlan) (force : Option Bool) : EngStreamerCfg :=
  let have_ := (plan.map (·.streamBudget)).getD (512 * 2 ^ 20)
  { blocks := l.blocks
    budgetBytes :=
      have_ - if wantLmResident have_ l.lmNeed l.bigLayer l.nLayers force then l.lmNeed else 0
    extraBytes := 0
    ringWant := 2
    async := true }

end LlmEngine.Models.Qwen3
