/-
# LlmEngine.Models.Qwen3Geometry — what ties the shapes of a container to the buffers (`src/models/qwen3/qwen3.c`).

The buffers are sized from metadata; what `qwen3_decode` reads and writes goes by the shapes and types of
eleven tensors a layer.  A decode call is modelled by what it touches: the list of its reads, projections,
norms and cache rows, cut off at the first that fails.

`layer_span` uses a negative number for "nothing yet", and a negative file offset for a tensor's: such a
tensor restarts the span at the tensor behind it.

* `steps` is the list, `performed` what is reached of it, and `Step.Safe` the promise for one entry: inside its
  buffer, weights inside their block, rows inside the state and apart.
* `Step.Fits` is the same in terms of the container and the plan; `Step.safe_iff` goes step by step.
* `rowsApart_of_fit` and `RowsApart.fit`: rows lie apart exactly when the state's size did not wrap.
* `slotsInside_iff`: the weights lie in their blocks exactly when the tensors of each layer do so behind the last
  restart of its span.
* `Loaded.geometryFits_iff` puts these together for a loaded model.

The last section settles which containers would divide by a number of KV heads that is zero.
-/
import LlmEngine.Models.Qwen3Context
import LlmEngine.Models.Qwen3Rows
import Mathlib.Data.List.Induction

namespace LlmEngine.Models.Qwen3

open LlmEngine.Lib.LittleEndian
open LlmEngine.Formats
open LlmEngine.Runtime
open LlmEngine.Storage.Streamer
open LlmEngine.Tensor
open LlmEngine.Tokenizer (ascii)

/-! ## What a decode call touches -/

/-- The activation buffers that projections read and write. -/
inductive Buf
  | xn | q | k | v | att | gate | up | ffn
  deriving DecidableEq, Repr

/-- The floats a buffer has. -/
def Scratch.cap (b : Scratch) : Buf → Nat
  | .xn => b.xn
  | .q => b.q
  | .k => b.k
  | .v => b.v
  | .att => b.att
  | .gate => b.gate
  | .up => b.up
  | .ffn => b.ffn

/-- What `qwen3_decode` does to the memory it was given, one read or kernel at a time. -/
inductive Step
  /-- the row of the embedding -/
  | embed (token : Int)
  /-- `eng_streamer_get` of a layer's block -/
  | get (b : EngBlock)
  /-- `n` elements of a norm vector are read -/
  | norm (dtype : EngDType) (nbytes n : Int)
  /-- `project`, from `x` to `y` -/
  | project (w : Slot) (x y : Buf)
  /-- the rows of K and V of a layer -/
  | cache (layer : Nat)
  deriving DecidableEq, Repr

namespace Layout

variable (l : Layout)

/-- The body of the layer loop.  `head_norm` reads its vector only if there is a head. -/
def layerSteps (layer : Nat) (b : EngBlock) : List Slot → List Step
  | [attnNorm, attnQ, attnK, attnV, attnQNorm, attnKNorm, attnOut, ffnNorm, ffnGate, ffnUp, ffnDown] =>
      [.get b,
        .norm attnNorm.dtype attnNorm.nbytes l.dModel,
        .project attnQ .xn .q,
        .project attnK .xn .k,
        .project attnV .xn .v,
        .norm attnQNorm.dtype attnQNorm.nbytes (if 0 < l.nHeads then l.headDim else 0),
        .norm attnKNorm.dtype attnKNorm.nbytes (if 0 < l.nKv then l.headDim else 0),
        .cache layer,
        .project attnOut .att .ffn,
        .norm ffnNorm.dtype ffnNorm.nbytes l.dModel,
        .project ffnGate .xn .gate,
        .project ffnUp .xn .up,
        .project ffnDown .gate .ffn]
  | _ => []

/-- `qwen3_decode` of a token, with or without `ENG_DEC_LOGITS`. -/
def steps (token : Int) (logits : Bool) : List Step :=
  .embed token :: (l.blocks.zip l.slots).zipIdx.flatMap (fun x => l.layerSteps x.2 x.1.1 x.1.2) ++
    if logits then [.norm l.outNorm.dtype l.outNorm.nbytes l.dModel] else []

end Layout

/-- `project` has a kernel for the slot: floats, or a registered format that can express the row and
keeps its scales within. -/
def Slot.runs (w : Slot) : Bool :=
  w.dtype = .f32 ||
    match quantRowBytes w.dtype with
    | none => false
    | some rowBytes => 0 ≤ rowBytes (cInt w.inputs) && quantScaleBytes w.dtype (cInt w.inputs) = 0

/-- The step does not make the call return -1. -/
def Step.passes (f : File) (l : Layout) : Step → Bool
  | .embed token => (storeRead f (l.embdWindow token).off (l.embdWindow token).len).isSome
  | .get b => (storeRead f b.off b.nbytes).isSome
  | .norm _ _ _ => true
  | .project w _ _ => w.runs
  | .cache _ => true

/-- What a call gets to.  A step that fails touches nothing more. -/
def performed (f : File) (l : Layout) (token : Int) (logits : Bool) : List Step :=
  (l.steps token logits).takeWhile (Step.passes f l)

/-! ## The promise -/

/-- The floats `project` writes, one for each row. -/
def Slot.writes (w : Slot) : Nat := (cInt w.outputs).toNat

/-- The floats `project` reads for each row it has. -/
def Slot.reads (w : Slot) : Nat := if w.writes = 0 then 0 else (cInt w.inputs).toNat

/-- Where in `kc` and `vc` the row of a layer and position begins, in `size_t`. -/
def rowAt (m : EngModel) (s : EngSeqState) (layer : Nat) (pos : Int) : Nat :=
  sizeT ((layer * s.context + pos) * m.kvWidth)

/-- The rows of the first `layers` layers lie in the state and apart from each other. -/
structure RowsApart (m : EngModel) (s : EngSeqState) (layers : Nat) : Prop where
  inside : ∀ layer pos, layer < layers → s.Accepts pos → rowAt m s layer pos + m.kvWidth ≤ s.floats
  apart : ∀ layer pos layer' pos', layer < layers → s.Accepts pos → layer' < layers → s.Accepts pos' →
    (layer, pos) ≠ (layer', pos') →
      rowAt m s layer pos + m.kvWidth ≤ rowAt m s layer' pos' ∨
        rowAt m s layer' pos' + m.kvWidth ≤ rowAt m s layer pos

/-- What is asked of a step. -/
def Step.Safe (m : EngModel) (s : EngSeqState) : Step → Prop
  | .embed _ => True
  | .get _ => True
  | .norm dtype nbytes n => 0 < n → dtype = .f32 ∧ n ≤ nbytes / 4
  | .project w x y => w.reads ≤ m.scratch.cap x ∧ w.writes ≤ m.scratch.cap y
  | .cache layer => RowsApart m s (layer + 1)

/-- Every weight bound to a layer lies in its block, and is where its tensor is. -/
def SlotsInside (g : Gguf) (m : EngModel) : Prop :=
  ∀ layer b ws, m.layout.blocks[layer]? = some b → m.layout.slots[layer]? = some ws →
    ∀ x ∈ slotNames.zip ws, ∃ t, ggufTensor g (layerPrefix layer ++ x.1 ++ ascii ".weight") = some t ∧
      b.off + x.2.rel = t.fileOff ∧ x.2.nbytes = t.nbytes ∧ 0 ≤ x.2.rel ∧ x.2.rel + x.2.nbytes ≤ b.nbytes

/-- **The geometry of a loaded model**, and of a state of it. -/
structure Geometry (f : File) (g : Gguf) (m : EngModel) (s : EngSeqState) : Prop where
  slots : SlotsInside g m
  steps : ∀ token logits, 0 ≤ token → token < m.layout.vocab →
    ∀ st ∈ performed f m.layout token logits, st.Safe m s

/-! ## The condition -/

/-- The width the metadata give a buffer. -/
def Layout.width (l : Layout) : Buf → Int
  | .xn => l.dModel
  | .ffn => l.dModel
  | .q => l.nHeads * l.headDim
  | .att => l.nHeads * l.headDim
  | .k => l.nKv * l.headDim
  | .v => l.nKv * l.headDim
  | .gate => l.dFf
  | .up => l.dFf

/-- The shapes and types agree with the metadata, and the rows of the layers so far with the size of the
state, which wraps around. -/
def Step.Fits (l : Layout) (context : Int) : Step → Prop
  | .embed _ => True
  | .get _ => True
  | .norm dtype nbytes n => n ≤ 0 ∨ (dtype = .f32 ∧ n * 4 ≤ nbytes)
  | .project w x y => 0 < cInt w.outputs → cInt w.inputs ≤ l.width x ∧ cInt w.outputs ≤ l.width y
  | .cache layer => (layer + 1) * context * (l.nKv * l.headDim) ≤
      l.nLayers * context * (l.nKv * l.headDim) % 2 ^ 64

/-- The tensors `layer_span` counts. -/
def ofLayer (g : Gguf) (layer : Nat) : List GgufTensor :=
  g.t.filter fun t => (layerPrefix layer).isPrefixOf t.name

/-- The tensors behind the last one with a negative offset. -/
def behind (ts : List GgufTensor) : List GgufTensor :=
  (ts.reverse.takeWhile fun t => 0 ≤ t.fileOff).reverse

/-- Every weight of a layer has one of these at or before it. -/
def LayerCovers (g : Gguf) (layer : Nat) : Prop :=
  ∀ name ∈ slotNames, ∀ t, ggufTensor g (layerPrefix layer ++ name ++ ascii ".weight") = some t →
    ∃ t' ∈ behind (ofLayer g layer), t'.fileOff ≤ t.fileOff

instance (l : Layout) (context : Int) (st : Step) : Decidable (st.Fits l context) := by
  cases st <;> unfold Step.Fits <;> infer_instance

structure GeometryFits (f : File) (g : Gguf) (l : Layout) (context : Int) : Prop where
  layers : ∀ layer : Nat, (layer : Int) < l.nLayers → LayerCovers g layer
  steps : ∀ token logits, 0 ≤ token → token < l.vocab →
    ∀ st ∈ performed f l token logits, st.Fits l context

/-! ## The rows of the state -/

section Rows

variable {m : EngModel} {s : EngSeqState} {layers : Nat}

/-- Row `i` of the first `layers` layers, by its layer and position. -/
theorem row_index {context i : Int} (hctx : 0 < context) (h0 : 0 ≤ i) (hlt : i < layers * context) :
    (i / context).toNat < layers ∧ 0 ≤ i % context ∧ i % context < context ∧
      ((i / context).toNat : Int) * context + i % context = i := by
  have hq : 0 ≤ i / context := Int.ediv_nonneg h0 hctx.le
  have hdiv := Int.ediv_lt_of_lt_mul hctx hlt
  rw [Int.toNat_of_nonneg hq]
  exact ⟨by omega, Int.emod_nonneg _ hctx.ne', Int.emod_lt_of_pos _ hctx, Int.ediv_mul_add_emod i context⟩

/-- Rows that lie in the state fit it all together: the last one where nothing wraps around, and where
something does, one that begins behind whatever could be allocated. -/
theorem RowsApart.fit (h : RowsApart m s layers) (hctx : 0 < s.context) (hkv : 0 ≤ m.kvWidth)
    (hkvLe : m.kvWidth ≤ 2 ^ 62) (hsize : s.floats * 4 < 2 ^ 63) :
    layers * s.context * m.kvWidth ≤ s.floats := by
  rcases Int.lt_or_eq_of_le hkv with hpos | hzero
  · have hrow : ∀ i : Int, 0 ≤ i → i < layers * s.context → i * m.kvWidth < 2 ^ 64 →
        i * m.kvWidth + m.kvWidth ≤ s.floats := by
      intro i h0 hlt hsmall
      obtain ⟨hlayer, hpos0, hposLt, hi⟩ := row_index hctx h0 hlt
      have hin := h.inside _ _ hlayer ⟨hpos0, hposLt⟩
      unfold rowAt at hin
      rwa [hi, sizeT_of_range (mul_nonneg h0 hkv) hsmall] at hin
    by_cases hfit : layers * s.context * m.kvWidth ≤ 2 ^ 63
    · by_cases hnone : (layers : Int) * s.context ≤ 0
      · have := mul_nonpos_of_nonpos_of_nonneg hnone hkv
        omega
      · have hmul : ((layers : Int) * s.context - 1) * m.kvWidth = layers * s.context * m.kvWidth - m.kvWidth := by
          ring
        have := hrow (layers * s.context - 1) (by omega) (by omega) (by rw [hmul]; omega)
        rw [hmul] at this
        omega
    · exfalso
      have hlo : 2 ^ 61 ≤ (2 ^ 61 / m.kvWidth + 1) * m.kvWidth := (Int.lt_ediv_add_one_mul_self _ hpos).le
      have hhi : (2 ^ 61 / m.kvWidth + 1) * m.kvWidth ≤ 2 ^ 61 + m.kvWidth := by
        rw [Int.add_mul, Int.one_mul]
        have := Int.ediv_mul_le (2 ^ 61) hpos.ne'
        omega
      have hlt : 2 ^ 61 / m.kvWidth + 1 < layers * s.context := by
        by_contra hge
        have := mul_le_mul_of_nonneg_right (not_lt.mp hge) hkv
        omega
      have hq : 0 ≤ 2 ^ 61 / m.kvWidth := Int.ediv_nonneg (by decide) hkv
      have := hrow _ (by omega) hlt (by omega)
      omega
  · rw [← hzero, Int.mul_zero]
    omega

/-- Positions of the first layers are told apart by the row they are. -/
theorem row_inj {context pos pos' : Int} {layer layer' : Nat} (hctx : 0 < context) (h0 : 0 ≤ pos)
    (h1 : pos < context) (h0' : 0 ≤ pos') (h1' : pos' < context)
    (heq : layer * context + pos = layer' * context + pos') : (layer, pos) = (layer', pos') := by
  have hl := Int.add_mul_ediv_right pos layer hctx.ne'
  have hl' := Int.add_mul_ediv_right pos' layer' hctx.ne'
  rw [Int.ediv_eq_zero_of_lt h0 h1, Int.add_comm, heq] at hl
  rw [Int.ediv_eq_zero_of_lt h0' h1', Int.add_comm] at hl'
  obtain rfl : layer = layer' := by omega
  rw [Int.add_left_cancel heq]

/-- Rows that fit all together without wrapping around lie in the state, one behind the other. -/
theorem rowsApart_of_fit (hctx : 0 < s.context) (hkv : 0 ≤ m.kvWidth) (hsize : s.floats * 4 < 2 ^ 63)
    (hfit : layers * s.context * m.kvWidth ≤ s.floats) : RowsApart m s layers := by
  have hexact : ∀ (layer : Nat) (pos : Int), layer < layers → s.Accepts pos →
      (rowAt m s layer pos : Int) = (layer * s.context + pos) * m.kvWidth ∧
        (layer * s.context + pos) * m.kvWidth + m.kvWidth ≤ layers * s.context * m.kvWidth := by
    rintro layer pos hlayer ⟨hpos0, hposLt⟩
    have hidx : (layer : Int) * s.context + pos + 1 ≤ layers * s.context := by
      have hmul : ((layer : Int) + 1) * s.context ≤ layers * s.context :=
        mul_le_mul_of_nonneg_right (by omega) hctx.le
      rw [Int.add_mul, Int.one_mul] at hmul
      omega
    have hend : ((layer : Int) * s.context + pos + 1) * m.kvWidth ≤ layers * s.context * m.kvWidth :=
      mul_le_mul_of_nonneg_right hidx hkv
    rw [Int.add_mul _ 1, Int.one_mul] at hend
    have hnn : 0 ≤ ((layer : Int) * s.context + pos) * m.kvWidth :=
      mul_nonneg (add_nonneg (mul_nonneg (Int.natCast_nonneg _) hctx.le) hpos0) hkv
    exact ⟨sizeT_of_range hnn (by omega), hend⟩
  have hbefore : ∀ i j : Int, i < j → i * m.kvWidth + m.kvWidth ≤ j * m.kvWidth := by
    intro i j hij
    have := mul_le_mul_of_nonneg_right (Int.add_one_le_iff.mpr hij) hkv
    rwa [Int.add_mul, Int.one_mul] at this
  refine ⟨fun layer pos hlayer hacc => ?_, fun layer pos layer' pos' hlayer hacc hlayer' hacc' hne => ?_⟩
  · obtain ⟨hat, hend⟩ := hexact layer pos hlayer hacc
    omega
  · rw [(hexact layer pos hlayer hacc).1, (hexact layer' pos' hlayer' hacc').1]
    rcases Int.lt_trichotomy (layer * s.context + pos) (layer' * s.context + pos') with hlt | heq | hgt
    · exact .inl (hbefore _ _ hlt)
    · exact absurd (row_inj hctx hacc.1 hacc.2 hacc'.1 hacc'.2 heq) hne
    · exact .inr (hbefore _ _ hgt)

end Rows

/-! ## The span of a layer -/

section Span

/-- The counting of `layer_span`, of a tensor of the layer. -/
def grow (span : Int × Int) (t : GgufTensor) : Int × Int :=
  (if span.1 < 0 ∨ t.fileOff < span.1 then t.fileOff else span.1,
    if span.2 < 0 ∨ t.fileOff + t.nbytes > span.2 then t.fileOff + t.nbytes else span.2)

theorem foldl_widen_eq (g : Gguf) (layer : Nat) (span : Int × Int) :
    g.t.foldl (widen layer) span = (ofLayer g layer).foldl grow span := by
  rw [ofLayer, List.foldl_filter]
  congr 1
  funext span t
  unfold widen grow
  cases (layerPrefix layer).isPrefixOf t.name <;> rfl

theorem behind_append (ts : List GgufTensor) (t : GgufTensor) :
    behind (ts ++ [t]) = if 0 ≤ t.fileOff then behind ts ++ [t] else [] := by
  unfold behind
  rw [List.reverse_append, List.reverse_singleton, List.singleton_append, List.takeWhile_cons]
  by_cases h : 0 ≤ t.fileOff
  · simp [h]
  · simp [h]

/-- What the span is after some tensors: it begins with the first of those behind the last negative one,
and ends with the last of all. -/
structure SpanOf (ts : List GgufTensor) (span : Int × Int) : Prop where
  none : behind ts = [] → span.1 < 0
  least : ∀ t ∈ behind ts, 0 ≤ span.1 ∧ span.1 ≤ t.fileOff
  attained : behind ts ≠ [] → ∃ t ∈ behind ts, t.fileOff = span.1
  last : ∀ t ∈ ts, span.2 < 0 ∨ t.fileOff + t.nbytes ≤ span.2
  ends : ∀ t ∈ ts, 0 ≤ t.fileOff + t.nbytes → 0 ≤ span.2

theorem SpanOf.grow {ts : List GgufTensor} {span : Int × Int} (h : SpanOf ts span) (t : GgufTensor) :
    SpanOf (ts ++ [t]) (grow span t) := by
  have hfirst : (Qwen3.grow span t).1 = if span.1 < 0 ∨ t.fileOff < span.1 then t.fileOff else span.1 := rfl
  have hlast : (Qwen3.grow span t).2 =
      if span.2 < 0 ∨ t.fileOff + t.nbytes > span.2 then t.fileOff + t.nbytes else span.2 := rfl
  have hends : (∀ x ∈ ts ++ [t], (Qwen3.grow span t).2 < 0 ∨ x.fileOff + x.nbytes ≤ (Qwen3.grow span t).2) ∧
      ∀ x ∈ ts ++ [t], 0 ≤ x.fileOff + x.nbytes → 0 ≤ (Qwen3.grow span t).2 := by
    rw [hlast]
    refine ⟨fun x hx => ?_, fun x hx hnn => ?_⟩
    · rcases List.mem_append.mp hx with hmem | hmem
      · have hbefore := h.last x hmem
        have hneg : span.2 < 0 → x.fileOff + x.nbytes < 0 := fun hlt => by
          by_contra hnot
          have := h.ends x hmem (not_lt.mp hnot)
          omega
        split_ifs <;> omega
      · obtain rfl := List.mem_singleton.mp hmem
        split_ifs <;> omega
    · rcases List.mem_append.mp hx with hmem | hmem
      · have := h.ends x hmem hnn
        split_ifs <;> omega
      · obtain rfl := List.mem_singleton.mp hmem
        split_ifs <;> omega
  -- a negative offset resets the minimum, so only what is pushed behind it counts
  by_cases hoff : 0 ≤ t.fileOff
  · have hbehind : behind (ts ++ [t]) = behind ts ++ [t] := by rw [behind_append, if_pos hoff]
    refine ⟨fun hnil => ?_, fun x hx => ?_, fun _ => ?_, hends.1, hends.2⟩
    · rw [hbehind] at hnil
      exact absurd hnil (by simp)
    · rw [hbehind] at hx
      rw [hfirst]
      rcases List.mem_append.mp hx with hmem | hmem
      · have := h.least x hmem
        split_ifs <;> omega
      · obtain rfl := List.mem_singleton.mp hmem
        split_ifs <;> omega
    · rw [hbehind, hfirst]
      by_cases hreset : span.1 < 0 ∨ t.fileOff < span.1
      · exact ⟨t, List.mem_append_right _ (List.mem_singleton_self t), by rw [if_pos hreset]⟩
      · have hne : behind ts ≠ [] := fun hnil => hreset (.inl (h.none hnil))
        obtain ⟨x, hx, heq⟩ := h.attained hne
        exact ⟨x, List.mem_append_left _ hx, by rw [if_neg hreset, heq]⟩
  · have hbehind : behind (ts ++ [t]) = [] := by rw [behind_append, if_neg hoff]
    refine ⟨fun _ => ?_, fun x hx => ?_, fun hne => absurd hbehind hne, hends.1, hends.2⟩
    · rw [hfirst]
      split_ifs <;> omega
    · rw [hbehind] at hx
      exact absurd hx List.not_mem_nil

theorem spanOf_foldl (ts : List GgufTensor) : SpanOf ts (ts.foldl grow (-1, -1)) := by
  induction ts using List.reverseRecOn with
  | nil => exact ⟨fun _ => by decide, by simp [behind], by simp [behind], by simp, by simp⟩
  | append_singleton ts t ih =>
      rw [List.foldl_append]
      exact ih.grow t

/-- A tensor of the layer lies in its span just when one behind the last negative one is at or before it. -/
theorem inSpan_iff {g : Gguf} (hnn : ∀ t ∈ g.t, 0 ≤ t.nbytes) {layer : Nat} {off len : Int}
    (hspan : layerSpan g layer = some (off, len)) {t : GgufTensor} (ht : t ∈ ofLayer g layer) :
    (0 ≤ t.fileOff - off ∧ t.fileOff - off + t.nbytes ≤ len) ↔
      ∃ t' ∈ behind (ofLayer g layer), t'.fileOff ≤ t.fileOff := by
  have hof := spanOf_foldl (ofLayer g layer)
  unfold layerSpan at hspan
  simp only [foldl_widen_eq] at hspan
  split_ifs at hspan with hneg
  obtain ⟨rfl, rfl⟩ := Prod.mk.inj (Option.some.inj hspan)
  have hne : behind (ofLayer g layer) ≠ [] := fun hnil => hneg (hof.none hnil)
  obtain ⟨t₀, ht₀, heq⟩ := hof.attained hne
  constructor
  · rintro ⟨hoff, -⟩
    exact ⟨t₀, ht₀, by omega⟩
  · rintro ⟨t', ht', hle⟩
    have hleast := hof.least t' ht'
    have hsize := hnn t (List.mem_of_mem_filter ht)
    have hend := hof.ends t ht (by omega)
    have hlast := hof.last t ht
    omega

end Span

/-! ## Where the weights are bound -/

theorem mapM_except_getElem? {α β ε : Type} {f : α → Except ε β} {xs : List α} : ∀ {ys : List β},
    xs.mapM f = .ok ys → ys.length = xs.length ∧ ∀ (i : Nat) (y : β), ys[i]? = some y →
      ∃ x, xs[i]? = some x ∧ f x = .ok y := by
  induction xs with
  | nil =>
      intro ys h
      obtain rfl := Except.ok.inj h
      exact ⟨rfl, fun i y hy => absurd hy (by simp)⟩
  | cons x xs ih =>
      intro ys h
      rw [List.mapM_cons] at h
      cases hx : f x with
      | error e => rw [hx] at h; exact absurd h (by simp [bind, Except.bind])
      | ok z =>
          cases hxs : xs.mapM f with
          | error e => rw [hx, hxs] at h; exact absurd h (by simp [bind, Except.bind])
          | ok zs =>
              rw [hx, hxs] at h
              obtain rfl := Except.ok.inj h
              obtain ⟨hlen, hall⟩ := ih hxs
              refine ⟨by simp [hlen], fun i y hy => ?_⟩
              cases i with
              | zero => exact ⟨x, rfl, by rw [hx, Option.some.inj hy]⟩
              | succ i => exact hall i y hy

theorem mapM_option_zip {α β : Type} {f : α → Option β} {xs : List α} : ∀ {ys : List β},
    xs.mapM f = some ys → (∀ p ∈ xs.zip ys, f p.1 = some p.2) ∧ ∀ x ∈ xs, ∃ y, (x, y) ∈ xs.zip ys := by
  induction xs with
  | nil =>
      intro ys _
      exact ⟨fun p hp => absurd hp (by simp), fun x hx => absurd hx List.not_mem_nil⟩
  | cons x xs ih =>
      intro ys h
      rw [List.mapM_cons] at h
      simp only [Option.bind_eq_bind, Option.bind_eq_some_iff] at h
      obtain ⟨z, hz, zs, hzs, hys⟩ := h
      obtain rfl := Option.some.inj hys
      obtain ⟨hpairs, hall⟩ := ih hzs
      rw [List.zip_cons_cons]
      refine ⟨fun p hp => ?_, fun x' hx' => ?_⟩
      · rcases List.mem_cons.mp hp with rfl | hmem
        · exact hz
        · exact hpairs p hmem
      · rcases List.mem_cons.mp hx' with rfl | hmem
        · exact ⟨z, List.mem_cons_self⟩
        · obtain ⟨y, hy⟩ := hall x' hmem
          exact ⟨y, List.mem_cons_of_mem _ hy⟩

/-- A tensor named like a weight of a layer is of the layer. -/
theorem mem_ofLayer {g : Gguf} {layer : Nat} {rest : Bytes} {t : GgufTensor}
    (h : ggufTensor g (layerPrefix layer ++ rest) = some t) : t ∈ ofLayer g layer := by
  unfold ggufTensor at h
  have hname := List.find?_some h
  refine List.mem_filter.mpr ⟨List.mem_of_find?_eq_some h, ?_⟩
  have heq : t.name.takeWhile (· ≠ 0) = layerPrefix layer ++ rest := by
    simpa [strEq] using hname
  have hpre : layerPrefix layer <+: t.name.takeWhile (· ≠ 0) := by
    rw [heq]
    exact List.prefix_append _ _
  exact List.isPrefixOf_iff_prefix.mpr (hpre.trans (List.takeWhile_prefix _))

/-- A layer that is laid out is its span, with its eleven weights bound to it. -/
theorem layLayer_bound {g : Gguf} {layer : Nat} {x : EngBlock × List Slot} (h : layLayer g layer = .ok x) :
    layerSpan g layer = some (x.1.off, x.1.nbytes) ∧
      slotNames.mapM (bindSlot g layer x.1.off) = some x.2 := by
  refine ⟨layLayer_ok h, ?_⟩
  unfold layLayer at h
  split at h
  · exact absurd h (by simp)
  · next off len hspan =>
      split at h
      · exact absurd h (by simp)
      · next slots hslots =>
          obtain rfl := Except.ok.inj h
          exact hslots

theorem bindSlot_some {g : Gguf} {layer : Nat} {base : Int} {name : Bytes} {w : Slot}
    (h : bindSlot g layer base name = some w) :
    ∃ t, ggufTensor g (layerPrefix layer ++ name ++ ascii ".weight") = some t ∧
      w.rel = t.fileOff - base ∧ w.nbytes = t.nbytes := by
  obtain ⟨t, ht, rfl⟩ := Option.map_eq_some_iff.mp h
  exact ⟨t, ht, rfl, rfl⟩

section Laid

variable {g : Gguf} {m : EngModel}

/-- What is laid out for a layer is the layer, laid out. -/
theorem layLayer_of_laid (hl : layGguf g = .ok m.layout) : m.layout.blocks.length = m.layout.nLayers.toNat ∧
    m.layout.slots.length = m.layout.nLayers.toNat ∧
      ∀ (layer : Nat) (b : EngBlock) (ws : List Slot),
        m.layout.blocks[layer]? = some b → m.layout.slots[layer]? = some ws → layLayer g layer = .ok (b, ws) := by
  obtain ⟨layers, hlayers, hblocks, hslots⟩ := (layGguf_laid hl).layers
  obtain ⟨hlen, hall⟩ := mapM_except_getElem? hlayers
  rw [List.length_range] at hlen
  rw [hblocks, hslots, List.length_map, List.length_map]
  refine ⟨hlen, hlen, fun layer b ws hb hws => ?_⟩
  rw [List.getElem?_map] at hb hws
  obtain ⟨x, hx, rfl⟩ := Option.map_eq_some_iff.mp hb
  rw [hx] at hws
  obtain rfl := Option.some.inj hws
  obtain ⟨i, hi, hok⟩ := hall layer x hx
  have hlt := (List.getElem?_eq_some_iff.mp hi).1
  rw [List.getElem?_eq_getElem hlt, List.getElem_range, Option.some.injEq] at hi
  rw [hi]
  exact hok

/-- The slots are bound to the tensors named for them; what is open is whether they lie in the block. -/
theorem slotsInside_layout (hl : layGguf g = .ok m.layout) :
    SlotsInside g m ↔ ∀ (layer : Nat) (b : EngBlock) (ws : List Slot),
      m.layout.blocks[layer]? = some b → m.layout.slots[layer]? = some ws →
        ∀ x ∈ slotNames.zip ws, 0 ≤ x.2.rel ∧ x.2.rel + x.2.nbytes ≤ b.nbytes := by
  obtain ⟨-, -, hall⟩ := layLayer_of_laid hl
  constructor
  · intro h layer b ws hb hws x hx
    obtain ⟨-, -, -, -, hlo, hhi⟩ := h layer b ws hb hws x hx
    exact ⟨hlo, hhi⟩
  · intro h layer b ws hb hws x hx
    obtain ⟨-, hbound⟩ := layLayer_bound (hall layer b ws hb hws)
    obtain ⟨t, ht, hrel, hsize⟩ := bindSlot_some ((mapM_option_zip hbound).1 x hx)
    obtain ⟨hlo, hhi⟩ := h layer b ws hb hws x hx
    refine ⟨t, ht, ?_, hsize, hlo, hhi⟩
    simp only at hrel
    omega

/-- **When the weights lie in their blocks.** -/
theorem slotsInside_iff (hnn : ∀ t ∈ g.t, 0 ≤ t.nbytes) (hl : layGguf g = .ok m.layout) :
    SlotsInside g m ↔ ∀ layer : Nat, (layer : Int) < m.layout.nLayers → LayerCovers g layer := by
  rw [slotsInside_layout hl]
  obtain ⟨hblocks, hslots, hall⟩ := layLayer_of_laid hl
  have hof : ∀ {layer : Nat} {name : Bytes} {t : GgufTensor},
      ggufTensor g (layerPrefix layer ++ name ++ ascii ".weight") = some t → t ∈ ofLayer g layer := by
    intro layer name t ht
    rw [List.append_assoc] at ht
    exact mem_ofLayer ht
  constructor
  · intro hin layer hlt name hname t ht
    obtain ⟨b, hb⟩ : ∃ b, m.layout.blocks[layer]? = some b := ⟨_, List.getElem?_eq_getElem (by omega)⟩
    obtain ⟨ws, hws⟩ : ∃ ws, m.layout.slots[layer]? = some ws := ⟨_, List.getElem?_eq_getElem (by omega)⟩
    obtain ⟨hspan, hbound⟩ := layLayer_bound (hall layer _ _ hb hws)
    obtain ⟨hpairs, hnames⟩ := mapM_option_zip hbound
    obtain ⟨w, hw⟩ := hnames name hname
    obtain ⟨t', ht', hrel, hsize⟩ := bindSlot_some (hpairs _ hw)
    obtain rfl := Option.some.inj (ht.symm.trans ht')
    have hboth := hin layer _ _ hb hws _ hw
    simp only at hrel hsize hboth
    exact (inSpan_iff hnn hspan (hof ht)).mp (by rw [← hrel, ← hsize]; exact hboth)
  · intro hcover layer b ws hb hws x hx
    obtain ⟨hspan, hbound⟩ := layLayer_bound (hall layer b ws hb hws)
    obtain ⟨t, ht, hrel, hsize⟩ := bindSlot_some ((mapM_option_zip hbound).1 x hx)
    have hlt := (List.getElem?_eq_some_iff.mp hb).1
    have hcov := hcover layer (by omega) x.1 (List.of_mem_zip hx).1 t ht
    rw [hrel, hsize]
    exact (inSpan_iff hnn hspan (hof ht)).mpr hcov

end Laid

/-! ## Step by step -/

/-- The buffers have the width the metadata give them. -/
theorem Layout.Buffers.cap {l : Layout} {b : Scratch} (h : l.Buffers b) (y : Buf) : (b.cap y : Int) = l.width y := by
  cases y
  · exact h.xn
  · exact h.q
  · exact h.k
  · exact h.v
  · exact h.att
  · exact h.gate
  · exact h.up
  · exact h.ffn

section Steps

variable {f : File} {direct threadOk : Bool} {plan : Option EngPlan} {force : Option Bool} {m : EngModel}

/-- **A step is safe just when it fits.** -/
theorem Step.safe_iff (h : Loaded f direct threadOk plan force m) {context : Int} {s : EngSeqState}
    (hs : stateCreate m context = some s) (st : Step) : st.Safe m s ↔ st.Fits m.layout context := by
  obtain ⟨hcontext, hctx, hsize, hfloats⟩ := stateCreate_floats hs
  have hkvLe : m.kvWidth ≤ 2 ^ 62 := (abs_le.mp (int_mul_abs h.ints.nKv h.ints.headDim)).2
  cases st with
  | embed token => exact Iff.rfl
  | get b => exact Iff.rfl
  | norm dtype nbytes n =>
      unfold Step.Safe Step.Fits
      constructor
      · intro hsafe
        by_cases hn : n ≤ 0
        · exact .inl hn
        · have := hsafe (not_le.mp hn)
          exact .inr ⟨this.1, by omega⟩
      · rintro (hn | ⟨hdt, hle⟩) hpos
        · omega
        · exact ⟨hdt, by omega⟩
  | project w x y =>
      have hx := h.buffers.cap x
      have hy := h.buffers.cap y
      show (w.reads ≤ m.scratch.cap x ∧ w.writes ≤ m.scratch.cap y) ↔
        (0 < cInt w.outputs → cInt w.inputs ≤ m.layout.width x ∧ cInt w.outputs ≤ m.layout.width y)
      unfold Slot.reads Slot.writes
      by_cases hout : 0 < cInt w.outputs
      · rw [if_neg (by omega)]
        omega
      · rw [if_pos (by omega)]
        omega
  | cache layer =>
      show RowsApart m s (layer + 1) ↔ ((layer : Int) + 1) * context * m.kvWidth ≤
        m.layout.nLayers * context * m.kvWidth % 2 ^ 64
      rw [← hfloats, ← hcontext, ← Int.natCast_one, ← Int.natCast_add]
      exact ⟨fun hapart => hapart.fit (by omega) h.buffers.kv hkvLe (by omega),
        rowsApart_of_fit (by omega) h.buffers.kv (by omega)⟩

/-- **When the geometry of a loaded model is sound.** -/
theorem Loaded.geometryFits_iff (h : Loaded f direct threadOk plan force m) {g : Gguf} (hopen : ggufOpen f = some g)
    {context : Int} {s : EngSeqState} (hs : stateCreate m context = some s) :
    Geometry f g m s ↔ GeometryFits f g m.layout context := by
  obtain ⟨g', hopen', hl⟩ := h.opened
  obtain rfl := Option.some.inj (hopen.symm.trans hopen')
  have hslots := slotsInside_iff (ggufOpen_nbytes hopen) hl
  exact ⟨fun hgeo => ⟨hslots.mp hgeo.slots,
      fun token logits h0 hlt st hst => (st.safe_iff h hs).mp (hgeo.steps token logits h0 hlt st hst)⟩,
    fun hfit => ⟨hslots.mpr hfit.layers,
      fun token logits h0 hlt st hst => (st.safe_iff h hs).mpr (hfit.steps token logits h0 hlt st hst)⟩⟩

end Steps

/-! ## The remainder by the number of KV heads -/

/-- `n_kv`: an absent key leaves the value of the key read before it. -/
def kvHeads (g : Gguf) : Int :=
  cInt (keyOr g (keyOr g (keyOr g (keyOr g 0 "qwen3.block_count") "qwen3.embedding_length")
    "qwen3.attention.head_count") "qwen3.attention.head_count_kv")

/-- The three tensors without which nothing is loaded. -/
def HasEnds (g : Gguf) : Prop :=
  ∀ name ∈ ["token_embd.weight", "output.weight", "output_norm.weight"], (ggufTensor g (ascii name)).isSome

/-- What a layer is refused for. -/
theorem layLayers_error {g : Gguf} {e : LoadFail} (ls : List Nat) (h : ls.mapM (layLayer g) = .error e) :
    ∃ layer, e = .noTensors layer ∨ e = .unbound layer := by
  induction ls with
  | nil => exact absurd h (by simp [pure, Except.pure])
  | cons layer ls ih =>
      rw [List.mapM_cons] at h
      cases hlayer : layLayer g layer with
      | error e' =>
          rw [hlayer] at h
          obtain rfl : e' = e := by simpa [bind, Except.bind] using h
          unfold layLayer at hlayer
          split at hlayer
          · exact ⟨layer, .inl (Except.error.inj hlayer).symm⟩
          · split at hlayer
            · exact ⟨layer, .inr (Except.error.inj hlayer).symm⟩
            · exact absurd hlayer (by simp)
      | ok x =>
          cases hls : ls.mapM (layLayer g) with
          | error e' =>
              rw [hlayer, hls] at h
              obtain rfl : e' = e := by simpa [bind, Except.bind] using h
              exact ih hls
          | ok xs =>
              rw [hlayer, hls] at h
              exact absurd h (by simp [bind, Except.bind, pure, Except.pure])

theorem layGguf_divByZero_iff (g : Gguf) : layGguf g = .error .divByZero ↔ HasEnds g ∧ kvHeads g = 0 := by
  have hends : HasEnds g ↔ (ggufTensor g (ascii "token_embd.weight")).isSome ∧
      (ggufTensor g (ascii "output.weight")).isSome ∧ (ggufTensor g (ascii "output_norm.weight")).isSome := by
    simp [HasEnds]
  rw [hends]
  unfold layGguf kvHeads
  simp only
  split
  · next embd lmHead onm hembd hlm honm =>
      rw [hembd, hlm, honm]
      split_ifs with hkv hgroups hwidth
      · simp [hkv]
      · simp [hkv]
      · simp [hkv]
      · refine ⟨fun h => ?_, fun h => absurd h.2 hkv⟩
        split at h
        · next e hlayers =>
            obtain ⟨layer, he⟩ := layLayers_error _ hlayers
            obtain rfl := Except.error.inj h
            exact absurd he (by simp)
        · exact absurd h (by simp)
  · next hmissing =>
      refine ⟨fun h => absurd h (by simp), fun ⟨⟨h₁, h₂, h₃⟩, _⟩ => ?_⟩
      obtain ⟨embd, hembd⟩ := Option.isSome_iff_exists.mp h₁
      obtain ⟨lmHead, hlm⟩ := Option.isSome_iff_exists.mp h₂
      obtain ⟨onm, honm⟩ := Option.isSome_iff_exists.mp h₃
      exact absurd honm (hmissing embd lmHead onm hembd hlm)

/-- **When loading divides by zero.** -/
theorem qwen3Layout_divByZero_iff (f : File) : qwen3Layout f ≠ .error .divByZero ↔
    ∀ g, ggufOpen f = some g → HasEnds g → kvHeads g ≠ 0 := by
  unfold qwen3Layout
  cases hopen : ggufOpen f with
  | none => simp
  | some g =>
      simp only [ne_eq, layGguf_divByZero_iff, Option.some.injEq, forall_eq', not_and]

/-! ## When the geometry is validated -/

/-- **What validates the geometry**: that loading does not divide by zero, a number of KV heads; that the
weights lie in their blocks, that their projections and norms keep to the buffers, and that the rows of the
cache keep to the state, the shapes and types of the container. -/
theorem geometry_iff (f : File) :
    (qwen3Layout f ≠ .error .divByZero ↔ ∀ g, ggufOpen f = some g → HasEnds g → kvHeads g ≠ 0) ∧
    ∀ (direct threadOk : Bool) (plan : Option EngPlan) (force : Option Bool) (m : EngModel)
      (g : Gguf) (context : Int) (s : EngSeqState), qwen3Load f direct threadOk plan force = .ok m →
        ggufOpen f = some g → stateCreate m context = some s →
          (Geometry f g m s ↔ GeometryFits f g m.layout context) := by
  refine ⟨qwen3Layout_divByZero_iff f, fun direct threadOk plan force m g context s hload hopen hs => ?_⟩
  exact (qwen3Load_ok hload).geometryFits_iff hopen hs

/-- The container of one layer, and a state of four positions. -/
theorem oneLayer_geometry : ∃ m g s, qwen3Load oneLayer false true none none = .ok m ∧
    ggufOpen oneLayer = some g ∧ stateCreate m 4 = some s ∧ Geometry oneLayer g m s := by
  obtain ⟨m, hload, -⟩ := oneLayer_loaded
  have hlayout : m.layout = oneLayerLayout := Except.ok.inj ((qwen3Load_layout hload).symm.trans oneLayer_laid)
  obtain ⟨g, hopen, hl⟩ := (qwen3Load_ok hload).opened
  have hs : stateCreate m 4 = some ⟨4, 4⟩ := by
    unfold stateCreate EngModel.kvWidth
    rw [hlayout]
    decide
  refine ⟨m, g, _, hload, hopen, hs, ((geometry_iff oneLayer).2 _ _ _ _ _ _ _ _ hload hopen hs).mpr ⟨?_, ?_⟩⟩
  · apply (slotsInside_iff (ggufOpen_nbytes hopen) hl).mp
    rw [slotsInside_layout hl, hlayout]
    intro layer b ws hb hws
    have hlt := (List.getElem?_eq_some_iff.mp hb).1
    obtain rfl : layer = 0 := Nat.lt_one_iff.mp hlt
    obtain rfl := Option.some.inj hb
    obtain rfl := Option.some.inj hws
    decide +kernel
  · rw [hlayout]
    intro token logits _ _ st hst
    rcases List.mem_cons.mp ((List.takeWhile_subset _) hst) with rfl | hrest
    · trivial
    · clear hst
      revert st
      cases logits <;> decide +kernel

/-- Two rows of the query projection are written to the one float `q` has. -/
theorem skewed_overrun : ∃ m g s, qwen3Load skewed false true none none = .ok m ∧
    ggufOpen skewed = some g ∧ stateCreate m 4 = some s ∧ ¬ Geometry skewed g m s := by
  obtain ⟨m, hload, hlayout⟩ := skewed_loaded
  obtain ⟨g, hopen, -⟩ := (qwen3Load_ok hload).opened
  have hs : stateCreate m 4 = some ⟨4, 4⟩ := by
    unfold stateCreate EngModel.kvWidth
    rw [hlayout]
    decide
  refine ⟨m, g, _, hload, hopen, hs, fun hgeo => ?_⟩
  have hstep : Step.project ⟨8, 8, .f32, 1, 2⟩ .xn .q ∈ performed skewed skewedLayout 0 false := by
    decide +kernel
  have hvocab : 0 < m.layout.vocab := by
    rw [hlayout]
    decide
  rw [← hlayout] at hstep
  have hsafe := hgeo.steps 0 false (le_refl 0) hvocab _ hstep
  have hcap := (qwen3Load_ok hload).buffers.cap .q
  rw [hlayout] at hcap
  have hone : (m.scratch.cap .q : Int) = 1 := hcap
  have htwo : 2 ≤ m.scratch.cap .q := hsafe.2
  omega

end LlmEngine.Models.Qwen3
