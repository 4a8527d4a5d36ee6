/-
# LlmEngine.Models.Qwen3Plan — from a viable plan to a streamer.

The planner counts a layer at its raw length, the streamer at a padded slot, and the loader may take
the LM head out of the same budget in between.  Inspection and loading see the same layers
(`layGguf_blocks`), so whether the streamer is granted is a comparison of one slot and the head with
what the plan had to give (`qwen3_streamer_iff`).

* `layerSpan_nonneg`, `layLayer_ok`: what a layer's span is, and that both functions take it.
* `layGguf_blocks`: the blocks that are laid out are the layers that were measured.
* `headShare` is what the head takes off the room, and `qwen3_streamer_iff` the comparison.

`oneLayer` is a container of one layer, written out byte by byte; it is parsed, inspected and laid out here for the
witnesses of the modules that follow.  `oneLayer_refused` is a plan that is viable and cannot be loaded.
-/
import LlmEngine.Formats.GgufEncode
import LlmEngine.Formats.GgufHostile
import LlmEngine.Models.Qwen3
import LlmEngine.Storage.StreamerSizing

namespace LlmEngine.Models.Qwen3

open LlmEngine.Lib.LittleEndian
open LlmEngine.Formats
open LlmEngine.Runtime
open LlmEngine.Storage
open LlmEngine.Storage.Streamer
open LlmEngine.Tokenizer (ascii)

/-! ## The layers of a container -/

section Spans

variable {g : Gguf}

/-- The end of a span that has a start is not before it. -/
theorem foldl_widen_ordered (layer : Nat) (ts : List GgufTensor) : ∀ span : Int × Int,
    (∀ t ∈ ts, 0 ≤ t.nbytes) → (0 ≤ span.1 → span.1 ≤ span.2) →
      0 ≤ (ts.foldl (widen layer) span).1 →
        (ts.foldl (widen layer) span).1 ≤ (ts.foldl (widen layer) span).2 := by
  induction ts with
  | nil => intro span _ hspan; exact hspan
  | cons t ts ih =>
      intro span hts hspan
      have ht := hts t List.mem_cons_self
      rw [List.foldl_cons]
      apply ih
      · exact fun t' ht' => hts t' (List.mem_cons_of_mem t ht')
      · unfold widen
        simp only
        split_ifs <;> omega

theorem layerSpan_nonneg (hnn : ∀ t ∈ g.t, 0 ≤ t.nbytes) {layer : Nat} {off len : Int}
    (h : layerSpan g layer = some (off, len)) : 0 ≤ len := by
  have hordered := foldl_widen_ordered layer g.t (-1, -1) hnn (by simp)
  unfold layerSpan at h
  simp only at h
  split_ifs at h with hneg
  obtain ⟨-, rfl⟩ := Prod.mk.inj (Option.some.inj h)
  have hle := hordered (not_lt.mp hneg)
  omega

/-- A layer that is laid out has the length of its span. -/
theorem layLayer_ok {layer : Nat} {x : EngBlock × List Slot} (h : layLayer g layer = .ok x) :
    layerSpan g layer = some (x.1.off, x.1.nbytes) := by
  unfold layLayer at h
  split at h
  · exact absurd h (by simp)
  · next off len hspan =>
      split at h
      · exact absurd h (by simp)
      · obtain rfl := Except.ok.inj h
        exact hspan

/-- The layers laid out are the layers inspected. -/
theorem layLayers_ok (hnn : ∀ t ∈ g.t, 0 ≤ t.nbytes) (ls : List Nat) :
    ∀ {layers : List (EngBlock × List Slot)}, ls.mapM (layLayer g) = .ok layers →
      layers.map (·.1.nbytes) = ls.filterMap (fun layer => (layerSpan g layer).map Prod.snd) ∧
        layers.length = ls.length ∧ ∀ x ∈ layers, 0 ≤ x.1.nbytes := by
  induction ls with
  | nil =>
      intro layers h
      obtain rfl := Except.ok.inj h
      simp
  | cons layer ls ih =>
      intro layers h
      rw [List.mapM_cons] at h
      cases hlayer : layLayer g layer with
      | error e => rw [hlayer] at h; exact absurd h (by simp [bind, Except.bind])
      | ok x =>
          cases hls : ls.mapM (layLayer g) with
          | error e => rw [hlayer, hls] at h; exact absurd h (by simp [bind, Except.bind])
          | ok xs =>
              rw [hlayer, hls] at h
              obtain rfl := Except.ok.inj h
              obtain ⟨hlens, hcount, hpos⟩ := ih hls
              have hspan := layLayer_ok hlayer
              refine ⟨?_, ?_, ?_⟩
              · simp [hspan, hlens]
              · simp [hcount]
              · intro y hy
                rcases List.mem_cons.mp hy with rfl | hmem
                · exact layerSpan_nonneg hnn hspan
                · exact hpos y hmem

end Spans

/-! ## Inspection and loading -/

/-- The sizes of an opened container's tensors are sizes. -/
theorem ggufOpen_nbytes {f : File} {g : Gguf} (hopen : ggufOpen f = some g) :
    ∀ t ∈ g.t, 0 ≤ t.nbytes :=
  fun t ht => (ggufOpen_tensors hopen t ht).nbytes_nonneg

/-- What inspection says of the layers. -/
theorem inspectGguf_layers {g : Gguf} {facts : EngModelFacts} (h : inspectGguf g = some facts) :
    ∃ v, ggufI64 g (ascii "qwen3.block_count") = some v ∧ facts.nLayers = cInt v ∧
      facts.maxLayerBytes = largest (layerLens g (cInt v)) ∧ facts.nExperts = 0 := by
  unfold inspectGguf at h
  simp only [Option.bind_eq_bind, Option.bind_eq_some_iff] at h
  obtain ⟨v, hv, _, _, _, _, _, _, _, _, _, _, _, _, _, _, _, _, _, _, hfacts⟩ := h
  obtain rfl := Option.some.inj hfacts
  exact ⟨v, hv, rfl, rfl, rfl⟩

/-- **Loading lays out the layers that inspection measured.** -/
theorem layGguf_blocks {g : Gguf} {facts : EngModelFacts} {l : Layout}
    (hnn : ∀ t ∈ g.t, 0 ≤ t.nbytes) (hfacts : inspectGguf g = some facts)
    (hl : layGguf g = .ok l) :
    l.nLayers = facts.nLayers ∧ facts.maxLayerBytes = largest (l.blocks.map (·.nbytes)) ∧
      (l.blocks ≠ [] ↔ 0 < facts.nLayers) ∧ ∀ b ∈ l.blocks, 0 ≤ b.nbytes := by
  obtain ⟨v, hv, hnl, hmax, -⟩ := inspectGguf_layers hfacts
  have hkey : keyOr g 0 "qwen3.block_count" = v := by
    unfold keyOr
    rw [hv]
    rfl
  unfold layGguf at hl
  simp only [hkey] at hl
  split at hl
  · simp only [check_ok_iff] at hl
    obtain ⟨-, -, -, hl⟩ := hl
    split at hl
    · exact absurd hl (by simp)
    · next layers hlayers =>
        obtain rfl := Except.ok.inj hl
        obtain ⟨hlens, hcount, hpos⟩ := layLayers_ok hnn _ hlayers
        rw [List.length_range] at hcount
        have hmap : (layers.map Prod.fst).map (·.nbytes) = layers.map (·.1.nbytes) := by
          rw [List.map_map]
          rfl
        refine ⟨hnl.symm, ?_, ?_, ?_⟩
        · rw [hmap, hlens, hmax]
          rfl
        · rw [hnl, Ne, List.map_eq_nil_iff, ← List.length_eq_zero_iff, hcount]
          omega
        · intro b hb
          obtain ⟨x, hx, rfl⟩ := List.mem_map.mp hb
          exact hpos x hx
  · exact absurd hl (by simp)

theorem Layout.bigLayer_eq (l : Layout) : l.bigLayer = largest (l.blocks.map (·.nbytes)) := by
  unfold Layout.bigLayer largest
  rw [List.foldl_map]

/-- What the LM head takes of `room` bytes for a model with these facts. -/
def headShare (l : Layout) (facts : EngModelFacts) (room : Int) (force : Option Bool) : Int :=
  if wantLmResident room l.lmNeed facts.maxLayerBytes facts.nLayers force then l.lmNeed else 0

/-- **When a viable plan can be loaded**: there is a layer, and the room the plan leaves the weights
holds a padded slot for the largest layer beside the LM head, where the loader takes that in. -/
theorem qwen3_streamer_iff (f : File) (facts : EngModelFacts) (hfacts : qwen3Inspect f = some facts)
    (hw : EngHwInfo) (req : EngPlanRequest) (plan : EngPlan) (hplan : engPlan hw facts req = .ok plan)
    (l : Layout) (hl : qwen3Layout f = .ok l) (force : Option Bool) (store : EngStorage)
    (threadOk : Bool) :
    (engStreamerCreate store (l.streamerCfg (some plan) force) threadOk).isSome ↔
      0 < facts.nLayers ∧
        slotFor facts.maxLayerBytes 0 + headShare l facts (streamRoom hw facts req) force ≤
          streamRoom hw facts req := by
  obtain ⟨g, hopen, hinspect⟩ := Option.bind_eq_some_iff.mp hfacts
  unfold qwen3Layout at hl
  rw [hopen] at hl
  obtain ⟨hlayers, hmax, hblocks, hpos⟩ := layGguf_blocks (ggufOpen_nbytes hopen) hinspect hl
  obtain ⟨-, -, -, -, hdense⟩ := inspectGguf_layers hinspect
  have hstream := engPlan_streamBudget hdense hplan
  rw [engStreamerCreate_isSome_iff store _ threadOk hpos]
  simp only [Layout.streamerCfg, Option.map_some, Option.getD_some, hstream, l.bigLayer_eq, ← hmax,
    hlayers, hblocks, headShare]
  constructor
  · rintro ⟨hlayer, hfits⟩
    refine ⟨hlayer, ?_⟩
    simp only [gt_iff_lt, Int.lt_irrefl, if_false] at hfits
    omega
  · rintro ⟨hlayer, hfits⟩
    refine ⟨hlayer, ?_⟩
    simp only [gt_iff_lt, Int.lt_irrefl, if_false]
    omega

/-! ## A container of one layer -/

def u32Entry (key : String) (v : Nat) : Bytes := encStr (ascii key) ++ (put 4 4 ++ put 4 v)

def f32Tensor (name : Bytes) (shape : List Nat) (off : Nat) : Bytes :=
  encStr name ++ (put 4 shape.length ++ (shape.flatMap (put 8) ++ (put 4 0 ++ put 8 off)))

/-- One layer of eleven floats, two tokens. -/
def oneLayer : File where
  bytes :=
    ggufMagic ++ put 4 3 ++ put 8 14 ++ put 8 7 ++
      (u32Entry "qwen3.block_count" 1 ++ u32Entry "qwen3.embedding_length" 1 ++
        u32Entry "qwen3.attention.head_count" 1 ++ u32Entry "qwen3.attention.head_count_kv" 1 ++
        u32Entry "qwen3.attention.key_length" 1 ++ u32Entry "qwen3.feed_forward_length" 1 ++
        u32Entry "qwen3.context_length" 8) ++
      (f32Tensor (ascii "token_embd.weight") [1, 2] 0 ++ f32Tensor (ascii "output.weight") [1, 2] 8 ++
        f32Tensor (ascii "output_norm.weight") [1] 16) ++
      slotNames.zipIdx.flatMap (fun x =>
        f32Tensor (layerPrefix 0 ++ x.1 ++ ascii ".weight") [1] (20 + 4 * x.2)) ++
      List.replicate 128 0
  len_lt := by decide +kernel

def oneLayerFacts : EngModelFacts where
  nLayers := 1
  totalWeightBytes := 64
  residentBytes := 4
  maxLayerBytes := 44
  avgLayerBytes := 44
  activationBytes := 52
  scratchBytes := 16777248
  kvBytesPerPos := 8
  contextMax := 8
  nExperts := 0
  topk := 0
  expertBytes := 0

/-- A tensor of floats, its data beginning at byte 1056. -/
def f32At (name : Bytes) (shape : List Int) (off nbytes : Int) : GgufTensor where
  name := name
  shape := shape
  ggmlType := 0
  dtype := .f32
  relOff := off
  fileOff := 1056 + off
  nbytes := nbytes

def oneLayerLayout : Layout where
  nLayers := 1
  dModel := 1
  nHeads := 1
  nKv := 1
  headDim := 1
  dFf := 1
  vocab := 2
  ctxMax := 8
  embd := f32At (ascii "token_embd.weight") [1, 2] 0 8
  lmHead := f32At (ascii "output.weight") [1, 2] 8 8
  outNorm := f32At (ascii "output_norm.weight") [1] 16 4
  blocks := [⟨1076, 44⟩]
  slots := [slotNames.zipIdx.map fun x => ⟨4 * x.2, 4, .f32, 1, 1⟩]

theorem oneLayer_parsed : oneLayer.bytes.length = 1174 ∧
    (attempt oneLayer (Gguf.zero oneLayer.bytes.length) oneLayer.bytes.length).1 = .ok ∧
    inspectGguf (attempt oneLayer (Gguf.zero oneLayer.bytes.length) oneLayer.bytes.length).2 =
      some oneLayerFacts ∧
    (layGguf (attempt oneLayer (Gguf.zero oneLayer.bytes.length) oneLayer.bytes.length).2).toOption =
      some oneLayerLayout := by
  decide +kernel

theorem toOption_eq_some {ε α : Type} {x : Except ε α} {a : α} (h : x.toOption = some a) :
    x = .ok a := by
  cases x with
  | error e => exact absurd h (by simp [Except.toOption])
  | ok a' => rw [show a' = a from Option.some.inj h]

theorem oneLayer_open : ggufOpen oneLayer =
    some (attempt oneLayer (Gguf.zero oneLayer.bytes.length) oneLayer.bytes.length).2 := by
  obtain ⟨hlen, hok, -, -⟩ := oneLayer_parsed
  apply ggufOpen_small
  · omega
  · rw [hlen]
    unfold hdrFirst
    omega
  · exact hok

theorem oneLayer_laid : qwen3Layout oneLayer = .ok oneLayerLayout := by
  rw [qwen3Layout, oneLayer_open]
  exact toOption_eq_some oneLayer_parsed.2.2.2

/-- What is read of it: 44 bytes of layer, 8 of LM head. -/
theorem oneLayer_read : qwen3Inspect oneLayer = some oneLayerFacts ∧
    ∃ l, qwen3Layout oneLayer = .ok l ∧ l.nLayers = 1 ∧ l.lmNeed = 8 ∧ l.blocks = [⟨1076, 44⟩] := by
  obtain ⟨-, -, hinspect, -⟩ := oneLayer_parsed
  refine ⟨?_, oneLayerLayout, oneLayer_laid, rfl, rfl, rfl⟩
  rw [qwen3Inspect, oneLayer_open, Option.bind_some, hinspect]

/-- With a gigabyte the layer and the head fit. -/
theorem oneLayer_loads : ∃ plan l,
    engPlan ⟨0, 0⟩ oneLayerFacts ⟨2 ^ 30, 0, 1⟩ = .ok plan ∧ qwen3Layout oneLayer = .ok l ∧
      (engStreamerCreate ⟨fun _ => 0, 1174, false⟩ (l.streamerCfg (some plan) none) true).isSome := by
  obtain ⟨hinspect, l, hl, hlayers, hneed, -⟩ := oneLayer_read
  obtain ⟨plan, hplan⟩ : ∃ plan, engPlan ⟨0, 0⟩ oneLayerFacts ⟨2 ^ 30, 0, 1⟩ = .ok plan :=
    ⟨_, rfl⟩
  refine ⟨plan, l, hplan, hl, (qwen3_streamer_iff oneLayer oneLayerFacts hinspect ⟨0, 0⟩ ⟨2 ^ 30, 0, 1⟩
    plan hplan l hl none _ true).mpr ⟨by decide, ?_⟩⟩
  unfold headShare
  rw [hneed]
  decide +kernel

/-- A tight budget leaves the layers their 44 bytes exactly, which the plan accepts, and no slot of 8192 fits; with a
gigabyte and nothing forced, the 60 bytes of weights count as resident, and none fits either. -/
theorem oneLayer_refused : ∃ tight ample l,
    qwen3Inspect oneLayer = some oneLayerFacts ∧ qwen3Layout oneLayer = .ok l ∧
    engPlan ⟨0, 0⟩ oneLayerFacts ⟨822083780, 0, 1⟩ = .ok tight ∧
    engPlan ⟨0, 0⟩ oneLayerFacts ⟨2 ^ 30, 0, -1⟩ = .ok ample ∧
    tight.streamBudget = 44 ∧ ample.streamBudget = 60 ∧
    ∀ store threadOk,
      engStreamerCreate store (l.streamerCfg (some tight) none) threadOk = none ∧
      engStreamerCreate store (l.streamerCfg (some ample) none) threadOk = none := by
  obtain ⟨hinspect, l, hl, hlayers, hneed, hblocks⟩ := oneLayer_read
  obtain ⟨tight, htight⟩ : ∃ plan, engPlan ⟨0, 0⟩ oneLayerFacts ⟨822083780, 0, 1⟩ = .ok plan :=
    ⟨_, rfl⟩
  obtain ⟨ample, hample⟩ : ∃ plan, engPlan ⟨0, 0⟩ oneLayerFacts ⟨2 ^ 30, 0, -1⟩ = .ok plan :=
    ⟨_, rfl⟩
  have hstream : tight.streamBudget = 44 := by
    rw [engPlan_streamBudget rfl htight]
    decide +kernel
  have hstream' : ample.streamBudget = 60 := by
    rw [engPlan_streamBudget rfl hample]
    decide +kernel
  refine ⟨tight, ample, l, hinspect, hl, htight, hample, hstream, hstream', fun store threadOk => ?_⟩
  unfold Layout.streamerCfg
  simp only [Option.map_some, Option.getD_some, hstream, hstream', l.bigLayer_eq, hlayers, hneed,
    hblocks]
  constructor <;> rfl

end LlmEngine.Models.Qwen3
