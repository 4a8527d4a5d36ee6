/-
# LlmEngine.Models.Qwen3Resident — is a resident plan resident (`src/models/qwen3/qwen3.c`).

A plan that does not stream gives the streamer exactly the bytes of the weights.  The streamer rounds
every layer up, keeps a ring beside the pinned ones, and may find the LM head already taken off its
budget; so whether it then pins every layer depends on the sizes (`qwen3_resident_iff`), and what the
plan calls resident may be read from storage again for every token.

* `qwen3_resident_iff` is the comparison, with the head taken off where it is held.
* `qwen3_view`: inspection and layout go by what a caller sees of a container, so a container may be parsed from its
  header alone (`ggufOpen_prefix`).

`wideVocab` is a container whose head is half of its bytes: with the head left on storage its plan is resident, and by
default the layer streams.
-/
import LlmEngine.Models.Qwen3Plan
import LlmEngine.Storage.StreamerSound
import LlmEngine.Storage.StreamerTally

namespace LlmEngine.Models.Qwen3

open LlmEngine.Lib
open LlmEngine.Lib.LittleEndian
open LlmEngine.Formats
open LlmEngine.Runtime
open LlmEngine.Storage
open LlmEngine.Storage.Streamer
open LlmEngine.Tokenizer (ascii)

/-- The streamer under a plan that counts all weights as resident. -/
def residentCfg (l : Layout) (facts : EngModelFacts) (force : Option Bool) : EngStreamerCfg where
  blocks := l.blocks
  budgetBytes := facts.totalWeightBytes - facts.residentBytes -
    headShare l facts (facts.totalWeightBytes - facts.residentBytes) force
  extraBytes := 0
  ringWant := 2
  async := true

/-- The layers stay: all pinned, and from the second token on never read again. -/
def StaysResident (s : EngStreamer) : Prop :=
  s.npin = s.nblocks ∧
    ∀ (mem : Buf → Nat → UInt8) (x : Scan), Reaches (scanStep s) anyChoice (Scan.init mem) x →
      s.nblocks + x.walk.st.caller.inGet ≤ x.gets → ∀ j, ¬ x.walk.st.Reading j

/-- **When "fully resident" means resident**: when the weights' own bytes, less the LM head where the
loader takes it in, hold every layer padded beside a ring of two, within four rounds of sizing. -/
theorem qwen3_resident_iff (f : File) (facts : EngModelFacts) (hfacts : qwen3Inspect f = some facts)
    (hw : EngHwInfo) (req : EngPlanRequest) (plan : EngPlan) (hplan : engPlan hw facts req = .ok plan)
    (hres : plan.streaming = false) (l : Layout) (hl : qwen3Layout f = .ok l) (force : Option Bool)
    (store : EngStorage) (threadOk : Bool) (s : EngStreamer)
    (hs : engStreamerCreate store (l.streamerCfg (some plan) force) threadOk = some s) :
    StaysResident s ↔ (residentCfg l facts force).PinsAll := by
  obtain ⟨g, hopen, hinspect⟩ := Option.bind_eq_some_iff.mp hfacts
  unfold qwen3Layout at hl
  rw [hopen] at hl
  obtain ⟨hlayers, hmax, -, hnn⟩ := layGguf_blocks (ggufOpen_nbytes hopen) hinspect hl
  have hbudget : plan.streamBudget = facts.totalWeightBytes - facts.residentBytes := by
    have hsplit := (engPlan_ok hplan).2
    rw [if_neg (by simp [hres])] at hsplit
    exact (Prod.mk.inj hsplit).1
  have hcfg : l.streamerCfg (some plan) force = residentCfg l facts force := by
    unfold Layout.streamerCfg residentCfg headShare
    simp only [Option.map_some, Option.getD_some, hbudget, l.bigLayer_eq, ← hmax, hlayers]
  rw [hcfg] at hs
  have hb := engStreamerCreate_rounds hnn hs
  rw [← hb.npin_all_iff hnn rfl]
  constructor
  · exact fun h => h.1
  · exact fun hall => ⟨hall, fun mem x hr hfirst j => scan_rests (engStreamerCreate_wf hs) hall mem hr hfirst j⟩

/-! ## A container whose head is half of it -/

section View

variable {g g' : Gguf}

/-- An integer key is read from what the header shows of it. -/
theorem find_int_view (key : Bytes) : ∀ {ks ks' : List GgufKV}, ks'.map g'.kvView = ks.map g.kvView →
    ((ks'.find? fun k => strEq k.key key).bind fun k => if kvIsInt k then some k.i else none) =
      (ks.find? fun k => strEq k.key key).bind fun k => if kvIsInt k then some k.i else none
  | [], ks', h => by
      obtain rfl := List.map_eq_nil_iff.mp h
      rfl
  | k :: ks, [], h => by simp at h
  | k :: ks, k' :: ks', h => by
      obtain ⟨hhead, htail⟩ := List.cons.inj h
      have hkey : k'.key = k.key := congrArg KvView.key hhead
      have htype : k'.type = k.type := congrArg KvView.type hhead
      have hint : k'.i = k.i := congrArg KvView.i hhead
      have hisInt : kvIsInt k' = kvIsInt k := by
        unfold kvIsInt
        rw [htype]
      rw [List.find?_cons, List.find?_cons, hkey]
      cases strEq k.key key with
      | true => simp only [Option.bind_some, hisInt, hint]
      | false => exact find_int_view key htail

/-- What is inspected and what is laid out shows in the header. -/
theorem qwen3_view (h : g'.view = g.view) : inspectGguf g' = inspectGguf g ∧ layGguf g' = layGguf g := by
  have hkeys : ggufI64 g' = ggufI64 g := funext fun key => find_int_view key (congrArg HeaderView.kv h)
  have ht : g'.t = g.t := congrArg HeaderView.t h
  have hbytes : g'.dataBytes = g.dataBytes := congrArg HeaderView.dataBytes h
  have hspan : layerSpan g' = layerSpan g := by
    unfold layerSpan
    rw [ht]
  have htensor : ggufTensor g' = ggufTensor g := by
    unfold ggufTensor
    rw [ht]
  have hbind : bindSlot g' = bindSlot g := by
    unfold bindSlot
    rw [htensor]
  have hlayer : layLayer g' = layLayer g := by
    unfold layLayer
    rw [hspan, hbind]
  constructor
  · unfold inspectGguf layerLens
    rw [hkeys, htensor, hspan, hbytes]
  · unfold layGguf keyOr
    rw [hkeys, htensor, hlayer]

end View

/-- A header that can be read from a prefix is what opening the file shows. -/
theorem ggufOpen_prefix {f : File} {w : Nat} (hlen : 24 ≤ f.bytes.length)
    (hsmall : f.bytes.length ≤ hdrFirst) (hw : w ≤ f.bytes.length)
    (hok : (attempt f (Gguf.zero f.bytes.length) w).1 = .ok) :
    ∃ g, ggufOpen f = some g ∧ g.view = (attempt f (Gguf.zero f.bytes.length) w).2.view := by
  obtain ⟨hverdict, hview⟩ := attempt_longer .fresh .fresh hw (by rw [hok]; decide)
  exact ⟨_, ggufOpen_small hlen hsmall (hverdict.trans hok), hview hok⟩

/-- The header of one layer of eleven floats and 3072 tokens. -/
def wideHeader : Bytes :=
  ggufMagic ++ put 4 3 ++ put 8 14 ++ put 8 7 ++
    (u32Entry "qwen3.block_count" 1 ++ u32Entry "qwen3.embedding_length" 1 ++
      u32Entry "qwen3.attention.head_count" 1 ++ u32Entry "qwen3.attention.head_count_kv" 1 ++
      u32Entry "qwen3.attention.key_length" 1 ++ u32Entry "qwen3.feed_forward_length" 1 ++
      u32Entry "qwen3.context_length" 8) ++
    (f32Tensor (ascii "token_embd.weight") [1, 3072] 0 ++ f32Tensor (ascii "output.weight") [1, 3072] 12288 ++
      f32Tensor (ascii "output_norm.weight") [1] 24576) ++
    slotNames.zipIdx.flatMap (fun x =>
      f32Tensor (layerPrefix 0 ++ x.1 ++ ascii ".weight") [1] (24580 + 4 * x.2))

def wideFacts : EngModelFacts where
  nLayers := 1
  totalWeightBytes := 24624
  residentBytes := 4
  maxLayerBytes := 44
  avgLayerBytes := 44
  activationBytes := 12332
  scratchBytes := 16777248
  kvBytesPerPos := 8
  contextMax := 8
  nExperts := 0
  topk := 0
  expertBytes := 0

theorem wideHeader_parsed : wideHeader.length = 1046 ∧
    (parseHeader { Gguf.zero 25746 with blob := wideHeader }).1 = .ok ∧
    inspectGguf (parseHeader { Gguf.zero 25746 with blob := wideHeader }).2 = some wideFacts ∧
    (layGguf (parseHeader { Gguf.zero 25746 with blob := wideHeader }).2).toOption.map
      (fun l => (l.nLayers, l.lmNeed, l.blocks)) = some (1, 12288, [⟨25636, 44⟩]) := by
  decide +kernel

theorem wideHeader_padded : (wideHeader ++ List.replicate 24700 (0 : UInt8)).length = 25746 := by
  rw [List.length_append, List.length_replicate, wideHeader_parsed.1]

/-- That header with 24700 bytes behind it. -/
def wideVocab : File where
  bytes := wideHeader ++ List.replicate 24700 0
  len_lt := by
    rw [wideHeader_padded]
    decide

/-- What is read of it: 44 bytes of layer, 12288 of LM head. -/
theorem wideVocab_read : qwen3Inspect wideVocab = some wideFacts ∧
    ∃ l, qwen3Layout wideVocab = .ok l ∧ l.nLayers = 1 ∧ l.lmNeed = 12288 ∧
      l.blocks = [⟨25636, 44⟩] := by
  obtain ⟨hhdr, hok, hinspect, hlay⟩ := wideHeader_parsed
  have hlen : wideVocab.bytes.length = 25746 := wideHeader_padded
  have htake : wideVocab.bytes.take 1046 = wideHeader := List.take_left' hhdr
  have hattempt : attempt wideVocab (Gguf.zero wideVocab.bytes.length) 1046 =
      parseHeader { Gguf.zero 25746 with blob := wideHeader } := by
    unfold attempt
    rw [htake, hlen]
    rfl
  obtain ⟨g, hopen, hview⟩ := ggufOpen_prefix (f := wideVocab) (w := 1046) (by omega)
    (by unfold hdrFirst; omega) (by omega) (by rw [hattempt]; exact hok)
  rw [hattempt] at hview
  obtain ⟨hins, hly⟩ := qwen3_view hview
  obtain ⟨l, hl, heq⟩ := Option.map_eq_some_iff.mp hlay
  simp only [Prod.mk.injEq] at heq
  refine ⟨?_, l, ?_, heq⟩
  · rw [qwen3Inspect, hopen, Option.bind_some, hins, hinspect]
  · rw [qwen3Layout, hopen]
    exact hly.trans (toOption_eq_some hl)

/-- A gigabyte counts its weights as resident: 24620 bytes. -/
theorem wideVocab_planned : ∃ plan, engPlan ⟨0, 0⟩ wideFacts ⟨2 ^ 30, 0, -1⟩ = .ok plan ∧
    plan.streaming = false ∧ plan.streamBudget = 24620 := by
  obtain ⟨plan, hplan⟩ : ∃ plan, engPlan ⟨0, 0⟩ wideFacts ⟨2 ^ 30, 0, -1⟩ = .ok plan := ⟨_, rfl⟩
  obtain ⟨hstream, hsplit⟩ := engPlan_ok hplan
  have hres : plan.streaming = false := by
    rw [← Bool.not_eq_true, hstream]
    decide +kernel
  rw [if_neg (by simp [hres])] at hsplit
  exact ⟨plan, hplan, hres, (Prod.mk.inj hsplit).1⟩

/-- The streamer of this layer with `budget` bytes. -/
def wideCfg (budget : Int) : EngStreamerCfg where
  blocks := [⟨25636, 44⟩]
  budgetBytes := budget
  extraBytes := 0
  ringWant := 2
  async := true

def wideStore : EngStorage := { byte := fun _ => 0, size := 25746, direct := false }

/-- With the head left on storage (`ENG_LM_RESIDENT=0`) the layer is pinned beside the ring. -/
theorem wideVocab_resident : ∃ plan l s, engPlan ⟨0, 0⟩ wideFacts ⟨2 ^ 30, 0, -1⟩ = .ok plan ∧
    plan.streaming = false ∧ qwen3Layout wideVocab = .ok l ∧
    engStreamerCreate wideStore (l.streamerCfg (some plan) (some false)) true = some s ∧
    StaysResident s := by
  obtain ⟨hinspect, l, hl, hlayers, hneed, hblocks⟩ := wideVocab_read
  obtain ⟨plan, hplan, hres, hbudget⟩ := wideVocab_planned
  have hcfg : l.streamerCfg (some plan) (some false) = wideCfg 24620 := by
    unfold Layout.streamerCfg wideCfg wantLmResident
    simp [hbudget, hblocks]
  obtain ⟨s, hs⟩ := Option.isSome_iff_exists.mp
    (by decide +kernel : (engStreamerCreate wideStore (wideCfg 24620) true).isSome)
  rw [← hcfg] at hs
  refine ⟨plan, l, s, hplan, hres, hl, hs, ?_⟩
  rw [qwen3_resident_iff wideVocab wideFacts hinspect ⟨0, 0⟩ ⟨2 ^ 30, 0, -1⟩ plan hplan hres l hl
    (some false) wideStore true s hs]
  have hcfg' : residentCfg l wideFacts (some false) = wideCfg 24620 := by
    unfold residentCfg wideCfg headShare wantLmResident
    simp [hblocks, wideFacts]
  rw [hcfg']
  exact ⟨1, 1, 1, by decide +kernel⟩

/-- By default the head takes 12288 of the 24620 bytes, and the layer the plan holds resident is not
pinned: it streams for every token. -/
theorem wideVocab_streams : ∃ plan l s, qwen3Inspect wideVocab = some wideFacts ∧
    engPlan ⟨0, 0⟩ wideFacts ⟨2 ^ 30, 0, -1⟩ = .ok plan ∧ plan.streaming = false ∧
    qwen3Layout wideVocab = .ok l ∧
    engStreamerCreate wideStore (l.streamerCfg (some plan) none) true = some s ∧
    s.nblocks = 1 ∧ s.npin = 0 ∧ ¬ StaysResident s := by
  obtain ⟨hinspect, l, hl, hlayers, hneed, hblocks⟩ := wideVocab_read
  obtain ⟨plan, hplan, hres, hbudget⟩ := wideVocab_planned
  have hcfg : l.streamerCfg (some plan) none = wideCfg 12332 := by
    unfold Layout.streamerCfg wideCfg wantLmResident
    simp [hbudget, hblocks, hneed, hlayers, l.bigLayer_eq]
  have hbuilt : (engStreamerCreate wideStore (wideCfg 12332) true).map (fun s => (s.nblocks, s.npin)) =
      some (1, 0) := by
    decide +kernel
  obtain ⟨s, hs, hshape⟩ := Option.map_eq_some_iff.mp hbuilt
  obtain ⟨hblks, hpins⟩ := Prod.mk.inj hshape
  rw [← hcfg] at hs
  refine ⟨plan, l, s, hinspect, hplan, hres, hl, hs, hblks, hpins, fun hstays => ?_⟩
  have hall := hstays.1
  omega

end LlmEngine.Models.Qwen3
