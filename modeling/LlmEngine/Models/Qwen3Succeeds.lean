/-
# LlmEngine.Models.Qwen3Succeeds — when a decode call goes through (`src/models/qwen3/qwen3.c`).

`performed` lists what a call touches, up to the first read or kernel that fails.  Of the call itself that is
the whole truth, the head aside: what is in the buffers, and in the rows of the sequence, decides nothing.

* A projection fails where its slot has no kernel (`project_isSome`), and there is one `_isOk` lemma for each part of a
  call, in its order.
* `headPasses_of_read`: the head, resident or in chunks, goes through where it has a kernel and its rows can be read.
* `decode_succeeds_iff` is the call: its return value is zero exactly when all that `steps` lists is performed, and
  so is the head.

What happens behind the buffers' ends is outside this: where a container's shapes do not fit, a call that
returns zero has still gone wrong (`Models.Qwen3Geometry`, `Models.Qwen3Context`).
-/
import LlmEngine.Models.Qwen3Phases
import Mathlib.Data.List.TakeWhile

namespace LlmEngine.Models.Qwen3

open LlmEngine.Core (Arith Vec ptr)
open LlmEngine.Formats
open LlmEngine.Lib.Chunks
open LlmEngine.Quant
open LlmEngine.Runtime
open LlmEngine.Storage.Streamer (EngBlock)
open LlmEngine.Tensor

/-- The matrices of a layer have kernels. -/
def LayerSlots.Runs (sl : LayerSlots) : Prop :=
  (sl.attnQ.runs = true ∧ sl.attnK.runs = true ∧ sl.attnV.runs = true) ∧
    sl.attnOut.runs = true ∧ sl.ffnGate.runs = true ∧ sl.ffnUp.runs = true ∧ sl.ffnDown.runs = true

/-- The head has a kernel: that for floats where no format is registered. -/
def Layout.headRuns (l : Layout) : Bool :=
  match quantRowBytes l.lmHead.dtype with
  | none => true
  | some rowBytes => 0 ≤ rowBytes l.dModel && quantScaleBytes l.lmHead.dtype l.dModel = 0

/-- The head can be read and multiplied; what is held in memory is not read. -/
def HeadPasses (f : File) (m : EngModel) (io : CallIo) : Prop :=
  match m.lmResident with
  | some _ => m.layout.headRuns
  | none => ∀ c ∈ chunks m.headChunk m.layout.vocab 0,
      io.head c.1 = true ∧ (storeRead f (m.layout.headWindow c.1 c.2).off (m.layout.headWindow c.1 c.2).len).isSome ∧
        m.layout.headRuns

section Succeeds

variable {D : Type} [Arith D] [Arith (BitVec 32)] (e : Engine D) {f : File} {m : EngModel} {seq : EngSeqState}

/-- A registered format reckons its rows and scales as the planner does. -/
theorem formats_reckon {dt : EngDType} {q : EngQuantOps D (BitVec 32)} (h : e.reg dt = some q) :
    quantRowBytes dt = some q.rowBytes ∧ q.scaleBytes = quantScaleBytes dt := by
  obtain ⟨hmem, rfl⟩ := formats_of_regInit e.fp.toFpu e.ofIntD e.build id e.ofInt e.stack h
  unfold formats at hmem
  simp only [List.mem_cons, List.not_mem_nil, or_false] at hmem
  rcases hmem with rfl | rfl | rfl | rfl
  · exact ⟨rfl, rfl⟩
  · exact ⟨rfl, rfl⟩
  · exact ⟨rfl, rfl⟩
  · exact ⟨rfl, rfl⟩

/-- A product without scales goes through where the format can express the row and has none. -/
theorem engMatmulQuant_isSome {dt : EngDType} {q : EngQuantOps D (BitVec 32)} (h : e.reg dt = some q) (y x : Vec (BitVec 32))
    (W : Core.Bytes) (inn rows : Int) :
    (∃ r, engMatmulQuant e.fp.toFpu e.reg y x W none inn rows dt = .ok r) ↔ 0 ≤ q.rowBytes inn ∧ q.scaleBytes inn = 0 := by
  constructor
  · rintro ⟨r, hr⟩
    obtain ⟨hrow, hscale, hgiven, -⟩ := (engMatmulQuant_ok e.fp.toFpu h).mp hr
    refine ⟨hrow, Int.le_antisymm (not_lt.mp fun hpos => ?_) hscale⟩
    cases hgiven hpos
  · rintro ⟨hrow, hscale⟩
    exact ⟨_, (engMatmulQuant_ok e.fp.toFpu h).mpr ⟨hrow, hscale.ge, fun hpos => absurd hpos (by omega), rfl⟩⟩

/-- **`project` fails where its slot has no kernel**, and nowhere else. -/
theorem project_isSome (y x : Vec (BitVec 32)) (base : Core.Bytes) (w : Slot) :
    (∃ r, project e y x base w = some r) ↔ w.runs = true := by
  unfold project Slot.runs
  split_ifs with hfloat
  · rw [decide_eq_true hfloat, Bool.true_or]
    exact ⟨fun _ => rfl, fun _ => ⟨_, rfl⟩⟩
  · rw [decide_eq_false hfloat, Bool.false_or]
    cases hreg : e.reg w.dtype with
    | none =>
        have hnone : quantRowBytes w.dtype = none := by
          rw [quantRowBytes_regInit e.fp.toFpu e.ofIntD e.build id e.ofInt e.stack]
          exact congrArg (Option.map _) hreg
        rw [hnone]
        unfold engMatmulQuant
        rw [hreg]
        constructor
        · rintro ⟨r, hr⟩
          cases hr
        · intro h
          cases h
    | some q =>
        obtain ⟨hrow, hscale⟩ := formats_reckon e hreg
        rw [hrow, ← hscale]
        dsimp only
        rw [Bool.and_eq_true, decide_eq_true_eq, decide_eq_true_eq,
          ← engMatmulQuant_isSome e hreg y x (Quant.bytesAt base w.rel.toNat) (cInt w.inputs) (cInt w.outputs)]
        exact ⟨fun ⟨r, hr⟩ => ⟨r, toOption_eq_some hr⟩, fun ⟨r, hr⟩ => ⟨r, congrArg Except.toOption hr⟩⟩

theorem headProduct_isSome (y xn : Vec (BitVec 32)) (W : Core.Bytes) (n : Int) :
    (∃ r, headProduct e m y xn W n = some r) ↔ m.layout.headRuns = true := by
  unfold headProduct Layout.headRuns
  cases hreg : e.reg m.layout.lmHead.dtype with
  | none =>
      have hnone : quantRowBytes m.layout.lmHead.dtype = none := by
        rw [quantRowBytes_regInit e.fp.toFpu e.ofIntD e.build id e.ofInt e.stack]
        exact congrArg (Option.map _) hreg
      rw [hnone]
      exact ⟨fun _ => rfl, fun _ => ⟨_, rfl⟩⟩
  | some q =>
      obtain ⟨hrow, hscale⟩ := formats_reckon e hreg
      rw [hrow, ← hscale]
      dsimp only
      rw [Option.isSome_some, if_pos rfl, Bool.and_eq_true, decide_eq_true_eq, decide_eq_true_eq,
        ← engMatmulQuant_isSome e hreg y xn W m.layout.dModel n]
      exact ⟨fun ⟨r, hr⟩ => ⟨r, toOption_eq_some hr⟩, fun ⟨r, hr⟩ => ⟨r, congrArg Except.toOption hr⟩⟩

/-! ## The layers -/

theorem attnInputs_isOk (base : Core.Bytes) (sl : LayerSlots) (pos : Nat) (s : DecodeState) :
    (∃ r, attnInputs e m base sl pos s = .ok r) ↔
      sl.attnQ.runs = true ∧ sl.attnK.runs = true ∧ sl.attnV.runs = true := by
  constructor
  · rintro ⟨r, hr⟩
    obtain ⟨q, k, v, hq, hk, hv, -⟩ := (attnInputs_ok e m base sl).mp hr
    exact ⟨(project_isSome e _ _ _ _).mp ⟨q, hq⟩, (project_isSome e _ _ _ _).mp ⟨k, hk⟩, (project_isSome e _ _ _ _).mp ⟨v, hv⟩⟩
  · rintro ⟨hq, hk, hv⟩
    obtain ⟨q, hq⟩ := (project_isSome e s.q (normed e m base sl.attnNorm s) base sl.attnQ).mpr hq
    obtain ⟨k, hk⟩ := (project_isSome e s.k (normed e m base sl.attnNorm s) base sl.attnK).mpr hk
    obtain ⟨v, hv⟩ := (project_isSome e s.v (normed e m base sl.attnNorm s) base sl.attnV).mpr hv
    exact ⟨_, (attnInputs_ok e m base sl).mpr ⟨q, k, v, hq, hk, hv, rfl⟩⟩

theorem finishLayer_isOk (base : Core.Bytes) (sl : LayerSlots) (s : DecodeState) :
    (∃ r, finishLayer e m base sl s = .ok r) ↔
      sl.attnOut.runs = true ∧ sl.ffnGate.runs = true ∧ sl.ffnUp.runs = true ∧ sl.ffnDown.runs = true := by
  constructor
  · rintro ⟨r, hr⟩
    obtain ⟨o, g, u, y, ho, hg, hu, hy, -⟩ := (finishLayer_ok e m base sl).mp hr
    exact ⟨(project_isSome e _ _ _ _).mp ⟨o, ho⟩, (project_isSome e _ _ _ _).mp ⟨g, hg⟩,
      (project_isSome e _ _ _ _).mp ⟨u, hu⟩, (project_isSome e _ _ _ _).mp ⟨y, hy⟩⟩
  · rintro ⟨ho, hg, hu, hy⟩
    obtain ⟨o, ho⟩ := (project_isSome e s.ffn s.att base sl.attnOut).mpr ho
    obtain ⟨g, hg⟩ := (project_isSome e s.gate (normed e m base sl.ffnNorm (attended m s o)) base sl.ffnGate).mpr hg
    obtain ⟨u, hu⟩ := (project_isSome e s.up (normed e m base sl.ffnNorm (attended m s o)) base sl.ffnUp).mpr hu
    obtain ⟨y, hy⟩ := (project_isSome e o (Kernels.swigluInto e.fp m.ff g u) base sl.ffnDown).mpr hy
    exact ⟨_, (finishLayer_ok e m base sl).mpr ⟨o, g, u, y, ho, hg, hu, hy, rfl⟩⟩

theorem decodeLayer_isOk (io : CallIo) (pos : Nat) (s : DecodeState) (L : Nat) :
    (∃ r, decodeLayer e m seq io pos s L = .ok r) ↔ (io.layer L).isSome = true ∧ (m.layer L).Runs := by
  unfold decodeLayer
  constructor
  · rintro ⟨r, hr⟩
    obtain ⟨base, hbase, hr⟩ := bind_orFail_ok.mp hr
    obtain ⟨a, ha, hr⟩ := bind_ok.mp hr
    exact ⟨Option.isSome_iff_exists.mpr ⟨base, hbase⟩, (attnInputs_isOk e _ _ _ _).mp ⟨a, ha⟩,
      (finishLayer_isOk e _ _ _).mp ⟨r, hr⟩⟩
  · rintro ⟨hio, hinputs, hrest⟩
    obtain ⟨base, hbase⟩ := Option.isSome_iff_exists.mp hio
    obtain ⟨a, ha⟩ := (attnInputs_isOk e base (m.layer L) pos s).mpr hinputs
    obtain ⟨r, hr⟩ := (finishLayer_isOk e base (m.layer L) (attendCached e m seq L pos (appendKv m seq L pos a))).mpr hrest
    exact ⟨r, bind_orFail_ok.mpr ⟨base, hbase, bind_ok.mpr ⟨a, ha, hr⟩⟩⟩

theorem decodeLayers_isOk (io : CallIo) (pos n : Nat) (s : DecodeState) :
    (∃ r, decodeLayers e m seq io pos n s = .ok r) ↔
      ∀ L < n, (io.layer L).isSome = true ∧ (m.layer L).Runs := by
  unfold decodeLayers
  rw [foldlM_isOk fun s L => decodeLayer_isOk e io pos s L]
  simp only [List.mem_range]

/-! ## The head, and the call -/

theorem headChunkStep_isOk (io : CallIo) (s : DecodeState) (c : Int × Int) : (∃ r, headChunkStep e f m io s c = .ok r) ↔
    io.head c.1 = true ∧ (storeRead f (m.layout.headWindow c.1 c.2).off (m.layout.headWindow c.1 c.2).len).isSome ∧
      m.layout.headRuns = true := by
  constructor
  · rintro ⟨r, hr⟩
    obtain ⟨w, y, hw, hy, -⟩ := (headChunkStep_ok e).mp hr
    rw [Option.ite_none_right_eq_some] at hw
    exact ⟨hw.1, Option.isSome_iff_exists.mpr ⟨w, hw.2⟩, (headProduct_isSome e _ _ _ _).mp ⟨y, hy⟩⟩
  · rintro ⟨hio, hread, hruns⟩
    obtain ⟨w, hw⟩ := Option.isSome_iff_exists.mp hread
    obtain ⟨y, hy⟩ := (headProduct_isSome e (ptr s.logits c.1.toNat) s.xn (ofList w) c.2).mpr hruns
    exact ⟨_, (headChunkStep_ok e).mpr ⟨w, y, (Option.ite_none_right_eq_some).mpr ⟨hio, hw⟩, hy, rfl⟩⟩

theorem decodeHead_isOk (io : CallIo) (s : DecodeState) : (∃ r, decodeHead e f m io s = .ok r) ↔ HeadPasses f m io := by
  unfold decodeHead HeadPasses
  cases m.lmResident with
  | some y =>
      dsimp only
      rw [← headProduct_isSome e s.logits (Kernels.engRmsnorm e.fp s.xn s.x (floatsAt (ofList m.outNorm) 0) m.d e.eps)
        (ofList y) m.layout.vocab]
      constructor
      · rintro ⟨r, hr⟩
        obtain ⟨a, ha, -⟩ := bind_orFail_ok.mp hr
        exact ⟨a, ha⟩
      · rintro ⟨a, ha⟩
        exact ⟨_, bind_orFail_ok.mpr ⟨a, ha, rfl⟩⟩
  | none => exact foldlM_isOk (headChunkStep_isOk e io) _ _

theorem decodeEnd_isOk (s : DecodeState) (c : Call) :
    (∃ r, decodeEnd e f m s c = .ok r) ↔ (c.logits = true → HeadPasses f m c.io) := by
  unfold decodeEnd
  cases c.logits with
  | false => exact ⟨fun _ h => absurd h Bool.false_ne_true, fun _ => ⟨_, rfl⟩⟩
  | true =>
      rw [if_pos rfl, ← decodeHead_isOk e c.io s]
      constructor
      · rintro ⟨r, hr⟩ -
        obtain ⟨a, ha, -⟩ := bind_ok.mp hr
        exact ⟨a, ha⟩
      · intro h
        obtain ⟨a, ha⟩ := h rfl
        exact ⟨_, bind_ok.mpr ⟨a, ha, rfl⟩⟩

/-- **When a call goes through**: whatever it finds in the buffers and in the rows. -/
theorem qwen3Decode_isOk (s : DecodeState) (c : Call) : (∃ r, qwen3Decode e f m seq s c = .ok r) ↔
    ¬ c.Refused m seq ∧ c.io.embed = true ∧
      (storeRead f (m.layout.embdWindow c.token).off (m.layout.embdWindow c.token).len).isSome ∧
      (∀ L < m.layout.nLayers.toNat, (c.io.layer L).isSome = true ∧ (m.layer L).Runs) ∧
      (c.logits = true → HeadPasses f m c.io) := by
  by_cases href : c.Refused m seq
  · rw [qwen3Decode_refused href]
    constructor
    · rintro ⟨r, hr⟩
      cases hr
    · exact fun h => absurd href h.1
  have hread : ∀ x : Vec (BitVec 32), (∃ r, embedInto e f m x c.token = some r) ↔
      (storeRead f (m.layout.embdWindow c.token).off (m.layout.embdWindow c.token).len).isSome := by
    intro x
    unfold embedInto
    rw [← Option.isSome_iff_exists, Option.isSome_map]
  constructor
  · rintro ⟨r, hr⟩
    rcases qwen3Decode_cases (e := e) (f := f) (s := s) href with ⟨-, hfail⟩ | ⟨x, ⟨hio, hx⟩, ⟨b, -, hfail⟩ | ⟨a, hlayers, hend⟩⟩
    · cases hfail.symm.trans hr
    · cases hfail.symm.trans hr
    · exact ⟨href, hio, (hread s.x).mp ⟨x, hx⟩, (decodeLayers_isOk e _ _ _ _).mp ⟨a, hlayers⟩,
        (decodeEnd_isOk e a c).mp ⟨r, hend.symm.trans hr⟩⟩
  · rintro ⟨-, hio, hembd, hlayers, hhead⟩
    rcases qwen3Decode_cases (e := e) (f := f) (s := s) href with ⟨hnone, -⟩ | ⟨x, -, ⟨b, hfail, -⟩ | ⟨a, -, hend⟩⟩
    · obtain ⟨x, hx⟩ := (hread s.x).mpr hembd
      cases (hnone hio).symm.trans hx
    · obtain ⟨a, ha⟩ := (decodeLayers_isOk e c.io c.pos.toNat m.layout.nLayers.toNat { s with x := x }).mpr hlayers
      cases hfail.symm.trans ha
    · obtain ⟨r, hr⟩ := (decodeEnd_isOk e a c).mpr hhead
      exact ⟨r, hend.trans hr⟩

end Succeeds

/-! ## What is performed -/

section Performed

variable {f : File} {direct threadOk : Bool} {plan : Option EngPlan} {force : Option Bool} {m : EngModel}

/-- Storage that gives what the file has. -/
def CallIo.ofFile (f : File) (m : EngModel) : CallIo where
  embed := true
  layer := fun L => (storeRead f (m.layout.blocks.getD L default).off (m.layout.blocks.getD L default).nbytes).map ofList
  head := fun _ => true

/-- The steps of a layer pass where its block is read and its matrices have kernels. -/
theorem layerSteps_pass (l : Layout) (L : Nat) (b : EngBlock) {ws : List Slot} (hlen : ws.length = 11) :
    (∀ st ∈ l.layerSteps L b ws, st.passes f l = true) ↔
      (storeRead f b.off b.nbytes).isSome = true ∧ (LayerSlots.ofSlots ws).Runs := by
  obtain ⟨w₀, w₁, w₂, w₃, w₄, w₅, w₆, w₇, w₈, w₉, w₁₀, rfl⟩ : ∃ w₀ w₁ w₂ w₃ w₄ w₅ w₆ w₇ w₈ w₉ w₁₀,
      ws = [w₀, w₁, w₂, w₃, w₄, w₅, w₆, w₇, w₈, w₉, w₁₀] := by
    iterate 11
      obtain _ | ⟨_, ws⟩ := ws
      · cases hlen
    obtain rfl := List.length_eq_zero_iff.mp (by simpa using hlen)
    exact ⟨_, _, _, _, _, _, _, _, _, _, _, rfl⟩
  unfold Layout.layerSteps
  simp only [List.forall_mem_cons, List.not_mem_nil, false_imp_iff, implies_true, and_true, Step.passes, true_and]
  exact ⟨fun ⟨hget, hq, hk, hv, ho, hg, hu, hd⟩ => ⟨hget, ⟨hq, hk, hv⟩, ho, hg, hu, hd⟩,
    fun ⟨hget, ⟨hq, hk, hv⟩, ho, hg, hu, hd⟩ => ⟨hget, hq, hk, hv, ho, hg, hu, hd⟩⟩

theorem mapM_option_length {α β : Type} {g : α → Option β} {xs : List α} : ∀ {ys : List β},
    xs.mapM g = some ys → ys.length = xs.length := by
  induction xs with
  | nil =>
      intro ys h
      obtain rfl := Option.some.inj h
      rfl
  | cons x xs ih =>
      intro ys h
      rw [List.mapM_cons] at h
      simp only [Option.bind_eq_bind, Option.bind_eq_some_iff] at h
      obtain ⟨z, -, zs, hzs, hys⟩ := h
      obtain rfl := Option.some.inj hys
      exact congrArg Nat.succ (ih hzs)

/-- All that a call lists passes: the row of the embedding is read, and each layer passes. -/
theorem steps_pass (h : Loaded f direct threadOk plan force m) (token : Int) (logits : Bool) :
    (∀ st ∈ m.layout.steps token logits, st.passes f m.layout = true) ↔
      (storeRead f (m.layout.embdWindow token).off (m.layout.embdWindow token).len).isSome = true ∧
        ∀ L < m.layout.nLayers.toNat, ((CallIo.ofFile f m).layer L).isSome = true ∧ (m.layer L).Runs := by
  obtain ⟨g, -, hl⟩ := h.opened
  obtain ⟨hblocks, hslots, hall⟩ := layLayer_of_laid hl
  have hlayer : ∀ L < m.layout.nLayers.toNat, ∃ b ws, m.layout.blocks[L]? = some b ∧ m.layout.slots[L]? = some ws ∧
      ((∀ st ∈ m.layout.layerSteps L b ws, st.passes f m.layout = true) ↔
        ((CallIo.ofFile f m).layer L).isSome = true ∧ (m.layer L).Runs) := by
    intro L hL
    obtain ⟨b, hb⟩ : ∃ b, m.layout.blocks[L]? = some b := ⟨_, List.getElem?_eq_getElem (by omega)⟩
    obtain ⟨ws, hws⟩ : ∃ ws, m.layout.slots[L]? = some ws := ⟨_, List.getElem?_eq_getElem (by omega)⟩
    obtain ⟨-, hbound⟩ := layLayer_bound (hall L b ws hb hws)
    refine ⟨b, ws, hb, hws, ?_⟩
    rw [layerSteps_pass m.layout L b (mapM_option_length hbound)]
    unfold CallIo.ofFile EngModel.layer
    dsimp only
    rw [Option.isSome_map, List.getD_eq_getElem?_getD, hb, List.getD_eq_getElem?_getD, hws]
    rfl
  have hend : ∀ st ∈ (if logits then [Step.norm m.layout.outNorm.dtype m.layout.outNorm.nbytes m.layout.dModel] else []),
      st.passes f m.layout = true := by
    cases logits with
    | false => exact fun st hst => absurd hst List.not_mem_nil
    | true =>
        intro st hst
        obtain rfl := List.mem_singleton.mp hst
        rfl
  unfold Layout.steps
  rw [List.forall_mem_append, List.forall_mem_cons]
  simp only [List.forall_mem_flatMap]
  constructor
  · rintro ⟨⟨hembd, hlayers⟩, -⟩
    refine ⟨hembd, fun L hL => ?_⟩
    obtain ⟨b, ws, hb, hws, hpass⟩ := hlayer L hL
    refine hpass.mp (hlayers ((b, ws), L) ?_)
    exact List.mk_mem_zipIdx_iff_getElem?.mpr (List.getElem?_zip_eq_some.mpr ⟨hb, hws⟩)
  · rintro ⟨hembd, hlayers⟩
    refine ⟨⟨hembd, fun x hx => ?_⟩, hend⟩
    obtain ⟨hb, hws⟩ := List.getElem?_zip_eq_some.mp (List.mem_zipIdx_iff_getElem?.mp hx)
    have hL : x.2 < m.layout.nLayers.toNat := hblocks ▸ (List.getElem?_eq_some_iff.mp hb).1
    obtain ⟨b, ws, hb', hws', hpass⟩ := hlayer x.2 hL
    obtain rfl := Option.some.inj (hb.symm.trans hb')
    obtain rfl := Option.some.inj (hws.symm.trans hws')
    exact hpass.mpr (hlayers x.2 hL)

/-- A head that is in the file passes, whatever its chunks. -/
theorem headPasses_of_read (h : Loaded f direct threadOk plan force m) (hruns : m.layout.headRuns = true)
    (hread : (storeRead f m.layout.lmHead.fileOff m.layout.lmNeed).isSome = true) {io : CallIo}
    (hio : ∀ r, io.head r = true) : HeadPasses f m io := by
  unfold HeadPasses
  cases m.lmResident with
  | some y => exact hruns
  | none =>
      intro c hc
      refine ⟨hio c.1, ?_, hruns⟩
      obtain ⟨hlo, hpos, -, hhi⟩ := mem_chunks hc
      have hrow := h.hrow_nonneg (by omega)
      have hskip : 0 ≤ c.1 * m.layout.hrow := mul_nonneg hlo hrow
      have hlen : 0 ≤ c.2 * m.layout.hrow := mul_nonneg hpos.le hrow
      have hrest : 0 ≤ (m.layout.vocab - (c.1 + c.2)) * m.layout.hrow := mul_nonneg (by omega) hrow
      have hsplit : m.layout.lmNeed = c.1 * m.layout.hrow + (c.2 * m.layout.hrow + (m.layout.vocab - (c.1 + c.2)) * m.layout.hrow) := by
        show m.layout.vocab * m.layout.hrow = _
        ring
      rw [hsplit, storeRead_split f hskip (by omega)] at hread
      cases hfirst : storeRead f m.layout.lmHead.fileOff (c.1 * m.layout.hrow) with
      | none =>
          rw [hfirst] at hread
          cases hread
      | some x =>
          rw [hfirst, Option.bind_some, Option.isSome_map, storeRead_split f hlen hrest] at hread
          unfold Layout.headWindow
          dsimp only
          cases hpart : storeRead f (m.layout.lmHead.fileOff + c.1 * m.layout.hrow) (c.2 * m.layout.hrow) with
          | none =>
              rw [hpart] at hread
              cases hread
          | some y => rfl

/-- **When a call goes through**, with storage that gives what the file has: where all it lists is performed, and the
head passes if logits are wanted.  What the buffers and the rows of the sequence hold makes no difference. -/
theorem decode_succeeds_iff {D : Type} [Arith D] [Arith (BitVec 32)] (e : Engine D) (h : Loaded f direct threadOk plan force m)
    (seq : EngSeqState) (s : DecodeState) (token pos : Int) (logits : Bool) :
    (∃ r, qwen3Decode e f m seq s ⟨token, pos, logits, .ofFile f m⟩ = .ok r) ↔
      (0 ≤ token ∧ token < m.layout.vocab) ∧ seq.Accepts pos ∧
        performed f m.layout token logits = m.layout.steps token logits ∧
          (logits = true → HeadPasses f m (.ofFile f m)) := by
  rw [qwen3Decode_isOk]
  unfold performed Call.Refused EngSeqState.Accepts
  rw [List.takeWhile_eq_self_iff, steps_pass h]
  push Not
  constructor
  · rintro ⟨⟨htok, hpos⟩, -, hembd, hlayers, hhead⟩
    exact ⟨htok, hpos, ⟨hembd, hlayers⟩, hhead⟩
  · rintro ⟨htok, hpos, ⟨hembd, hlayers⟩, hhead⟩
    exact ⟨⟨htok, hpos⟩, rfl, hembd, hlayers, hhead⟩

end Performed

/-! ## The container of one layer, decoded -/

/-- The arithmetic of bit patterns, in the place of that of floats. -/
scoped instance : Arith (BitVec 32) where
  zero := 0#32
  one := 1#32

def bitEngine : Engine ℚ where
  fp := { constFpu with
    fmaf := fun a b c => a * b + c
    pow := fun a _ => a
    cos := id
    sin := id
    gtD := fun a b => decide (b < a) }
  build := ⟨true, true, true, false⟩
  ofIntD := exactInt
  ofInt := BitVec.ofInt 32
  stack := fun _ => 0
  avx := true
  eps := 0
  ropeTheta := 0

theorem oneLayer_steps : ∀ token : Int, 0 ≤ token → token < 2 → ∀ logits,
    performed oneLayer oneLayerLayout token logits = oneLayerLayout.steps token logits := by
  intro token h0 h2
  obtain rfl | rfl : token = 0 ∨ token = 1 := by omega
  · decide +kernel
  · decide +kernel

theorem oneLayer_head {direct threadOk : Bool} {plan : Option EngPlan} {force : Option Bool} {m : EngModel}
    (h : Loaded oneLayer direct threadOk plan force m) (hl : m.layout = oneLayerLayout) {io : CallIo}
    (hio : ∀ r, io.head r = true) : HeadPasses oneLayer m io := by
  apply headPasses_of_read h
  · rw [hl]
    decide +kernel
  · rw [hl]
    decide +kernel
  · exact hio

/-- Its two tokens are decoded at every position of a state. -/
theorem oneLayer_isOk {direct threadOk : Bool} {plan : Option EngPlan} {force : Option Bool} {m : EngModel}
    (h : Loaded oneLayer direct threadOk plan force m) (hl : m.layout = oneLayerLayout) {seq : EngSeqState} (s : DecodeState)
    {token pos : Int} (h0 : 0 ≤ token) (h2 : token < 2) (hpos : seq.Accepts pos) (logits : Bool) :
    ∃ r, qwen3Decode bitEngine oneLayer m seq s ⟨token, pos, logits, .ofFile oneLayer m⟩ = .ok r := by
  have hpass := oneLayer_steps token h0 h2 logits
  unfold performed at hpass
  rw [List.takeWhile_eq_self_iff, ← hl] at hpass
  obtain ⟨hembd, hlayers⟩ := (steps_pass h token logits).mp hpass
  refine (qwen3Decode_isOk bitEngine s _).mpr ⟨?_, rfl, hembd, hlayers, fun _ => oneLayer_head h hl fun _ => rfl⟩
  have hvocab : m.layout.vocab = 2 := by
    rw [hl]
    rfl
  have hlo := hpos.1
  have hhi := hpos.2
  unfold Call.Refused
  dsimp only
  omega

/-- In a state of four positions, token 1 is decoded at position 3, and not at position 4. -/
theorem oneLayer_decodes : ∃ m, qwen3Load oneLayer false true none none = .ok m ∧
    (∃ r, qwen3Decode bitEngine oneLayer m ⟨4, 4⟩ .blank ⟨1, 3, true, .ofFile oneLayer m⟩ = .ok r) ∧
      ¬ ∃ r, qwen3Decode bitEngine oneLayer m ⟨4, 4⟩ .blank ⟨1, 4, true, .ofFile oneLayer m⟩ = .ok r := by
  obtain ⟨m, hload, -⟩ := oneLayer_loaded
  have hl : m.layout = oneLayerLayout := Except.ok.inj ((qwen3Load_layout hload).symm.trans oneLayer_laid)
  have h := qwen3Load_ok hload
  refine ⟨m, hload, (decode_succeeds_iff bitEngine h ⟨4, 4⟩ .blank 1 3 true).mpr
    ⟨?_, ⟨by decide, by decide⟩, ?_, fun _ => ?_⟩, fun hr => ?_⟩
  · rw [hl]
    decide
  · rw [hl]
    exact oneLayer_steps 1 (by decide) (by decide) true
  · exact oneLayer_head h hl fun _ => rfl
  · have hpos := ((decode_succeeds_iff bitEngine h ⟨4, 4⟩ .blank 1 4 true).mp hr).2.1.2
    exact absurd hpos (by decide)

end LlmEngine.Models.Qwen3
