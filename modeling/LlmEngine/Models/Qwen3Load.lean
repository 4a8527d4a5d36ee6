/-
# LlmEngine.Models.Qwen3Load — the rest of `qwen3_load`, and the sequence state (`src/models/qwen3/qwen3.c`).

Behind the layout come the streamer, the final norm, the buffers for one embedding row and a chunk of
the LM head, the head itself where it is held resident, and the activation buffers.  A buffer is
modelled by its capacity.  An allocation succeeds up to `PTRDIFF_MAX` bytes and fails above; memory does
not run out.  A conversion to `size_t` keeps the low 64 bits, so a negative size is a huge one.

* `makeScratch` is the list of activation buffers, and `finish` everything behind the layout, in the source's order.
* `stateCreate` is the sequence state: two arrays of one size, K and V.
* `Laid` is what a container that was laid out has passed, `Layout.Buffers` what the capacities of the buffers are, and
  `Loaded` everything a load leaves behind (`qwen3Load_ok`).

A dimension is an `int` by a conversion that keeps the low 32 bits (`cInt_range`), which is all that bounds it.  Later
modules start from `Loaded` and do not open `qwen3_load` again.
-/
import LlmEngine.Models.Qwen3
import Mathlib.Algebra.Order.Ring.Abs
import Mathlib.Algebra.Order.Ring.Int

namespace LlmEngine.Models.Qwen3

open LlmEngine.Lib.LittleEndian
open LlmEngine.Formats
open LlmEngine.Runtime
open LlmEngine.Storage
open LlmEngine.Storage.Streamer
open LlmEngine.Tensor
open LlmEngine.Tokenizer (ascii)

/-! ## Memory and storage -/

/-- `(size_t)v`. -/
def sizeT (v : Int) : Nat := (v % 2 ^ 64).toNat

/-- `malloc`, with the bytes there are. -/
def malloc (bytes : Nat) : Option Nat := if bytes < 2 ^ 63 then some bytes else none

/-- `calloc`, with the elements there are; a product that does not fit is refused. -/
def calloc (n size : Nat) : Option Nat := if n * size < 2 ^ 63 then some n else none

/-- The container as the streamer's store. -/
def store (f : File) (direct : Bool) : EngStorage where
  byte := fun i => f.bytes.getD i 0
  size := f.bytes.length
  direct := direct

/-- `store->read`, where it returns `nbytes`. -/
def storeRead (f : File) (off nbytes : Int) : Option Bytes :=
  if nbytes = 0 then some []
  else if 0 ≤ off ∧ 0 ≤ nbytes ∧ off + nbytes ≤ f.bytes.length then
    some ((f.bytes.drop off.toNat).take nbytes.toNat)
  else none

/-! ## The model -/

/-- The activation buffers, in floats. -/
structure Scratch where
  x : Nat
  xn : Nat
  q : Nat
  k : Nat
  v : Nat
  att : Nat
  gate : Nat
  up : Nat
  ffn : Nat
  scores : Nat
  logits : Nat

/-- `struct EngModel`. -/
structure EngModel where
  layout : Layout
  stream : EngStreamer
  outNorm : Bytes
  /-- bytes of `rowbuf` and `headbuf` -/
  rowbuf : Nat
  headbuf : Nat
  headChunk : Int
  lmResident : Option Bytes
  scratch : Scratch

namespace Layout

variable (l : Layout)

/-- The row of a registered format, or as `other` reckons it. -/
def rowOr (dtype : EngDType) (other : Int → Int) : Int := ((quantRowBytes dtype).getD other) l.dModel

/-- `erow`. -/
def embdRow : Int := l.rowOr l.embd.dtype (engDtypeRowBytes l.embd.dtype)

/-- `hrow`, when the head's buffer is made. -/
def headRow : Int := l.rowOr l.lmHead.dtype (engDtypeRowBytes l.lmHead.dtype)

/-- `head_chunk`. -/
def headChunk : Int :=
  let chunk := cInt ((16 * 2 ^ 20 : Int).tdiv (if l.headRow > 0 then l.headRow else 1))
  let chunk := if chunk < 1 then 1 else chunk
  if chunk > l.vocab then l.vocab else chunk

/-- The activation buffers, all sized at load. -/
def makeScratch : Option Scratch := do
  let x ← calloc (sizeT l.dModel) 4
  let xn ← calloc (sizeT l.dModel) 4
  let q ← calloc (sizeT (l.nHeads * l.headDim)) 4
  let k ← calloc (sizeT (l.nKv * l.headDim)) 4
  let v ← calloc (sizeT (l.nKv * l.headDim)) 4
  let att ← calloc (sizeT (l.nHeads * l.headDim)) 4
  let gate ← calloc (sizeT l.dFf) 4
  let up ← calloc (sizeT l.dFf) 4
  let ffn ← calloc (sizeT l.dModel) 4
  let scores ← calloc (sizeT (l.ctxMax + 1)) 4
  let logits ← calloc (sizeT l.vocab) 4
  return ⟨x, xn, q, k, v, att, gate, up, ffn, scores, logits⟩

/-- `want_lm_resident`. -/
def wantResident (plan : Option EngPlan) (force : Option Bool) : Bool :=
  wantLmResident ((plan.map (·.streamBudget)).getD (512 * 2 ^ 20)) l.lmNeed l.bigLayer l.nLayers force

/-- `qwen3_load` from the streamer on. -/
def finish (f : File) (direct threadOk : Bool) (plan : Option EngPlan) (force : Option Bool) :
    Option EngModel := do
  let stream ← engStreamerCreate (store f direct) (l.streamerCfg plan force) threadOk
  let _ ← malloc (sizeT l.outNorm.nbytes)
  let outNorm ← storeRead f l.outNorm.fileOff l.outNorm.nbytes
  let rowbuf ← malloc (sizeT l.embdRow)
  let headbuf ← malloc (sizeT (l.headChunk * l.headRow))
  let lmResident :=
    if l.wantResident plan force then
      (malloc (sizeT l.lmNeed)).bind fun _ => storeRead f l.lmHead.fileOff l.lmNeed
    else none
  let scratch ← l.makeScratch
  return ⟨l, stream, outNorm, rowbuf, headbuf, l.headChunk, lmResident, scratch⟩

end Layout

/-- Why nothing is loaded. -/
inductive LoadError where
  | layout (e : LoadFail)
  /-- no streamer, no final norm, or no memory -/
  | resources
  deriving DecidableEq, Repr

/-- `qwen3_load`. -/
def qwen3Load (f : File) (direct threadOk : Bool) (plan : Option EngPlan) (force : Option Bool) :
    Except LoadError EngModel :=
  match qwen3Layout f with
  | .error e => .error (.layout e)
  | .ok l =>
      match l.finish f direct threadOk plan force with
      | none => .error .resources
      | some m => .ok m

theorem qwen3Load_eq_ok {f : File} {direct threadOk : Bool} {plan : Option EngPlan} {force : Option Bool}
    {m : EngModel} : qwen3Load f direct threadOk plan force = .ok m ↔
      ∃ l, qwen3Layout f = .ok l ∧ l.finish f direct threadOk plan force = some m := by
  unfold qwen3Load
  constructor
  · intro h
    split at h
    · exact absurd h (by simp)
    · next l hl =>
        split at h
        · exact absurd h (by simp)
        · next m' hm => exact ⟨l, hl, by rw [hm, Except.ok.inj h]⟩
  · rintro ⟨l, hl, hm⟩
    rw [hl]
    simp only [hm]

/-- The layout is kept. -/
theorem qwen3Load_layout {f : File} {direct threadOk : Bool} {plan : Option EngPlan} {force : Option Bool}
    {m : EngModel} (h : qwen3Load f direct threadOk plan force = .ok m) : qwen3Layout f = .ok m.layout := by
  obtain ⟨l, hl, hm⟩ := qwen3Load_eq_ok.mp h
  unfold Layout.finish at hm
  simp only [Option.bind_eq_bind, Option.bind_eq_some_iff] at hm
  obtain ⟨_, -, _, -, _, -, _, -, _, -, _, -, hm⟩ := hm
  obtain rfl := Option.some.inj hm
  exact hl

/-! ## The sequence state -/

/-- `struct EngSeqState`: `floats` is the size of `kc` and of `vc`. -/
structure EngSeqState where
  context : Int
  floats : Nat
  deriving DecidableEq, Repr

/-- `m->n_kv * m->head_dim`. -/
def EngModel.kvWidth (m : EngModel) : Int := m.layout.nKv * m.layout.headDim

/-- `qwen3_state_create`; the product wraps around in `size_t`. -/
def stateCreate (m : EngModel) (context : Int) : Option EngSeqState :=
  if context ≤ 0 then none
  else
    let n := sizeT m.layout.nLayers * sizeT context * sizeT m.kvWidth % 2 ^ 64
    (calloc n 4).map fun n => ⟨context, n⟩

/-- `qwen3_state_bytes`. -/
def stateBytes (m : EngModel) (context : Int) : Int :=
  2 * m.layout.nLayers * context * m.layout.nKv * m.layout.headDim * 4

/-- What the two arrays of a state take. -/
def EngSeqState.bytes (s : EngSeqState) : Int := 2 * (s.floats * 4)

/-! ## What a loaded model is -/

theorem sizeT_of_range {v : Int} (h : 0 ≤ v) (h' : v < 2 ^ 64) : (sizeT v : Int) = v := by
  unfold sizeT
  rw [Int.emod_eq_of_lt h h', Int.toNat_of_nonneg h]

theorem malloc_eq_some {bytes n : Nat} : malloc bytes = some n ↔ bytes < 2 ^ 63 ∧ n = bytes := by
  unfold malloc
  rw [Option.ite_none_right_eq_some, Option.some.injEq, @eq_comm _ n]

theorem calloc_eq_some {k size n : Nat} : calloc k size = some n ↔ k * size < 2 ^ 63 ∧ n = k := by
  unfold calloc
  rw [Option.ite_none_right_eq_some, Option.some.injEq, @eq_comm _ n]

/-- A size that could be allocated was not negative. -/
theorem sizeT_nonneg {v : Int} (h : sizeT v < 2 ^ 63) (hlo : -2 ^ 63 ≤ v) : 0 ≤ v := by
  by_contra hneg
  have hmod : v % 2 ^ 64 = v + 2 ^ 64 := by
    rw [← Int.add_emod_right, Int.emod_eq_of_lt (by omega) (by omega)]
  unfold sizeT at h
  rw [hmod] at h
  omega

/-- A buffer of `v` floats, `v` well within `int64_t`. -/
theorem calloc_floats {v : Int} {n : Nat} (h : calloc (sizeT v) 4 = some n) (hlo : -2 ^ 63 ≤ v)
    (hhi : v < 2 ^ 63) : 0 ≤ v ∧ (n : Int) = v := by
  obtain ⟨hsize, rfl⟩ := calloc_eq_some.mp h
  have hnn := sizeT_nonneg (by omega) hlo
  exact ⟨hnn, sizeT_of_range hnn (by omega)⟩

theorem cInt_range (v : Int) : -2 ^ 31 ≤ cInt v ∧ cInt v < 2 ^ 31 :=
  ⟨Int.le_bmod (by decide), Int.bmod_lt (by decide)⟩

/-- The numbers of a layout are `int`s. -/
structure Layout.Ints (l : Layout) : Prop where
  nLayers : -2 ^ 31 ≤ l.nLayers ∧ l.nLayers < 2 ^ 31
  dModel : -2 ^ 31 ≤ l.dModel ∧ l.dModel < 2 ^ 31
  nHeads : -2 ^ 31 ≤ l.nHeads ∧ l.nHeads < 2 ^ 31
  nKv : -2 ^ 31 ≤ l.nKv ∧ l.nKv < 2 ^ 31
  headDim : -2 ^ 31 ≤ l.headDim ∧ l.headDim < 2 ^ 31
  dFf : -2 ^ 31 ≤ l.dFf ∧ l.dFf < 2 ^ 31
  vocab : -2 ^ 31 ≤ l.vocab ∧ l.vocab < 2 ^ 31
  ctxMax : -2 ^ 31 ≤ l.ctxMax ∧ l.ctxMax < 2 ^ 31

/-- **What a laid out container passed.** -/
structure Laid (g : Gguf) (l : Layout) : Prop where
  ints : l.Ints
  nKv_ne : l.nKv ≠ 0
  groups : l.nHeads.tmod l.nKv = 0
  width : l.nHeads * l.headDim = l.dModel
  embd : ggufTensor g (ascii "token_embd.weight") = some l.embd
  lmHead : ggufTensor g (ascii "output.weight") = some l.lmHead
  outNorm : ggufTensor g (ascii "output_norm.weight") = some l.outNorm
  vocab : l.vocab = cInt (dimAt l.embd 1)
  layers : ∃ layers, (List.range l.nLayers.toNat).mapM (layLayer g) = .ok layers ∧
    l.blocks = layers.map Prod.fst ∧ l.slots = layers.map Prod.snd

theorem layGguf_laid {g : Gguf} {l : Layout} (h : layGguf g = .ok l) : Laid g l := by
  unfold layGguf at h
  simp only at h
  split at h
  · next embd lmHead onm hembd hlm honm =>
      simp only [check_ok_iff, not_not] at h
      obtain ⟨hkv, hgroups, hwidth, h⟩ := h
      split at h
      · exact absurd h (by simp)
      · next layers hlayers =>
          obtain rfl := Except.ok.inj h
          exact ⟨⟨cInt_range _, cInt_range _, cInt_range _, cInt_range _, cInt_range _, cInt_range _,
            cInt_range _, cInt_range _⟩, hkv, hgroups, hwidth, hembd, hlm, honm, rfl, layers, hlayers, rfl, rfl⟩
  · exact absurd h (by simp)

/-- The capacities of the activation buffers. -/
structure Layout.Buffers (l : Layout) (b : Scratch) : Prop where
  dModel : 0 ≤ l.dModel
  x : (b.x : Int) = l.dModel
  xn : (b.xn : Int) = l.dModel
  q : (b.q : Int) = l.nHeads * l.headDim
  kv : 0 ≤ l.nKv * l.headDim
  k : (b.k : Int) = l.nKv * l.headDim
  v : (b.v : Int) = l.nKv * l.headDim
  att : (b.att : Int) = l.nHeads * l.headDim
  dFf : 0 ≤ l.dFf
  gate : (b.gate : Int) = l.dFf
  up : (b.up : Int) = l.dFf
  ffn : (b.ffn : Int) = l.dModel
  scores : (b.scores : Int) = l.ctxMax + 1
  vocab : 0 ≤ l.vocab
  logits : (b.logits : Int) = l.vocab

theorem int_mul_abs {a b : Int} (ha : -2 ^ 31 ≤ a ∧ a < 2 ^ 31) (hb : -2 ^ 31 ≤ b ∧ b < 2 ^ 31) :
    |a * b| ≤ 2 ^ 31 * 2 ^ 31 := by
  rw [abs_mul]
  exact mul_le_mul (abs_le.mpr (by omega)) (abs_le.mpr (by omega)) (abs_nonneg b) (by norm_num)

/-- A product of two `int`s is well within `int64_t`. -/
theorem int_mul_range {a b : Int} (ha : -2 ^ 31 ≤ a ∧ a < 2 ^ 31) (hb : -2 ^ 31 ≤ b ∧ b < 2 ^ 31) :
    -2 ^ 63 ≤ a * b ∧ a * b < 2 ^ 63 := by
  obtain ⟨hlo, hhi⟩ := abs_le.mp (int_mul_abs ha hb)
  constructor <;> omega

theorem makeScratch_buffers {l : Layout} {b : Scratch} (hl : l.Ints) (h : l.makeScratch = some b) :
    l.Buffers b := by
  unfold Layout.makeScratch at h
  simp only [Option.bind_eq_bind, Option.bind_eq_some_iff] at h
  obtain ⟨x, hx, xn, hxn, q, hq, k, hk, v, hv, att, hatt, gate, hgate, up, hup, ffn, hffn, scores, hscores,
    logits, hlogits, hb⟩ := h
  obtain rfl := Option.some.inj hb
  obtain ⟨-, hd, hh, hn, hhd, hff, hvo, hct⟩ := hl
  have hqs := int_mul_range hh hhd
  have hks := int_mul_range hn hhd
  have hx := calloc_floats hx (by omega) (by omega)
  have hxn := calloc_floats hxn (by omega) (by omega)
  have hq := calloc_floats hq hqs.1 hqs.2
  have hk := calloc_floats hk hks.1 hks.2
  have hv := calloc_floats hv hks.1 hks.2
  have hatt := calloc_floats hatt hqs.1 hqs.2
  have hgate := calloc_floats hgate (by omega) (by omega)
  have hup := calloc_floats hup (by omega) (by omega)
  have hffn := calloc_floats hffn (by omega) (by omega)
  have hscores := calloc_floats hscores (by omega) (by omega)
  have hlogits := calloc_floats hlogits (by omega) (by omega)
  exact ⟨hx.1, hx.2, hxn.2, hq.2, hk.1, hk.2, hv.2, hatt.2, hgate.1, hgate.2, hup.2, hffn.2, hscores.2,
    hlogits.1, hlogits.2⟩

/-- **What `qwen3_load` leaves behind.** -/
structure Loaded (f : File) (direct threadOk : Bool) (plan : Option EngPlan) (force : Option Bool)
    (m : EngModel) : Prop where
  opened : ∃ g, ggufOpen f = some g ∧ layGguf g = .ok m.layout
  stream : engStreamerCreate (store f direct) (m.layout.streamerCfg plan force) threadOk = some m.stream
  outNorm : storeRead f m.layout.outNorm.fileOff m.layout.outNorm.nbytes = some m.outNorm
  rowbuf : sizeT m.layout.embdRow < 2 ^ 63 ∧ m.rowbuf = sizeT m.layout.embdRow
  headbuf : sizeT (m.layout.headChunk * m.layout.headRow) < 2 ^ 63 ∧
    m.headbuf = sizeT (m.layout.headChunk * m.layout.headRow)
  headChunk : m.headChunk = m.layout.headChunk
  lmResident : ∀ y ∈ m.lmResident, storeRead f m.layout.lmHead.fileOff m.layout.lmNeed = some y
  buffers : m.layout.Buffers m.scratch

theorem qwen3Load_ok {f : File} {direct threadOk : Bool} {plan : Option EngPlan} {force : Option Bool}
    {m : EngModel} (h : qwen3Load f direct threadOk plan force = .ok m) :
    Loaded f direct threadOk plan force m := by
  obtain ⟨l, hl, hm⟩ := qwen3Load_eq_ok.mp h
  unfold qwen3Layout at hl
  split at hl
  · exact absurd hl (by simp)
  · next g hopen =>
      have hlaid := layGguf_laid hl
      unfold Layout.finish at hm
      simp only [Option.bind_eq_bind, Option.bind_eq_some_iff] at hm
      obtain ⟨stream, hstream, _, -, outNorm, hnorm, rowbuf, hrow, headbuf, hhead, scratch, hscratch, hm⟩ := hm
      obtain rfl := Option.some.inj hm
      refine ⟨⟨g, hopen, hl⟩, hstream, hnorm, malloc_eq_some.mp hrow, malloc_eq_some.mp hhead, rfl, ?_,
        makeScratch_buffers hlaid.ints hscratch⟩
      intro y hy
      simp only at hy
      split_ifs at hy
      · obtain ⟨_, -, hread⟩ := Option.bind_eq_some_iff.mp hy
        exact hread
      · exact absurd hy (by simp)

/-- Its numbers are `int`s. -/
theorem Loaded.ints {f : File} {direct threadOk : Bool} {plan : Option EngPlan} {force : Option Bool}
    {m : EngModel} (h : Loaded f direct threadOk plan force m) : m.layout.Ints := by
  obtain ⟨g, -, hl⟩ := h.opened
  exact (layGguf_laid hl).ints

end LlmEngine.Models.Qwen3
