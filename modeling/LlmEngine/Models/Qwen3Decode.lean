/-
# LlmEngine.Models.Qwen3Decode — one step of the dense backend (`qwen3_decode` in `src/models/qwen3/qwen3.c`).

The activation buffers of the model and the two arrays of the sequence state are carried from call to call as
they are: a kernel that writes less than a buffer leaves the rest of it, a call that fails leaves what it got
to, and a row of K or V stays until it is written again.  `Except` carries that: `.error` is the return value
`-1`, with what is left behind.

What storage does is decided call by call (`CallIo`): whether the row of the embedding and the chunks of the
head are read, and what the streamer hands out for a layer, a block or NULL.  Nothing is taken for granted
about the bytes of such a block.  Along the walk of the layers they are those of the file up to the first
NULL (`Storage.Streamer.walk_safe`); a call that begins again behind a read that failed is no such walk, and
it may be handed a slot of the ring that the reader thread is writing to (`Storage.StreamerOrder`).  A read of the embedding or of the
head that fails may have written its buffer in part, which the next call writes again before it reads it; the
model leaves the buffer alone.

A call is put together from the parts of the C function, in its order: `embedInto`; for each layer
`attnInputs` (norm, three projections, QK-norm, RoPE), `appendKv`, `attendCached`, `finishLayer`; then
`decodeHead`, where logits are wanted, and `n_seen`.  Timing and the capture hook are left out.

* `Models.Qwen3Phases` says what each part depends on;
* `Models.Qwen3Succeeds` says when a call goes through;
* `Models.Qwen3Recompute` says what the rows of a sequence are, and what its logits are.
-/
import LlmEngine.Kernels.Dense
import LlmEngine.Models.Qwen3Geometry

namespace LlmEngine.Models.Qwen3

open LlmEngine.Core (Arith Vec ptr loop)
open LlmEngine.Lib.Chunks
open LlmEngine.Formats
open LlmEngine.Kernels
open LlmEngine.Quant
open LlmEngine.Storage.Streamer (EngBlock)
open LlmEngine.Tensor

/-! ## The engine -/

/-- What a process computes with: its operators, its build, and the two `float` keys of the container. -/
structure Engine (D : Type) where
  fp : DenseFpu (BitVec 32) D
  build : Build
  /-- `(double)i` and `(float)i` -/
  ofIntD : Int → D
  ofInt : Int → BitVec 32
  /-- what the stack holds where a kernel expands a group -/
  stack : Vec (BitVec 32)
  /-- `eng_kernel_active() == ENG_IMPL_AVX2` -/
  avx : Bool
  /-- `attention.layer_norm_rms_epsilon` and `rope.freq_base` -/
  eps : BitVec 32
  ropeTheta : BitVec 32

variable {D : Type} [Arith D] [Arith (BitVec 32)]

/-- The registered formats. -/
def Engine.reg (e : Engine D) : Registry D (BitVec 32) := regInit e.build e.fp.toFpu e.ofIntD id e.ofInt e.stack

/-- A `float *` into bytes. -/
def floatsAt (b : Core.Bytes) (off : Nat) : Vec (BitVec 32) := fun i =>
  b (off + 4 * i + 3) ++ b (off + 4 * i + 2) ++ b (off + 4 * i + 1) ++ b (off + 4 * i)

/-- Bytes that were read. -/
def ofList (w : List UInt8) : Core.Bytes := fun i => (w.getD i 0).toBitVec

/-- The file from `off` on. -/
def fileFrom (f : File) (off : Int) : Core.Bytes := fun i => (f.bytes.getD (off + i).toNat 0).toBitVec

/-- `LayerSlots`. -/
structure LayerSlots where
  attnNorm : Slot
  attnQ : Slot
  attnK : Slot
  attnV : Slot
  attnQNorm : Slot
  attnKNorm : Slot
  attnOut : Slot
  ffnNorm : Slot
  ffnGate : Slot
  ffnUp : Slot
  ffnDown : Slot
  deriving DecidableEq, Repr

/-- The slots of a layer, in the order they are bound; zero where nothing was. -/
def LayerSlots.ofSlots (ws : List Slot) : LayerSlots :=
  let at_ := fun i => ws.getD i ⟨0, 0, .f32, 0, 0⟩
  ⟨at_ 0, at_ 1, at_ 2, at_ 3, at_ 4, at_ 5, at_ 6, at_ 7, at_ 8, at_ 9, at_ 10⟩

namespace EngModel

variable (m : EngModel)

def layer (L : Nat) : LayerSlots := .ofSlots (m.layout.slots.getD L [])

/-- `d_model`, `n_heads`, `n_kv`, `head_dim`, `d_ff`, as the loops count. -/
def d : Nat := m.layout.dModel.toNat

def nh : Nat := m.layout.nHeads.toNat

def nkv : Nat := m.layout.nKv.toNat

def hd : Nat := m.layout.headDim.toNat

def ff : Nat := m.layout.dFf.toNat

/-- `kvw` -/
def kvw : Nat := m.kvWidth.toNat

/-- Query heads per KV head. -/
def rep : Nat := (m.layout.nHeads.tdiv m.layout.nKv).toNat

/-- The block of a layer, as the file has it. -/
def base (f : File) (L : Nat) : Core.Bytes := fileFrom f (m.layout.blocks.getD L default).off

end EngModel

/-! ## State -/

/-- The buffers of the model and the contents of a sequence state. -/
structure DecodeState where
  x : Vec (BitVec 32)
  xn : Vec (BitVec 32)
  q : Vec (BitVec 32)
  k : Vec (BitVec 32)
  v : Vec (BitVec 32)
  att : Vec (BitVec 32)
  gate : Vec (BitVec 32)
  up : Vec (BitVec 32)
  ffn : Vec (BitVec 32)
  scores : Vec (BitVec 32)
  logits : Vec (BitVec 32)
  nSeen : Int
  kc : Vec (BitVec 32)
  vc : Vec (BitVec 32)

/-- All zero, as `calloc` leaves it. -/
def DecodeState.blank : DecodeState :=
  let z : Vec (BitVec 32) := fun _ => 0
  ⟨z, z, z, z, z, z, z, z, z, z, z, 0, z, z⟩

/-- A step that returns `-1` leaves the state `s`. -/
def orFail {α : Type} (s : DecodeState) : Option α → Except DecodeState α
  | none => .error s
  | some a => .ok a

/-- What a call leaves, whatever it returns. -/
def left : Except DecodeState DecodeState → DecodeState
  | .ok s => s
  | .error s => s

omit [Arith (BitVec 32)] in
theorem bind_ok {α : Type} {s' : DecodeState} {x : Except DecodeState α} {k : α → Except DecodeState DecodeState} :
    x.bind k = .ok s' ↔ ∃ a, x = .ok a ∧ k a = .ok s' := by
  cases x with
  | error s =>
      constructor
      · intro h
        cases h
      · rintro ⟨a, h, -⟩
        cases h
  | ok a =>
      constructor
      · exact fun h => ⟨a, rfl, h⟩
      · rintro ⟨b, hb, h⟩
        obtain rfl := Except.ok.inj hb
        exact h

omit [Arith (BitVec 32)] in
theorem bind_orFail_ok {α : Type} {s s' : DecodeState} {x : Option α} {k : α → Except DecodeState DecodeState} :
    (orFail s x).bind k = .ok s' ↔ ∃ a, x = some a ∧ k a = .ok s' := by
  rw [bind_ok]
  cases x with
  | none => simp [orFail]
  | some a => simp [orFail]

omit [Arith (BitVec 32)] in
theorem left_orFail {P : DecodeState → Prop} {α : Type} {s : DecodeState} {x : Option α} {k : α → Except DecodeState DecodeState}
    (hs : P s) (hk : ∀ a, P (left (k a))) : P (left ((orFail s x).bind k)) := by
  cases x with
  | none => exact hs
  | some a => exact hk a

omit [Arith (BitVec 32)] in
/-- A loop that may fail: what holds from round to round, and what is left by the round that fails. -/
theorem foldlM_range {g : DecodeState → Nat → Except DecodeState DecodeState} {P : Nat → DecodeState → Prop}
    {Q : DecodeState → Prop} {n : Nat} {s : DecodeState} (hzero : P 0 s)
    (hstep : ∀ k < n, ∀ s, P k s → (∀ r, g s k = .ok r → P (k + 1) r) ∧ ∀ r, g s k = .error r → Q r) :
    (∀ r, (List.range n).foldlM g s = .ok r → P n r) ∧ ∀ r, (List.range n).foldlM g s = .error r → Q r := by
  induction n with
  | zero =>
      refine ⟨fun r h => ?_, fun r h => ?_⟩
      · obtain rfl := Except.ok.inj h
        exact hzero
      · cases h
  | succ n ih =>
      obtain ⟨hok, herr⟩ := ih fun k hk => hstep k (by omega)
      rw [List.range_succ, List.foldlM_append]
      cases hrun : (List.range n).foldlM g s with
      | error t =>
          refine ⟨fun r h => ?_, fun r h => ?_⟩
          · cases h
          · obtain rfl := Except.error.inj h
            exact herr _ hrun
      | ok t =>
          have hlast : ([n].foldlM g t : Except DecodeState DecodeState) = g t n := by
            rw [List.foldlM_cons]
            cases g t n <;> rfl
          have hnext := hstep n (Nat.lt_succ_self n) t (hok t hrun)
          exact ⟨fun r h => hnext.1 r (hlast.symm.trans h), fun r h => hnext.2 r (hlast.symm.trans h)⟩

omit [Arith (BitVec 32)] in
/-- Of rounds that go through or not whatever they begin with, all go through or the loop fails. -/
theorem foldlM_isOk {α : Type} {step : DecodeState → α → Except DecodeState DecodeState} {P : α → Prop}
    (hstep : ∀ s a, (∃ r, step s a = .ok r) ↔ P a) (l : List α) :
    ∀ s, (∃ r, l.foldlM step s = .ok r) ↔ ∀ a ∈ l, P a := by
  induction l with
  | nil => exact fun s => ⟨fun _ a ha => absurd ha List.not_mem_nil, fun _ => ⟨s, rfl⟩⟩
  | cons a l ih =>
      intro s
      rw [List.forall_mem_cons, List.foldlM_cons]
      constructor
      · rintro ⟨r, hr⟩
        obtain ⟨t, ht, hr⟩ := bind_ok.mp hr
        exact ⟨(hstep s a).mp ⟨t, ht⟩, (ih t).mp ⟨r, hr⟩⟩
      · rintro ⟨ha, hl⟩
        obtain ⟨t, ht⟩ := (hstep s a).mpr ha
        obtain ⟨r, hr⟩ := (ih t).mpr hl
        exact ⟨r, bind_ok.mpr ⟨t, ht, hr⟩⟩

/-- What storage does in a call: whether the row of the embedding is read, what `eng_streamer_get` hands out for a
layer (nothing is NULL), and whether the chunk of the head from a row on is read. -/
structure CallIo where
  embed : Bool
  layer : Nat → Option Core.Bytes
  head : Int → Bool

/-! ## Pieces -/

section Pieces

variable (e : Engine D) (m : EngModel)

/-- `project`. -/
def project (y x : Vec (BitVec 32)) (base : Core.Bytes) (s : Slot) : Option (Vec (BitVec 32)) :=
  if s.dtype = .f32 then
    some (engMatmulF32 e.fp e.avx y x (floatsAt base s.rel.toNat) (cInt s.inputs).toNat (cInt s.outputs).toNat)
  else
    (engMatmulQuant e.fp.toFpu e.reg y x (bytesAt base s.rel.toNat) none (cInt s.inputs) (cInt s.outputs) s.dtype).toOption

/-- `head_norm`. -/
def headNorm (nheads : Nat) (w v : Vec (BitVec 32)) : Vec (BitVec 32) :=
  eachHead nheads m.hd (fun u => engRmsnorm e.fp u u w m.hd e.eps) v

/-- `eng_rope` on each head. -/
def headRope (nheads pos : Nat) (v : Vec (BitVec 32)) : Vec (BitVec 32) :=
  eachHead nheads m.hd (engRope e.fp m.hd pos e.ropeTheta) v

/-- A query head, on `scores` and `att`: heads in a row share a KV head. -/
def attendHead (pos : Nat) (q : Vec (BitVec 32)) (krow vrow : Nat → Vec (BitVec 32)) (s : Vec (BitVec 32) × Vec (BitVec 32))
    (h : Nat) : Vec (BitVec 32) × Vec (BitVec 32) :=
  let kvh := h / m.rep
  let scores := headScores e.fp e.avx m.hd pos s.1 (ptr q (h * m.hd)) fun t => ptr (krow t) (kvh * m.hd)
  (scores, wrote (h * m.hd) m.hd (headOut pos scores fun t => ptr (vrow t) (kvh * m.hd)) s.2)

/-- The loop over the query heads. -/
def attend (pos : Nat) (q : Vec (BitVec 32)) (krow vrow : Nat → Vec (BitVec 32)) (s : Vec (BitVec 32) × Vec (BitVec 32)) :
    Vec (BitVec 32) × Vec (BitVec 32) :=
  loop m.nh s (attendHead e m pos q krow vrow)

end Pieces

/-! ## A layer -/

section Layer

variable (e : Engine D) (m : EngModel) (base : Core.Bytes) (sl : LayerSlots)

/-- Norm, the three projections, QK-norm and RoPE. -/
def attnInputs (pos : Nat) (s : DecodeState) : Except DecodeState DecodeState := do
  let s := { s with xn := engRmsnorm e.fp s.xn s.x (floatsAt base sl.attnNorm.rel.toNat) m.d e.eps }
  let q ← orFail s (project e s.q s.xn base sl.attnQ)
  let s := { s with q := q }
  let k ← orFail s (project e s.k s.xn base sl.attnK)
  let s := { s with k := k }
  let v ← orFail s (project e s.v s.xn base sl.attnV)
  let s := { s with v := v }
  let s := { s with
    q := headNorm e m m.nh (floatsAt base sl.attnQNorm.rel.toNat) s.q
    k := headNorm e m m.nkv (floatsAt base sl.attnKNorm.rel.toNat) s.k }
  return { s with q := headRope e m m.nh pos s.q, k := headRope e m m.nkv pos s.k }

/-- The output projection and the feed-forward part. -/
def finishLayer (s : DecodeState) : Except DecodeState DecodeState := do
  let ffn ← orFail s (project e s.ffn s.att base sl.attnOut)
  let s := { s with ffn := ffn, x := addInto m.d s.x ffn }
  let s := { s with xn := engRmsnorm e.fp s.xn s.x (floatsAt base sl.ffnNorm.rel.toNat) m.d e.eps }
  let gate ← orFail s (project e s.gate s.xn base sl.ffnGate)
  let s := { s with gate := gate }
  let up ← orFail s (project e s.up s.xn base sl.ffnUp)
  let s := { s with up := up }
  let s := { s with gate := swigluInto e.fp m.ff s.gate s.up }
  let ffn ← orFail s (project e s.ffn s.gate base sl.ffnDown)
  return { s with ffn := ffn, x := addInto m.d s.x ffn }

end Layer

section Decode

variable (e : Engine D) (f : File) (m : EngModel) (seq : EngSeqState)

/-- The rows of a layer in `kc` or `vc`. -/
def rowIn (kc : Vec (BitVec 32)) (L : Nat) (t : Nat) : Vec (BitVec 32) := ptr kc (rowAt m seq L t)

/-- Append this position's K and V. -/
def appendKv (L pos : Nat) (s : DecodeState) : DecodeState :=
  { s with
    kc := wrote (rowAt m seq L pos) m.kvw s.k s.kc
    vc := wrote (rowAt m seq L pos) m.kvw s.v s.vc }

/-- Attend over the rows `0` to `pos`. -/
def attendCached (L pos : Nat) (s : DecodeState) : DecodeState :=
  let r := attend e m pos s.q (rowIn m seq s.kc L) (rowIn m seq s.vc L) (s.scores, s.att)
  { s with scores := r.1, att := r.2 }

/-- The body of the layer loop. -/
def decodeLayer (io : CallIo) (pos : Nat) (s : DecodeState) (L : Nat) : Except DecodeState DecodeState := do
  let base ← orFail s (io.layer L)
  let s ← attnInputs e m base (m.layer L) pos s
  finishLayer e m base (m.layer L) (attendCached e m seq L pos (appendKv m seq L pos s))

/-- The row of the embedding, read and materialised into `x`. -/
def embedInto (x : Vec (BitVec 32)) (token : Int) : Option (Vec (BitVec 32)) :=
  (storeRead f (m.layout.embdWindow token).off (m.layout.embdWindow token).len).map fun w =>
    match e.reg m.layout.embd.dtype with
    | some q => q.dequantRow x (ofList w) none m.d
    | none => wrote 0 m.d (floatsAt (ofList w) 0) x

/-- `n` rows of the LM head against `xn`, into `y`. -/
def headProduct (y xn : Vec (BitVec 32)) (w : Core.Bytes) (n : Int) : Option (Vec (BitVec 32)) :=
  if (e.reg m.layout.lmHead.dtype).isSome then
    (engMatmulQuant e.fp.toFpu e.reg y xn w none m.layout.dModel n m.layout.lmHead.dtype).toOption
  else some (engMatmulF32 e.fp e.avx y xn (floatsAt w 0) m.d n.toNat)

/-- One round of the chunk loop. -/
def headChunkStep (io : CallIo) (s : DecodeState) (c : Int × Int) : Except DecodeState DecodeState := do
  let w ← orFail s (if io.head c.1 then storeRead f (m.layout.headWindow c.1 c.2).off (m.layout.headWindow c.1 c.2).len else none)
  let y ← orFail s (headProduct e m (ptr s.logits c.1.toNat) s.xn (ofList w) c.2)
  return { s with logits := wrote c.1.toNat c.2.toNat y s.logits }

/-- The final norm and the LM head. -/
def decodeHead (io : CallIo) (s : DecodeState) : Except DecodeState DecodeState := do
  let s := { s with xn := engRmsnorm e.fp s.xn s.x (floatsAt (ofList m.outNorm) 0) m.d e.eps }
  match m.lmResident with
  | some y =>
      let logits ← orFail s (headProduct e m s.logits s.xn (ofList y) m.layout.vocab)
      return { s with logits := logits }
  | none => (chunks m.headChunk m.layout.vocab 0).foldlM (headChunkStep e f m io) s

/-- The layers. -/
def decodeLayers (io : CallIo) (pos n : Nat) (s : DecodeState) : Except DecodeState DecodeState :=
  (List.range n).foldlM (decodeLayer e m seq io pos) s

/-- One call of `qwen3_decode`; `logits` is `ENG_DEC_LOGITS`. -/
structure Call where
  token : Int
  pos : Int
  logits : Bool
  io : CallIo

/-- The end of `qwen3_decode`: the head where logits are wanted, and `n_seen`. -/
def decodeEnd (s : DecodeState) (c : Call) : Except DecodeState DecodeState := do
  let s ← if c.logits then decodeHead e f m c.io s else .ok s
  return { s with nSeen := if c.pos + 1 > s.nSeen then c.pos + 1 else s.nSeen }

/-- `qwen3_decode`. -/
def qwen3Decode (s : DecodeState) (c : Call) : Except DecodeState DecodeState :=
  if c.token < 0 ∨ c.token ≥ m.layout.vocab then .error s
  else if c.pos < 0 ∨ c.pos ≥ seq.context then .error s
  else do
    let x ← orFail s (if c.io.embed then embedInto e f m s.x c.token else none)
    let s ← decodeLayers e m seq c.io c.pos.toNat m.layout.nLayers.toNat { s with x := x }
    decodeEnd e f m s c

end Decode

/-! ## How a call ends -/

/-- The call is not for this model, or not for this state. -/
def Call.Refused (m : EngModel) (seq : EngSeqState) (c : Call) : Prop :=
  (c.token < 0 ∨ c.token ≥ m.layout.vocab) ∨ c.pos < 0 ∨ c.pos ≥ seq.context

instance (m : EngModel) (seq : EngSeqState) (c : Call) : Decidable (c.Refused m seq) :=
  inferInstanceAs (Decidable (_ ∨ _))

section Cases

variable {e : Engine D} {f : File} {m : EngModel} {seq : EngSeqState} {s : DecodeState} {c : Call}

theorem qwen3Decode_refused (h : c.Refused m seq) : qwen3Decode e f m seq s c = .error s := by
  unfold qwen3Decode
  rcases h with htok | hpos
  · rw [if_pos htok]
  · rw [if_pos hpos, ite_self]

/-- How a call ends that is not refused: at the embedding, in a layer, or after them all. -/
theorem qwen3Decode_cases (h : ¬ c.Refused m seq) :
    ((c.io.embed = true → embedInto e f m s.x c.token = none) ∧ qwen3Decode e f m seq s c = .error s) ∨
    ∃ x, (c.io.embed = true ∧ embedInto e f m s.x c.token = some x) ∧
      ((∃ r, decodeLayers e m seq c.io c.pos.toNat m.layout.nLayers.toNat { s with x := x } = .error r ∧
          qwen3Decode e f m seq s c = .error r) ∨
        ∃ a, decodeLayers e m seq c.io c.pos.toNat m.layout.nLayers.toNat { s with x := x } = .ok a ∧
          qwen3Decode e f m seq s c = decodeEnd e f m a c) := by
  unfold Call.Refused at h
  push Not at h
  unfold qwen3Decode
  rw [if_neg (by omega), if_neg (by omega)]
  cases hx : (if c.io.embed then embedInto e f m s.x c.token else none) with
  | none =>
      refine .inl ⟨fun hio => ?_, rfl⟩
      rwa [if_pos hio] at hx
  | some x =>
      refine .inr ⟨x, Option.ite_none_right_eq_some.mp hx, ?_⟩
      cases hlayers : decodeLayers e m seq c.io c.pos.toNat m.layout.nLayers.toNat { s with x := x } with
      | error r =>
          refine .inl ⟨r, rfl, ?_⟩
          show Except.bind (decodeLayers e m seq c.io c.pos.toNat m.layout.nLayers.toNat { s with x := x }) _ = _
          rw [hlayers]
          rfl
      | ok a =>
          refine .inr ⟨a, rfl, ?_⟩
          show Except.bind (decodeLayers e m seq c.io c.pos.toNat m.layout.nLayers.toNat { s with x := x }) _ = _
          rw [hlayers]
          rfl

end Cases

end LlmEngine.Models.Qwen3
