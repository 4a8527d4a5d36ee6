/-
# LlmEngine.Models.Qwen3Phases — what the parts of a layer depend on (`src/models/qwen3/qwen3.c`).

The activation buffers are never cleared, and a block stands in a buffer that is larger than it is.  In a layer
whose shapes agree with the metadata (`LayerSlots.Shaped`), each part writes what the next one reads; in a layer
whose weights lie in its block (`LayerSlots.Inside`), no part reads behind the block.  So the hidden state it is
handed, the rows it attends over and the block are all that goes into its result.  Whether it fails depends on
none of them: that is a matter of formats and shapes.

Each part has two lemmas.  One says what it leaves where it goes through (`attnInputs_ok`, `finishLayer_ok`,
`headChunkStep_ok`), as a chain of projections.  The other compares two runs of it (`_agree`), from any buffers,
on blocks that are the same as far as they go: the second goes through as well, and what is read of its result
is the same.  `SameRows` is the frame: nothing but `appendKv` touches the rows of a sequence.

The head is read from the container, resident or in chunks.  `headChunks_agree` is by the recursion of the
chunk loop; the invariant is that the logits up to the next row are those of the whole head (`logitsOf`).
-/
import LlmEngine.Models.Qwen3Decode
import Mathlib.Data.Option.Basic

namespace LlmEngine.Models.Qwen3

open LlmEngine.Core (Arith Vec ptr loop loop_succ)
open LlmEngine.Kernels
open LlmEngine.Quant
open LlmEngine.Tensor

theorem agree_mono {α : Type} {n k : Nat} {u v : Nat → α} (h : Agree n u v) (hle : k ≤ n) : Agree k u v :=
  fun i hi => h i (Nat.lt_of_lt_of_le hi hle)

/-! ## Shapes -/

/-- A weight of `out` rows, over no more than `inn` activations. -/
structure Slot.Shape (w : Slot) (inn out : Nat) : Prop where
  reads : (cInt w.inputs).toNat ≤ inn
  writes : (cInt w.outputs).toNat = out

instance (w : Slot) (inn out : Nat) : Decidable (w.Shape inn out) :=
  decidable_of_iff ((cInt w.inputs).toNat ≤ inn ∧ (cInt w.outputs).toNat = out)
    ⟨fun h => ⟨h.1, h.2⟩, fun h => ⟨h.reads, h.writes⟩⟩

/-- The matrices of a layer go with the widths the metadata give. -/
structure LayerSlots.Shaped (m : EngModel) (sl : LayerSlots) : Prop where
  attnQ : sl.attnQ.Shape m.d (m.nh * m.hd)
  attnK : sl.attnK.Shape m.d m.kvw
  attnV : sl.attnV.Shape m.d m.kvw
  attnOut : sl.attnOut.Shape (m.nh * m.hd) m.d
  ffnGate : sl.ffnGate.Shape m.d m.ff
  ffnUp : sl.ffnUp.Shape m.d m.ff
  ffnDown : sl.ffnDown.Shape m.ff m.d

/-- `n` bytes at a weight lie in a block of `len`. -/
structure Slot.Inside (w : Slot) (n : Nat) (len : Int) : Prop where
  lo : 0 ≤ w.rel
  hi : w.rel + n ≤ len

instance (w : Slot) (n : Nat) (len : Int) : Decidable (w.Inside n len) :=
  decidable_of_iff (0 ≤ w.rel ∧ w.rel + n ≤ len) ⟨fun h => ⟨h.1, h.2⟩, fun h => ⟨h.lo, h.hi⟩⟩

/-- The bytes of a matrix that `project` reads. -/
def Slot.matrixBytes (w : Slot) : Nat :=
  if w.dtype = .f32 then 4 * ((cInt w.outputs).toNat * (cInt w.inputs).toNat)
  else (cInt w.outputs).toNat * (((quantRowBytes w.dtype).getD fun _ => 0) (cInt w.inputs)).toNat

/-- What is read of the weights of a layer lies in its block of `len` bytes. -/
structure LayerSlots.Inside (m : EngModel) (len : Int) (sl : LayerSlots) : Prop where
  attnNorm : sl.attnNorm.Inside (4 * m.d) len
  attnQ : sl.attnQ.Inside sl.attnQ.matrixBytes len
  attnK : sl.attnK.Inside sl.attnK.matrixBytes len
  attnV : sl.attnV.Inside sl.attnV.matrixBytes len
  attnQNorm : sl.attnQNorm.Inside (4 * m.hd) len
  attnKNorm : sl.attnKNorm.Inside (4 * m.hd) len
  attnOut : sl.attnOut.Inside sl.attnOut.matrixBytes len
  ffnNorm : sl.ffnNorm.Inside (4 * m.d) len
  ffnGate : sl.ffnGate.Inside sl.ffnGate.matrixBytes len
  ffnUp : sl.ffnUp.Inside sl.ffnUp.matrixBytes len
  ffnDown : sl.ffnDown.Inside sl.ffnDown.matrixBytes len

/-- The KV heads lie in a row, and so does the one of each query head. -/
structure EngModel.Grouped (m : EngModel) : Prop where
  kv : m.nkv * m.hd ≤ m.kvw
  query : ∀ h < m.nh, h / m.rep * m.hd + m.hd ≤ m.kvw

/-- What is loaded is grouped. -/
theorem Loaded.grouped {f : Formats.File} {direct threadOk : Bool} {plan : Option Runtime.EngPlan} {force : Option Bool}
    {m : EngModel} (h : Loaded f direct threadOk plan force m) : m.Grouped := by
  obtain ⟨g, -, hl⟩ := h.opened
  have hlaid := layGguf_laid hl
  have hkv : 0 ≤ m.kvWidth := h.buffers.kv
  have hrow : m.nkv * m.hd ≤ m.kvw := by
    unfold EngModel.nkv EngModel.hd EngModel.kvw EngModel.kvWidth
    rcases Int.lt_or_le m.layout.nKv 0 with hneg | hnn
    · rw [Int.toNat_of_nonpos hneg.le, Nat.zero_mul]
      exact Nat.zero_le _
    rcases Int.lt_or_le m.layout.headDim 0 with hneg | hdim
    · rw [Int.toNat_of_nonpos hneg.le, Nat.mul_zero]
      exact Nat.zero_le _
    · rw [Int.toNat_mul hnn hdim]
  refine ⟨hrow, fun q hq => ?_⟩
  have hheads : 0 < m.layout.nHeads := by
    unfold EngModel.nh at hq
    omega
  rcases Int.lt_or_lt_of_ne hlaid.nKv_ne with hneg | hpos
  · -- fewer than no KV heads, and rows that are none the less long enough: heads of no width
    have hdim : m.layout.headDim ≤ 0 := by
      by_contra hgt
      exact absurd hkv (not_le.mpr (mul_neg_of_neg_of_pos hneg (not_le.mp hgt)))
    unfold EngModel.hd
    rw [Int.toNat_of_nonpos hdim, Nat.mul_zero]
    exact Nat.zero_le _
  · have hlt : q / m.rep < m.nkv := by
      have hsplit : m.rep * m.nkv = m.nh := by
        have hexact := Int.tdiv_mul_cancel (Int.dvd_of_tmod_eq_zero hlaid.groups)
        have hrep : 0 ≤ m.layout.nHeads.tdiv m.layout.nKv := Int.tdiv_nonneg hheads.le hpos.le
        unfold EngModel.rep EngModel.nkv EngModel.nh
        rw [← Int.toNat_mul hrep hpos.le, hexact]
      exact Nat.div_lt_of_lt_mul (hsplit.symm ▸ hq)
    calc q / m.rep * m.hd + m.hd = (q / m.rep + 1) * m.hd := (Nat.succ_mul _ _).symm
      _ ≤ m.nkv * m.hd := Nat.mul_le_mul_right _ hlt
      _ ≤ m.kvw := hrow

/-! ## Projections -/

/-- Floats in bytes that are the same. -/
theorem floatsAt_agree {b b' : Core.Bytes} {off off' n : Nat} (h : ∀ i < 4 * n, b (off + i) = b' (off' + i)) :
    Agree n (floatsAt b off) (floatsAt b' off') := by
  intro i hi
  have hbyte : ∀ j < 4, b (off + 4 * i + j) = b' (off' + 4 * i + j) := by
    intro j hj
    rw [Nat.add_assoc, Nat.add_assoc]
    exact h _ (by omega)
  unfold floatsAt
  rw [hbyte 3 (by decide), hbyte 2 (by decide), hbyte 1 (by decide)]
  exact congrArg _ (hbyte 0 (by decide))

/-- The floats of a norm whose bytes lie in the block. -/
theorem Slot.Inside.floats {w : Slot} {n : Nat} {len : Int} (hw : w.Inside (4 * n) len) {base base' : Core.Bytes}
    (hb : Agree len.toNat base base') : Agree n (floatsAt base w.rel.toNat) (floatsAt base' w.rel.toNat) := by
  have hlo := hw.lo
  have hhi := hw.hi
  exact floatsAt_agree fun i hi => hb _ (by omega)

section Phases

variable {D : Type} [Arith D] [Arith (BitVec 32)] (e : Engine D)

theorem Engine.reg_formats {dt : EngDType} {q : EngQuantOps D (BitVec 32)} (h : e.reg dt = some q) :
    q ∈ formats e.fp.toFpu e.ofIntD e.build id e.ofInt e.stack :=
  (formats_of_regInit e.fp.toFpu e.ofIntD e.build id e.ofInt e.stack h).1

theorem Engine.reg_readsRow {dt : EngDType} {q : EngQuantOps D (BitVec 32)} (h : e.reg dt = some q) : ReadsRow q :=
  formats_readsRow e.fp.toFpu e.ofIntD e.build id e.ofInt e.stack (e.reg_formats h)

/-- A projection fails or not whatever it is given, and reads no more than it is given. -/
theorem project_agree {w : Slot} {inn out : Nat} (hw : w.Shape inn out) {len : Int} (hin : w.Inside w.matrixBytes len)
    {base base' : Core.Bytes} (hb : Agree len.toNat base base') (y y' : Vec (BitVec 32)) {x x' : Vec (BitVec 32)}
    (hx : Agree inn x x') : Option.Rel (Agree out) (project e y x base w) (project e y' x' base' w) := by
  have hread := agree_mono hx hw.reads
  have hlo := hin.lo
  have hhi := hin.hi
  unfold Slot.matrixBytes at hhi
  unfold project
  split_ifs with hfloat
  · rw [if_pos hfloat] at hhi
    rw [← hw.writes]
    exact .some (engMatmulF32_agree e.fp e.avx y y' hread (floatsAt_agree fun i hi => hb _ (by omega)))
  · rw [if_neg hfloat, quantRowBytes_regInit e.fp.toFpu e.ofIntD e.build id e.ofInt e.stack] at hhi
    rw [← hw.writes]
    cases hreg : e.reg w.dtype with
    | none =>
        unfold engMatmulQuant
        rw [hreg]
        exact .none
    | some q =>
        unfold Engine.reg at hreg
        rw [hreg, Option.map_some, Option.getD_some] at hhi
        refine engMatmulQuant_agree e.fp.toFpu hreg (e.reg_readsRow hreg) y y' hread fun i hi => hb _ ?_
        omega

theorem project_some {w : Slot} {inn out : Nat} (hw : w.Shape inn out) {len : Int} (hin : w.Inside w.matrixBytes len)
    {base base' : Core.Bytes} (hb : Agree len.toNat base base') {y x r : Vec (BitVec 32)}
    (h : project e y x base w = some r) (y' : Vec (BitVec 32)) {x' : Vec (BitVec 32)} (hx : Agree inn x x') :
    ∃ r', project e y' x' base' w = some r' ∧ Agree out r r' := by
  have hrel := project_agree e hw hin hb y y' hx
  rw [h] at hrel
  cases h' : project e y' x' base' w with
  | none =>
      rw [h'] at hrel
      cases hrel
  | some r' =>
      rw [h'] at hrel
      exact ⟨r', rfl, Option.rel_some_some.mp hrel⟩

variable (m : EngModel)

theorem headNorm_agree {heads n : Nat} (hn : heads * m.hd ≤ n) {w w' u v : Vec (BitVec 32)} (hw : Agree m.hd w w')
    (h : Agree n u v) : Agree n (headNorm e m heads w u) (headNorm e m heads w' v) :=
  eachHead_agree (fun u v huv => engRmsnorm_agree e.fp u v huv hw e.eps) hn h

theorem headRope_agree {heads n : Nat} (hn : heads * m.hd ≤ n) (pos : Nat) {u v : Vec (BitVec 32)} (h : Agree n u v) :
    Agree n (headRope e m heads pos u) (headRope e m heads pos v) :=
  eachHead_agree (fun _ _ huv => engRope_agree e.fp m.hd pos e.ropeTheta huv) hn h

/-! ## Attention -/

section Attend

variable {pos : Nat} {q q' : Vec (BitVec 32)} {krow krow' vrow vrow' : Nat → Vec (BitVec 32)}

/-- A head adds its part, and what `scores` held makes no difference. -/
theorem attendHead_agree {h : Nat} (hkv : h / m.rep * m.hd + m.hd ≤ m.kvw) (hq : Agree (h * m.hd + m.hd) q q')
    (hk : ∀ t ≤ pos, Agree m.kvw (krow t) (krow' t)) (hv : ∀ t ≤ pos, Agree m.kvw (vrow t) (vrow' t))
    {s s' : Vec (BitVec 32) × Vec (BitVec 32)} (hs : Agree (h * m.hd) s.2 s'.2) :
    Agree (h * m.hd + m.hd) (attendHead e m pos q krow vrow s h).2 (attendHead e m pos q' krow' vrow' s' h).2 := by
  have hqh : Agree m.hd (ptr q (h * m.hd)) (ptr q' (h * m.hd)) := fun i hi => hq _ (by omega)
  have hkh : ∀ t ≤ pos, Agree m.hd (ptr (krow t) (h / m.rep * m.hd)) (ptr (krow' t) (h / m.rep * m.hd)) :=
    fun t ht i hi => hk t ht _ (by omega)
  have hvh : ∀ t ≤ pos, Agree m.hd (ptr (vrow t) (h / m.rep * m.hd)) (ptr (vrow' t) (h / m.rep * m.hd)) :=
    fun t ht i hi => hv t ht _ (by omega)
  have hout := headOut_agree (headScores_agree e.fp e.avx s.1 s'.1 hqh hkh) hvh
  intro i hi
  unfold attendHead wrote
  dsimp only
  split_ifs with hin
  · exact hout _ (by omega)
  · exact hs i (by omega)

/-- What the heads put out depends on the query and on the rows. -/
theorem attend_agree (hm : m.Grouped) (hq : Agree (m.nh * m.hd) q q') (hk : ∀ t ≤ pos, Agree m.kvw (krow t) (krow' t))
    (hv : ∀ t ≤ pos, Agree m.kvw (vrow t) (vrow' t)) (s s' : Vec (BitVec 32) × Vec (BitVec 32)) :
    Agree (m.nh * m.hd) (attend e m pos q krow vrow s).2 (attend e m pos q' krow' vrow' s').2 := by
  have hrun : ∀ k ≤ m.nh, Agree (k * m.hd) (loop k s (attendHead e m pos q krow vrow)).2
      (loop k s' (attendHead e m pos q' krow' vrow')).2 := by
    intro k hk'
    induction k with
    | zero =>
        intro i hi
        omega
    | succ k ih =>
        have hle := Nat.mul_le_mul_right m.hd hk'
        rw [Nat.succ_mul] at hle ⊢
        rw [loop_succ, loop_succ]
        exact attendHead_agree e m (hm.query k hk') (agree_mono hq hle) hk hv (ih (by omega))
  exact hrun m.nh (Nat.le_refl _)

end Attend

/-! ## Before and after attention -/

/-- Nothing but the activation buffers differs. -/
structure SameRows (s s' : DecodeState) : Prop where
  kc : s'.kc = s.kc
  vc : s'.vc = s.vc

variable (base : Core.Bytes) (sl : LayerSlots)

/-- `xn`, and the state that has it. -/
def normed (w : Slot) (s : DecodeState) : Vec (BitVec 32) :=
  engRmsnorm e.fp s.xn s.x (floatsAt base w.rel.toNat) m.d e.eps

theorem attnInputs_ok {pos : Nat} {s r : DecodeState} : attnInputs e m base sl pos s = .ok r ↔
    ∃ q k v, project e s.q (normed e m base sl.attnNorm s) base sl.attnQ = some q ∧
      project e s.k (normed e m base sl.attnNorm s) base sl.attnK = some k ∧
      project e s.v (normed e m base sl.attnNorm s) base sl.attnV = some v ∧
      { s with
        xn := normed e m base sl.attnNorm s
        q := headRope e m m.nh pos (headNorm e m m.nh (floatsAt base sl.attnQNorm.rel.toNat) q)
        k := headRope e m m.nkv pos (headNorm e m m.nkv (floatsAt base sl.attnKNorm.rel.toNat) k)
        v := v } = r := by
  unfold attnInputs normed
  simp only [bind, pure, Except.pure, bind_orFail_ok, Except.ok.injEq, exists_and_left]

/-- **Norm, projections, QK-norm and RoPE** depend on the hidden state and the block. -/
theorem attnInputs_agree (hm : m.Grouped) (hsl : sl.Shaped m) {len : Int} (hin : sl.Inside m len) {base base' : Core.Bytes}
    (hb : Agree len.toNat base base') (pos : Nat) {s r : DecodeState} (s' : DecodeState) (hx : Agree m.d s.x s'.x)
    (h : attnInputs e m base sl pos s = .ok r) :
    ∃ r', attnInputs e m base' sl pos s' = .ok r' ∧ Agree (m.nh * m.hd) r.q r'.q ∧ Agree m.kvw r.k r'.k ∧
      Agree m.kvw r.v r'.v := by
  obtain ⟨q, k, v, hq, hk, hv, rfl⟩ := (attnInputs_ok e m base sl).mp h
  have hxn : Agree m.d (normed e m base sl.attnNorm s) (normed e m base' sl.attnNorm s') :=
    engRmsnorm_agree e.fp s.xn s'.xn hx (hin.attnNorm.floats hb) e.eps
  obtain ⟨q', hq', hqq⟩ := project_some e hsl.attnQ hin.attnQ hb hq s'.q hxn
  obtain ⟨k', hk', hkk⟩ := project_some e hsl.attnK hin.attnK hb hk s'.k hxn
  obtain ⟨v', hv', hvv⟩ := project_some e hsl.attnV hin.attnV hb hv s'.v hxn
  refine ⟨_, (attnInputs_ok e m base' sl).mpr ⟨q', k', v', hq', hk', hv', rfl⟩, ?_, ?_, hvv⟩
  · exact headRope_agree e m (Nat.le_refl _) pos (headNorm_agree e m (Nat.le_refl _) (hin.attnQNorm.floats hb) hqq)
  · exact headRope_agree e m hm.kv pos (headNorm_agree e m hm.kv (hin.attnKNorm.floats hb) hkk)

theorem attnInputs_rows (pos : Nat) (s : DecodeState) : SameRows s (left (attnInputs e m base sl pos s)) := by
  unfold attnInputs
  apply left_orFail ⟨rfl, rfl⟩
  intro q
  apply left_orFail ⟨rfl, rfl⟩
  intro k
  exact left_orFail ⟨rfl, rfl⟩ fun v => ⟨rfl, rfl⟩

/-- What `finishLayer` works on once attention is added. -/
def attended (s : DecodeState) (o : Vec (BitVec 32)) : DecodeState := { s with ffn := o, x := addInto m.d s.x o }

theorem finishLayer_ok {s r : DecodeState} : finishLayer e m base sl s = .ok r ↔
    ∃ o g u y, project e s.ffn s.att base sl.attnOut = some o ∧
      project e s.gate (normed e m base sl.ffnNorm (attended m s o)) base sl.ffnGate = some g ∧
      project e s.up (normed e m base sl.ffnNorm (attended m s o)) base sl.ffnUp = some u ∧
      project e o (swigluInto e.fp m.ff g u) base sl.ffnDown = some y ∧
      { s with
        xn := normed e m base sl.ffnNorm (attended m s o)
        gate := swigluInto e.fp m.ff g u
        up := u
        ffn := y
        x := addInto m.d (addInto m.d s.x o) y } = r := by
  unfold finishLayer normed attended
  simp only [bind, pure, Except.pure, bind_orFail_ok, Except.ok.injEq, exists_and_left]

/-- **The rest of a layer** depends on the hidden state, on what the heads put out, and on the block. -/
theorem finishLayer_agree (hsl : sl.Shaped m) {len : Int} (hin : sl.Inside m len) {base base' : Core.Bytes}
    (hb : Agree len.toNat base base') {s r : DecodeState} (s' : DecodeState) (hx : Agree m.d s.x s'.x)
    (hatt : Agree (m.nh * m.hd) s.att s'.att) (h : finishLayer e m base sl s = .ok r) :
    ∃ r', finishLayer e m base' sl s' = .ok r' ∧ Agree m.d r.x r'.x := by
  obtain ⟨o, g, u, y, ho, hg, hu, hy, rfl⟩ := (finishLayer_ok e m base sl).mp h
  obtain ⟨o', ho', hoo⟩ := project_some e hsl.attnOut hin.attnOut hb ho s'.ffn hatt
  have hmid := addInto_agree hx hoo
  have hxn : Agree m.d (normed e m base sl.ffnNorm (attended m s o)) (normed e m base' sl.ffnNorm (attended m s' o')) :=
    engRmsnorm_agree e.fp s.xn s'.xn hmid (hin.ffnNorm.floats hb) e.eps
  obtain ⟨g', hg', hgg⟩ := project_some e hsl.ffnGate hin.ffnGate hb hg s'.gate hxn
  obtain ⟨u', hu', huu⟩ := project_some e hsl.ffnUp hin.ffnUp hb hu s'.up hxn
  obtain ⟨y', hy', hyy⟩ := project_some e hsl.ffnDown hin.ffnDown hb hy o' (swigluInto_agree e.fp hgg huu)
  exact ⟨_, (finishLayer_ok e m base' sl).mpr ⟨o', g', u', y', ho', hg', hu', hy', rfl⟩, addInto_agree hmid hyy⟩

theorem finishLayer_rows (s : DecodeState) : SameRows s (left (finishLayer e m base sl s)) := by
  unfold finishLayer
  apply left_orFail ⟨rfl, rfl⟩
  intro o
  apply left_orFail ⟨rfl, rfl⟩
  intro g
  apply left_orFail ⟨rfl, rfl⟩
  intro u
  exact left_orFail ⟨rfl, rfl⟩ fun y => ⟨rfl, rfl⟩

/-! ## Embedding and head -/

omit [Arith D] [Arith (BitVec 32)] in
/-- What was read is in the file. -/
theorem storeRead_bytes {f : Formats.File} {off len : Int} {w : Lib.LittleEndian.Bytes} (h : storeRead f off len = some w) :
    Agree len.toNat (ofList w) (fileFrom f off) := by
  unfold storeRead at h
  split_ifs at h with hzero hin
  · intro i hi
    omega
  · obtain rfl := Option.some.inj h
    intro i hi
    have hpos : (off + i).toNat = off.toNat + i := by omega
    unfold ofList fileFrom
    rw [List.getD_eq_getElem?_getD, List.getElem?_take_of_lt hi, List.getElem?_drop, hpos, List.getD_eq_getElem?_getD]

omit [Arith D] [Arith (BitVec 32)] in
theorem ptr_floatsAt (b : Core.Bytes) (off k : Nat) : ptr (floatsAt b off) k = floatsAt b (off + 4 * k) := by
  funext i
  have hat : off + 4 * (k + i) = off + 4 * k + 4 * i := by ring
  unfold ptr floatsAt
  rw [hat]

section Store

variable {f : Formats.File} {direct threadOk : Bool} {plan : Option Runtime.EngPlan} {force : Option Bool} {m : EngModel}

/-- A row as the registry reckons it. -/
theorem rowOr_reg (l : Layout) (dt : EngDType) (other : Int → Int) :
    l.rowOr dt other = ((e.reg dt).map fun q => q.rowBytes l.dModel).getD (other l.dModel) := by
  unfold Layout.rowOr
  rw [quantRowBytes_regInit e.fp.toFpu e.ofIntD e.build id e.ofInt e.stack]
  unfold Engine.reg
  cases regInit e.build e.fp.toFpu e.ofIntD id e.ofInt e.stack dt <;> rfl

/-- An embedding that is read replaces the whole hidden state. -/
theorem embedInto_some (h : Loaded f direct threadOk plan force m) {x r : Vec (BitVec 32)} {token : Int}
    (hr : embedInto e f m x token = some r) (x' : Vec (BitVec 32)) :
    ∃ r', embedInto e f m x' token = some r' ∧ Agree m.d r r' := by
  obtain ⟨w, hw, rfl⟩ := Option.map_eq_some_iff.mp hr
  refine ⟨_, congrArg (Option.map _) hw, ?_⟩
  have hrow : 0 ≤ m.layout.rb := h.embd_fits.1
  unfold Layout.rb at hrow
  rw [rowOr_reg e] at hrow
  cases hreg : e.reg m.layout.embd.dtype with
  | none => exact wrote_agree (fun _ _ => rfl) x x'
  | some q =>
      rw [hreg] at hrow
      exact formats_dequantRow e.fp.toFpu e.ofIntD e.build id e.ofInt e.stack (e.reg_formats hreg) hrow x x' _ none

/-- Whether the head can be multiplied is a matter of its format. -/
theorem headProduct_some {y xn out : Vec (BitVec 32)} {W : Core.Bytes} {n : Int} (h : headProduct e m y xn W n = some out)
    (y' xn' : Vec (BitVec 32)) (W' : Core.Bytes) (rows : Int) : ∃ all, headProduct e m y' xn' W' rows = some all := by
  unfold headProduct at h ⊢
  split_ifs at h ⊢ with hsome
  · obtain ⟨q, hreg⟩ := Option.isSome_iff_exists.mp hsome
    obtain ⟨hrow, hscale, hgiven, -⟩ := (engMatmulQuant_ok e.fp.toFpu hreg).mp (toOption_eq_some h)
    exact ⟨_, congrArg Except.toOption ((engMatmulQuant_ok e.fp.toFpu hreg).mpr ⟨hrow, hscale, hgiven, rfl⟩)⟩
  · exact ⟨_, rfl⟩

/-- Some rows of the head, from a buffer of their own. -/
theorem headProduct_window {y xn all : Vec (BitVec 32)} {W : Core.Bytes} {rows : Int}
    (h : headProduct e m y xn W rows = some all) (y' : Vec (BitVec 32)) {xn' : Vec (BitVec 32)} (W' : Core.Bytes) {r₀ n : Nat}
    (hrows : (r₀ + n : Int) ≤ rows) (hx : Agree m.d xn xn')
    (hW : Agree (n * m.layout.hrow.toNat) (Quant.bytesAt W (r₀ * m.layout.hrow.toNat)) W') :
    ∃ part, headProduct e m y' xn' W' n = some part ∧ ∀ r < n, part r = all (r₀ + r) := by
  have hlen : m.layout.hrow = ((e.reg m.layout.lmHead.dtype).map fun q => q.rowBytes m.layout.dModel).getD
      (m.layout.dModel * 4) := rowOr_reg e m.layout m.layout.lmHead.dtype (· * 4)
  unfold headProduct at h ⊢
  split_ifs at h ⊢ with hsome
  · obtain ⟨q, hreg⟩ := Option.isSome_iff_exists.mp hsome
    rw [hreg] at hlen
    have hrowBytes : m.layout.hrow = q.rowBytes m.layout.dModel := hlen
    rw [hrowBytes] at hW
    obtain ⟨part, hpart, hin, -⟩ := engMatmulQuant_window e.fp.toFpu hreg (e.reg_readsRow hreg) y' (s := none)
      (t := none) hrows hx hW .none (toOption_eq_some h)
    exact ⟨part, congrArg Except.toOption hpart, hin⟩
  · rw [Option.not_isSome_iff_eq_none.mp hsome] at hlen
    have hfour : m.layout.hrow.toNat = 4 * m.d := by
      rw [show m.layout.hrow = m.layout.dModel * 4 from hlen]
      unfold EngModel.d
      omega
    obtain rfl := Option.some.inj h
    refine ⟨_, rfl, fun r hr => ?_⟩
    unfold engMatmulF32
    rw [wrote_of_lt (by omega), wrote_of_lt (by omega)]
    refine engDotF32_agree e.fp e.avx ?_ fun i hi => (hx i hi).symm
    rw [ptr_floatsAt, ptr_floatsAt]
    refine floatsAt_agree fun i hi => ?_
    have hlast : (r + 1) * (4 * m.d) ≤ n * (4 * m.d) := Nat.mul_le_mul_right _ hr
    rw [Nat.succ_mul] at hlast
    rw [hfour] at hW
    have hat : 0 + 4 * (r * m.d) = r * (4 * m.d) := by ring
    have hat' : 0 + 4 * ((r₀ + r) * m.d) = r₀ * (4 * m.d) + r * (4 * m.d) := by ring
    rw [hat, hat', Nat.add_assoc]
    exact (hW _ (by omega)).symm

/-- The logits of a hidden state: the final norm, and the head read from the file at once. -/
def logitsOf (f : Formats.File) (m : EngModel) (x : Vec (BitVec 32)) : Vec (BitVec 32) :=
  (headProduct e m (fun _ => 0) (engRmsnorm e.fp (fun _ => 0) x (floatsAt (ofList m.outNorm) 0) m.d e.eps)
    (fileFrom f m.layout.lmHead.fileOff) m.layout.vocab).getD fun _ => 0

omit [Arith D] [Arith (BitVec 32)] in
theorem fileFrom_add (f : Formats.File) (off : Int) {n : Int} (hn : 0 ≤ n) :
    Quant.bytesAt (fileFrom f off) n.toNat = fileFrom f (off + n) := by
  funext i
  have hat : off + (n.toNat + i : Nat) = off + n + i := by omega
  unfold Quant.bytesAt fileFrom
  rw [hat]

theorem headChunkStep_ok {io : CallIo} {s r : DecodeState} {c : Int × Int} : headChunkStep e f m io s c = .ok r ↔
    ∃ w y, (if io.head c.1 then storeRead f (m.layout.headWindow c.1 c.2).off (m.layout.headWindow c.1 c.2).len else none) = some w ∧
      headProduct e m (ptr s.logits c.1.toNat) s.xn (ofList w) c.2 = some y ∧
      { s with logits := wrote c.1.toNat c.2.toNat y s.logits } = r := by
  unfold headChunkStep
  simp only [bind, pure, Except.pure, bind_orFail_ok, Except.ok.injEq, exists_and_left]

/-- A chunk puts its logits where those of the whole head are. -/
theorem headChunkStep_agree (hrow : 0 ≤ m.layout.hrow) {io : CallIo} {s r : DecodeState} {y xn all : Vec (BitVec 32)}
    {r₀ n : Int} (h0 : 0 ≤ r₀) (hn : 0 ≤ n) (hin : r₀ + n ≤ m.layout.vocab)
    (hall : headProduct e m y xn (fileFrom f m.layout.lmHead.fileOff) m.layout.vocab = some all) (hxn : Agree m.d xn s.xn)
    (hdone : Agree r₀.toNat s.logits all) (h : headChunkStep e f m io s (r₀, n) = .ok r) :
    Agree (r₀ + n).toNat r.logits all ∧ r.xn = s.xn := by
  obtain ⟨w, part, hw, hpart, rfl⟩ := (headChunkStep_ok e).mp h
  rw [Option.ite_none_right_eq_some] at hw
  have hbytes := storeRead_bytes hw.2
  have hlen : (n * m.layout.hrow).toNat = n.toNat * m.layout.hrow.toNat := Int.toNat_mul hn hrow
  have hat : r₀.toNat * m.layout.hrow.toNat = (r₀ * m.layout.hrow).toNat := (Int.toNat_mul h0 hrow).symm
  have hW : Agree (n.toNat * m.layout.hrow.toNat)
      (Quant.bytesAt (fileFrom f m.layout.lmHead.fileOff) (r₀.toNat * m.layout.hrow.toNat)) (ofList w) := by
    rw [hat, fileFrom_add f _ (mul_nonneg h0 hrow), ← hlen]
    exact fun i hi => (hbytes i hi).symm
  obtain ⟨part', hpart', hrows⟩ := headProduct_window e hall (ptr s.logits r₀.toNat) (ofList w) (by omega) hxn hW
  rw [Int.toNat_of_nonneg hn] at hpart'
  obtain rfl := Option.some.inj (hpart'.symm.trans hpart)
  refine ⟨fun i hi => ?_, rfl⟩
  unfold wrote
  dsimp only
  split_ifs with hi'
  · rw [hrows _ (by omega)]
    exact congrArg all (by omega)
  · exact hdone i (by omega)

/-- **Chunk by chunk**, the logits are those of the head at once. -/
theorem headChunks_agree (hrow : 0 ≤ m.layout.hrow) {io : CallIo} {y xn all : Vec (BitVec 32)}
    (hall : headProduct e m y xn (fileFrom f m.layout.lmHead.fileOff) m.layout.vocab = some all) {c : Int} (hc : 0 < c)
    (r₀ : Int) (h0 : 0 ≤ r₀) {s r : DecodeState} (hxn : Agree m.d xn s.xn) (hdone : Agree (min r₀ m.layout.vocab).toNat s.logits all)
    (h : (Lib.Chunks.chunks c m.layout.vocab r₀).foldlM (headChunkStep e f m io) s = .ok r) :
    Agree m.layout.vocab.toNat r.logits all := by
  by_cases hlt : r₀ < m.layout.vocab
  · rw [Lib.Chunks.chunks_of_lt hlt hc, List.foldlM_cons] at h
    obtain ⟨s', hstep, hrest⟩ := bind_ok.mp h
    rw [Int.min_eq_left hlt.le] at hdone
    obtain ⟨hnext, hkeep⟩ := headChunkStep_agree e hrow h0 (by split_ifs <;> omega) (by split_ifs <;> omega) hall hxn hdone hstep
    refine headChunks_agree hrow hall hc (r₀ + c) (by omega) (hkeep ▸ hxn) (agree_mono hnext ?_) hrest
    split_ifs <;> omega
  · rw [Lib.Chunks.chunks_of_ge (not_lt.mp hlt)] at h
    obtain rfl := Except.ok.inj h
    rwa [Int.min_eq_right (not_lt.mp hlt)] at hdone
termination_by (m.layout.vocab - r₀).toNat

/-- **The head**, resident or chunk by chunk, gives the logits of the hidden state. -/
theorem decodeHead_agree (h : Loaded f direct threadOk plan force m) {io : CallIo} {s r : DecodeState} {x : Vec (BitVec 32)}
    (hx : Agree m.d s.x x) (hr : decodeHead e f m io s = .ok r) : Agree m.layout.vocab.toNat r.logits (logitsOf e f m x) := by
  rcases Int.lt_or_le 0 m.layout.vocab with hvocab | hnone
  swap
  · intro i hi
    omega
  have hrow := h.hrow_nonneg hvocab
  have hxn := engRmsnorm_agree e.fp (fun _ => 0) s.xn (w := floatsAt (ofList m.outNorm) 0) (fun i hi => (hx i hi).symm) (fun _ _ => rfl) e.eps
  unfold logitsOf
  unfold decodeHead at hr
  simp only [bind, pure, Except.pure] at hr
  split at hr
  · next y hy =>
      obtain ⟨out, hout, hr⟩ := bind_orFail_ok.mp hr
      obtain rfl := Except.ok.inj hr
      obtain ⟨all, hall⟩ := headProduct_some e hout (fun _ => 0)
        (engRmsnorm e.fp (fun _ => 0) x (floatsAt (ofList m.outNorm) 0) m.d e.eps) (fileFrom f m.layout.lmHead.fileOff)
        m.layout.vocab
      have hbytes := storeRead_bytes (h.lmResident y hy)
      have hlen : m.layout.lmNeed.toNat = m.layout.vocab.toNat * m.layout.hrow.toNat := Int.toNat_mul hvocab.le hrow
      have hW : Agree (m.layout.vocab.toNat * m.layout.hrow.toNat)
          (Quant.bytesAt (fileFrom f m.layout.lmHead.fileOff) (0 * m.layout.hrow.toNat)) (ofList y) := by
        intro i hi
        rw [← hlen] at hi
        rw [hbytes i hi, Nat.zero_mul]
        exact congrArg _ (Nat.zero_add i)
      obtain ⟨out', hout', hrows⟩ := headProduct_window e hall s.logits (ofList y) (by omega) hxn hW
      rw [Int.toNat_of_nonneg hvocab.le] at hout'
      obtain rfl := Option.some.inj (hout'.symm.trans hout)
      rw [hall]
      exact fun i hi => (hrows i hi).trans (congrArg all (Nat.zero_add i))
  · obtain ⟨hchunk, -⟩ := headChunk_range hvocab
    rw [← h.headChunk] at hchunk
    -- the first chunk went through, so the whole head does
    have hfirst := hr
    rw [Lib.Chunks.chunks_of_lt hvocab hchunk, List.foldlM_cons] at hfirst
    obtain ⟨s', hstep, -⟩ := bind_ok.mp hfirst
    obtain ⟨w, part, -, hpart, -⟩ := (headChunkStep_ok e).mp hstep
    obtain ⟨all, hall⟩ := headProduct_some e hpart (fun _ => 0)
      (engRmsnorm e.fp (fun _ => 0) x (floatsAt (ofList m.outNorm) 0) m.d e.eps) (fileFrom f m.layout.lmHead.fileOff)
      m.layout.vocab
    rw [hall]
    refine headChunks_agree e hrow hall hchunk 0 (le_refl 0) hxn (fun i hi => ?_) hr
    rw [Int.min_eq_left hvocab.le] at hi
    omega

/-- The chunk loop leaves the state of the sequence alone. -/
theorem headChunks_rows (io : CallIo) (cs : List (Int × Int)) (s : DecodeState) :
    SameRows s (left (cs.foldlM (headChunkStep e f m io) s)) := by
  induction cs generalizing s with
  | nil => exact ⟨rfl, rfl⟩
  | cons c cs ih =>
      rw [List.foldlM_cons]
      have hstep : SameRows s (left (headChunkStep e f m io s c)) := by
        unfold headChunkStep
        apply left_orFail ⟨rfl, rfl⟩
        exact fun w => left_orFail ⟨rfl, rfl⟩ fun y => ⟨rfl, rfl⟩
      cases hs : headChunkStep e f m io s c with
      | error s' =>
          rw [hs] at hstep
          exact hstep
      | ok s' =>
          rw [hs] at hstep
          have hrest := ih s'
          exact ⟨hrest.kc.trans hstep.kc, hrest.vc.trans hstep.vc⟩

theorem decodeHead_rows (io : CallIo) (s : DecodeState) : SameRows s (left (decodeHead e f m io s)) := by
  unfold decodeHead
  dsimp only
  split
  · exact left_orFail ⟨rfl, rfl⟩ fun y => ⟨rfl, rfl⟩
  · have hchunks := headChunks_rows (f := f) (m := m) e io (Lib.Chunks.chunks m.headChunk m.layout.vocab 0)
      { s with xn := engRmsnorm e.fp s.xn s.x (floatsAt (ofList m.outNorm) 0) m.d e.eps }
    exact ⟨hchunks.kc, hchunks.vc⟩

end Store

end Phases

end LlmEngine.Models.Qwen3
