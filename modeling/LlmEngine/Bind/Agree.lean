/-
# LlmEngine.Bind.Agree — resident and streamed binding give the same model.

`tools/pack_trunk.py` copies the span of a layer's tensors out of its shard and writes a table of where
each one lies in the copy.  `PackedRun` is what such a run is: every entry is the tensor of its name,
byte for byte.

`bindLayerMem_denotes` proves of the packed binder the contract `bindLayer_denotes` proves of the
resident one, so two layers bound from one checkpoint agree weight by weight.

* `packLayer_packedRun`: what the packer writes is a packed run, whatever the order of the tensors in the index.
* `PackedRun.not_i8r`: the packer copies, so a run holds no rows it has quantised itself.
* `bindLayer_sameModel`: if both binders bind, they give the same model.

`SameModel` compares every weight that a kernel reads, element by element, through the tag each side reads it
under; a matrix may well be bf16 on one side and fp32 on the other.

A small checkpoint at the end binds a layer both ways.
-/
import LlmEngine.Bind.Packed
import LlmEngine.Core.MoePrefill
import Mathlib.Data.List.Infix
import Mathlib.Data.List.Lookmap

namespace LlmEngine.Bind

open LlmEngine.Core LlmEngine.Lib

/-! ## The packer -/

/-- A tensor's name in UTF-8, where a substring is a substring of bytes. -/
def nameBytes (name : String) : List UInt8 := name.toByteArray.data.toList

/-- `mine` of `pack_trunk.py`: the layer's tensors, less the experts. -/
def trunkMine (L : Nat) (index : List (String × K3Tensor)) : List (String × K3Tensor) :=
  index.filter fun kv =>
    (nameBytes (layerName L "")).isPrefixOf (nameBytes kv.1) &&
      !decide (nameBytes ".block_sparse_moe.experts." <:+: nameBytes kv.1)

/-- One layer of `pack_trunk.py`: the run, zero behind its end, and the table.  `none` is a layer
without tensors, in several shards, with a gap, or cut short by the end of the file. -/
def packLayer (st : K3StIndex) (index : List (String × K3Tensor)) (L : Nat) : Option (Mem × K3MemSrc) :=
  let mine := trunkMine L index
  match mine.head?, (mine.map fun kv => kv.2.off).min?, (mine.map fun kv => kv.2.off + kv.2.nbytes).max? with
  | some first, some lo, some hi =>
      if mine.any fun kv => kv.2.shard ≠ first.2.shard then none
      else
        let f := st.shard first.2.shard
        let own := (mine.map fun kv => kv.2.nbytes).sum
        if hi - lo ≠ own then none
        else if lo < 0 ∨ f.size < lo + own then none
        else
          some (putBytes (fun _ => 0) 0 own fun o => f.mem (lo + o),
            fun name => (mine.lookup name).map fun t => ⟨t.off - lo, t.nbytes, t.dtype⟩)
  | _, _, _ => none

/-- Every entry of the table is a tensor of the checkpoint, and the run has its bytes. -/
def PackedRun (st : K3StIndex) (run : Mem) (src : K3MemSrc) : Prop :=
  ∀ name e, src name = some e → ∃ t, st.find name = some t ∧ e.nbytes = t.nbytes ∧ e.dtype = t.dtype ∧
    SameBytes (st.shard t.shard).mem t.off run e.off t.nbytes

/-- **What the packer writes is a packed run.** -/
theorem packLayer_packedRun {st : K3StIndex} {index : List (String × K3Tensor)} {L : Nat} {run : Mem}
    {src : K3MemSrc} (hindex : ∀ kv ∈ index, st.find kv.1 = some kv.2)
    (h : packLayer st index L = some (run, src)) : PackedRun st run src := by
  unfold packLayer at h
  simp only at h
  split at h
  · rename_i first lo hi hfirst hlo hhi
    split_ifs at h with hshard hgap hshort
    obtain ⟨rfl, rfl⟩ := Prod.mk.inj (Option.some.inj h)
    intro name e he
    obtain ⟨t, hlook, rfl⟩ := Option.map_eq_some_iff.mp he
    have hmem : (name, t) ∈ trunkMine L index := mem_of_lookup hlook
    have hfrom : lo ≤ t.off := (List.min?_eq_some_iff.mp hlo).2 _
      (List.mem_map_of_mem (f := fun kv : String × K3Tensor => kv.2.off) hmem)
    have hto : t.off + t.nbytes ≤ hi := (List.max?_eq_some_iff.mp hhi).2 _
      (List.mem_map_of_mem (f := fun kv : String × K3Tensor => kv.2.off + kv.2.nbytes) hmem)
    have hsame : t.shard = first.2.shard := by
      by_contra hne
      exact hshard (List.any_eq_true.mpr ⟨(name, t), hmem, by simpa using hne⟩)
    refine ⟨t, hindex _ (List.mem_of_mem_filter hmem), rfl, rfl, fun j hj hlt => ?_⟩
    show putBytes _ 0 _ _ (t.off - lo + j) = _
    rw [putBytes_inside _ _ (by omega) (by omega), hsame]
    congr 1
    omega
  · nomatch h

/-! ## The packed binder -/

section Denotes

variable {ops : FloatOps} {st : K3StIndex} {c : K3Cfg} {L : Nat} {run : Mem} {src : K3MemSrc} {widen : Mem}
variable {cap : Int} {s : MemState} {b : K3LayerBind} {ms : Mems} {q : Req} {e : MemTensor}

/-- The packed binder counts the elements of a tensor as the resident one does. -/
theorem K3Tensor.have_eq (t : K3Tensor) : t.nbytes.tdiv (memElemsize t.dtype) = t.numel := by
  have hsize : memElemsize t.dtype = k3StElemsize t.dtype := by
    have hknown := t.known
    cases hdt : t.dtype <;> simp_all [k3StElemsize, memElemsize]
  rw [hsize, t.consistent]
  exact Int.mul_tdiv_cancel _ t.elemsize_pos.ne'

/-- A checkpoint has no int8 rows, so neither has a copy of it. -/
theorem PackedRun.not_i8r (h : PackedRun st run src) {name : String} (he : src name = some e) :
    e.dtype ≠ .i8r := by
  obtain ⟨t, -, -, hdt, -⟩ := h name e he
  rw [hdt]
  exact t.known.2

/-- A request that is bound without int8 reads as the elements of the run. -/
theorem MemState.Bound.value (h : s.Bound ops run cap q e) (hi8 : e.dtype ≠ .i8r)
    (hf32 : q.narrow = true → e.dtype ≠ .f32) (hfits : q.Fits true c) (hdest : b.dest = s.dest)
    (hwdt : b.wdt = .bf16) (hrun : ms.run = run) (hwiden : ms.widen = s.widen) {i : Int} (hi : 0 ≤ i)
    (hlt : i < q.dest.len c) :
    b.value ops c ms q.dest i = some (widenElem ops e.dtype run e.off i) ∧ e.Sized q := by
  have hnarrow : q.narrow = (q.dest.shape c).isSome := hfits.narrow
  unfold K3LayerBind.value
  rw [hdest]
  cases h with
  | matrixI8 _ hdt => exact absurd hdt hi8
  | matrixBf16 hn hbf16 hsized hd =>
      rw [hn] at hnarrow
      obtain ⟨⟨rows, cols⟩, hshape⟩ := Option.isSome_iff_exists.mp hnarrow.symm
      refine ⟨?_, hsized⟩
      rw [hd, Option.map_some, hshape, hwdt, hbf16, ← hrun]
      rfl
  | inPlace hdt hsized hd =>
      have hn : q.narrow = false := Bool.eq_false_iff.mpr fun hn => hf32 hn hdt
      rw [hn] at hnarrow
      have hshape : q.dest.shape c = none := Option.isNone_iff_eq_none.mp
        (Option.isSome_eq_false_iff.mp hnarrow.symm)
      refine ⟨?_, hsized⟩
      rw [hd, Option.map_some, hshape, hdt, ← hrun]
      rfl
  | widened o hn hdt hd _ _ _ hwords =>
      obtain ⟨hbf16, hsized⟩ := hdt.resolve_left hi8
      rw [hn] at hnarrow
      have hshape : q.dest.shape c = none := Option.isNone_iff_eq_none.mp
        (Option.isSome_eq_false_iff.mp hnarrow.symm)
      have hword := hwords i.toNat (by rw [hfits.take]; omega)
      rw [Int.toNat_of_nonneg hi, MemTensor.elem, if_neg hi8, ← hwiden] at hword
      refine ⟨?_, hsized⟩
      rw [hd, Option.map_some, hshape, hbf16, Option.some.injEq]
      exact hword

/-- **Binding from a packed run denotes the checkpoint.** -/
theorem bindLayerMem_denotes {widen' : Mem} (hpacked : PackedRun st run src)
    (h : bindLayerMem ops c L run src widen cap = some (b, widen')) (blob : Mem) :
    Denotes ops st c L b ⟨blob, run, widen'⟩ := by
  obtain ⟨s, hinv, haccept, rfl, hdest, hwdt, hkda, hmla, hmoe⟩ := bindLayerMem_inv h
  have hi8 : s.i8Seen = false := by
    rw [Bool.eq_false_iff]
    intro hseen
    obtain ⟨q, -, -, e, hfind, hdt⟩ := hinv.i8Seen.mp hseen
    exact hpacked.not_i8r hfind hdt
  have hall : s.narrowedAll = true := haccept.resolve_right (by rw [hi8]; exact Bool.false_ne_true)
  rw [hi8, if_neg Bool.false_ne_true] at hwdt
  refine ⟨fun q hq => ?_, fun d hd => hdest ▸ hinv.others d hd, hkda, hmla, hmoe⟩
  obtain ⟨e, hfind, hbound⟩ := hinv.bound q hq
  obtain ⟨t, hst, hnb, hdt, hsame⟩ := hpacked q.name e hfind
  refine ⟨t, hst, fun i hi hlt => ?_⟩
  have hfits : q.Fits true c := planLayer_fits L q hq
  have hread : b.value ops c ⟨blob, run, s.widen⟩ q.dest i = some (widenElem ops e.dtype run e.off i) ∧
      e.Sized q :=
    hbound.value (hpacked.not_i8r hfind) (fun hn => hinv.narrowedAll.mp hall q hq hn e hfind) hfits hdest
      hwdt rfl rfl hi hlt
  have hle : i + 1 ≤ t.numel := by
    have htake := hread.2.2
    rw [hfits.take, hnb, hdt, t.have_eq] at htake
    omega
  rw [hread.1, Option.some.injEq, hdt]
  apply widenElem_same hsame hi
  rw [t.consistent]
  exact mul_le_mul_of_nonneg_right hle t.elemsize_pos.le

end Denotes

/-! ## Both binders -/

/-- Two bound layers are the same model: every weight of the plan is the same array of floats, as long
as the kernels read it; no other pointer is set; and the same structs are, one kind of attention. -/
structure SameModel (ops : FloatOps) (c : K3Cfg) (L : Nat) (ms : Mems) (b b' : K3LayerBind) : Prop where
  weights : ∀ q ∈ planLayer true c L, ∃ w : Int → BitVec 32, ∀ i : Int, 0 ≤ i → i < q.dest.len c →
    b.value ops c ms q.dest i = some (w i) ∧ b'.value ops c ms q.dest i = some (w i)
  others : ∀ d, d ∉ (planLayer true c L).map Req.dest → b.dest d = none ∧ b'.dest d = none
  attention : b.kda = !b.mla ∧ b'.kda = !b'.mla ∧ b.mla = b'.mla
  moe : b.moe = b'.moe

/-- **Resident and streamed binding give the same model.** -/
theorem bindLayer_sameModel {ops : FloatOps} {st : K3StIndex} {io : Io} {junk : Mem} {c : K3Cfg} {L : Nat}
    {run : Mem} {src : K3MemSrc} {blob blob' widen widen' : Mem} {b b' : K3LayerBind}
    (hpacked : PackedRun st run src) (hresident : bindLayer ops st io junk c L blob = some (b, blob'))
    (hstreamed : bindLayerMem ops c L run src widen (k3BindWidenBytes c) = some (b', widen')) :
    SameModel ops c L ⟨blob', run, widen'⟩ b b' := by
  have hb := bindLayer_denotes hresident run widen'
  have hb' := bindLayerMem_denotes hpacked hstreamed blob'
  refine ⟨fun q hq => ?_, fun d hd => ⟨hb.others d hd, hb'.others d hd⟩, ⟨?_, ?_, ?_⟩, ?_⟩
  · obtain ⟨t, hfind, hvalue⟩ := hb.weight q hq
    obtain ⟨t', hfind', hvalue'⟩ := hb'.weight q hq
    rw [hfind, Option.some.injEq] at hfind'
    subst hfind'
    exact ⟨t.elem ops (st.shard t.shard), fun i hi hlt => ⟨hvalue i hi hlt, hvalue' i hi hlt⟩⟩
  · rw [hb.kda, hb.mla]
  · rw [hb'.kda, hb'.mla]
  · rw [hb.mla, hb'.mla]
  · rw [hb.moe, hb'.moe]

/-! ## A small checkpoint -/

/-- The requests one after the other in shard 0: bf16, but for the tensor a prefix is taken of. -/
def smallIndex : List Req → Int → List (String × K3Tensor)
  | [], _ => []
  | q :: qs, off =>
      let dtype : K3Dtype := if q.take = q.want then .bf16 else .f32
      let nbytes := q.want * k3StElemsize dtype
      match scanTensor 0 dtype [q.want] off nbytes with
      | none => smallIndex qs off
      | some t => (q.name, t) :: smallIndex qs (off + nbytes)

/-- Layer 0 of the small configuration. -/
def smallLayer : List (String × K3Tensor) := smallIndex (planLayer true smallCfg.toK3Cfg 0) 0

def smallSt : K3StIndex where
  nshard := 1
  shard := fun _ => { byte := UInt8.ofNat, size := 1000, bounded := by decide }
  dfd := none
  find := fun name => smallLayer.lookup name

/-- It is found by its names, and lies in the shard. -/
theorem smallLayer_found : ∀ kv ∈ smallLayer, smallSt.find kv.1 = some kv.2 ∧ 0 ≤ kv.2.off ∧ 0 ≤ kv.2.nbytes ∧
    kv.2.off + kv.2.nbytes ≤ 1000 := by
  decide +kernel

/-- It is packed, and bound from its run. -/
theorem smallLayer_binds : ∃ run src, packLayer smallSt smallLayer 0 = some (run, src) ∧
    (bindLayerMem ⟨fun _ => 0, fun _ _ => 0⟩ smallCfg.toK3Cfg 0 run src (fun _ => 0)
      (k3BindWidenBytes smallCfg.toK3Cfg)).isSome := by
  have hpack : ((packLayer smallSt smallLayer 0).bind fun r =>
      bindLayerMem ⟨fun _ => 0, fun _ _ => 0⟩ smallCfg.toK3Cfg 0 r.1 r.2 (fun _ => 0)
        (k3BindWidenBytes smallCfg.toK3Cfg)).isSome := by decide +kernel
  obtain ⟨bound, hbind⟩ := Option.isSome_iff_exists.mp hpack
  obtain ⟨⟨run, src⟩, hrun, hstreamed⟩ := Option.bind_eq_some_iff.mp hbind
  exact ⟨run, src, hrun, Option.isSome_iff_exists.mpr ⟨bound, hstreamed⟩⟩

/-- The small layer packs, binds both ways, and is the same model. -/
theorem small_sameModel : ∃ run src b b' blob' widen', packLayer smallSt smallLayer 0 = some (run, src) ∧
    bindLayer ⟨fun _ => 0, fun _ _ => 0⟩ smallSt (fun f _ _ => .bytewise f.size) (fun _ => 0)
      smallCfg.toK3Cfg 0 (fun _ => 0) = some (b, blob') ∧
    bindLayerMem ⟨fun _ => 0, fun _ _ => 0⟩ smallCfg.toK3Cfg 0 run src (fun _ => 0)
      (k3BindWidenBytes smallCfg.toK3Cfg) = some (b', widen') ∧
    SameModel ⟨fun _ => 0, fun _ _ => 0⟩ smallCfg.toK3Cfg 0 ⟨blob', run, widen'⟩ b b' := by
  have hfiles : ∀ name t, smallSt.find name = some t → t.InFile (smallSt.shard t.shard) := by
    intro name t hfind
    obtain ⟨-, hstart, hsize, hends⟩ := smallLayer_found (name, t) (mem_of_lookup hfind)
    exact ⟨hstart, hsize, hends⟩
  obtain ⟨run, src, hrun, hbinds⟩ := smallLayer_binds
  obtain ⟨⟨b', widen'⟩, hstreamed⟩ := Option.isSome_iff_exists.mp hbinds
  have hplan : (layerPlan smallSt smallCfg.toK3Cfg 0).isSome := by decide +kernel
  obtain ⟨⟨b, blob'⟩, hresident⟩ := Option.isSome_iff_exists.mp
    (bindLayer_isSome hplan hfiles (fun f _ _ => .bytewise f.size) (fun _ => 0) (fun _ => 0))
  exact ⟨run, src, b, b', blob', widen', hrun, hresident, hstreamed,
    bindLayer_sameModel (packLayer_packedRun (fun kv hkv => (smallLayer_found kv hkv).1) hrun) hresident hstreamed⟩

end LlmEngine.Bind
