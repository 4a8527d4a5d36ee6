/-
# LlmEngine.Bind.Trunk — the packed trunk, as it is written and as it is read.

`tools/pack_trunk.py` writes the run of every layer into `trunk.bin`, each on a boundary of 4096 bytes, and lists
them in `trunk.json`.  `k3_trunk_open` (`src/io/k3_trunk.c`) reads the list, opens the file for reads that go with
the list's alignment, and builds a streamer of one block a layer; `k3_trunk_bind` binds a layer from the bytes the
streamer hands it, looking tensors up in that layer's table.

The packer is `packTrunk`, one round a layer, and `PackedInv` is what holds after each: the layers so far lie in
`trunk.bin` one after the other, in whole blocks, each with the bytes of its run.  The list is `manifest`, a value;
any text of it will do, since `json_parse` reads texts (`Cfg.JsonSpell`).  Of the two of them:

* `k3TrunkList_manifest`: the list is read back;
* `findInLayer_packed`: the table of a layer is that of its run;
* `blocks_packedRun`: the blocks a layer is listed at are a packed run, so whatever is bound from them is bound
  from the checkpoint (`Bind.Agree`).

A name is a C string.  A number passes through a `double` on both sides (`ofInt`, `toI64`); the sizes met here are
below the 53 bits where that is exact.
-/
import LlmEngine.Bind.Agree
import LlmEngine.Cfg.JsonSpell
import LlmEngine.Storage.StreamerSizing
import Mathlib.Algebra.Order.BigOperators.Group.List
import Mathlib.Data.List.Sort

namespace LlmEngine.Bind

open LlmEngine.Bind.Scan (rawStr)
open LlmEngine.Cfg (Ends JVal ReadsNumbers Unescaped ends_nil integer_proper itemsOf itemsOf_proper itemsOf_val jMaxDepth
  jParseVal_reads jsonGet jsonParse rawStr_read spellMembers spellMembers_proper spellMembers_val strtodWhole
  strtodWhole_reads strtodWhole_whole whole)
open LlmEngine.Core LlmEngine.Lib
open LlmEngine.Lib.JsonText (JStr Json Number Ws)
open LlmEngine.Storage (EngStorage)
open LlmEngine.Storage.Streamer (EngBlock EngStreamer EngStreamerCfg engStreamerCreate)
open LlmEngine.Tokenizer (ascii)

/-! ## The reader -/

/-- `dt_of`. -/
def dtOf (s : LittleEndian.Bytes) : K3Dtype :=
  if s = ascii "BF16" then .bf16
  else if s = ascii "F32" then .f32
  else if s = ascii "U8" then .u8
  else if s = ascii "F16" then .f16
  else if s = ascii "I8R" then .i8r
  else .unknown

structure K3TrunkTensor where
  name : LittleEndian.Bytes
  off : Int
  nbytes : Int
  dtype : K3Dtype

structure K3TrunkLayer where
  fileOff : Int
  nbytes : Int
  t : List K3TrunkTensor

/-- `K3Trunk`. -/
structure K3Trunk where
  lay : List K3TrunkLayer
  sm : EngStreamer

/-- `K3_TRUNK_ALIGN`. -/
def trunkAlign : Int := 4096

section Open

variable {D : Type} (toI64 : D → Int)

/-- A cleared member of a structure, set where the list has a number of that name. -/
def numMember (o : JVal D) (key : LittleEndian.Bytes) : Int :=
  match jsonGet (some o) key with
  | some (.num d) => toI64 d
  | _ => 0

def dtypeMember (o : JVal D) : K3Dtype :=
  match jsonGet (some o) (ascii "dtype") with
  | some (.str s) => dtOf s
  | _ => .unknown

/-- One round of the tensor loop. -/
def trunkTensor (e : LittleEndian.Bytes × JVal D) : K3TrunkTensor where
  name := e.1
  off := numMember toI64 e.2 (ascii "off")
  nbytes := numMember toI64 e.2 (ascii "nbytes")
  dtype := dtypeMember e.2

/-- One round of the layer loop; a layer without tensors fails. -/
def trunkLayer (e : JVal D) : Option K3TrunkLayer :=
  match jsonGet (some e) (ascii "tensors") with
  | some (.obj ts) =>
      some ⟨numMember toI64 e (ascii "file_off"), numMember toI64 e (ascii "nbytes"), ts.map (trunkTensor toI64)⟩
  | _ => none

/-- The list of `trunk.json`: its layers, and whether direct reads are asked for. -/
def k3TrunkList (strtod : LittleEndian.Bytes → D × Nat) (text : LittleEndian.Bytes) : Option (List K3TrunkLayer × Bool) :=
  (jsonParse strtod text).bind fun root =>
    match jsonGet (some root) (ascii "layers") with
    | some (.arr kids) =>
        (kids.mapM (trunkLayer toI64)).map fun lay => (lay, decide (numMember toI64 root (ascii "align") = trunkAlign))
    | _ => none

/-- `cfg`, of a streamer with a block a layer and room for the vectors that are widened. -/
def trunkStreamerCfg (c : K3Cfg) (budgetBytes : Int) (lay : List K3TrunkLayer) : EngStreamerCfg where
  blocks := lay.map fun l => ⟨l.fileOff, l.nbytes⟩
  budgetBytes := budgetBytes
  extraBytes := k3BindWidenBytes c
  ringWant := 2
  async := true

/-- `k3_trunk_open` on the text of `trunk.json`; `openFile` is `eng_storage_open_file` on `trunk.bin`. -/
def k3TrunkOpen (openFile : Bool → Option EngStorage) (threadOk : Bool) (c : K3Cfg) (budgetBytes : Int)
    (strtod : LittleEndian.Bytes → D × Nat) (text : LittleEndian.Bytes) : Option K3Trunk :=
  (k3TrunkList toI64 strtod text).bind fun r =>
    (openFile r.2).bind fun store =>
      (engStreamerCreate store (trunkStreamerCfg c budgetBytes r.1) threadOk).map fun sm => ⟨r.1, sm⟩

end Open

/-- `find_in_layer`. -/
def findInLayer (l : K3TrunkLayer) : K3MemSrc := fun name =>
  (l.t.find? fun t => t.name == nameBytes name).map fun t => ⟨t.off, t.nbytes, t.dtype⟩

/-- `k3_trunk_bind`, with the bytes the streamer hands out. -/
def k3TrunkBind (ops : FloatOps) (tr : K3Trunk) (c : K3Cfg) (L : Nat) (base widen : Mem) : Option (K3LayerBind × Mem) :=
  tr.lay[L]?.bind fun lay => bindLayerMem ops c L base (findInLayer lay) widen (k3BindWidenBytes c)

/-! ## The packer -/

/-- `lo`. -/
def runStart (index : List (String × K3Tensor)) (L : Nat) : Int :=
  ((trunkMine L index).map fun kv => kv.2.off).min?.getD 0

/-- `own`. -/
def runOwn (index : List (String × K3Tensor)) (L : Nat) : Int := ((trunkMine L index).map fun kv => kv.2.nbytes).sum

/-- The position behind the padding. -/
def padded (pos : Int) : Int := pos + -pos % trunkAlign

/-- What is written after some layers: the length of `trunk.bin`, its bytes, and the layers with their `file_off`. -/
structure Packed where
  pos : Int
  bin : Mem
  layers : List (Nat × Int)

/-- The layer loop of `pack_trunk.py`. -/
def packTrunk (st : K3StIndex) (index : List (String × K3Tensor)) : Nat → Option Packed
  | 0 => some ⟨0, fun _ => 0, []⟩
  | L + 1 =>
      (packTrunk st index L).bind fun o => (packLayer st index L).map fun r =>
        ⟨padded (padded o.pos + runOwn index L), putBytes o.bin (padded o.pos) (runOwn index L) r.1,
          o.layers ++ [(L, padded o.pos)]⟩

/-- The dtype in the checkpoint's header. -/
def dtypeName : K3Dtype → LittleEndian.Bytes
  | .bf16 => ascii "BF16"
  | .f32 => ascii "F32"
  | .u8 => ascii "U8"
  | .f16 => ascii "F16"
  | .i8r => ascii "I8R"
  | .unknown => []

section Manifest

variable {D : Type} (ofInt : Int → D) (basename : Nat → LittleEndian.Bytes)

def tensorVal (lo : Int) (t : K3Tensor) : JVal D :=
  .obj [(ascii "off", .num (ofInt (t.off - lo))), (ascii "nbytes", .num (ofInt t.nbytes)),
    (ascii "dtype", .str (dtypeName t.dtype)), (ascii "shape", .arr (t.shape.map fun d => .num (ofInt d)))]

/-- The order of strings: that of their UTF-8. -/
def bytesLe : LittleEndian.Bytes → LittleEndian.Bytes → Bool
  | [], _ => true
  | _ :: _, [] => false
  | a :: as, b :: bs => if a == b then bytesLe as bs else a.toNat.blt b.toNat

/-- `sorted(mine.items())`. -/
def sortedMine (index : List (String × K3Tensor)) (L : Nat) : List (String × K3Tensor) :=
  (trunkMine L index).insertionSort fun a b => bytesLe (nameBytes a.1) (nameBytes b.1)

/-- The bytes of a run, in whole blocks. -/
def runBlocks (index : List (String × K3Tensor)) (L : Nat) : Int :=
  (runOwn index L + trunkAlign - 1) / trunkAlign * trunkAlign

def layerVal (index : List (String × K3Tensor)) (e : Nat × Int) : JVal D :=
  .obj [(ascii "layer", .num (ofInt e.1)),
    (ascii "shard", .str (basename (((trunkMine e.1 index).head?.map fun kv => kv.2.shard).getD 0))),
    (ascii "run_start", .num (ofInt (runStart index e.1))), (ascii "nbytes", .num (ofInt (runBlocks index e.1))),
    (ascii "file_off", .num (ofInt e.2)),
    (ascii "tensors", .obj ((sortedMine index e.1).map fun kv =>
      (nameBytes kv.1, tensorVal ofInt (runStart index e.1) kv.2)))]

/-- What `pack_trunk.py` dumps into `trunk.json`. -/
def manifest (index : List (String × K3Tensor)) (n : Nat) (o : Packed) : JVal D :=
  .obj [(ascii "n_layers", .num (ofInt n)), (ascii "align", .num (ofInt trunkAlign)),
    (ascii "layers", .arr (o.layers.map (layerVal ofInt basename index)))]

end Manifest

/-! ## What is written -/

section Written

variable {st : K3StIndex} {index : List (String × K3Tensor)}

theorem padded_le (pos : Int) : pos ≤ padded pos := by
  unfold padded trunkAlign
  omega

theorem padded_aligned (pos : Int) : padded pos % trunkAlign = 0 := by
  unfold padded trunkAlign
  omega

/-- Behind a run on a boundary, the padding fills up its last block. -/
theorem padded_run (index : List (String × K3Tensor)) {off : Int} (hoff : off % trunkAlign = 0) (L : Nat) :
    padded (off + runOwn index L) = off + runBlocks index L := by
  unfold padded runBlocks trunkAlign at *
  omega

theorem runOwn_nonneg (hsize : ∀ kv ∈ index, 0 ≤ kv.2.nbytes) (L : Nat) : 0 ≤ runOwn index L := by
  refine List.sum_nonneg fun x hx => ?_
  obtain ⟨kv, hkv, rfl⟩ := List.mem_map.mp hx
  exact hsize kv (List.mem_of_mem_filter hkv)

theorem runOwn_le_blocks (index : List (String × K3Tensor)) (L : Nat) : runOwn index L ≤ runBlocks index L := by
  unfold runBlocks trunkAlign
  omega

/-- **A run that is packed**: the span of its tensors, all of one shard, and the table of where they are in it. -/
theorem packLayer_run {L : Nat} {run : Mem} {src : K3MemSrc} (h : packLayer st index L = some (run, src)) :
    ∃ shard, (∀ kv ∈ trunkMine L index, kv.2.shard = shard ∧ runStart index L ≤ kv.2.off ∧
        kv.2.off + kv.2.nbytes ≤ runStart index L + runOwn index L) ∧
      run = putBytes (fun _ => 0) 0 (runOwn index L) (fun o => (st.shard shard).mem (runStart index L + o)) ∧
      src = fun name => ((trunkMine L index).lookup name).map fun t => ⟨t.off - runStart index L, t.nbytes, t.dtype⟩ := by
  unfold packLayer at h
  simp only at h
  split at h
  · rename_i first lo hi hfirst hlo hhi
    split_ifs at h with hshard hgap hshort
    obtain ⟨rfl, rfl⟩ := Prod.mk.inj (Option.some.inj h)
    have hstart : runStart index L = lo := by
      unfold runStart
      rw [hlo]
      rfl
    have hown : hi - lo = runOwn index L := not_ne_iff.mp hgap
    rw [hstart]
    refine ⟨first.2.shard, fun kv hkv => ⟨?_, ?_, ?_⟩, rfl, rfl⟩
    · by_contra hne
      exact hshard (List.any_eq_true.mpr ⟨kv, hkv, by simpa using hne⟩)
    · exact (List.min?_eq_some_iff.mp hlo).2 _ (List.mem_map_of_mem (f := fun kv : String × K3Tensor => kv.2.off) hkv)
    · have hto : kv.2.off + kv.2.nbytes ≤ hi := (List.max?_eq_some_iff.mp hhi).2 _
        (List.mem_map_of_mem (f := fun kv : String × K3Tensor => kv.2.off + kv.2.nbytes) hkv)
      omega
  · nomatch h

/-- **A tensor in its run**: where it starts, that it ends inside, and its bytes. -/
theorem packLayer_tensor {L : Nat} {run : Mem} {src : K3MemSrc} (h : packLayer st index L = some (run, src))
    {kv : String × K3Tensor} (hkv : kv ∈ trunkMine L index) :
    0 ≤ kv.2.off - runStart index L ∧ kv.2.off - runStart index L + kv.2.nbytes ≤ runOwn index L ∧
      SameBytes (st.shard kv.2.shard).mem kv.2.off run (kv.2.off - runStart index L) kv.2.nbytes := by
  obtain ⟨shard, hspan, rfl, -⟩ := packLayer_run h
  obtain ⟨hshard, hfrom, hto⟩ := hspan kv hkv
  refine ⟨by omega, by omega, fun j hj hlt => ?_⟩
  rw [putBytes_inside _ _ (by omega) (by omega), hshard]
  congr 1
  omega

/-- One layer more. -/
theorem packTrunk_succ {n : Nat} {o : Packed} {run : Mem} {src : K3MemSrc} (h : packTrunk st index n = some o)
    (hrun : packLayer st index n = some (run, src)) : packTrunk st index (n + 1) =
      some ⟨padded (padded o.pos + runOwn index n), putBytes o.bin (padded o.pos) (runOwn index n) run,
        o.layers ++ [(n, padded o.pos)]⟩ := by
  rw [packTrunk, h, Option.bind_some, hrun, Option.map_some]

/-- Every layer so far is where it is listed. -/
structure PackedInv (st : K3StIndex) (index : List (String × K3Tensor)) (n : Nat) (o : Packed) : Prop where
  pos : 0 ≤ o.pos
  layers : o.layers.map Prod.fst = List.range n
  runs : ∀ e ∈ o.layers, 0 ≤ e.2 ∧ e.2 % trunkAlign = 0 ∧ e.2 + runBlocks index e.1 ≤ o.pos ∧
    ∃ run src, packLayer st index e.1 = some (run, src) ∧ SameBytes run 0 o.bin e.2 (runOwn index e.1)

/-- **The packer**, layer by layer. -/
theorem packTrunk_inv (hsize : ∀ kv ∈ index, 0 ≤ kv.2.nbytes) {n : Nat} {o : Packed}
    (h : packTrunk st index n = some o) : PackedInv st index n o := by
  induction n generalizing o with
  | zero =>
      obtain rfl := Option.some.inj h
      exact ⟨le_refl 0, rfl, List.forall_mem_nil _⟩
  | succ n ih =>
      obtain ⟨o, hbefore, hlast⟩ := Option.bind_eq_some_iff.mp h
      obtain ⟨⟨run, src⟩, hrun, rfl⟩ := Option.map_eq_some_iff.mp hlast
      obtain ⟨hpos, hlayers, hruns⟩ := ih hbefore
      have hown := runOwn_nonneg hsize n
      have hoff := padded_le o.pos
      have haligned := padded_aligned o.pos
      have hblocks := runOwn_le_blocks index n
      have hend := padded_run index haligned n
      refine ⟨by dsimp only; omega, by rw [List.map_append, hlayers, List.range_succ]; rfl, fun e he => ?_⟩
      rcases List.mem_append.mp he with hold | hnew
      · obtain ⟨hstart, hbound, hstop, run', src', hrun', hbytes⟩ := hruns e hold
        have hinside := runOwn_le_blocks index e.1
        refine ⟨hstart, hbound, by dsimp only; omega, run', src', hrun', fun j hj hlt => ?_⟩
        show putBytes o.bin (padded o.pos) (runOwn index n) run (e.2 + j) = _
        rw [putBytes_outside _ _ (.inl (by omega))]
        exact hbytes j hj hlt
      · obtain rfl := List.mem_singleton.mp hnew
        refine ⟨by dsimp only; omega, haligned, hend.ge, run, src, hrun, fun j hj hlt => ?_⟩
        dsimp only at hlt
        show putBytes o.bin (padded o.pos) (runOwn index n) run (padded o.pos + j) = _
        rw [putBytes_inside _ _ (by omega) (by omega)]
        congr 1
        omega

end Written

/-! ## What is read -/

section Read

variable {D : Type} {toI64 : D → Int} {ofInt : Int → D} {basename : Nat → LittleEndian.Bytes}
variable {index : List (String × K3Tensor)}

theorem dtOf_name {d : K3Dtype} : dtOf (dtypeName d) = d := by
  cases d <;> decide +kernel

/-- A table as it is read back. -/
def tensorsRead (toI64 : D → Int) (ofInt : Int → D) (index : List (String × K3Tensor)) (L : Nat) : List K3TrunkTensor :=
  (sortedMine index L).map fun kv =>
    ⟨nameBytes kv.1, toI64 (ofInt (kv.2.off - runStart index L)), toI64 (ofInt kv.2.nbytes), kv.2.dtype⟩

/-- So is a layer. -/
def layerRead (toI64 : D → Int) (ofInt : Int → D) (index : List (String × K3Tensor)) (e : Nat × Int) : K3TrunkLayer :=
  ⟨toI64 (ofInt e.2), toI64 (ofInt (runBlocks index e.1)), tensorsRead toI64 ofInt index e.1⟩

theorem trunkTensor_val (name : LittleEndian.Bytes) (lo : Int) (t : K3Tensor) :
    trunkTensor toI64 (name, tensorVal ofInt lo t) =
      ⟨name, toI64 (ofInt (t.off - lo)), toI64 (ofInt t.nbytes), t.dtype⟩ := by
  have hdtype : dtypeMember (tensorVal ofInt lo t) = t.dtype := dtOf_name
  rw [trunkTensor, hdtype]
  rfl

theorem trunkLayer_val (e : Nat × Int) :
    trunkLayer toI64 (layerVal ofInt basename index e) = some (layerRead toI64 ofInt index e) := by
  show some (K3TrunkLayer.mk _ _ (List.map _ (List.map _ _))) = _
  rw [List.map_map]
  congr 2
  exact List.map_congr_left fun kv _ => trunkTensor_val _ _ _

theorem trunkLayers_val (es : List (Nat × Int)) :
    (es.map (layerVal ofInt basename index)).mapM (trunkLayer toI64) = some (es.map (layerRead toI64 ofInt index)) := by
  induction es with
  | nil => rfl
  | cons e es ih =>
      rw [List.map_cons, List.mapM_cons, trunkLayer_val, ih]
      rfl

/-- **The list is read back**, and asks for direct reads. -/
theorem k3TrunkList_manifest {strtod : LittleEndian.Bytes → D × Nat} {num : Number → D} (hnum : ReadsNumbers strtod num)
    {n : Nat} {o : Packed} (halign : toI64 (ofInt trunkAlign) = trunkAlign) {v : Json}
    (htext : Cfg.Json.toVal num v = manifest ofInt basename index n o) (hdepth : v.depth ≤ jMaxDepth)
    (hproper : Cfg.Json.IsProper v) (before : Ws) {behind : LittleEndian.Bytes} (hends : Ends behind) :
    k3TrunkList toI64 strtod (before.val ++ (v.render ++ behind)) =
      some (o.layers.map (layerRead toI64 ofInt index), true) := by
  have hparse : jsonParse strtod (before.val ++ (v.render ++ behind)) = some (manifest ofInt basename index n o) :=
    htext ▸ congrArg (Option.map Prod.fst) (jParseVal_reads hnum jMaxDepth v hdepth hproper before behind hends)
  have hmember : numMember toI64 (manifest ofInt basename index n o) (ascii "align") = trunkAlign := halign
  unfold k3TrunkList
  rw [hparse, Option.bind_some]
  show (List.mapM (trunkLayer toI64) (o.layers.map (layerVal ofInt basename index))).map _ = _
  rw [trunkLayers_val, Option.map_some, hmember]
  rfl

/-- What a lookup finds is a tensor of the layer. -/
theorem findInLayer_read {e : Nat × Int} {name : String} {m : MemTensor}
    (h : findInLayer (layerRead toI64 ofInt index e) name = some m) : ∃ kv ∈ trunkMine e.1 index, kv.1 = name ∧
      m = ⟨toI64 (ofInt (kv.2.off - runStart index e.1)), toI64 (ofInt kv.2.nbytes), kv.2.dtype⟩ := by
  obtain ⟨t, hfind, rfl⟩ := Option.map_eq_some_iff.mp h
  have hname := List.find?_some hfind
  obtain ⟨kv, hkv, rfl⟩ := List.mem_map.mp (List.mem_of_find?_eq_some hfind)
  refine ⟨kv, (List.mem_insertionSort _).mp hkv, ?_, rfl⟩
  have hbytes : nameBytes kv.1 = nameBytes name := eq_of_beq hname
  exact String.toByteArray_inj.mp (ByteArray.ext (Array.ext' hbytes))

/-- **A layer of the list and the blocks it is read in are a packed run.** -/
theorem blocks_packedRun {st : K3StIndex} {n : Nat} {o : Packed}
    (hindex : ∀ kv ∈ index, st.find kv.1 = some kv.2 ∧ 0 ≤ kv.2.nbytes) (hinv : PackedInv st index n o)
    (hexact : ∀ i, 0 ≤ i → i ≤ o.pos → toI64 (ofInt i) = i) {e : Nat × Int} (he : e ∈ o.layers) {base : Mem}
    (hbase : SameBytes o.bin e.2 base 0 (runBlocks index e.1)) :
    PackedRun st base (findInLayer (layerRead toI64 ofInt index e)) := by
  intro name m hm
  obtain ⟨hstart, -, hstop, run, src, hrun, hbytes⟩ := hinv.runs e he
  obtain ⟨kv, hkv, rfl, rfl⟩ := findInLayer_read hm
  obtain ⟨hfind, hsize⟩ := hindex kv (List.mem_of_mem_filter hkv)
  obtain ⟨hoff, hinside, hsame⟩ := packLayer_tensor hrun hkv
  have hblocks := runOwn_le_blocks index e.1
  refine ⟨kv.2, hfind, hexact _ hsize (by omega), rfl, fun j hj hlt => ?_⟩
  have hat : base (0 + (kv.2.off - runStart index e.1 + j)) = o.bin (e.2 + (kv.2.off - runStart index e.1 + j)) :=
    hbase _ (by omega) (by omega)
  rw [zero_add] at hat
  have hrunat : o.bin (e.2 + (kv.2.off - runStart index e.1 + j)) = run (0 + (kv.2.off - runStart index e.1 + j)) :=
    hbytes _ (by omega) (by omega)
  rw [zero_add] at hrunat
  show base (toI64 (ofInt (kv.2.off - runStart index e.1)) + j) = _
  rw [hexact _ hoff (by omega), hat, hrunat]
  exact hsame j hj hlt

/-- **The table of a layer is that of its run**: what it finds, and what it does not. -/
theorem findInLayer_packed {st : K3StIndex} {n : Nat} {o : Packed}
    (hindex : ∀ kv ∈ index, st.find kv.1 = some kv.2 ∧ 0 ≤ kv.2.nbytes) (hinv : PackedInv st index n o)
    (hexact : ∀ i, 0 ≤ i → i ≤ o.pos → toI64 (ofInt i) = i) {e : Nat × Int} (he : e ∈ o.layers) {run : Mem} {src : K3MemSrc}
    (hrun : packLayer st index e.1 = some (run, src)) : findInLayer (layerRead toI64 ofInt index e) = src := by
  obtain ⟨hstart, -, hstop, -⟩ := hinv.runs e he
  obtain ⟨-, -, -, rfl⟩ := packLayer_run hrun
  have hblocks := runOwn_le_blocks index e.1
  have hfound : ∀ kv ∈ trunkMine e.1 index, st.find kv.1 = some kv.2 := fun kv hkv => (hindex kv (List.mem_of_mem_filter hkv)).1
  funext name
  cases htable : findInLayer (layerRead toI64 ofInt index e) name with
  | none =>
      cases hmine : (trunkMine e.1 index).lookup name with
      | none => rfl
      | some t =>
          have hmem := (List.mem_insertionSort fun a b => bytesLe (nameBytes a.1) (nameBytes b.1)).mpr (mem_of_lookup hmine)
          unfold findInLayer at htable
          rw [Option.map_eq_none_iff, List.find?_eq_none] at htable
          exact absurd BEq.rfl (htable _ (List.mem_map_of_mem hmem))
  | some m =>
      obtain ⟨kv, hkv, rfl, rfl⟩ := findInLayer_read htable
      obtain ⟨hoff, hinside, -⟩ := packLayer_tensor hrun hkv
      have hsize := (hindex kv (List.mem_of_mem_filter hkv)).2
      cases hmine : (trunkMine e.1 index).lookup kv.1 with
      | none =>
          rw [List.lookup_eq_none_iff] at hmine
          have hself := hmine kv hkv
          simp at hself
      | some t =>
          have hsame := (hfound _ (mem_of_lookup hmine)).symm.trans (hfound kv hkv)
          obtain rfl := Option.some.inj hsame
          rw [Option.map_some, hexact _ hoff (by omega), hexact _ hsize (by omega)]

end Read

end LlmEngine.Bind
