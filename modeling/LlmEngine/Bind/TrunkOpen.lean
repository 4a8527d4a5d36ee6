/-
# LlmEngine.Bind.TrunkOpen — the packed trunk, opened and walked (`src/io/k3_trunk.c`).

`k3_trunk_open` refuses a list of no layers and a budget that does not hold a ring slot for the largest of them;
else it opens any text of the list, with all its layers.  Then a pass over the layers takes one block after the
other from the streamer and binds a layer from each.  Up to the first NULL the blocks are those of `trunk.bin`
(`Storage.StreamerSafe`), these are the runs of the layers (`Bind.Trunk`), and a run binds to what the checkpoint
says (`Bind.Agree`).  So a layer is bound from the trunk just when it is bound from its run, and what is bound
denotes the weights of the checkpoint.

The second half writes a text of the list, as `json.dump` does where the names need no escapes, and opens the trunk
of the small checkpoint of `Bind.Agree` from it.
-/
import LlmEngine.Bind.Trunk
import LlmEngine.Storage.StreamerSafe

namespace LlmEngine.Bind

open LlmEngine.Bind.Scan (rawStr)
open LlmEngine.Cfg (Ends ReadsNumbers Unescaped ends_nil integer_proper itemsOf itemsOf_proper itemsOf_val jMaxDepth
  rawStr_read itemsOf_depth spellMembers spellMembers_depth spellMembers_proper spellMembers_val strtodWhole strtodWhole_reads strtodWhole_whole
  unescaped_of_all whole)
open LlmEngine.Core LlmEngine.Lib
open LlmEngine.Lib.JsonText (JStr Json Number Ws)
open LlmEngine.Storage (EngStorage ReadWindow fileReadAligned)
open LlmEngine.Storage.Streamer (BlockPtr EngBlock EngStreamer State Walk engStreamerCreate engStreamerCreate_isSome_iff
  engStreamerCreate_streams Job callerPread callerStep largest slotFor walkStep walk_safe)
open LlmEngine.Tokenizer (ascii)

/-! ## What is opened -/

/-- The bytes at a pointer of the streamer. -/
def blockAt (st : State) (p : BlockPtr) : Mem := fun i => st.mem p.buf (p.base + i.toNat)

/-- A ring slot for the largest of `n` layers, with room for what is widened. -/
def trunkSlot (index : List (String × K3Tensor)) (c : K3Cfg) (n : Nat) : Int :=
  slotFor (largest ((List.range n).map (runBlocks index))) (if k3BindWidenBytes c > 0 then k3BindWidenBytes c else 0)

section Opened

variable {D : Type} {toI64 : D → Int} {ofInt : Int → D} {index : List (String × K3Tensor)} {st : K3StIndex} {n : Nat}
  {o : Packed}

/-- The layers of the list are those that were packed, each in whole blocks inside `trunk.bin`. -/
structure ListOf (index : List (String × K3Tensor)) (n : Nat) (o : Packed) (lay : List K3TrunkLayer) : Prop where
  length : lay.length = n
  blocks : lay.map K3TrunkLayer.nbytes = (List.range n).map (runBlocks index)
  inside : ∀ l ∈ lay, 0 ≤ l.fileOff ∧ l.fileOff % trunkAlign = 0 ∧ 0 ≤ l.nbytes ∧ l.nbytes % trunkAlign = 0 ∧
    l.fileOff + l.nbytes ≤ o.pos

theorem layerRead_exact (hsize : ∀ kv ∈ index, 0 ≤ kv.2.nbytes) (hinv : PackedInv st index n o)
    (hexact : ∀ i, 0 ≤ i → i ≤ o.pos → toI64 (ofInt i) = i) {e : Nat × Int} (he : e ∈ o.layers) :
    (layerRead toI64 ofInt index e).fileOff = e.2 ∧ (layerRead toI64 ofInt index e).nbytes = runBlocks index e.1 ∧
      0 ≤ runBlocks index e.1 := by
  obtain ⟨hstart, -, hstop, -⟩ := hinv.runs e he
  have hblocks : 0 ≤ runBlocks index e.1 := le_trans (runOwn_nonneg hsize e.1) (runOwn_le_blocks index e.1)
  exact ⟨hexact _ hstart (by omega), hexact _ hblocks (by omega), hblocks⟩

theorem layersRead_listOf (hsize : ∀ kv ∈ index, 0 ≤ kv.2.nbytes) (hinv : PackedInv st index n o)
    (hexact : ∀ i, 0 ≤ i → i ≤ o.pos → toI64 (ofInt i) = i) :
    ListOf index n o (o.layers.map (layerRead toI64 ofInt index)) := by
  constructor
  · rw [List.length_map, ← List.length_map (f := Prod.fst), hinv.layers, List.length_range]
  · rw [← hinv.layers, List.map_map, List.map_map]
    exact List.map_congr_left fun e he => (layerRead_exact hsize hinv hexact he).2.1
  · intro l hl
    obtain ⟨e, he, rfl⟩ := List.mem_map.mp hl
    obtain ⟨hoff, hlen, hblocks⟩ := layerRead_exact hsize hinv hexact he
    obtain ⟨hstart, haligned, hstop, -⟩ := hinv.runs e he
    rw [hoff, hlen]
    exact ⟨hstart, haligned, hblocks, Int.mul_emod_left _ _, hstop⟩

/-- **When the streamer of a trunk is built.** -/
theorem trunkStreamer_isSome {lay : List K3TrunkLayer} (hlist : ListOf index n o lay) (store : EngStorage) (c : K3Cfg)
    (budgetBytes : Int) (threadOk : Bool) :
    (engStreamerCreate store (trunkStreamerCfg c budgetBytes lay) threadOk).isSome ↔ n ≠ 0 ∧
      trunkSlot index c n ≤ budgetBytes := by
  have hnn : ∀ b ∈ (trunkStreamerCfg c budgetBytes lay).blocks, 0 ≤ b.nbytes := by
    intro b hb
    obtain ⟨l, hl, rfl⟩ := List.mem_map.mp hb
    exact (hlist.inside l hl).2.2.1
  have hsizes : (trunkStreamerCfg c budgetBytes lay).blocks.map (fun b => b.nbytes) = (List.range n).map (runBlocks index) := by
    rw [← hlist.blocks]
    show (lay.map _).map _ = _
    rw [List.map_map]
    rfl
  have hempty : (trunkStreamerCfg c budgetBytes lay).blocks = [] ↔ n = 0 := by
    rw [← hlist.length]
    show lay.map _ = [] ↔ _
    rw [List.map_eq_nil_iff, List.length_eq_zero_iff]
  rw [engStreamerCreate_isSome_iff store _ threadOk hnn, hsizes, ne_eq, hempty]
  rfl

/-- **A block that was handed out is the layer's part of `trunk.bin`.** -/
theorem walk_block {store : EngStorage} {lay : List K3TrunkLayer} (hlist : ListOf index n o lay) {c : K3Cfg} {budgetBytes : Int}
    {threadOk : Bool} {sm : EngStreamer} (hsm : engStreamerCreate store (trunkStreamerCfg c budgetBytes lay) threadOk = some sm)
    (hbin : ∀ i : Nat, (i : Int) < o.pos → store.byte i = o.bin i) (mem : Storage.Streamer.Buf → Nat → UInt8) {w : Walk}
    (hr : Reaches (walkStep sm) anyChoice (.init mem) w) {L : Nat} {p : BlockPtr} (hlive : (L, p) ∈ w.st.live)
    {l : K3TrunkLayer} (hl : lay[L]? = some l) : SameBytes o.bin l.fileOff (blockAt w.st p) 0 l.nbytes := by
  obtain ⟨hstore, hblk⟩ := engStreamerCreate_streams hsm
  have hblock : sm.block L = ⟨l.fileOff, l.nbytes⟩ := by
    unfold Storage.Streamer.EngStreamer.block
    rw [hblk]
    show (lay.map _).getD L default = _
    rw [List.getD_eq_getElem?_getD, List.getElem?_map, hl]
    rfl
  obtain ⟨hstart, -, -, -, hstop⟩ := hlist.inside l (List.mem_of_getElem? hl)
  have hholds := (walk_safe hsm mem hr).1.addresses L p hlive
  intro j hj hlt
  have hbyte := hholds j.toNat (by rw [hblock]; dsimp only; omega)
  unfold blockAt
  rw [zero_add, hbyte]
  unfold Storage.Streamer.EngStreamer.blockByte
  rw [hstore, hblock]
  dsimp only
  rw [hbin _ (by omega)]
  congr 1
  omega

/-- **A layer, from its part of `trunk.bin`**, is bound just when it is bound from its run, and then denotes the
checkpoint. -/
theorem layer_from_block (hindex : ∀ kv ∈ index, st.find kv.1 = some kv.2 ∧ 0 ≤ kv.2.nbytes) (hinv : PackedInv st index n o)
    (hexact : ∀ i, 0 ≤ i → i ≤ o.pos → toI64 (ofInt i) = i) {sm : EngStreamer} {L : Nat} {l : K3TrunkLayer}
    (hl : (o.layers.map (layerRead toI64 ofInt index))[L]? = some l) {base : Mem}
    (hbase : SameBytes o.bin l.fileOff base 0 l.nbytes) :
    ∃ run src, packLayer st index L = some (run, src) ∧ ∀ (ops : FloatOps) (c : K3Cfg) (widen : Mem),
      (k3TrunkBind ops ⟨o.layers.map (layerRead toI64 ofInt index), sm⟩ c L base widen).isSome =
          (bindLayerMem ops c L run src widen (k3BindWidenBytes c)).isSome ∧
        ∀ b widen' blob, k3TrunkBind ops ⟨o.layers.map (layerRead toI64 ofInt index), sm⟩ c L base widen = some (b, widen') →
          Denotes ops st c L b ⟨blob, base, widen'⟩ := by
  have hsize : ∀ kv ∈ index, 0 ≤ kv.2.nbytes := fun kv hkv => (hindex kv hkv).2
  have hbind : ∀ ops c widen, k3TrunkBind ops ⟨o.layers.map (layerRead toI64 ofInt index), sm⟩ c L base widen =
      bindLayerMem ops c L base (findInLayer l) widen (k3BindWidenBytes c) := by
    intro ops c widen
    unfold k3TrunkBind
    rw [hl, Option.bind_some]
  rw [List.getElem?_map] at hl
  obtain ⟨e, he, rfl⟩ := Option.map_eq_some_iff.mp hl
  have hmem := List.mem_of_getElem? he
  obtain ⟨hoff, hlen, -⟩ := layerRead_exact hsize hinv hexact hmem
  rw [hoff, hlen] at hbase
  obtain ⟨-, -, -, run, src, hrun, -⟩ := hinv.runs e hmem
  have hlayer : e.1 = L := by
    have hfst : (o.layers.map Prod.fst)[L]? = some e.1 := by
      rw [List.getElem?_map, he]
      rfl
    rw [hinv.layers] at hfst
    obtain ⟨hlt, hat⟩ := List.getElem?_eq_some_iff.mp hfst
    rw [List.getElem_range] at hat
    exact hat.symm
  have htable := findInLayer_packed hindex hinv hexact hmem hrun
  have hpacked := blocks_packedRun hindex hinv hexact hmem hbase
  subst hlayer
  refine ⟨run, src, hrun, fun ops c widen => ⟨?_, fun b widen' blob hb => ?_⟩⟩
  · rw [hbind, htable]
    exact bindLayerMem_isSome ops c e.1 base run src widen widen _
  · rw [hbind] at hb
    exact bindLayerMem_denotes hpacked hb blob

section Text

variable {strtod : LittleEndian.Bytes → D × Nat} {num : Number → D} {basename : Nat → LittleEndian.Bytes} {v : Json}

/-- On a text of the list, `k3_trunk_open` comes to the streamer. -/
theorem k3TrunkOpen_manifest (hnum : ReadsNumbers strtod num) (halign : toI64 (ofInt trunkAlign) = trunkAlign)
    (htext : Cfg.Json.toVal num v = manifest ofInt basename index n o) (hdepth : v.depth ≤ jMaxDepth)
    (hproper : Cfg.Json.IsProper v) (before : Ws) {behind : LittleEndian.Bytes} (hends : Ends behind)
    {openFile : Bool → Option EngStorage} {store : EngStorage} (hfile : openFile true = some store) (threadOk : Bool)
    (c : K3Cfg) (budgetBytes : Int) :
    k3TrunkOpen toI64 openFile threadOk c budgetBytes strtod (before.val ++ (v.render ++ behind)) =
      (engStreamerCreate store (trunkStreamerCfg c budgetBytes (o.layers.map (layerRead toI64 ofInt index))) threadOk).map
        fun sm => ⟨o.layers.map (layerRead toI64 ofInt index), sm⟩ := by
  unfold k3TrunkOpen
  rw [k3TrunkList_manifest hnum halign htext hdepth hproper before hends, Option.bind_some, hfile, Option.bind_some]

/-- **From the checkpoint through the packed trunk and back.**  What `pack_trunk.py` writes, `k3_trunk_open` opens for
direct reads, just when there is a layer and the budget holds a ring slot for the largest; with all its layers, each in
whole blocks inside `trunk.bin`.  From a block the streamer hands out along a walk, under any interleaving with its
reader and whichever reads failed, the layer is bound just when it is bound from its run, and then it denotes the
checkpoint. -/
theorem trunk_denotes (hnum : ReadsNumbers strtod num)
    (hindex : ∀ kv ∈ index, st.find kv.1 = some kv.2 ∧ 0 ≤ kv.2.nbytes) (hpack : packTrunk st index n = some o)
    (hexact : ∀ i : Int, 0 ≤ i → i ≤ 2 ^ 53 → toI64 (ofInt i) = i) (hpos : o.pos ≤ 2 ^ 53)
    (htext : Cfg.Json.toVal num v = manifest ofInt basename index n o) (hdepth : v.depth ≤ jMaxDepth)
    (hproper : Cfg.Json.IsProper v) (before : Ws) {behind : LittleEndian.Bytes} (hends : Ends behind)
    {openFile : Bool → Option EngStorage} {store : EngStorage} (hfile : openFile true = some store)
    (hbin : ∀ i : Nat, (i : Int) < o.pos → store.byte i = o.bin i) (threadOk : Bool) (c : K3Cfg) (budgetBytes : Int) :
    ((k3TrunkOpen toI64 openFile threadOk c budgetBytes strtod (before.val ++ (v.render ++ behind))).isSome ↔
        n ≠ 0 ∧ trunkSlot index c n ≤ budgetBytes) ∧
      ∀ tr, k3TrunkOpen toI64 openFile threadOk c budgetBytes strtod (before.val ++ (v.render ++ behind)) = some tr →
        ListOf index n o tr.lay ∧
        ∀ mem w, Reaches (walkStep tr.sm) anyChoice (.init mem) w → ∀ L < n, ∀ p, (L, p) ∈ w.st.live →
          ∃ run src, packLayer st index L = some (run, src) ∧ ∀ (ops : FloatOps) (c' : K3Cfg) (widen : Mem),
            (k3TrunkBind ops tr c' L (blockAt w.st p) widen).isSome =
                (bindLayerMem ops c' L run src widen (k3BindWidenBytes c')).isSome ∧
              ∀ b widen' blob, k3TrunkBind ops tr c' L (blockAt w.st p) widen = some (b, widen') →
                Denotes ops st c' L b ⟨blob, blockAt w.st p, widen'⟩ := by
  have hinv := packTrunk_inv (fun kv hkv => (hindex kv hkv).2) hpack
  have hsmall : ∀ i, 0 ≤ i → i ≤ o.pos → toI64 (ofInt i) = i := fun i hi hle => hexact i hi (le_trans hle hpos)
  have hlist := layersRead_listOf (fun kv hkv => (hindex kv hkv).2) hinv hsmall
  have hopen := k3TrunkOpen_manifest hnum (hexact trunkAlign (by decide) (by decide)) htext hdepth hproper before hends hfile
    threadOk c budgetBytes
  rw [hopen, Option.isSome_map]
  refine ⟨trunkStreamer_isSome hlist store c budgetBytes threadOk, fun tr htr => ?_⟩
  obtain ⟨sm, hsm, rfl⟩ := Option.map_eq_some_iff.mp htr
  refine ⟨hlist, fun mem w hr L hL p hlive => ?_⟩
  obtain ⟨l, hl⟩ : ∃ l, (o.layers.map (layerRead toI64 ofInt index))[L]? = some l :=
    ⟨_, List.getElem?_eq_getElem (hlist.length.symm ▸ hL)⟩
  exact layer_from_block hindex hinv hsmall hl (walk_block hlist hsm hbin mem hr hlive hl)

end Text

end Opened

/-! ## A text of the list -/

def tensorText (lo : Int) (t : K3Tensor) : Json :=
  .obj Ws.none (spellMembers [(ascii "off", .num (whole (t.off - lo))), (ascii "nbytes", .num (whole t.nbytes)),
    (ascii "dtype", .str (rawStr (dtypeName t.dtype))),
    (ascii "shape", .arr Ws.none (itemsOf (t.shape.map fun d => .num (whole d))))])

def layerText (index : List (String × K3Tensor)) (e : Nat × Int) : Json :=
  .obj Ws.none (spellMembers [(ascii "layer", .num (whole e.1)), (ascii "shard", .str []),
    (ascii "run_start", .num (whole (runStart index e.1))), (ascii "nbytes", .num (whole (runBlocks index e.1))),
    (ascii "file_off", .num (whole e.2)),
    (ascii "tensors", .obj Ws.none (spellMembers ((sortedMine index e.1).map fun kv =>
      (nameBytes kv.1, tensorText (runStart index e.1) kv.2))))])

def manifestText (index : List (String × K3Tensor)) (n : Nat) (es : List (Nat × Int)) : Json :=
  .obj Ws.none (spellMembers [(ascii "n_layers", .num (whole n)), (ascii "align", .num (whole trunkAlign)),
    (ascii "layers", .arr Ws.none (itemsOf (es.map (layerText index))))])

section Text

variable {D : Type} {num : Number → D}

/-- A text of a tensor, of a layer and of the list, where the names need no escapes. -/
theorem tensorText_val (lo : Int) (t : K3Tensor) :
    Cfg.Json.toVal num (tensorText lo t) = tensorVal (fun i => num (whole i)) lo t := by
  have hkeys : ∀ s ∈ ["off", "nbytes", "dtype", "shape"], ∀ b ∈ ascii s, Unescaped b :=
    unescaped_of_all (by decide +kernel)
  have hname : ((dtypeName t.dtype).all fun b => decide (Unescaped b)) = true := by cases t.dtype <;> decide +kernel
  have hdtype : cStr (JStr.decode (rawStr (dtypeName t.dtype))) = dtypeName t.dtype :=
    rawStr_read fun b hb => of_decide_eq_true (List.all_eq_true.mp hname b hb)
  rw [tensorText, Cfg.Json.toVal, spellMembers_val (by simpa using hkeys)]
  simp only [List.map_cons, List.map_nil, Cfg.Json.toVal, hdtype, itemsOf_val, List.map_map]
  rfl

theorem layerText_val {index : List (String × K3Tensor)} (h : ∀ kv ∈ index, ∀ b ∈ nameBytes kv.1, Unescaped b)
    (e : Nat × Int) : Cfg.Json.toVal num (layerText index e) =
      layerVal (fun i => num (whole i)) (fun _ => []) index e := by
  have hkeys : ∀ s ∈ ["layer", "shard", "run_start", "nbytes", "file_off", "tensors"], ∀ b ∈ ascii s, Unescaped b :=
    unescaped_of_all (by decide +kernel)
  have hnames : ∀ m ∈ (sortedMine index e.1).map fun kv => (nameBytes kv.1, tensorText (runStart index e.1) kv.2),
      ∀ b ∈ m.1, Unescaped b := by
    intro m hm
    obtain ⟨kv, hkv, rfl⟩ := List.mem_map.mp hm
    exact h kv (List.mem_of_mem_filter ((List.mem_insertionSort _).mp hkv))
  rw [layerText, Cfg.Json.toVal, spellMembers_val (by simpa using hkeys)]
  simp only [List.map_cons, List.map_nil, Cfg.Json.toVal, spellMembers_val hnames, List.map_map, Function.comp_def,
    tensorText_val]
  rfl

theorem manifestText_val {index : List (String × K3Tensor)} (h : ∀ kv ∈ index, ∀ b ∈ nameBytes kv.1, Unescaped b)
    (n : Nat) (o : Packed) : Cfg.Json.toVal num (manifestText index n o.layers) =
      manifest (fun i => num (whole i)) (fun _ => []) index n o := by
  have hkeys : ∀ s ∈ ["n_layers", "align", "layers"], ∀ b ∈ ascii s, Unescaped b :=
    unescaped_of_all (by decide +kernel)
  rw [manifestText, Cfg.Json.toVal, spellMembers_val (by simpa using hkeys)]
  simp only [List.map_cons, List.map_nil, Cfg.Json.toVal, itemsOf_val, List.map_map, Function.comp_def, layerText_val h]
  rfl

theorem tensorText_proper (lo : Int) (t : K3Tensor) : Cfg.Json.IsProper (tensorText lo t) := by
  refine ⟨integer_proper rfl, integer_proper rfl, trivial, itemsOf_proper fun v hv => ?_, trivial⟩
  obtain ⟨d, -, rfl⟩ := List.mem_map.mp hv
  exact integer_proper rfl

theorem layerText_proper (index : List (String × K3Tensor)) (e : Nat × Int) : Cfg.Json.IsProper (layerText index e) := by
  refine ⟨integer_proper rfl, trivial, integer_proper rfl, integer_proper rfl, integer_proper rfl, ?_, trivial⟩
  refine spellMembers_proper fun m hm => ?_
  obtain ⟨kv, -, rfl⟩ := List.mem_map.mp hm
  exact tensorText_proper _ _

theorem manifestText_proper (index : List (String × K3Tensor)) (n : Nat) (es : List (Nat × Int)) :
    Cfg.Json.IsProper (manifestText index n es) := by
  refine ⟨integer_proper rfl, integer_proper rfl, itemsOf_proper fun v hv => ?_, trivial⟩
  obtain ⟨e, -, rfl⟩ := List.mem_map.mp hv
  exact layerText_proper index e

theorem tensorText_depth (lo : Int) (t : K3Tensor) : (tensorText lo t).depth ≤ 2 := by
  refine Nat.succ_le_succ (spellMembers_depth fun m hm => ?_)
  simp only [List.mem_cons, List.not_mem_nil, or_false] at hm
  rcases hm with rfl | rfl | rfl | rfl
  · exact Nat.zero_le 1
  · exact Nat.zero_le 1
  · exact Nat.zero_le 1
  · refine Nat.succ_le_succ (itemsOf_depth fun v hv => ?_)
    obtain ⟨d, -, rfl⟩ := List.mem_map.mp hv
    exact Nat.le_refl 0

theorem layerText_depth (index : List (String × K3Tensor)) (e : Nat × Int) : (layerText index e).depth ≤ 4 := by
  refine Nat.succ_le_succ (spellMembers_depth fun m hm => ?_)
  simp only [List.mem_cons, List.not_mem_nil, or_false] at hm
  rcases hm with rfl | rfl | rfl | rfl | rfl | rfl
  · exact Nat.zero_le 3
  · exact Nat.zero_le 3
  · exact Nat.zero_le 3
  · exact Nat.zero_le 3
  · exact Nat.zero_le 3
  · refine Nat.succ_le_succ (spellMembers_depth fun x hx => ?_)
    obtain ⟨kv, -, rfl⟩ := List.mem_map.mp hx
    exact tensorText_depth _ _

/-- It is six levels deep at most, whatever is listed. -/
theorem manifestText_depth (index : List (String × K3Tensor)) (n : Nat) (es : List (Nat × Int)) :
    (manifestText index n es).depth ≤ 6 := by
  refine Nat.succ_le_succ (spellMembers_depth fun m hm => ?_)
  simp only [List.mem_cons, List.not_mem_nil, or_false] at hm
  rcases hm with rfl | rfl | rfl
  · exact Nat.zero_le 5
  · exact Nat.zero_le 5
  · refine Nat.succ_le_succ (itemsOf_depth fun v hv => ?_)
    obtain ⟨e, -, rfl⟩ := List.mem_map.mp hv
    exact layerText_depth index e

end Text

/-! ## The small checkpoint, packed and opened -/

/-- What was packed, as a file. -/
def trunkStorage (o : Packed) (direct : Bool) : EngStorage where
  byte := fun i => o.bin i
  size := o.pos.toNat
  direct := direct

/-- `eng_storage_open_file` on it. -/
def openTrunk (o : Packed) (direct : Bool) : Option EngStorage := some (trunkStorage o direct)

/-- The streamer of its trunk, in a budget of two ring slots. -/
def smallStreamer (store : EngStorage) : EngStreamer where
  store := store
  blk := [⟨0, 4096⟩]
  npin := 0
  nslot := 2
  slotBytes := 16384
  extraBytes := 4184
  hasIo := true

/-- A first pass over it: one `get`, and one read of the whole block. -/
theorem smallStreamer_firstPass (byte : Nat → UInt8) : ∃ w, Reaches (walkStep (smallStreamer ⟨byte, 4096, true⟩)) anyChoice
    (.init fun _ _ => 0) w ∧ ∃ p, (0, p) ∈ w.st.live := by
  have hbase : State.slotBase (smallStreamer ⟨byte, 4096, true⟩) 0 = 0 := Nat.zero_mul _
  have hwin : fileReadAligned ⟨byte, 4096, true⟩ 0 4096 16384 = ⟨false, 0, 4096, 0⟩ := rfl
  obtain ⟨w, hw, hcaller⟩ : ∃ w, Lib.run (walkStep (smallStreamer ⟨byte, 4096, true⟩)) anyChoice (Walk.init fun _ _ => 0)
      [.call (.get 0), .caller, .caller] = some w ∧ w.st.caller = .ringLoad 0 0 ⟨0, .arena,
        State.slotBase (smallStreamer ⟨byte, 4096, true⟩) 0, fileReadAligned ⟨byte, 4096, true⟩ 0 4096 16384, 0⟩ :=
    ⟨_, rfl, rfl⟩
  rw [hbase, hwin] at hcaller
  have hreach := reaches_of_run _ .start hw
  have hfits : Job.canRead (smallStreamer ⟨byte, 4096, true⟩) ⟨0, .arena, 0, ⟨false, 0, 4096, 0⟩, 0⟩ 4096 = true := by
    simp [Job.canRead, smallStreamer]
  have hwhole : Job.ok (smallStreamer ⟨byte, 4096, true⟩) ⟨0, .arena, 0, ⟨false, 0, 4096, 0⟩, 4096⟩ = true := by
    simp [Job.ok, smallStreamer, EngStreamer.block, ReadWindow.payload]
  obtain ⟨w', hread, hcaller'⟩ : ∃ w', walkStep (smallStreamer ⟨byte, 4096, true⟩) w (.callerPread 4096) = some w' ∧
      w'.st.caller = .ringLoad 0 0 ⟨0, .arena, 0, ⟨false, 0, 4096, 0⟩, 4096⟩ := by
    show ∃ w', Option.map _ (callerPread _ _ _) = some w' ∧ _
    unfold callerPread
    rw [hcaller]
    dsimp only
    rw [if_pos hfits]
    exact ⟨_, rfl, rfl⟩
  obtain ⟨w'', hlast, hlive⟩ : ∃ w'', walkStep (smallStreamer ⟨byte, 4096, true⟩) w' .caller = some w'' ∧
      ∃ p, (0, p) ∈ w''.st.live := by
    show ∃ w'', Option.map _ (callerStep _ _) = some w'' ∧ _
    unfold callerStep
    rw [hcaller']
    dsimp only
    rw [if_pos hwhole]
    exact ⟨_, rfl, _, List.mem_cons_self⟩
  exact ⟨w'', (hreach.next trivial hread).next trivial hlast, hlive⟩

theorem small_own : runOwn smallLayer 0 = 198 := by decide +kernel

/-- Its run takes one block. -/
theorem small_blocks : runBlocks smallLayer 0 = 4096 := by
  unfold runBlocks
  rw [small_own]
  decide

theorem small_packed : ∃ o, packTrunk smallSt smallLayer 1 = some o ∧ o.pos = 4096 := by
  obtain ⟨run, src, hrun, -⟩ := smallLayer_binds
  refine ⟨_, packTrunk_succ (n := 0) rfl hrun, ?_⟩
  dsimp only
  rw [small_own]
  decide

theorem small_slot : trunkSlot smallLayer smallCfg.toK3Cfg 1 ≤ 2 ^ 15 := by
  show slotFor (largest [runBlocks smallLayer 0]) _ ≤ _
  rw [small_blocks]
  decide

/-- Its one layer is opened, read by the streamer and bound, and denotes the checkpoint. -/
theorem small_trunk_denotes : ∃ o tr w p b widen', packTrunk smallSt smallLayer 1 = some o ∧
    k3TrunkOpen id (openTrunk o) true smallCfg.toK3Cfg (2 ^ 15) strtodWhole
      (Ws.none.val ++ ((manifestText smallLayer 1 o.layers).render ++ [])) = some tr ∧
    Reaches (walkStep tr.sm) anyChoice (.init fun _ _ => 0) w ∧ (0, p) ∈ w.st.live ∧
    k3TrunkBind ⟨fun _ => 0, fun _ _ => 0⟩ tr smallCfg.toK3Cfg 0 (blockAt w.st p) (fun _ => 0) = some (b, widen') ∧
    Denotes ⟨fun _ => 0, fun _ _ => 0⟩ smallSt smallCfg.toK3Cfg 0 b ⟨fun _ => 0, blockAt w.st p, widen'⟩ := by
  have hindex : ∀ kv ∈ smallLayer, smallSt.find kv.1 = some kv.2 ∧ 0 ≤ kv.2.nbytes := fun kv hkv =>
    ⟨(smallLayer_found kv hkv).1, (smallLayer_found kv hkv).2.2.1⟩
  have hnames : ∀ kv ∈ smallLayer, ∀ b ∈ nameBytes kv.1, Unescaped b := unescaped_of_all (by decide +kernel)
  have hexact : ∀ i : Int, 0 ≤ i → i ≤ 2 ^ 53 → id (strtodWhole (whole i).render).1 = i := fun i hi hle =>
    strtodWhole_whole hi (lt_of_le_of_lt hle (by decide))
  obtain ⟨run, src, hrun, hbinds⟩ := smallLayer_binds
  obtain ⟨o, hpack, hpos⟩ := small_packed
  have hdepth : (manifestText smallLayer 1 o.layers).depth ≤ jMaxDepth := le_trans (manifestText_depth _ _ _) (by decide)
  have hbin : ∀ i : Nat, (i : Int) < o.pos → (trunkStorage o true).byte i = o.bin i := fun _ _ => rfl
  have hfile : openTrunk o true = some (trunkStorage o true) := rfl
  obtain ⟨hopens, hall⟩ := trunk_denotes strtodWhole_reads hindex hpack hexact (by rw [hpos]; decide)
    (manifestText_val hnames 1 o) hdepth (manifestText_proper smallLayer 1 o.layers) Ws.none ends_nil hfile hbin true
    smallCfg.toK3Cfg (2 ^ 15)
  obtain ⟨tr, htr⟩ := Option.isSome_iff_exists.mp (hopens.mpr ⟨Nat.one_ne_zero, small_slot⟩)
  obtain ⟨hlist, hwalk⟩ := hall tr htr
  -- its streamer is the one expected, so a first pass can be run
  have hopen := k3TrunkOpen_manifest strtodWhole_reads (hexact trunkAlign (by decide) (by decide)) (manifestText_val hnames 1 o)
    hdepth (manifestText_proper smallLayer 1 o.layers) Ws.none ends_nil hfile true smallCfg.toK3Cfg (2 ^ 15)
  rw [htr] at hopen
  obtain ⟨sm, hsm, rfl⟩ := Option.map_eq_some_iff.mp hopen.symm
  obtain ⟨l, hl⟩ := List.length_eq_one_iff.mp hlist.length
  have hlen : l.nbytes = 4096 := by
    have hboth := hlist.blocks
    rw [hl] at hboth
    exact (List.cons.inj hboth).1.trans small_blocks
  have hoff : l.fileOff = 0 := by
    obtain ⟨hstart, -, -, -, hstop⟩ := hlist.inside l (by rw [hl]; exact List.mem_singleton_self l)
    omega
  have hcfg : trunkStreamerCfg smallCfg.toK3Cfg (2 ^ 15) [l] = ⟨[⟨0, 4096⟩], 2 ^ 15, 4184, 2, true⟩ := by
    unfold trunkStreamerCfg
    rw [List.map_singleton, hlen, hoff]
    rfl
  have hstreamer : engStreamerCreate (trunkStorage o true) ⟨[⟨0, 4096⟩], 2 ^ 15, 4184, 2, true⟩ true =
      some (smallStreamer (trunkStorage o true)) := rfl
  dsimp only at hl
  rw [hl, hcfg, hstreamer] at hsm
  obtain rfl := Option.some.inj hsm
  have hstore : trunkStorage o true = ⟨fun i => o.bin i, 4096, true⟩ := by
    unfold trunkStorage
    rw [hpos]
    rfl
  obtain ⟨w, hreach, _, hfirst⟩ := smallStreamer_firstPass fun i => o.bin i
  rw [← hstore] at hreach
  obtain ⟨run', src', hrun', hlayer⟩ := hwalk _ w hreach 0 Nat.one_pos _ hfirst
  obtain ⟨rfl, rfl⟩ := Prod.mk.inj (Option.some.inj (hrun'.symm.trans hrun))
  obtain ⟨hsame, hdenotes⟩ := hlayer ⟨fun _ => 0, fun _ _ => 0⟩ smallCfg.toK3Cfg fun _ => 0
  obtain ⟨⟨b, widen'⟩, hb⟩ := Option.isSome_iff_exists.mp (hsame.trans hbinds)
  exact ⟨o, _, w, _, b, widen', hpack, htr, hreach, hfirst, hb, hdenotes b widen' _ hb⟩

end LlmEngine.Bind
