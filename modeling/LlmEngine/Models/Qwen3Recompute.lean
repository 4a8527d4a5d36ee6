/-
# LlmEngine.Models.Qwen3Recompute — what the cache of a sequence stands for (`src/models/qwen3/qwen3.c`).

`qwen3_decode` works on one position and finds K and V of the ones before it where earlier calls put them.
`hidden` keeps nothing: it computes every layer of every position from the tokens and the file.  The rows of a
sequence are those of its tokens, whichever calls put them there: with logits or without, some of them failed
half way, some after going back to an earlier position, and with the calls of other sequences in between, which
use the same buffers.  So the logits of a call are those of the whole sequence computed from nothing.

That takes two things of what surrounds a call.  `Fits`: the shapes go with the widths, the weights lie in their
blocks, the positions in the score buffer, and the rows do not wrap around; nothing of that is checked when a
container is loaded.  `CallIo.Honest`: the blocks a call was handed are those of the file.  The streamer keeps to
that up to its first NULL (`walk_honest`).  Behind it, it need not: a call that begins again behind a read that
failed may be handed a block that changes under it.  So a call that fails may have been handed anything, and one
that succeeds is asked to have been handed the blocks.

* One layer: `decodeLayer_ok` (what it adds, where it goes through) and `decodeLayer_keeps` (what it leaves alone,
  in any case).
* One call: `qwen3Decode_holds`, from the same two about all the layers and from `decodeEnd_logits`.
* One run: `Played.holds`, by induction on the calls, with the rows of the sequence as the invariant (`Holds`).
-/
import LlmEngine.Models.Qwen3Succeeds
import LlmEngine.Storage.StreamerSafe

namespace LlmEngine.Models.Qwen3

open LlmEngine.Core (Arith Vec ptr loop loop_congr)
open LlmEngine.Formats
open LlmEngine.Kernels
open LlmEngine.Lib (Reaches anyChoice)
open LlmEngine.Quant (Agree)
open LlmEngine.Runtime
open LlmEngine.Storage.Streamer (BlockPtr EngBlock engStreamerCreate_streams walkStep walk_safe)

/-! ## What a call is handed -/

/-- The bytes of a layer's block. -/
def EngModel.blockLen (m : EngModel) (L : Nat) : Int := (m.layout.blocks.getD L default).nbytes

/-- The blocks a call is handed are those of the file, as far as they go. -/
def CallIo.Honest (f : File) (m : EngModel) (io : CallIo) : Prop :=
  ∀ L b, io.layer L = some b → Agree (m.blockLen L).toNat b (m.base f L)

theorem CallIo.ofFile_honest (f : File) (m : EngModel) : (CallIo.ofFile f m).Honest f m := by
  intro L b hb
  obtain ⟨w, hw, rfl⟩ := Option.map_eq_some_iff.mp hb
  exact storeRead_bytes hw

/-- What stands at a pointer of the streamer. -/
def handed (st : Storage.Streamer.State) (p : BlockPtr) : Core.Bytes := fun i => (st.mem p.buf (p.base + i)).toBitVec

section Walk

variable {f : File} {direct threadOk : Bool} {plan : Option EngPlan} {force : Option Bool} {m : EngModel}

/-- A block begins inside the file. -/
theorem Loaded.block_off (h : Loaded f direct threadOk plan force m) {L : Nat} {b : EngBlock}
    (hb : m.layout.blocks[L]? = some b) : 0 ≤ b.off := by
  obtain ⟨g, -, hl⟩ := h.opened
  obtain ⟨hblocks, hslots, hall⟩ := layLayer_of_laid hl
  have hlt := (List.getElem?_eq_some_iff.mp hb).1
  obtain ⟨ws, hws⟩ : ∃ ws, m.layout.slots[L]? = some ws := ⟨_, List.getElem?_eq_getElem (by omega)⟩
  have hspan := layLayer_ok (hall L b ws hb hws)
  unfold layerSpan at hspan
  dsimp only at hspan
  split_ifs at hspan with hneg
  obtain ⟨hoff, -⟩ := Prod.mk.inj (Option.some.inj hspan)
  rw [← hoff]
  exact not_lt.mp hneg

/-- **The streamer is honest along a walk**: wherever a walk over the layers has got to, under any interleaving with
the reader and whichever reads failed, at a pointer it still promises stands the block of the file. -/
theorem walk_honest (h : Loaded f direct threadOk plan force m) (mem : Storage.Streamer.Buf → Nat → UInt8)
    {w : Storage.Streamer.Walk} (hr : Reaches (walkStep m.stream) anyChoice (.init mem) w) {L : Nat} {p : BlockPtr}
    (hlive : (L, p) ∈ w.st.live) : Agree (m.blockLen L).toNat (handed w.st p) (m.base f L) := by
  obtain ⟨hstore, hblk⟩ := engStreamerCreate_streams h.stream
  have hholds := (walk_safe h.stream mem hr).1.addresses L p hlive
  have hblock : m.stream.block L = m.layout.blocks.getD L default := congrArg (·.getD L default) hblk
  intro i hi
  have hbyte := hholds i (by rwa [hblock])
  unfold handed
  rw [hbyte]
  unfold Storage.Streamer.EngStreamer.blockByte EngModel.base fileFrom
  rw [hstore, hblock]
  cases hb : m.layout.blocks[L]? with
  | none =>
      unfold EngModel.blockLen at hi
      rw [List.getD_eq_getElem?_getD, hb] at hi
      cases hi
  | some b =>
      rw [List.getD_eq_getElem?_getD, hb, Option.getD_some]
      have hoff := h.block_off hb
      have hat : (b.off + i).toNat = b.off.toNat + i := by omega
      rw [hat]
      rfl

end Walk

/-! ## The rows of a state -/

/-- The shapes go with the widths and the weights lie in their blocks, there is a score for each position, and the
rows do not wrap around. -/
structure Fits (m : EngModel) (seq : EngSeqState) : Prop where
  shaped : ∀ L < m.layout.nLayers.toNat, (m.layer L).Shaped m
  inside : ∀ L < m.layout.nLayers.toNat, (m.layer L).Inside m (m.blockLen L)
  scores : ScoresInside m seq
  rows : m.layout.nLayers * seq.context * m.kvWidth < 2 ^ 64

/-- The rows of a created state lie apart. -/
theorem Fits.rowsApart {f : File} {direct threadOk : Bool} {plan : Option EngPlan} {force : Option Bool} {m : EngModel}
    (h : Loaded f direct threadOk plan force m) {context : Int} {seq : EngSeqState} (hs : stateCreate m context = some seq)
    (hfit : Fits m seq) : RowsApart m seq m.layout.nLayers.toNat := by
  obtain ⟨rfl, hctx, hsize, hfloats⟩ := stateCreate_floats hs
  have hkv : 0 ≤ m.kvWidth := h.buffers.kv
  have hlayers := h.nLayers_pos
  rw [Int.emod_eq_of_lt (mul_nonneg (mul_nonneg hlayers.le hctx.le) hkv) hfit.rows] at hfloats
  apply rowsApart_of_fit hctx hkv hsize
  rw [hfloats, Int.toNat_of_nonneg hlayers.le]

section Rows

variable {m : EngModel} {seq : EngSeqState} {n L L' pos t : Nat}

/-- A row that was written. -/
theorem rowIn_wrote_self (row y : Vec (BitVec 32)) : Agree m.kvw (rowIn m seq (wrote (rowAt m seq L pos) m.kvw row y) L pos) row := by
  intro i hi
  show (if _ then row (rowAt m seq L pos + i - rowAt m seq L pos) else _) = row i
  rw [if_pos (by omega), Nat.add_sub_cancel_left]

/-- Any other row stays. -/
theorem rowIn_wrote_other (hkv : 0 ≤ m.kvWidth) (h : RowsApart m seq n) (hL : L < n) (hpos : seq.Accepts pos) (hL' : L' < n)
    (ht : seq.Accepts t) (hne : (L', t) ≠ (L, pos)) (row y : Vec (BitVec 32)) :
    Agree m.kvw (rowIn m seq (wrote (rowAt m seq L pos) m.kvw row y) L' t) (rowIn m seq y L' t) := by
  have hapart := h.apart L' t L pos hL' ht hL hpos (by
    intro heq
    obtain ⟨rfl, hcast⟩ := Prod.mk.inj heq
    exact hne (by rw [Int.ofNat.inj hcast]))
  have hwidth : (m.kvw : Int) = m.kvWidth := Int.toNat_of_nonneg hkv
  intro i hi
  show (if _ then _ else y (rowAt m seq L' t + i)) = y (rowAt m seq L' t + i)
  rw [if_neg (by omega)]

end Rows

section Recompute

variable {D : Type} [Arith D] [Arith (BitVec 32)]

/-! ## From nothing -/

section Spec

variable (e : Engine D) (f : File) (m : EngModel)

/-- A hidden state, and buffers as they are allocated. -/
def fresh (x : Vec (BitVec 32)) : DecodeState := { DecodeState.blank with x := x }

/-- Q, K and V of a position, from its hidden state. -/
def ownInputs (L pos : Nat) (x : Vec (BitVec 32)) : DecodeState :=
  left (attnInputs e m (m.base f L) (m.layer L) pos (fresh x))

/-- A layer at `pos`, from the hidden states of all positions. -/
def layerOutput (L pos : Nat) (xs : Nat → Vec (BitVec 32)) : Vec (BitVec 32) :=
  let own := fun t => ownInputs e f m L t (xs t)
  let att := attend e m pos (own pos).q (fun t => (own t).k) (fun t => (own t).v) (fun _ => 0, fun _ => 0)
  (left (finishLayer e m (m.base f L) (m.layer L) { fresh (xs pos) with att := att.2 })).x

/-- The hidden state before a layer, of a position. -/
def hidden (toks : Nat → Int) : Nat → Nat → Vec (BitVec 32)
  | 0, pos => (embedInto e f m (fun _ => 0) (toks pos)).getD fun _ => 0
  | L + 1, pos => layerOutput e f m L pos (hidden toks L)

/-- The token at a position. -/
def tokenAt (toks : List Int) (t : Nat) : Int := toks.getD t 0

/-- The logits behind a sequence. -/
def forwardLogits (toks : List Int) : Vec (BitVec 32) :=
  logitsOf e f m (hidden e f m (tokenAt toks) m.layout.nLayers.toNat (toks.length - 1))

/-- Attention at `pos` looks back only. -/
theorem attend_congr {pos : Nat} (q : Vec (BitVec 32)) {krow krow' vrow vrow' : Nat → Vec (BitVec 32)}
    (hk : ∀ t ≤ pos, krow t = krow' t) (hv : ∀ t ≤ pos, vrow t = vrow' t) (s : Vec (BitVec 32) × Vec (BitVec 32)) :
    attend e m pos q krow vrow s = attend e m pos q krow' vrow' s := by
  unfold attend
  refine loop_congr fun h _ s => ?_
  have hscores : headScores e.fp e.avx m.hd pos s.1 (ptr q (h * m.hd)) (fun t => ptr (krow t) (h / m.rep * m.hd)) =
      headScores e.fp e.avx m.hd pos s.1 (ptr q (h * m.hd)) fun t => ptr (krow' t) (h / m.rep * m.hd) := by
    unfold headScores
    refine congrArg (fun x => engSoftmax e.fp x (pos + 1)) (funext fun t => ?_)
    unfold wrote
    split_ifs with ht
    · dsimp only
      rw [hk (t - 0) (by omega)]
    · rfl
  unfold attendHead
  dsimp only
  rw [hscores]
  congr 2
  funext i
  refine loop_congr fun t ht oh => ?_
  dsimp only
  rw [hv t (by omega)]

/-- A position depends on the tokens up to it. -/
theorem hidden_congr {toks toks' : Nat → Int} (L : Nat) :
    ∀ {pos : Nat}, (∀ t ≤ pos, toks t = toks' t) → hidden e f m toks L pos = hidden e f m toks' L pos := by
  induction L with
  | zero =>
      intro pos h
      unfold hidden
      rw [h pos (Nat.le_refl pos)]
  | succ L ih =>
      intro pos h
      have hrow : ∀ t ≤ pos, hidden e f m toks L t = hidden e f m toks' L t :=
        fun t ht => ih fun i hi => h i (Nat.le_trans hi ht)
      unfold hidden layerOutput
      dsimp only
      rw [hrow pos (Nat.le_refl pos),
        attend_congr e m _ (fun t ht => by rw [hrow t ht]) fun t ht => by rw [hrow t ht]]

end Spec

/-! ## What a state holds -/

section Holds

variable (e : Engine D) (f : File) (m : EngModel) (seq : EngSeqState)

/-- The first `n` rows of a layer are those of the tokens. -/
structure Caches (toks : Nat → Int) (L n : Nat) (s : DecodeState) : Prop where
  keys : ∀ t < n, Agree m.kvw (rowIn m seq s.kc L t) (ownInputs e f m L t (hidden e f m toks L t)).k
  values : ∀ t < n, Agree m.kvw (rowIn m seq s.vc L t) (ownInputs e f m L t (hidden e f m toks L t)).v

/-- **The rows of the sequence are those of its tokens.** -/
def Holds (toks : List Int) (s : DecodeState) : Prop :=
  ∀ L < m.layout.nLayers.toNat, Caches e f m seq (tokenAt toks) L toks.length s

variable {e f m seq} {toks toks' : Nat → Int} {L n : Nat} {s s' : DecodeState}

theorem Caches.mono (h : Caches e f m seq toks L n s) {k : Nat} (hk : k ≤ n) : Caches e f m seq toks L k s :=
  ⟨fun t ht => h.keys t (Nat.lt_of_lt_of_le ht hk), fun t ht => h.values t (Nat.lt_of_lt_of_le ht hk)⟩

theorem Caches.congr (h : Caches e f m seq toks L n s) (htoks : ∀ t < n, toks t = toks' t) : Caches e f m seq toks' L n s := by
  have hsame : ∀ t < n, hidden e f m toks' L t = hidden e f m toks L t :=
    fun t ht => hidden_congr e f m L fun i hi => (htoks i (Nat.lt_of_le_of_lt hi ht)).symm
  refine ⟨fun t ht => ?_, fun t ht => ?_⟩
  · rw [hsame t ht]
    exact h.keys t ht
  · rw [hsame t ht]
    exact h.values t ht

theorem Caches.same (h : Caches e f m seq toks L n s) (hs : SameRows s s') : Caches e f m seq toks L n s' := by
  refine ⟨fun t ht => ?_, fun t ht => ?_⟩
  · rw [hs.kc]
    exact h.keys t ht
  · rw [hs.vc]
    exact h.values t ht

/-- Another row is written. -/
theorem Caches.appendKv (h : Caches e f m seq toks L n s) (hkv : 0 ≤ m.kvWidth) {layers pos L' : Nat}
    (hap : RowsApart m seq layers) (hL : L < layers) (hL' : L' < layers) (hpos : seq.Accepts pos) (hn : n ≤ pos ∨ L ≠ L')
    (hle : n ≤ seq.context) : Caches e f m seq toks L n (appendKv m seq L' pos s) := by
  have hother : ∀ t < n, seq.Accepts t ∧ (L, t) ≠ (L', pos) := by
    intro t ht
    refine ⟨⟨Int.natCast_nonneg t, by omega⟩, fun heq => ?_⟩
    obtain ⟨rfl, rfl⟩ := Prod.mk.inj heq
    omega
  refine ⟨fun t ht i hi => ?_, fun t ht i hi => ?_⟩
  · exact (rowIn_wrote_other hkv hap hL' hpos hL (hother t ht).1 (hother t ht).2 _ _ i hi).trans (h.keys t ht i hi)
  · exact (rowIn_wrote_other hkv hap hL' hpos hL (hother t ht).1 (hother t ht).2 _ _ i hi).trans (h.values t ht i hi)

/-! ## A layer -/

section Layer

variable {direct threadOk : Bool} {plan : Option EngPlan} {force : Option Bool}

/-- **A layer at `pos`**: from the hidden state before it and the rows of the positions before comes the hidden
state behind it, and one row more. -/
theorem decodeLayer_ok (h : Loaded f direct threadOk plan force m) {layers : Nat} (hap : RowsApart m seq layers)
    (hL : L < layers) (hsl : (m.layer L).Shaped m) (hin : (m.layer L).Inside m (m.blockLen L)) {pos : Nat}
    (hpos : seq.Accepts pos) {io : CallIo} (hio : io.Honest f m) (hx : Agree m.d s.x (hidden e f m toks L pos))
    (hc : Caches e f m seq toks L pos s) (hr : decodeLayer e m seq io pos s L = .ok s') :
    Agree m.d s'.x (hidden e f m toks (L + 1) pos) ∧ Caches e f m seq toks L (pos + 1) s' := by
  obtain ⟨base, hbase, hr⟩ := bind_orFail_ok.mp hr
  have hb := hio L base hbase
  obtain ⟨a, ha, hr⟩ := bind_ok.mp hr
  obtain ⟨a', ha', hq, hk, hv⟩ := attnInputs_agree e m _ h.grouped hsl hin hb pos (fresh (hidden e f m toks L pos)) hx ha
  have hown : ownInputs e f m L pos (hidden e f m toks L pos) = a' := by
    unfold ownInputs
    rw [ha']
    rfl
  have hsame : SameRows s a := by
    have hrows := attnInputs_rows e m base (m.layer L) pos s
    rwa [ha] at hrows
  have hax : a.x = s.x := by
    obtain ⟨_, _, _, -, -, -, rfl⟩ := (attnInputs_ok e m _ _).mp ha
    rfl
  -- the rows with the one of this position
  have hfull : Caches e f m seq toks L (pos + 1) (appendKv m seq L pos a) := by
    have hold := (hc.same hsame).appendKv h.buffers.kv hap hL hL hpos (.inl (Nat.le_refl pos)) hpos.2.le
    refine ⟨fun t ht => ?_, fun t ht => ?_⟩
    · rcases Nat.lt_succ_iff_lt_or_eq.mp ht with hlt | rfl
      · exact hold.keys t hlt
      · rw [hown]
        exact fun i hi => (rowIn_wrote_self a.k a.kc i hi).trans (hk i hi)
    · rcases Nat.lt_succ_iff_lt_or_eq.mp ht with hlt | rfl
      · exact hold.values t hlt
      · rw [hown]
        exact fun i hi => (rowIn_wrote_self a.v a.vc i hi).trans (hv i hi)
  have hatt := attend_agree e m h.grouped hq (fun t ht => hfull.keys t (Nat.lt_succ_of_le ht))
    (fun t ht => hfull.values t (Nat.lt_succ_of_le ht)) (a.scores, a.att) (fun _ => 0, fun _ => 0)
  rw [← hown] at hatt
  obtain ⟨r', hr', hout⟩ := finishLayer_agree e m _ hsl hin hb ({ fresh (hidden e f m toks L pos) with
    att := (attend e m pos (ownInputs e f m L pos (hidden e f m toks L pos)).q
      (fun t => (ownInputs e f m L t (hidden e f m toks L t)).k) (fun t => (ownInputs e f m L t (hidden e f m toks L t)).v)
      (fun _ => 0, fun _ => 0)).2 }) (hax ▸ hx) hatt hr
  have hnext : hidden e f m toks (L + 1) pos = r'.x := by
    unfold hidden layerOutput
    dsimp only
    rw [hr']
    rfl
  have hrows := finishLayer_rows e m base (m.layer L) (attendCached e m seq L pos (appendKv m seq L pos a))
  rw [hr] at hrows
  exact ⟨hnext ▸ hout, hfull.same ⟨hrows.kc, hrows.vc⟩⟩

/-- Rows of other layers stay, and so do those of the positions before, whether the layer goes through or not and
whatever was handed out for it. -/
theorem decodeLayer_keeps (hkv : 0 ≤ m.kvWidth) {layers L' : Nat} (hap : RowsApart m seq layers) (hL : L < layers)
    (hL' : L' < layers) {pos : Nat} (hpos : seq.Accepts pos) (hn : n ≤ pos ∨ L ≠ L') (hle : n ≤ seq.context) (io : CallIo)
    (hc : Caches e f m seq toks L n s) : Caches e f m seq toks L n (left (decodeLayer e m seq io pos s L')) := by
  refine left_orFail hc fun base => ?_
  have hrows := attnInputs_rows e m base (m.layer L') pos s
  cases ha : attnInputs e m base (m.layer L') pos s with
  | error a =>
      rw [ha] at hrows
      exact hc.same hrows
  | ok a =>
      rw [ha] at hrows
      have happ := (hc.same hrows).appendKv hkv hap hL hL' hpos hn hle
      have hrest := finishLayer_rows e m base (m.layer L') (attendCached e m seq L' pos (appendKv m seq L' pos a))
      exact happ.same ⟨hrest.kc, hrest.vc⟩

/-- **No row is lost** of the positions before, wherever the layers get to. -/
theorem decodeLayers_keeps (hkv : 0 ≤ m.kvWidth) (hap : RowsApart m seq m.layout.nLayers.toNat) {pos : Nat}
    (hpos : seq.Accepts pos) (io : CallIo) (hc : ∀ L < m.layout.nLayers.toNat, Caches e f m seq toks L pos s) :
    ∀ L < m.layout.nLayers.toNat,
      Caches e f m seq toks L pos (left (decodeLayers e m seq io pos m.layout.nLayers.toNat s)) := by
  have hstep : ∀ k < m.layout.nLayers.toNat, ∀ s, (∀ L < m.layout.nLayers.toNat, Caches e f m seq toks L pos s) →
      ∀ L < m.layout.nLayers.toNat, Caches e f m seq toks L pos (left (decodeLayer e m seq io pos s k)) :=
    fun k hk s hs L hL => decodeLayer_keeps hkv hap hL hk hpos (.inl (Nat.le_refl pos)) hpos.2.le io (hs L hL)
  have hrun := foldlM_range (g := decodeLayer e m seq io pos) (n := m.layout.nLayers.toNat)
    (P := fun _ s => ∀ L < m.layout.nLayers.toNat, Caches e f m seq toks L pos s)
    (Q := fun s => ∀ L < m.layout.nLayers.toNat, Caches e f m seq toks L pos s) (s := s) hc ?_
  · unfold decodeLayers
    cases hr : (List.range m.layout.nLayers.toNat).foldlM (decodeLayer e m seq io pos) s with
    | error r => exact hrun.2 r hr
    | ok r => exact hrun.1 r hr
  · intro k hk s hs
    have hkept := hstep k hk s hs
    constructor
    · intro r hr
      rwa [hr] at hkept
    · intro r hr
      rwa [hr] at hkept

/-- **The layers**, where they go through, leave all rows of `pos` and the hidden state behind them. -/
theorem decodeLayers_ok (h : Loaded f direct threadOk plan force m) (hfit : Fits m seq)
    (hap : RowsApart m seq m.layout.nLayers.toNat) {pos : Nat} (hpos : seq.Accepts pos) {io : CallIo} (hio : io.Honest f m)
    (hx : Agree m.d s.x (hidden e f m toks 0 pos)) (hc : ∀ L < m.layout.nLayers.toNat, Caches e f m seq toks L pos s)
    {r : DecodeState} (hr : decodeLayers e m seq io pos m.layout.nLayers.toNat s = .ok r) :
    Agree m.d r.x (hidden e f m toks m.layout.nLayers.toNat pos) ∧
      ∀ L < m.layout.nLayers.toNat, Caches e f m seq toks L (pos + 1) r := by
  have hroom : ((pos + 1 : Nat) : Int) ≤ seq.context := by
    have := hpos.2
    omega
  -- behind `k` layers, those have the row of `pos` as well
  have hrun := foldlM_range (g := decodeLayer e m seq io pos) (n := m.layout.nLayers.toNat)
    (P := fun k s => Agree m.d s.x (hidden e f m toks k pos) ∧
      ∀ L < m.layout.nLayers.toNat, Caches e f m seq toks L (if L < k then pos + 1 else pos) s)
    (Q := fun _ => True) (s := s) ⟨hx, fun L hL => by
      rw [if_neg (Nat.not_lt_zero L)]
      exact hc L hL⟩ ?_
  · obtain ⟨hxr, hcr⟩ := hrun.1 r hr
    refine ⟨hxr, fun L hL => ?_⟩
    have := hcr L hL
    rwa [if_pos hL] at this
  · rintro k hk s ⟨hxs, hcs⟩
    have hown := hcs k hk
    rw [if_neg (Nat.lt_irrefl k)] at hown
    refine ⟨fun r hr => ?_, fun _ _ => trivial⟩
    obtain ⟨hxr, hcr⟩ := decodeLayer_ok h hap hk (hfit.shaped k hk) (hfit.inside k hk) hpos hio hxs hown hr
    refine ⟨hxr, fun L hL => ?_⟩
    rcases Nat.lt_trichotomy L k with hlt | rfl | hgt
    · have hold := hcs L hL
      rw [if_pos hlt] at hold
      rw [if_pos (Nat.lt_succ_of_lt hlt)]
      have hkept := decodeLayer_keeps h.buffers.kv hap hL hk hpos (.inr (Nat.ne_of_lt hlt)) hroom io hold
      rwa [hr] at hkept
    · rw [if_pos (Nat.lt_succ_self L)]
      exact hcr
    · have hold := hcs L hL
      rw [if_neg (Nat.not_lt_of_gt hgt)] at hold
      rw [if_neg (by omega)]
      have hkept := decodeLayer_keeps h.buffers.kv hap hL hk hpos (.inl (Nat.le_refl pos)) hpos.2.le io hold
      rwa [hr] at hkept

/-! ## A call -/

omit [Arith D] [Arith (BitVec 32)] in
/-- Tokens that were there before. -/
theorem tokenAt_take_append (ts : List Int) (c : Int) {k t : Nat} (ht : t < k) (hk : k ≤ ts.length) :
    tokenAt (ts.take k ++ [c]) t = tokenAt ts t := by
  unfold tokenAt
  rw [List.getD_eq_getElem?_getD, List.getElem?_append_left (by rw [List.length_take]; omega), List.getElem?_take_of_lt ht,
    List.getD_eq_getElem?_getD]

omit [Arith D] [Arith (BitVec 32)] in
theorem tokenAt_take (ts : List Int) {k t : Nat} (ht : t < k) : tokenAt (ts.take k) t = tokenAt ts t := by
  unfold tokenAt
  rw [List.getD_eq_getElem?_getD, List.getElem?_take_of_lt ht, List.getD_eq_getElem?_getD]

omit [Arith D] [Arith (BitVec 32)] in
theorem tokenAt_last (ts : List Int) (c : Int) {k : Nat} (hk : k ≤ ts.length) : tokenAt (ts.take k ++ [c]) k = c := by
  unfold tokenAt
  rw [List.getD_eq_getElem?_getD, List.getElem?_append_right (by rw [List.length_take]; omega), List.length_take,
    Nat.min_eq_left hk, Nat.sub_self]
  rfl

/-- The tokens whose rows are there after a call: back to its position, and one more where it succeeds. -/
def kept (m : EngModel) (seq : EngSeqState) (toks : List Int) (c : Call) : Except DecodeState DecodeState → List Int
  | .ok _ => toks.take c.pos.toNat ++ [c.token]
  | .error _ => if c.Refused m seq then toks else toks.take c.pos.toNat

variable {ts : List Int} {c : Call}

variable (e f m) in
/-- The end of a call touches no row. -/
theorem decodeEnd_rows (s : DecodeState) (c : Call) : SameRows s (left (decodeEnd e f m s c)) := by
  unfold decodeEnd
  cases c.logits with
  | false => exact ⟨rfl, rfl⟩
  | true =>
      rw [if_pos rfl]
      have hrows := decodeHead_rows (f := f) (m := m) e c.io s
      cases hhead : decodeHead e f m c.io s with
      | error r =>
          rw [hhead] at hrows
          exact hrows
      | ok b =>
          rw [hhead] at hrows
          exact ⟨hrows.kc, hrows.vc⟩

/-- Its logits are those of the hidden state. -/
theorem decodeEnd_logits (h : Loaded f direct threadOk plan force m) {x : Vec (BitVec 32)} (hx : Agree m.d s.x x)
    {r : DecodeState} (hr : decodeEnd e f m s c = .ok r) (hl : c.logits = true) :
    Agree m.layout.vocab.toNat r.logits (logitsOf e f m x) := by
  unfold decodeEnd at hr
  rw [if_pos hl] at hr
  obtain ⟨b, hhead, hr⟩ := bind_ok.mp hr
  obtain rfl := Except.ok.inj hr
  have hlogits := decodeHead_agree (r := b) e h hx hhead
  exact hlogits

/-- Rows that were there are there for a shorter sequence, and for one that goes on differently. -/
theorem Holds.before (hs : Holds e f m seq ts s) {k : Nat} (hk : k ≤ ts.length) (tok : Int) :
    ∀ L < m.layout.nLayers.toNat, Caches e f m seq (tokenAt (ts.take k ++ [tok])) L k s :=
  fun L hL => ((hs L hL).mono hk).congr fun _ ht => (tokenAt_take_append ts tok ht hk).symm

theorem holds_take {k : Nat} (hk : k ≤ ts.length) {tok : Int}
    (hs : ∀ L < m.layout.nLayers.toNat, Caches e f m seq (tokenAt (ts.take k ++ [tok])) L k s) :
    Holds e f m seq (ts.take k) s := by
  intro L hL
  rw [List.length_take, Nat.min_eq_left hk]
  exact (hs L hL).congr fun t ht => (tokenAt_take_append ts tok ht hk).trans (tokenAt_take ts ht).symm

/-- **One call**: what it leaves is what the tokens kept put there, and its logits are theirs. -/
theorem qwen3Decode_holds (h : Loaded f direct threadOk plan force m) (hfit : Fits m seq)
    (hap : RowsApart m seq m.layout.nLayers.toNat) (hs : Holds e f m seq ts s)
    (hio : ∀ r, qwen3Decode e f m seq s c = .ok r → c.io.Honest f m) (hpos : c.pos ≤ ts.length ∨ c.Refused m seq) :
    Holds e f m seq (kept m seq ts c (qwen3Decode e f m seq s c)) (left (qwen3Decode e f m seq s c)) ∧
      ∀ r, qwen3Decode e f m seq s c = .ok r → c.logits = true →
        Agree m.layout.vocab.toNat r.logits (forwardLogits e f m (ts.take c.pos.toNat ++ [c.token])) := by
  by_cases href : c.Refused m seq
  · rw [qwen3Decode_refused href]
    refine ⟨?_, fun r hr => by cases hr⟩
    show Holds e f m seq (if _ then _ else _) s
    rwa [if_pos href]
  have hk := hpos.resolve_right href
  have hacc : seq.Accepts c.pos.toNat := by
    unfold Call.Refused at href
    push Not at href
    exact ⟨Int.natCast_nonneg _, by omega⟩
  have hlen : c.pos.toNat ≤ ts.length := by omega
  have hbefore := hs.before hlen c.token
  have hfail : ∀ {r : DecodeState}, (∀ L < m.layout.nLayers.toNat,
      Caches e f m seq (tokenAt (ts.take c.pos.toNat ++ [c.token])) L c.pos.toNat r) →
      Holds e f m seq (kept m seq ts c (.error r)) r := by
    intro r hr
    show Holds e f m seq (if _ then _ else _) r
    rw [if_neg href]
    exact holds_take hlen hr
  rcases qwen3Decode_cases (e := e) (f := f) (s := s) href with ⟨-, hr⟩ | ⟨x, ⟨-, hx⟩, hrest⟩
  · rw [hr]
    exact ⟨hfail hbefore, fun r hr => by cases hr⟩
  obtain ⟨x', hx', hxx⟩ := embedInto_some e h hx fun _ => 0
  have hfirst : Agree m.d x (hidden e f m (tokenAt (ts.take c.pos.toNat ++ [c.token])) 0 c.pos.toNat) := by
    unfold hidden
    rw [tokenAt_last ts c.token hlen, hx']
    exact hxx
  have hold : ∀ L < m.layout.nLayers.toNat,
      Caches e f m seq (tokenAt (ts.take c.pos.toNat ++ [c.token])) L c.pos.toNat { s with x := x } :=
    fun L hL => (hbefore L hL).same ⟨rfl, rfl⟩
  have hkept := decodeLayers_keeps h.buffers.kv hap hacc c.io hold
  rcases hrest with ⟨r, hlayers, hr⟩ | ⟨a, hlayers, hr⟩
  · rw [hlayers] at hkept
    rw [hr]
    exact ⟨hfail hkept, fun r hr => by cases hr⟩
  rw [hlayers] at hkept
  have hcount : (ts.take c.pos.toNat ++ [c.token]).length = c.pos.toNat + 1 := by
    rw [List.length_append, List.length_take, Nat.min_eq_left hlen]
    rfl
  cases hend : decodeEnd e f m a c with
  | error r =>
      have hrows := decodeEnd_rows e f m a c
      rw [hend] at hrows
      rw [hr, hend]
      exact ⟨hfail fun L hL => (hkept L hL).same hrows, fun r hr => by cases hr⟩
  | ok r =>
      rw [hend] at hr
      obtain ⟨hxa, hca⟩ := decodeLayers_ok h hfit hap hacc (hio r hr) hfirst hold hlayers
      have hrows := decodeEnd_rows e f m a c
      rw [hend] at hrows
      rw [hr]
      refine ⟨fun L hL => ?_, fun r' hr' hl => ?_⟩
      · have hrow := (hca L hL).same hrows
        rw [← hcount] at hrow
        exact hrow
      · obtain rfl := Except.ok.inj hr'
        unfold forwardLogits
        rw [hcount]
        exact decodeEnd_logits h hxa hend hl

/-! ## A run -/

variable (e f m seq) in
/-- The states a sequence can be in, with the tokens whose rows it keeps.  It begins with any buffers, whatever is
in them; a call that succeeds was handed the blocks of the file; between its own calls others may use the buffers of
the model. -/
inductive Played : List Int → DecodeState → Prop
  | start (s : DecodeState) : Played [] s
  | call {ts : List Int} {s : DecodeState} {c : Call} (h : Played ts s)
      (hio : ∀ r, qwen3Decode e f m seq s c = .ok r → c.io.Honest f m) (hpos : c.pos ≤ ts.length ∨ c.Refused m seq) :
      Played (kept m seq ts c (qwen3Decode e f m seq s c)) (left (qwen3Decode e f m seq s c))
  | others {ts : List Int} {s s' : DecodeState} (h : Played ts s) (hs : SameRows s s') : Played ts s'

/-- **A sequence holds its tokens**, in every run. -/
theorem Played.holds (h : Loaded f direct threadOk plan force m) {context : Int} (hseq : stateCreate m context = some seq)
    (hfit : Fits m seq) (hp : Played e f m seq ts s) : Holds e f m seq ts s := by
  induction hp with
  | start s => exact fun L _ => ⟨fun t ht => absurd ht (Nat.not_lt_zero t), fun t ht => absurd ht (Nat.not_lt_zero t)⟩
  | call _ hio hpos ih => exact (qwen3Decode_holds h hfit (hfit.rowsApart h hseq) ih hio hpos).1
  | others _ hs ih => exact fun L hL => (ih L hL).same hs

/-- The logits of a call are those of the tokens kept and its own. -/
theorem Played.logits (h : Loaded f direct threadOk plan force m) {context : Int} (hseq : stateCreate m context = some seq)
    (hfit : Fits m seq) (hp : Played e f m seq ts s) (hio : c.io.Honest f m) (hpos : c.pos ≤ ts.length) {r : DecodeState}
    (hr : qwen3Decode e f m seq s c = .ok r) (hl : c.logits = true) :
    ∀ i < m.layout.vocab.toNat, r.logits i = forwardLogits e f m (ts.take c.pos.toNat ++ [c.token]) i :=
  (qwen3Decode_holds h hfit (hfit.rowsApart h hseq) (hp.holds h hseq hfit) (fun _ _ => hio) (.inl hpos)).2 r hr hl

/-- **The cache is transparent.**  In any run of a sequence whose successful calls were handed the blocks of the file,
whatever the buffers held, with the logits asked for or not, calls that fail anywhere, calls that go back, and other
sequences in between: each call leaves the rows of the tokens kept, and one that succeeds leaves the logits of its
tokens computed from nothing, without a cache and with the head read at once. -/
theorem decode_recomputes (h : Loaded f direct threadOk plan force m) {context : Int} (hseq : stateCreate m context = some seq)
    (hfit : Fits m seq) (hp : Played e f m seq ts s) (hio : ∀ r, qwen3Decode e f m seq s c = .ok r → c.io.Honest f m)
    (hpos : c.pos ≤ ts.length) :
    Holds e f m seq (kept m seq ts c (qwen3Decode e f m seq s c)) (left (qwen3Decode e f m seq s c)) ∧
      ∀ r, qwen3Decode e f m seq s c = .ok r → c.logits = true →
        ∀ i < m.layout.vocab.toNat, r.logits i = forwardLogits e f m (ts.take c.pos.toNat ++ [c.token]) i := by
  constructor
  · exact (Played.call hp hio (.inl hpos)).holds h hseq hfit
  · intro r hr hl
    exact hp.logits h hseq hfit (hio r hr) hpos hr hl

end Layer

end Holds

end Recompute

/-! ## The container of one layer, recomputed -/

/-- Its shapes go with its widths, its weights lie in their block, and a state of up to nine positions fits. -/
theorem oneLayer_fits {direct threadOk : Bool} {plan : Option EngPlan} {force : Option Bool} {m : EngModel}
    (h : Loaded oneLayer direct threadOk plan force m) (hl : m.layout = oneLayerLayout) {seq : EngSeqState}
    (hctx : seq.context ≤ 9) : Fits m seq := by
  have hshape : ∀ rel nbytes dtype, (⟨rel, nbytes, dtype, 1, 1⟩ : Slot).Shape 1 1 := by
    intro rel nbytes dtype
    constructor
    · show (cInt 1).toNat ≤ 1
      decide
    · show (cInt 1).toNat = 1
      decide
  have hinside : ∀ k < 11, (⟨4 * (k : Nat), 4, .f32, 1, 1⟩ : Slot).Inside 4 44 := by decide
  have hscores := h.buffers.scores
  have hkv : m.kvWidth = 1 := by
    unfold EngModel.kvWidth
    rw [hl]
    decide
  refine ⟨fun L hL => ?_, fun L hL => ?_, fun pos t hpos _ ht => ?_, ?_⟩
  · obtain ⟨l, _, _, _, _, _, _, _⟩ := m
    obtain rfl : l = oneLayerLayout := hl
    obtain rfl : L = 0 := Nat.lt_one_iff.mp hL
    exact ⟨hshape _ _ _, hshape _ _ _, hshape _ _ _, hshape _ _ _, hshape _ _ _, hshape _ _ _, hshape _ _ _⟩
  · obtain ⟨l, _, _, _, _, _, _, _⟩ := m
    obtain rfl : l = oneLayerLayout := hl
    obtain rfl : L = 0 := Nat.lt_one_iff.mp hL
    exact ⟨hinside 0 (by decide), hinside 1 (by decide), hinside 2 (by decide), hinside 3 (by decide), hinside 4 (by decide),
      hinside 5 (by decide), hinside 6 (by decide), hinside 7 (by decide), hinside 8 (by decide), hinside 9 (by decide),
      hinside 10 (by decide)⟩
  · rw [hl] at hscores
    have hnine : (m.scratch.scores : Int) = 9 := hscores
    have := hpos.2
    omega
  · rw [hl, hkv]
    show 1 * seq.context * 1 < 2 ^ 64
    omega

/-- The second token of a sequence of four positions, behind a first one without logits and an attempt at the second
for which the streamer had no block. -/
theorem oneLayer_recomputes : ∃ m s₁ s₂ r, qwen3Load oneLayer false true none none = .ok m ∧
    qwen3Decode bitEngine oneLayer m ⟨4, 4⟩ .blank ⟨1, 0, false, .ofFile oneLayer m⟩ = .ok s₁ ∧
    qwen3Decode bitEngine oneLayer m ⟨4, 4⟩ s₁ ⟨0, 1, true, ⟨true, fun _ => none, fun _ => true⟩⟩ = .error s₂ ∧
    qwen3Decode bitEngine oneLayer m ⟨4, 4⟩ s₂ ⟨0, 1, true, .ofFile oneLayer m⟩ = .ok r ∧
      ∀ i < m.layout.vocab.toNat, r.logits i = forwardLogits bitEngine oneLayer m [1, 0] i := by
  obtain ⟨m, hload, -⟩ := oneLayer_loaded
  have hl : m.layout = oneLayerLayout := Except.ok.inj ((qwen3Load_layout hload).symm.trans oneLayer_laid)
  have h := qwen3Load_ok hload
  have hseq : stateCreate m 4 = some ⟨4, 4⟩ := by
    unfold stateCreate EngModel.kvWidth
    rw [hl]
    decide
  have hhonest := CallIo.ofFile_honest oneLayer m
  have hcall : ∀ s logits (token pos : Int), 0 ≤ token → token < 2 → 0 ≤ pos → pos < 4 →
      ∃ r, qwen3Decode bitEngine oneLayer m ⟨4, 4⟩ s ⟨token, pos, logits, .ofFile oneLayer m⟩ = .ok r :=
    fun s logits token pos h0 h2 hlo hhi => oneLayer_isOk h hl s h0 h2 ⟨hlo, hhi⟩ logits
  have hlost : ∀ s r, qwen3Decode bitEngine oneLayer m ⟨4, 4⟩ s ⟨0, 1, true, ⟨true, fun _ => none, fun _ => true⟩⟩ ≠ .ok r := by
    intro s r hr
    obtain ⟨-, -, -, hlayers, -⟩ := (qwen3Decode_isOk bitEngine s _).mp ⟨r, hr⟩
    have hfirst := (hlayers 0 (by rw [hl]; decide)).1
    cases hfirst
  have hstart : Played bitEngine oneLayer m ⟨4, 4⟩ [] .blank := .start .blank
  obtain ⟨s₁, h₁⟩ := hcall .blank false 1 0 (by decide) (by decide) (by decide) (by decide)
  cases h₂ : qwen3Decode bitEngine oneLayer m ⟨4, 4⟩ s₁ ⟨0, 1, true, ⟨true, fun _ => none, fun _ => true⟩⟩ with
  | ok r => exact absurd h₂ (hlost s₁ r)
  | error s₂ =>
      obtain ⟨r, h₃⟩ := hcall s₂ true 0 1 (by decide) (by decide) (by decide) (by decide)
      have hfirst := hstart.call (c := ⟨1, 0, false, .ofFile oneLayer m⟩) (fun _ _ => hhonest) (.inl (le_refl 0))
      rw [h₁] at hfirst
      have hsecond := hfirst.call (c := ⟨0, 1, true, ⟨true, fun _ => none, fun _ => true⟩⟩)
        (fun r hr => absurd hr (hlost s₁ r)) (.inl (le_refl 1))
      rw [left, h₂] at hsecond
      have hkept : kept m ⟨4, 4⟩ [1] ⟨0, 1, true, ⟨true, fun _ => none, fun _ => true⟩⟩ (.error s₂) = [1] := ite_self _
      have htokens : Played bitEngine oneLayer m ⟨4, 4⟩ [1] s₂ := hkept ▸ hsecond
      have hrec := decode_recomputes (c := ⟨0, 1, true, .ofFile oneLayer m⟩) h hseq (oneLayer_fits h hl (by decide)) htokens
        (fun _ _ => hhonest) (le_refl 1)
      exact ⟨m, s₁, s₂, r, hload, h₁, h₂, h₃, hrec.2 r h₃ rfl⟩

end LlmEngine.Models.Qwen3
