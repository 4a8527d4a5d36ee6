/-
# LlmEngine.Bind.Tag — what the dtype tag of a bound run promises.

`k3_mmw` reads every matrix of a layer through one tag.  A tag is honest when each matrix is stored in
the format it names, with the rows and columns the configuration asks for inside the bytes the table
declares, and when the widened vectors lie apart inside their area.

The binder refuses a matrix that is not bf16 unless it has seen an int8 one.  `tagHonest_iff` says what
that leaves: the tag of an accepted layer is honest exactly when no matrix is int8, or all are and each
has room for its scales and values.

* `MemState.Bound.matrix`: a matrix that is bound is pointed at in the run.
* `MemTensor.Sized.stores`: of the bytes its entry declares, under the format the entry names, it has enough.
* `MemInv.tagHonest` collects this over the plan, from the loop's invariant (`Bind.Packed`).

The two draft trunks at the end are built of one table: one ships its matrices as int8 throughout and its tag is
honest, the other has one matrix of another kind and is accepted with a tag that is not.
-/
import LlmEngine.Bind.Packed
import LlmEngine.Core.MoePrefill

namespace LlmEngine.Bind

open LlmEngine.Core LlmEngine.Lib

/-- The dtype of a matrix that a tag describes. -/
def Wdt.dtype : Wdt → K3Dtype
  | .f32 => .f32
  | .bf16 => .bf16
  | .i8 => .i8r

/-- The bytes `k3_mmw` walks for a matrix. -/
def Wdt.bytes (rows cols : Nat) : Wdt → Int
  | .f32 => 4 * (rows * cols)
  | .bf16 => 2 * (rows * cols)
  | .i8 => rows * (4 + cols)

/-- The tensor is a matrix in the format of the tag.  A negative size declares no byte. -/
def MemTensor.Stores (e : MemTensor) (wdt : Wdt) (rows cols : Nat) : Prop :=
  e.dtype = wdt.dtype ∧ wdt.bytes rows cols ≤ max e.nbytes 0

/-- **The tag does not lie**, and the widened vectors are apart and inside their area. -/
structure TagHonest (c : K3Cfg) (L : Nat) (src : K3MemSrc) (cap : Int) (widen : Mem) (b : K3LayerBind)
    (widen' : Mem) : Prop where
  matrices : ∀ q ∈ planLayer true c L, ∀ rows cols, q.dest.shape c = some (rows, cols) →
    ∃ e, src q.name = some e ∧ b.dest q.dest = some (.run e.off) ∧ e.Stores b.wdt rows cols
  inside : ∀ q ∈ planLayer true c L, ∀ o, b.dest q.dest = some (.widen o) → 0 ≤ o ∧ o + 4 * q.take ≤ cap
  apart : ∀ q ∈ planLayer true c L, ∀ q' ∈ planLayer true c L, q.dest ≠ q'.dest → ∀ o o',
    b.dest q.dest = some (.widen o) → b.dest q'.dest = some (.widen o') →
    o + 4 * q.take ≤ o' ∨ o' + 4 * q'.take ≤ o
  kept : Kept widen widen' 0 cap

/-- The table has the layer's matrices in one format: none is int8, or all are, whole. -/
def OneFormat (c : K3Cfg) (L : Nat) (src : K3MemSrc) : Prop :=
  (∀ q ∈ planLayer true c L, (q.dest.shape c).isSome → ∀ e, src q.name = some e → e.dtype ≠ .i8r) ∨
    ∀ q ∈ planLayer true c L, ∀ rows cols, q.dest.shape c = some (rows, cols) →
      ∀ e, src q.name = some e → e.Stores .i8 rows cols

section Bound

variable {ops : FloatOps} {c : K3Cfg} {L : Nat} {run : Mem} {src : K3MemSrc} {cap : Int} {s : MemState}

/-- A matrix of the plan is asked for narrow. -/
theorem narrow_of_shape {q : Req} (hq : q ∈ planLayer true c L) :
    q.narrow = (q.dest.shape c).isSome := by
  rw [(planLayer_fits L q hq).narrow, Bool.true_and]

/-- A matrix is pointed at where the run has it, and only an int8 one escapes the size check. -/
theorem MemState.Bound.matrix {q : Req} {e : MemTensor} (h : s.Bound ops run cap q e) (hn : q.narrow = true) :
    s.dest q.dest = some (.run e.off) ∧
      (e.dtype = .i8r ∨ e.dtype = .f32 ∨ e.dtype = .bf16 ∧ e.Sized q) := by
  cases h with
  | matrixI8 _ hi8 hd => exact ⟨hd, Or.inl hi8⟩
  | matrixBf16 _ hbf16 hsized hd => exact ⟨hd, Or.inr (Or.inr ⟨hbf16, hsized⟩)⟩
  | inPlace hf32 hsized hd => exact ⟨hd, Or.inr (Or.inl hf32)⟩
  | widened o hwide => rw [hwide] at hn; nomatch hn

/-- A bf16 matrix that passed the size check has its rows and columns. -/
theorem MemTensor.Sized.stores {q : Req} {e : MemTensor} {rows cols : Nat} (hsized : e.Sized q)
    (hfits : q.Fits true c) (hshape : q.dest.shape c = some (rows, cols)) (hbf16 : e.dtype = .bf16) :
    e.Stores .bf16 rows cols := by
  have htake : q.take = (rows * cols : Nat) := by
    rw [hfits.take]
    simp [Dest.len, hshape]
  have hle := hsized.2
  rw [hbf16, htake] at hle
  refine ⟨hbf16, ?_⟩
  show 2 * ((rows : Int) * cols) ≤ max e.nbytes 0
  push_cast at hle
  generalize (rows : Int) * cols = n at hle ⊢
  change n ≤ e.nbytes.tdiv 2 at hle
  by_cases hneg : 0 ≤ e.nbytes
  · rw [Int.tdiv_eq_ediv_of_nonneg hneg] at hle
    omega
  · -- a negative size rounds up to zero elements at most
    have hdiv : e.nbytes.tdiv 2 = -((-e.nbytes) / 2) := by
      rw [← Int.tdiv_eq_ediv_of_nonneg (by omega), Int.neg_tdiv, neg_neg]
    omega

end Bound

/-- The widened vectors are apart and inside in every bound layer; what is left is the matrices. -/
theorem MemInv.tagHonest {ops : FloatOps} {c : K3Cfg} {L : Nat} {run : Mem} {src : K3MemSrc} {widen : Mem}
    {cap : Int} {s : MemState} {b : K3LayerBind} (hinv : MemInv ops run src cap widen (planLayer true c L) s)
    (hdest : b.dest = s.dest)
    (hmatrices : ∀ q ∈ planLayer true c L, ∀ rows cols, q.dest.shape c = some (rows, cols) →
      ∀ e, src q.name = some e → s.Bound ops run cap q e → e.Stores b.wdt rows cols) :
    TagHonest c L src cap widen b s.widen where
  matrices q hq rows cols hshape := by
    obtain ⟨e, hfind, hbound⟩ := hinv.bound q hq
    have hn : q.narrow = true := by
      rw [narrow_of_shape hq, hshape, Option.isSome_some]
    exact ⟨e, hfind, hdest ▸ (hbound.matrix hn).1, hmatrices q hq rows cols hshape e hfind hbound⟩
  inside q hq o ho := by
    obtain ⟨e, -, hbound⟩ := hinv.bound q hq
    have hrange := hbound.widen_range (hdest ▸ ho)
    exact ⟨hrange.1, hrange.2.2⟩
  apart q hq q' hq' hne o o' ho ho' := hinv.apart q hq q' hq' hne o o' (hdest ▸ ho) (hdest ▸ ho')
  kept := hinv.inside

/-- **When the tag is honest**: for every layer that is bound, exactly when its matrices are in one
format. -/
theorem tagHonest_iff {ops : FloatOps} {c : K3Cfg} {L : Nat} {run : Mem} {src : K3MemSrc} {widen widen' : Mem}
    {cap : Int} {b : K3LayerBind} (h : bindLayerMem ops c L run src widen cap = some (b, widen')) :
    TagHonest c L src cap widen b widen' ↔ OneFormat c L src := by
  obtain ⟨s, hinv, haccept, rfl, hdest, hwdt, -⟩ := bindLayerMem_inv h
  cases hi8 : s.i8Seen with
  | false =>
      rw [hi8, if_neg Bool.false_ne_true] at hwdt
      -- tagged bf16: no matrix was int8, and none was fp32 or the layer had been refused
      rw [hi8] at haccept
      have hno : ∀ q ∈ planLayer true c L, (q.dest.shape c).isSome → ∀ e, src q.name = some e →
          e.dtype ≠ .i8r := by
        intro q hq hsome e hfind hdt
        have hseen := hinv.i8Seen.mpr ⟨q, hq, by rw [narrow_of_shape hq, hsome], e, hfind, hdt⟩
        rw [hi8] at hseen
        nomatch hseen
      refine iff_of_true (hinv.tagHonest hdest fun q hq rows cols hshape e hfind hbound => ?_) (Or.inl hno)
      have hsome : (q.dest.shape c).isSome := by
        rw [hshape, Option.isSome_some]
      have hn : q.narrow = true := by
        rw [narrow_of_shape hq, hsome]
      obtain hdt | hdt | ⟨hbf16, hsized⟩ := (hbound.matrix hn).2
      · exact absurd hdt (hno q hq hsome e hfind)
      · have hall : s.narrowedAll = true := haccept.resolve_right Bool.false_ne_true
        exact absurd hdt (hinv.narrowedAll.mp hall q hq hn e hfind)
      · rw [hwdt]
        exact hsized.stores (planLayer_fits L q hq) hshape hbf16
  | true =>
      rw [hi8, if_pos rfl] at hwdt
      -- tagged int8: honest means that every matrix is
      obtain ⟨q₀, hq₀, hn₀, e₀, hfind₀, hdt₀⟩ := hinv.i8Seen.mp hi8
      constructor
      · intro hhonest
        refine Or.inr fun q hq rows cols hshape e hfind => ?_
        obtain ⟨e', hfind', -, hstores⟩ := hhonest.matrices q hq rows cols hshape
        rw [hfind, Option.some.injEq] at hfind'
        rw [hwdt] at hstores
        exact hfind' ▸ hstores
      · rintro (hno | hall)
        · exact absurd hdt₀ (hno q₀ hq₀ (by rw [← narrow_of_shape hq₀, hn₀]) e₀ hfind₀)
        · refine hinv.tagHonest hdest fun q hq rows cols hshape e hfind _ => ?_
          rw [hwdt]
          exact hall q hq rows cols hshape e hfind

/-! ## Draft trunks -/

/-- The entry `tools/int8_trunk.py` writes at `off`: a bf16 matrix becomes int8 rows, what the
checkpoint ships as fp32 stays, and so do the vectors. -/
def draftEntry (c : K3Cfg) (ships32 : Dest → Bool) (q : Req) (off : Int) : MemTensor :=
  match q.dest.shape c with
  | some (rows, cols) =>
      if ships32 q.dest then ⟨off, 4 * (rows * cols), .f32⟩ else ⟨off, rows * (4 + cols), .i8r⟩
  | none => ⟨off, 2 * q.want, .bf16⟩

/-- The table of the layer, one tensor after the other. -/
def draftTable (c : K3Cfg) (ships32 : Dest → Bool) : List Req → Int → K3MemSrc
  | [], _, _ => none
  | q :: qs, off, name =>
      let e := draftEntry c ships32 q off
      if name = q.name then some e else draftTable c ships32 qs (off + e.nbytes) name

def noOps : FloatOps := ⟨fun _ => 0, fun _ _ => 0⟩

/-- Layer 0 of the small configuration, bound from a draft trunk. -/
def draftBind (ships32 : Dest → Bool) : Option (K3LayerBind × Mem) :=
  bindLayerMem noOps smallCfg.toK3Cfg 0 (fun _ => 0)
    (draftTable smallCfg.toK3Cfg ships32 (planLayer true smallCfg.toK3Cfg 0) 0) (fun _ => 0)
    (k3BindWidenBytes smallCfg.toK3Cfg)

/-- A draft of a checkpoint that is bf16 throughout is bound as int8, honestly. -/
theorem draft_tagHonest : ∃ b widen', draftBind (fun _ => false) = some (b, widen') ∧ b.wdt = .i8 ∧
    TagHonest smallCfg.toK3Cfg 0
      (draftTable smallCfg.toK3Cfg (fun _ => false) (planLayer true smallCfg.toK3Cfg 0) 0)
      (k3BindWidenBytes smallCfg.toK3Cfg) (fun _ => 0) b widen' := by
  have htag : (draftBind fun _ => false).map (fun r => r.1.wdt) = some .i8 := by decide +kernel
  obtain ⟨⟨b, widen'⟩, hbind, hwdt⟩ := Option.map_eq_some_iff.mp htag
  have hrows : ∀ q ∈ planLayer true smallCfg.toK3Cfg 0, ∀ rc ∈ q.dest.shape smallCfg.toK3Cfg,
      ∀ e ∈ draftTable smallCfg.toK3Cfg (fun _ => false) (planLayer true smallCfg.toK3Cfg 0) 0 q.name,
        e.dtype = Wdt.i8.dtype ∧ Wdt.i8.bytes rc.1 rc.2 ≤ max e.nbytes 0 := by decide +kernel
  exact ⟨b, widen', hbind, hwdt, (tagHonest_iff hbind).mpr
    (Or.inr fun q hq rows cols hshape e hfind => hrows q hq (rows, cols) hshape e hfind)⟩

/-- **A mixed layer is not refused**: one matrix that ships as fp32 among int8 ones is accepted, under
the int8 tag. -/
theorem mixed_draft_accepted : ¬ ∀ (ops : FloatOps) (c : K3Cfg) (L : Nat) (run : Mem) (src : K3MemSrc)
    (widen widen' : Mem) (cap : Int) (b : K3LayerBind),
    bindLayerMem ops c L run src widen cap = some (b, widen') → TagHonest c L src cap widen b widen' := by
  intro hclaim
  have htag : (draftBind fun d => d = .kdaB).map (fun r => r.1.wdt) = some .i8 := by decide +kernel
  obtain ⟨⟨b, widen'⟩, hbind, hwdt⟩ := Option.map_eq_some_iff.mp htag
  have hmem : ∃ q ∈ planLayer true smallCfg.toK3Cfg 0, q.dest = .kdaB ∧
      (draftTable smallCfg.toK3Cfg (fun d => d = .kdaB) (planLayer true smallCfg.toK3Cfg 0) 0 q.name).map
        MemTensor.dtype = some .f32 := by decide +kernel
  obtain ⟨q, hq, hdest, hdt⟩ := hmem
  obtain ⟨e, hfind, -, hstores⟩ := (hclaim _ _ _ _ _ _ _ _ _ hbind).matrices q hq 1 2 (by rw [hdest]; rfl)
  rw [hfind, Option.map_some, hstores.1, hwdt] at hdt
  nomatch hdt

end LlmEngine.Bind
