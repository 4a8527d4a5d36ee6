/-
# LlmEngine.Bind.Expert — the six tensors of a routed expert, and how they are loaded (`src/io/k3_load.c`).

`k3_expert_ref` resolves an expert to a run of bytes and says where in it each tensor begins: at its place
in the file, if the six spans add up to the range they cover, and packed one behind the other if they do
not.  The first kind is fetched with one read, buffered or direct, the second with six.

    k3ExpertRef          which of the two, with the places in the buffer
    k3ExpertLoad         one read, or six (`loadMats`)
    k3ExpertLoadDirect   one read through the direct descriptor, on its block boundaries

`Delivered` is the promise: where the kernels look for a tensor are the bytes the file holds of it.  It is proved of
a run (`IsRun`), where every place is an offset into the run, and of parts (`IsPacked`), where each read leaves the
places of the others alone (`readParts_packed`, by induction on the parts).  Spans that overlap may add up to the
range as well; the places of a run are right all the same (`runRef_isRun`).

Offsets and sizes are `int64_t`, whose overflow is undefined; they are integers here.
-/
import LlmEngine.Bind.Checkpoint
import LlmEngine.Core.Ops
import Mathlib.Algebra.Order.BigOperators.Group.List

namespace LlmEngine.Bind

open LlmEngine.Lib
open LlmEngine.Storage
open LlmEngine.Core (mxfp4Group)

/-! ## The reference -/

/-- `K3QMat`. -/
structure K3QMat where
  pOff : Int
  pBytes : Int
  sOff : Int
  sBytes : Int
  rows : Int
  pcols : Int
  scols : Int
  deriving DecidableEq, Repr

/-- `K3ExpertRef`; `m1` to `m3` are `m[0]` to `m[2]`. -/
structure K3ExpertRef where
  layer : Int
  expert : Int
  shard : Nat
  off : Int
  nbytes : Int
  contiguous : Bool
  m1 : K3QMat
  m2 : K3QMat
  m3 : K3QMat
  deriving DecidableEq, Repr

/-- `EXPERT_FMT`. -/
def expertName (layer expert : Int) (w which : String) : String :=
  "language_model.model.layers." ++ toString layer ++ ".block_sparse_moe.experts." ++ toString expert ++ "." ++
    w ++ "." ++ which

/-- Why an expert is refused. -/
inductive RefError
  | missing (name : String)
  /-- "is not U8" -/
  | notU8 (w : String)
  /-- "is not 2D" -/
  | not2D (w : String)
  /-- "row mismatch" -/
  | rows (w : String) (packed scale : Int)
  /-- "scales for elements implies group size, not 32" -/
  | groups (w : String) (scales logical : Int)
  /-- "is split across shards" -/
  | split (w : String)
  /-- "spans shards" -/
  | spans
  deriving DecidableEq, Repr

/-- `pk[i]` and `sc[i]`. -/
structure Pair where
  pk : K3Tensor
  sc : K3Tensor

/-- One round of the loop of `k3_expert_ref`; `first` is the shard of `pk[0]` from the second on. -/
def refPair (s : K3StIndex) (layer expert : Int) (first : Option Nat) (w : String) : Except RefError Pair :=
  match s.find (expertName layer expert w "weight_packed") with
  | none => .error (.missing (expertName layer expert w "weight_packed"))
  | some pk =>
      match s.find (expertName layer expert w "weight_scale") with
      | none => .error (.missing (expertName layer expert w "weight_scale"))
      | some sc =>
          if pk.dtype ≠ .u8 ∨ sc.dtype ≠ .u8 then .error (.notU8 w)
          else if pk.shape.length ≠ 2 ∨ sc.shape.length ≠ 2 then .error (.not2D w)
          else if pk.shape.getD 0 0 ≠ sc.shape.getD 0 0 then
            .error (.rows w (pk.shape.getD 0 0) (sc.shape.getD 0 0))
          else if sc.shape.getD 1 0 * mxfp4Group ≠ pk.shape.getD 1 0 * 2 then
            .error (.groups w (sc.shape.getD 1 0) (pk.shape.getD 1 0 * 2))
          else if pk.shard ≠ sc.shard then .error (.split w)
          else if first.any (· ≠ pk.shard) then .error .spans
          else .ok ⟨pk, sc⟩

/-- `lo`: the lowest offset. -/
def lowest (first : Int) (ts : List K3Tensor) : Int :=
  ts.foldl (fun lo t => if t.off < lo then t.off else lo) first

/-- `hi`: the highest end. -/
def highest (first : Int) (ts : List K3Tensor) : Int :=
  ts.foldl (fun hi t => if t.off + t.nbytes > hi then t.off + t.nbytes else hi) first

/-- A matrix with its parts at `pOff` and `sOff`; the dimensions are converted to `int`. -/
def Pair.place (x : Pair) (pOff sOff : Int) : K3QMat where
  pOff := pOff
  pBytes := x.pk.nbytes
  sOff := sOff
  sBytes := x.sc.nbytes
  rows := (x.pk.shape.getD 0 0).bmod (2 ^ 32)
  pcols := (x.pk.shape.getD 1 0).bmod (2 ^ 32)
  scols := (x.sc.shape.getD 1 0).bmod (2 ^ 32)

/-- The bytes of both parts. -/
def Pair.bytes (x : Pair) : Int := x.pk.nbytes + x.sc.nbytes

/-- `all`. -/
def sixOf (a b c : Pair) : List K3Tensor := [a.pk, a.sc, b.pk, b.sc, c.pk, c.sc]

/-- `own`. -/
def ownBytes (a b c : Pair) : Int := ((sixOf a b c).map (·.nbytes)).sum

/-- The reference to one run. -/
def runRef (layer expert : Int) (a b c : Pair) : K3ExpertRef :=
  let lo := lowest a.pk.off (sixOf a b c)
  { layer := layer, expert := expert, shard := a.pk.shard, off := lo, nbytes := ownBytes a b c, contiguous := true
    m1 := a.place (a.pk.off - lo) (a.sc.off - lo)
    m2 := b.place (b.pk.off - lo) (b.sc.off - lo)
    m3 := c.place (c.pk.off - lo) (c.sc.off - lo) }

/-- The reference to six parts, packed in the canonical order. -/
def packedRef (layer expert : Int) (a b c : Pair) : K3ExpertRef :=
  { layer := layer, expert := expert, shard := a.pk.shard, off := lowest a.pk.off (sixOf a b c)
    nbytes := a.bytes + b.bytes + c.bytes, contiguous := false
    m1 := a.place 0 a.pk.nbytes
    m2 := b.place a.bytes (a.bytes + b.pk.nbytes)
    m3 := c.place (a.bytes + b.bytes) (a.bytes + b.bytes + c.pk.nbytes) }

/-- The end of `k3_expert_ref`: is the whole expert one run? -/
def makeRef (layer expert : Int) (a b c : Pair) : K3ExpertRef :=
  if highest 0 (sixOf a b c) - lowest a.pk.off (sixOf a b c) = ownBytes a b c then runRef layer expert a b c
  else packedRef layer expert a b c

/-- `k3_expert_ref`. -/
def k3ExpertRef (s : K3StIndex) (layer expert : Int) : Except RefError K3ExpertRef :=
  match refPair s layer expert none "w1" with
  | .error e => .error e
  | .ok a =>
      match refPair s layer expert (some a.pk.shard) "w2" with
      | .error e => .error e
      | .ok b =>
          match refPair s layer expert (some a.pk.shard) "w3" with
          | .error e => .error e
          | .ok c => .ok (makeRef layer expert a b c)

/-! ## Loading -/

/-- How the kernel serves the reads of a call: the `n`-th, by shard. -/
abbrev Serves (s : K3StIndex) := Nat → ∀ shard, Kernel (s.shard shard).size

/-- `k3_st_read` of `nbytes` from `off` on, into memory at `dst`. -/
def readSpan (f : FileBytes) (k : Kernel f.size) (off nbytes : Int) (m : Mem) (dst : Int) : Int × Mem :=
  let r := readLoop f k off nbytes 0 0 fun p => m (dst + p)
  (r.1, fun a => r.2 (a - dst))

/-- The matrices by name. -/
def K3ExpertRef.mats (r : K3ExpertRef) : List (String × K3QMat) := [("w1", r.m1), ("w2", r.m2), ("w3", r.m3)]

/-- The scattered branch of `k3_expert_load`, from the `n`-th read on: each matrix, found again by name,
with two reads. -/
def loadMats (s : K3StIndex) (ks : Serves s) (layer expert : Int) :
    List (String × K3QMat) → Nat → Int → Mem → Int × Mem
  | [], _, got, m => (got, m)
  | (w, q) :: rest, n, got, m =>
      match s.find (expertName layer expert w "weight_packed"), s.find (expertName layer expert w "weight_scale") with
      | some p, some c =>
          let x := k3StRead (s.shard p.shard) (ks n p.shard) p m q.pOff
          let y := k3StRead (s.shard c.shard) (ks (n + 1) c.shard) c x.2 q.sOff
          loadMats s ks layer expert rest (n + 2) (got + x.1 + y.1) y.2
      | _, _ => (got, m)

/-- `k3_expert_load` into `buf`. -/
def k3ExpertLoad (s : K3StIndex) (ks : Serves s) (r : K3ExpertRef) (buf : Mem) : ReadResult :=
  let x :=
    if r.contiguous then readSpan (s.shard r.shard) (ks 0 r.shard) r.off r.nbytes buf 0
    else loadMats s ks r.layer r.expert r.mats 0 0 buf
  { count := x.1, payloadOff := 0, buf := x.2 }

/-- `k3_expert_load_direct`, and `k3_load` of the cache; `kd` is how the kernel serves the direct
descriptors. -/
def k3ExpertLoadDirect (s : K3StIndex) (ks kd : Serves s) (r : K3ExpertRef) (buf : Mem)
    (bufcap payloadOff : Int) : ReadResult :=
  if !r.contiguous then k3ExpertLoad s ks r buf
  else k3StReadAligned s.toK3St r.shard (ks 0 _) (kd 0 _) r.off r.nbytes bufcap payloadOff buf

/-- `K3ExpertQ`, the pointers as addresses in the buffer. -/
structure K3ExpertQ where
  p1 : Int
  s1 : Int
  p2 : Int
  s2 : Int
  p3 : Int
  s3 : Int
  deriving DecidableEq, Repr

/-- `fill_q`, with the payload at `data`. -/
def fillQ (data : Int) (r : K3ExpertRef) : K3ExpertQ where
  p1 := data + r.m1.pOff
  s1 := data + r.m1.sOff
  p2 := data + r.m2.pOff
  s2 := data + r.m2.sOff
  p3 := data + r.m3.pOff
  s3 := data + r.m3.sOff

/-! ## The promise -/

/-- The matrices of the kernels, by name. -/
def K3ExpertQ.mats (q : K3ExpertQ) : List (String × Int × Int) :=
  [("w1", q.p1, q.s1), ("w2", q.p2, q.s2), ("w3", q.p3, q.s3)]

/-- The tensors of the index lie in their shards. -/
structure K3StIndex.Inside (s : K3StIndex) : Prop where
  shard : ∀ name t, s.find name = some t → (t.shard : Int) < s.nshard
  span : ∀ name t, s.find name = some t → t.InFile (s.shard t.shard)

/-- `P` of every matrix of an expert whose bytes are at `data`: of its two tensors, and of where the
kernels look for them. -/
def EveryMat (s : K3StIndex) (r : K3ExpertRef) (data : Int) (P : K3Tensor → Int → Prop) : Prop :=
  ∀ x ∈ (fillQ data r).mats, ∃ p c, s.find (expertName r.layer r.expert x.1 "weight_packed") = some p ∧
    s.find (expertName r.layer r.expert x.1 "weight_scale") = some c ∧ P p x.2.1 ∧ P c x.2.2

/-- The six regions lie in the `nbytes` of the reference. -/
def RegionsInside (s : K3StIndex) (r : K3ExpertRef) : Prop :=
  EveryMat s r 0 fun t at_ => 0 ≤ at_ ∧ at_ + t.nbytes ≤ r.nbytes

/-- **An expert is delivered**: where the kernels look for a tensor are its bytes of the file. -/
def Delivered (s : K3StIndex) (r : K3ExpertRef) (res : ReadResult) : Prop :=
  EveryMat s r res.payloadOff fun t at_ => SameBytes (s.shard t.shard).mem t.off res.buf at_ t.nbytes

/-- The same expert in the canonical packing, whether or not it is one run. -/
def K3ExpertRef.packed (r : K3ExpertRef) : K3ExpertRef :=
  { r with
    contiguous := false
    nbytes := r.m1.pBytes + r.m1.sBytes + (r.m2.pBytes + r.m2.sBytes) + (r.m3.pBytes + r.m3.sBytes)
    m1 := { r.m1 with pOff := 0, sOff := r.m1.pBytes }
    m2 := { r.m2 with pOff := r.m1.pBytes + r.m1.sBytes, sOff := r.m1.pBytes + r.m1.sBytes + r.m2.pBytes }
    m3 :=
      { r.m3 with
        pOff := r.m1.pBytes + r.m1.sBytes + (r.m2.pBytes + r.m2.sBytes)
        sOff := r.m1.pBytes + r.m1.sBytes + (r.m2.pBytes + r.m2.sBytes) + r.m3.pBytes } }

/-- Two loads agree on every tensor. -/
def SameExpert (s : K3StIndex) (r : K3ExpertRef) (res : ReadResult) (r' : K3ExpertRef) (res' : ReadResult) :
    Prop :=
  ∀ x ∈ (fillQ res.payloadOff r).mats.zip (fillQ res'.payloadOff r').mats, ∃ p c,
    s.find (expertName r.layer r.expert x.1.1 "weight_packed") = some p ∧
      s.find (expertName r.layer r.expert x.1.1 "weight_scale") = some c ∧
      SameBytes res.buf x.1.2.1 res'.buf x.2.2.1 p.nbytes ∧ SameBytes res.buf x.1.2.2 res'.buf x.2.2.2 c.nbytes

/-! ## What an accepted reference is made of -/

/-- A matrix as the loop leaves it: both parts found, in one shard. -/
structure Pair.Of (x : Pair) (s : K3StIndex) (layer expert : Int) (shard : Nat) (w : String) : Prop where
  pk : s.find (expertName layer expert w "weight_packed") = some x.pk
  sc : s.find (expertName layer expert w "weight_scale") = some x.sc
  pkShard : x.pk.shard = shard
  scShard : x.sc.shard = shard

theorem refPair_ok {s : K3StIndex} {layer expert : Int} {first : Option Nat} {w : String} {x : Pair}
    (h : refPair s layer expert first w = .ok x) :
    x.Of s layer expert x.pk.shard w ∧ first.all (· = x.pk.shard) := by
  unfold refPair at h
  cases hpk : s.find (expertName layer expert w "weight_packed") with
  | none =>
      rw [hpk] at h
      cases h
  | some pk =>
      cases hsc : s.find (expertName layer expert w "weight_scale") with
      | none =>
          rw [hpk, hsc] at h
          cases h
      | some sc =>
          rw [hpk, hsc] at h
          simp only at h
          split_ifs at h with _ _ _ _ hsame hfirst
          obtain rfl := Except.ok.inj h
          refine ⟨⟨hpk, hsc, rfl, (not_not.mp hsame).symm⟩, ?_⟩
          cases first with
          | none => rfl
          | some n => simpa using hfirst

theorem k3ExpertRef_ok {s : K3StIndex} {layer expert : Int} {r : K3ExpertRef}
    (h : k3ExpertRef s layer expert = .ok r) :
    ∃ a b c, r = makeRef layer expert a b c ∧ a.Of s layer expert a.pk.shard "w1" ∧
      b.Of s layer expert a.pk.shard "w2" ∧ c.Of s layer expert a.pk.shard "w3" := by
  unfold k3ExpertRef at h
  cases ha : refPair s layer expert none "w1" with
  | error e =>
      rw [ha] at h
      cases h
  | ok a =>
      rw [ha] at h
      simp only at h
      cases hb : refPair s layer expert (some a.pk.shard) "w2" with
      | error e =>
          rw [hb] at h
          cases h
      | ok b =>
          rw [hb] at h
          simp only at h
          cases hc : refPair s layer expert (some a.pk.shard) "w3" with
          | error e =>
              rw [hc] at h
              cases h
          | ok c =>
              rw [hc] at h
              obtain ⟨hbOf, hbShard⟩ := refPair_ok hb
              obtain ⟨hcOf, hcShard⟩ := refPair_ok hc
              simp only [Option.all_some, decide_eq_true_eq] at hbShard hcShard
              rw [← hbShard] at hbOf
              rw [← hcShard] at hcOf
              exact ⟨a, b, c, (Except.ok.inj h).symm, (refPair_ok ha).1, hbOf, hcOf⟩

/-! ## Places -/

/-- The six tensors, and where a reference has them. -/
def K3ExpertRef.places (r : K3ExpertRef) (a b c : Pair) : List (K3Tensor × Int) :=
  [(a.pk, r.m1.pOff), (a.sc, r.m1.sOff), (b.pk, r.m2.pOff), (b.sc, r.m2.sOff), (c.pk, r.m3.pOff),
    (c.sc, r.m3.sOff)]

section Places

variable {s : K3StIndex} {r : K3ExpertRef} {a b c : Pair} {shard : Nat}

/-- What holds of the six tensors at their places holds of every matrix. -/
theorem everyMat_of_places (ha : a.Of s r.layer r.expert shard "w1") (hb : b.Of s r.layer r.expert shard "w2")
    (hc : c.Of s r.layer r.expert shard "w3") {data : Int} {P : K3Tensor → Int → Prop}
    (h : ∀ x ∈ r.places a b c, P x.1 (data + x.2)) : EveryMat s r data P := by
  simp only [K3ExpertRef.places, List.forall_mem_cons] at h
  obtain ⟨h1, h2, h3, h4, h5, h6, -⟩ := h
  simp only [EveryMat, K3ExpertQ.mats, fillQ, List.forall_mem_cons]
  exact ⟨⟨a.pk, a.sc, ha.pk, ha.sc, h1, h2⟩, ⟨b.pk, b.sc, hb.pk, hb.sc, h3, h4⟩,
    ⟨c.pk, c.sc, hc.pk, hc.sc, h5, h6⟩, fun _ hmem => absurd hmem List.not_mem_nil⟩

end Places

/-- The six tensors are found, in one shard. -/
theorem sixOf_found {s : K3StIndex} {layer expert : Int} {a b c : Pair} {shard : Nat}
    (ha : a.Of s layer expert shard "w1") (hb : b.Of s layer expert shard "w2")
    (hc : c.Of s layer expert shard "w3") {t : K3Tensor} (ht : t ∈ sixOf a b c) :
    ∃ name, s.find name = some t ∧ t.shard = shard := by
  simp only [sixOf, List.mem_cons, List.not_mem_nil, or_false] at ht
  obtain rfl | rfl | rfl | rfl | rfl | rfl := ht
  · exact ⟨_, ha.pk, ha.pkShard⟩
  · exact ⟨_, ha.sc, ha.scShard⟩
  · exact ⟨_, hb.pk, hb.pkShard⟩
  · exact ⟨_, hb.sc, hb.scShard⟩
  · exact ⟨_, hc.pk, hc.pkShard⟩
  · exact ⟨_, hc.sc, hc.scShard⟩

/-! ## The range of the six -/

theorem lowest_le (first : Int) (ts : List K3Tensor) :
    lowest first ts ≤ first ∧ ∀ t ∈ ts, lowest first ts ≤ t.off := by
  unfold lowest
  induction ts generalizing first with
  | nil => exact ⟨le_refl _, fun _ hmem => absurd hmem List.not_mem_nil⟩
  | cons t ts ih =>
      rw [List.foldl_cons]
      obtain ⟨hfirst, hmem⟩ := ih (if t.off < first then t.off else first)
      refine ⟨hfirst.trans ?_, List.forall_mem_cons.mpr ⟨hfirst.trans ?_, hmem⟩⟩ <;> split_ifs <;> omega

theorem le_lowest {c first : Int} {ts : List K3Tensor} (hfirst : c ≤ first) (h : ∀ t ∈ ts, c ≤ t.off) :
    c ≤ lowest first ts := by
  unfold lowest
  induction ts generalizing first with
  | nil => exact hfirst
  | cons t ts ih =>
      obtain ⟨ht, hts⟩ := List.forall_mem_cons.mp h
      rw [List.foldl_cons]
      exact ih (by split_ifs <;> assumption) hts

theorem le_highest (first : Int) (ts : List K3Tensor) :
    first ≤ highest first ts ∧ ∀ t ∈ ts, t.off + t.nbytes ≤ highest first ts := by
  unfold highest
  induction ts generalizing first with
  | nil => exact ⟨le_refl _, fun _ hmem => absurd hmem List.not_mem_nil⟩
  | cons t ts ih =>
      rw [List.foldl_cons]
      obtain ⟨hfirst, hmem⟩ := ih (if t.off + t.nbytes > first then t.off + t.nbytes else first)
      refine ⟨le_trans ?_ hfirst, List.forall_mem_cons.mpr ⟨le_trans ?_ hfirst, hmem⟩⟩ <;> split_ifs <;> omega

theorem highest_le {c first : Int} {ts : List K3Tensor} (hfirst : first ≤ c)
    (h : ∀ t ∈ ts, t.off + t.nbytes ≤ c) : highest first ts ≤ c := by
  unfold highest
  induction ts generalizing first with
  | nil => exact hfirst
  | cons t ts ih =>
      obtain ⟨ht, hts⟩ := List.forall_mem_cons.mp h
      rw [List.foldl_cons]
      exact ih (by split_ifs <;> assumption) hts

/-! ## One run -/

/-- What makes a reference one run: each of its places is the offset of its tensor in the run, which
covers them all. -/
structure K3ExpertRef.IsRun (r : K3ExpertRef) (s : K3StIndex) (a b c : Pair) : Prop where
  contiguous : r.contiguous = true
  shard : (r.shard : Int) < s.nshard
  start : 0 ≤ r.off
  size : 0 ≤ r.nbytes
  ends : r.off + r.nbytes ≤ (s.shard r.shard).size
  place : ∀ x ∈ r.places a b c, x.1.shard = r.shard ∧ x.1.off = r.off + x.2 ∧ 0 ≤ x.2 ∧
    x.2 + x.1.nbytes ≤ r.nbytes

/-- **The test tells a run**: if the six sizes add up to the range they cover, every tensor is where the
reference says, whatever overlaps and gaps there are. -/
theorem runRef_isRun {s : K3StIndex} (hs : s.Inside) {layer expert : Int} {a b c : Pair}
    (ha : a.Of s layer expert a.pk.shard "w1") (hb : b.Of s layer expert a.pk.shard "w2")
    (hc : c.Of s layer expert a.pk.shard "w3")
    (htest : highest 0 (sixOf a b c) - lowest a.pk.off (sixOf a b c) = ownBytes a b c) :
    (runRef layer expert a b c).IsRun s a b c := by
  have hin : ∀ t ∈ sixOf a b c, t.shard = a.pk.shard ∧ t.InFile (s.shard a.pk.shard) := by
    intro t ht
    obtain ⟨name, hname, hshard⟩ := sixOf_found ha hb hc ht
    refine ⟨hshard, ?_⟩
    rw [← hshard]
    exact hs.span _ _ hname
  have hlow := (lowest_le a.pk.off (sixOf a b c)).2
  have hhigh := (le_highest 0 (sixOf a b c)).2
  have hstart : 0 ≤ lowest a.pk.off (sixOf a b c) :=
    le_lowest (hs.span _ _ ha.pk).start fun t ht => (hin t ht).2.start
  have hend : highest 0 (sixOf a b c) ≤ (s.shard a.pk.shard).size :=
    highest_le (by omega) fun t ht => (hin t ht).2.ends
  have hown : 0 ≤ ownBytes a b c := List.sum_nonneg fun n hn => by
    obtain ⟨t, ht, rfl⟩ := List.mem_map.mp hn
    exact (hin t ht).2.size
  refine ⟨rfl, hs.shard _ _ ha.pk, hstart, hown, ?_, fun x hx => ?_⟩
  · show lowest a.pk.off (sixOf a b c) + ownBytes a b c ≤ _
    rw [← htest]
    exact le_trans (by omega) hend
  · have hplaces : (runRef layer expert a b c).places a b c =
        (sixOf a b c).map fun t => (t, t.off - lowest a.pk.off (sixOf a b c)) := rfl
    rw [hplaces] at hx
    obtain ⟨t, ht, rfl⟩ := List.mem_map.mp hx
    have hlo := hlow t ht
    have hhi := hhigh t ht
    refine ⟨(hin t ht).1, ?_, ?_, ?_⟩
    · show t.off = lowest a.pk.off (sixOf a b c) + (t.off - lowest a.pk.off (sixOf a b c))
      omega
    · show 0 ≤ t.off - lowest a.pk.off (sixOf a b c)
      omega
    · show t.off - lowest a.pk.off (sixOf a b c) + t.nbytes ≤ ownBytes a b c
      omega

/-- A buffer that holds the run holds the six tensors at their places. -/
theorem K3ExpertRef.IsRun.delivered {s : K3StIndex} {r : K3ExpertRef} {a b c : Pair} (h : r.IsRun s a b c)
    {res : ReadResult} (hrun : SameBytes (s.shard r.shard).mem r.off res.buf res.payloadOff r.nbytes) :
    ∀ x ∈ r.places a b c,
      SameBytes (s.shard x.1.shard).mem x.1.off res.buf (res.payloadOff + x.2) x.1.nbytes := by
  intro x hx
  obtain ⟨hshard, hoff, hlo, hhi⟩ := h.place x hx
  rw [hshard, hoff]
  exact hrun.part hlo hhi

section Run

variable {s : K3StIndex} {r : K3ExpertRef} {a b c : Pair}

/-- One buffered read brings the run. -/
theorem K3ExpertRef.IsRun.load (h : r.IsRun s a b c) (ks : Serves s) (buf : Mem) :
    (k3ExpertLoad s ks r buf).count = r.nbytes ∧
      SameBytes (s.shard r.shard).mem r.off (k3ExpertLoad s ks r buf).buf (k3ExpertLoad s ks r buf).payloadOff
        r.nbytes := by
  have hend := h.ends
  have hbound := (s.shard r.shard).bounded
  have hsize := h.size
  have hread : (readLoop (s.shard r.shard) (ks 0 r.shard) r.off r.nbytes 0 0 fun p => buf (0 + p)).1 = r.nbytes :=
    readLoop_inside _ _ h.start hsize hend _
  unfold k3ExpertLoad readSpan
  rw [if_pos h.contiguous]
  refine ⟨hread, ?_⟩
  simp only [sub_zero]
  exact readLoop_covers _ _ h.start (by omega) _ hread.ge

/-- So does the aligned read, if it returns the whole. -/
theorem K3ExpertRef.IsRun.loadDirect (h : r.IsRun s a b c) (ks kd : Serves s) (buf : Mem) {bufcap payloadOff : Int}
    (hfull : (k3ExpertLoadDirect s ks kd r buf bufcap payloadOff).count = r.nbytes) :
    SameBytes (s.shard r.shard).mem r.off (k3ExpertLoadDirect s ks kd r buf bufcap payloadOff).buf
      (k3ExpertLoadDirect s ks kd r buf bufcap payloadOff).payloadOff r.nbytes := by
  have hend := h.ends
  have hbound := (s.shard r.shard).bounded
  have hsize := h.size
  have hdirect : k3ExpertLoadDirect s ks kd r buf bufcap payloadOff =
      k3StReadAligned s.toK3St r.shard (ks 0 _) (kd 0 _) r.off r.nbytes bufcap payloadOff buf := by
    unfold k3ExpertLoadDirect
    rw [h.contiguous]
    rfl
  rw [hdirect] at hfull ⊢
  exact k3StReadAligned_full s.toK3St _ _ h.start (by omega) buf hfull.ge

/-- With room for two pages more it does. -/
theorem K3ExpertRef.IsRun.loadDirect_count (h : r.IsRun s a b c) (ks kd : Serves s) (buf : Mem)
    {bufcap : Int} (payloadOff : Int) (hroom : r.nbytes + 2 * engIoAlign ≤ bufcap) (hcap : bufcap < 2 ^ 63) :
    (k3ExpertLoadDirect s ks kd r buf bufcap payloadOff).count = r.nbytes := by
  have hend := h.ends
  have hbound := (s.shard r.shard).bounded
  have hsize := h.size
  unfold k3ExpertLoadDirect
  rw [h.contiguous]
  have hshard : (0 : Int) ≤ r.shard ∧ (r.shard : Int) < s.nshard := ⟨by omega, h.shard⟩
  have hdel := k3StReadAligned_delivers s.toK3St hshard (ks 0 _) (kd 0 _)
    ⟨h.start, by omega, hsize, hroom, hcap⟩ payloadOff buf
  refine hdel.count.trans ?_
  rw [Int.toNat_natCast]
  omega

end Run

/-! ## Six parts -/

/-- The tensors follow each other from `at_` on. -/
def PackedFrom (at_ : Int) : List (K3Tensor × Int) → Prop
  | [] => True
  | (t, dst) :: rest => dst = at_ ∧ PackedFrom (at_ + t.nbytes) rest

/-- The scattered reads, one tensor after the other. -/
def readParts (s : K3StIndex) (ks : Serves s) : List (K3Tensor × Int) → Nat → Int → Mem → Int × Mem
  | [], _, got, m => (got, m)
  | (t, dst) :: rest, n, got, m =>
      let x := k3StRead (s.shard t.shard) (ks n t.shard) t m dst
      readParts s ks rest (n + 1) (got + x.1) x.2

theorem loadMats_places {s : K3StIndex} {r : K3ExpertRef} {a b c : Pair} {shard : Nat}
    (ha : a.Of s r.layer r.expert shard "w1") (hb : b.Of s r.layer r.expert shard "w2")
    (hc : c.Of s r.layer r.expert shard "w3") (ks : Serves s) (m : Mem) :
    loadMats s ks r.layer r.expert r.mats 0 0 m = readParts s ks (r.places a b c) 0 0 m := by
  simp only [K3ExpertRef.mats, loadMats, ha.pk, ha.sc, hb.pk, hb.sc, hc.pk, hc.sc, K3ExpertRef.places, readParts]

/-- The bytes of the parts. -/
def partBytes (ps : List (K3Tensor × Int)) : Int := (ps.map (·.1.nbytes)).sum

theorem PackedFrom.inside {ps : List (K3Tensor × Int)} {at_ : Int} (h : PackedFrom at_ ps)
    (hsize : ∀ x ∈ ps, 0 ≤ x.1.nbytes) :
    0 ≤ partBytes ps ∧ ∀ x ∈ ps, at_ ≤ x.2 ∧ x.2 + x.1.nbytes ≤ at_ + partBytes ps := by
  induction ps generalizing at_ with
  | nil => exact ⟨le_refl _, fun _ hmem => absurd hmem List.not_mem_nil⟩
  | cons y ps ih =>
      obtain ⟨hy, hps⟩ := List.forall_mem_cons.mp hsize
      obtain ⟨hrest, hmem⟩ := ih h.2 hps
      have hat : y.2 = at_ := h.1
      have hsum : partBytes (y :: ps) = y.1.nbytes + partBytes ps := rfl
      rw [hsum]
      refine ⟨by omega, List.forall_mem_cons.mpr ⟨by omega, fun x hx => ?_⟩⟩
      obtain ⟨hlo, hhi⟩ := hmem x hx
      exact ⟨by omega, by omega⟩

/-- **Parts packed one behind the other do not disturb each other**: all are read, each is at its place, and
nothing else is touched. -/
theorem readParts_packed {s : K3StIndex} (ks : Serves s) {ps : List (K3Tensor × Int)} {at_ : Int}
    (h : PackedFrom at_ ps) (hin : ∀ x ∈ ps, x.1.InFile (s.shard x.1.shard)) (n : Nat) (got : Int) (m : Mem) :
    (readParts s ks ps n got m).1 = got + partBytes ps ∧
      (∀ x ∈ ps, SameBytes (s.shard x.1.shard).mem x.1.off (readParts s ks ps n got m).2 x.2 x.1.nbytes) ∧
      Kept m (readParts s ks ps n got m).2 at_ (at_ + partBytes ps) := by
  induction ps generalizing at_ n got m with
  | nil => exact ⟨(add_zero got).symm, fun _ hmem => absurd hmem List.not_mem_nil, Kept.refl _ _ _⟩
  | cons y ps ih =>
      obtain ⟨t, dst⟩ := y
      obtain ⟨rfl, hrest⟩ := h
      obtain ⟨hfirst, hps⟩ := List.forall_mem_cons.mp hin
      have ht : t.InFile (s.shard t.shard) := hfirst
      have hpos := (hrest.inside fun x hx => (hps x hx).size).1
      have hsize := ht.size
      have hread := k3StRead_inFile ht (ks n t.shard) m dst
      obtain ⟨hsame, hkept⟩ := k3StRead_full hsize hread.ge
      obtain ⟨hcount, hparts, hlater⟩ := ih hrest hps (n + 1)
        (got + (k3StRead (s.shard t.shard) (ks n t.shard) t m dst).1)
        (k3StRead (s.shard t.shard) (ks n t.shard) t m dst).2
      have hsum : partBytes ((t, dst) :: ps) = t.nbytes + partBytes ps := rfl
      rw [hsum]
      refine ⟨hcount.trans ?_, List.forall_mem_cons.mpr ⟨?_, hparts⟩, ?_⟩
      · rw [hread]
        ring
      · -- the later parts lie behind this one
        exact hsame.trans (hlater.same (Or.inl (le_refl _)))
      · exact hkept.trans hlater (le_refl _) (by omega) (by omega) (by omega)

/-- What makes a reference six parts. -/
structure K3ExpertRef.IsPacked (r : K3ExpertRef) (a b c : Pair) : Prop where
  scattered : r.contiguous = false
  packed : PackedFrom 0 (r.places a b c)
  size : r.nbytes = partBytes (r.places a b c)

theorem packedRef_isPacked (layer expert : Int) (a b c : Pair) : (packedRef layer expert a b c).IsPacked a b c := by
  refine ⟨rfl, ?_, ?_⟩
  · simp only [PackedFrom, K3ExpertRef.places, packedRef, Pair.place, Pair.bytes, zero_add, add_assoc, and_self]
  · simp only [partBytes, K3ExpertRef.places, packedRef, Pair.bytes, List.map_cons, List.map_nil, List.sum_cons,
      List.sum_nil]
    ring

section Packed

variable {s : K3StIndex} {r : K3ExpertRef} {a b c : Pair} {shard : Nat}

/-- The scattered load brings every part. -/
theorem K3ExpertRef.IsPacked.load (h : r.IsPacked a b c) (ha : a.Of s r.layer r.expert shard "w1")
    (hb : b.Of s r.layer r.expert shard "w2") (hc : c.Of s r.layer r.expert shard "w3")
    (hin : ∀ x ∈ r.places a b c, x.1.InFile (s.shard x.1.shard)) (ks : Serves s) (buf : Mem) :
    (k3ExpertLoad s ks r buf).count = r.nbytes ∧ ∀ x ∈ r.places a b c,
      SameBytes (s.shard x.1.shard).mem x.1.off (k3ExpertLoad s ks r buf).buf
        ((k3ExpertLoad s ks r buf).payloadOff + x.2) x.1.nbytes := by
  obtain ⟨hcount, hparts, -⟩ := readParts_packed ks h.packed hin 0 0 buf
  have hload : k3ExpertLoad s ks r buf =
      { count := (readParts s ks (r.places a b c) 0 0 buf).1, payloadOff := 0
        buf := (readParts s ks (r.places a b c) 0 0 buf).2 } := by
    unfold k3ExpertLoad
    simp only
    rw [h.scattered, if_neg Bool.false_ne_true, loadMats_places ha hb hc]
  rw [hload]
  refine ⟨?_, fun x hx => ?_⟩
  · show (readParts s ks (r.places a b c) 0 0 buf).1 = r.nbytes
    rw [hcount, h.size, zero_add]
  · show SameBytes _ _ (readParts s ks (r.places a b c) 0 0 buf).2 (0 + x.2) _
    rw [zero_add]
    exact hparts x hx

theorem K3ExpertRef.IsPacked.inside (h : r.IsPacked a b c)
    (hin : ∀ x ∈ r.places a b c, x.1.InFile (s.shard x.1.shard)) {x : K3Tensor × Int}
    (hx : x ∈ r.places a b c) : 0 ≤ x.2 ∧ x.2 + x.1.nbytes ≤ r.nbytes := by
  obtain ⟨hlo, hhi⟩ := (h.packed.inside fun y hy => (hin y hy).size).2 x hx
  exact ⟨hlo, by rw [h.size]; omega⟩

end Packed

/-! ## All paths -/

/-- What `k3_expert_ref` accepts, in full. -/
structure K3ExpertRef.Accepted (r : K3ExpertRef) (s : K3StIndex) (a b c : Pair) (shard : Nat) : Prop where
  w1 : a.Of s r.layer r.expert shard "w1"
  w2 : b.Of s r.layer r.expert shard "w2"
  w3 : c.Of s r.layer r.expert shard "w3"
  layout : r.IsRun s a b c ∨ r.IsPacked a b c
  inFile : ∀ x ∈ r.places a b c, x.1.InFile (s.shard x.1.shard)

theorem K3ExpertRef.Accepted.of_layout {s : K3StIndex} (hs : s.Inside) {r : K3ExpertRef} {a b c : Pair} {shard : Nat}
    (h1 : a.Of s r.layer r.expert shard "w1") (h2 : b.Of s r.layer r.expert shard "w2")
    (h3 : c.Of s r.layer r.expert shard "w3") (h : r.IsRun s a b c ∨ r.IsPacked a b c) :
    r.Accepted s a b c shard := by
  refine ⟨h1, h2, h3, h, fun x hx => ?_⟩
  have hmem : x.1 ∈ sixOf a b c := List.mem_map_of_mem (f := Prod.fst) hx
  obtain ⟨name, hname, -⟩ := sixOf_found h1 h2 h3 hmem
  exact hs.span _ _ hname

/-- An accepted reference and its canonical packing. -/
theorem k3ExpertRef_accepted {s : K3StIndex} (hs : s.Inside) {layer expert : Int} {r : K3ExpertRef}
    (h : k3ExpertRef s layer expert = .ok r) :
    (r.layer = layer ∧ r.expert = expert) ∧
      ∃ a b c shard, r.Accepted s a b c shard ∧ r.packed.Accepted s a b c shard := by
  obtain ⟨a, b, c, rfl, ha, hb, hc⟩ := k3ExpertRef_ok h
  have hpacked : (makeRef layer expert a b c).packed = packedRef layer expert a b c := by
    unfold makeRef
    split_ifs <;> rfl
  rw [hpacked]
  have hsix := packedRef_isPacked layer expert a b c
  unfold makeRef
  split_ifs with htest
  · exact ⟨⟨rfl, rfl⟩, a, b, c, a.pk.shard, .of_layout hs ha hb hc (Or.inl (runRef_isRun hs ha hb hc htest)),
      .of_layout hs ha hb hc (Or.inr hsix)⟩
  · exact ⟨⟨rfl, rfl⟩, a, b, c, a.pk.shard, .of_layout hs ha hb hc (Or.inr hsix),
      .of_layout hs ha hb hc (Or.inr hsix)⟩

section Accepted

variable {s : K3StIndex} {r : K3ExpertRef} {a b c : Pair} {shard : Nat}

theorem K3ExpertRef.Accepted.regionsInside (h : r.Accepted s a b c shard) : RegionsInside s r := by
  refine everyMat_of_places h.w1 h.w2 h.w3 fun x hx => ?_
  rw [zero_add]
  obtain hrun | hsix := h.layout
  · exact (hrun.place x hx).2.2
  · exact hsix.inside h.inFile hx

theorem K3ExpertRef.Accepted.load (h : r.Accepted s a b c shard) (ks : Serves s) (buf : Mem) :
    (k3ExpertLoad s ks r buf).count = r.nbytes ∧ ∀ x ∈ r.places a b c,
      SameBytes (s.shard x.1.shard).mem x.1.off (k3ExpertLoad s ks r buf).buf
        ((k3ExpertLoad s ks r buf).payloadOff + x.2) x.1.nbytes := by
  obtain hrun | hsix := h.layout
  · obtain ⟨hcount, hbytes⟩ := hrun.load ks buf
    exact ⟨hcount, hrun.delivered hbytes⟩
  · exact hsix.load h.w1 h.w2 h.w3 h.inFile ks buf

theorem K3ExpertRef.Accepted.loadDirect (h : r.Accepted s a b c shard) (ks kd : Serves s) (buf : Mem)
    {bufcap payloadOff : Int}
    (hfull : (k3ExpertLoadDirect s ks kd r buf bufcap payloadOff).count = r.nbytes) :
    ∀ x ∈ r.places a b c,
      SameBytes (s.shard x.1.shard).mem x.1.off (k3ExpertLoadDirect s ks kd r buf bufcap payloadOff).buf
        ((k3ExpertLoadDirect s ks kd r buf bufcap payloadOff).payloadOff + x.2) x.1.nbytes := by
  obtain hrun | hsix := h.layout
  · exact hrun.delivered (hrun.loadDirect ks kd buf hfull)
  · have hplain : k3ExpertLoadDirect s ks kd r buf bufcap payloadOff = k3ExpertLoad s ks r buf := by
      unfold k3ExpertLoadDirect
      rw [hsix.scattered]
      rfl
    rw [hplain]
    exact (hsix.load h.w1 h.w2 h.w3 h.inFile ks buf).2

theorem K3ExpertRef.Accepted.loadDirect_count (h : r.Accepted s a b c shard) (ks kd : Serves s) (buf : Mem)
    {bufcap : Int} (payloadOff : Int) (hroom : r.nbytes + 2 * engIoAlign ≤ bufcap) (hcap : bufcap < 2 ^ 63) :
    (k3ExpertLoadDirect s ks kd r buf bufcap payloadOff).count = r.nbytes := by
  obtain hrun | hsix := h.layout
  · exact hrun.loadDirect_count ks kd buf payloadOff hroom hcap
  · unfold k3ExpertLoadDirect
    rw [hsix.scattered]
    exact (hsix.load h.w1 h.w2 h.w3 h.inFile ks buf).1

end Accepted

/-- **Every path delivers the same expert.**  Of an accepted expert the six regions lie in the bytes the
reference reports, by either layout; what a load leaves behind at them, buffered or direct, in one read or in
six, is the file's bytes of the six tensors; and the one read and the six agree on every tensor. -/
theorem expert_loads_agree {s : K3StIndex} (hs : s.Inside) {layer expert : Int} {r : K3ExpertRef}
    (href : k3ExpertRef s layer expert = .ok r) :
    (r.layer = layer ∧ r.expert = expert) ∧ (RegionsInside s r ∧ RegionsInside s r.packed) ∧
      (∀ ks buf, (k3ExpertLoad s ks r buf).count = r.nbytes ∧ Delivered s r (k3ExpertLoad s ks r buf)) ∧
      (∀ ks kd buf bufcap payloadOff,
        ((k3ExpertLoadDirect s ks kd r buf bufcap payloadOff).count = r.nbytes →
          Delivered s r (k3ExpertLoadDirect s ks kd r buf bufcap payloadOff)) ∧
        (r.nbytes + 2 * engIoAlign ≤ bufcap → bufcap < 2 ^ 63 →
          (k3ExpertLoadDirect s ks kd r buf bufcap payloadOff).count = r.nbytes)) ∧
      ∀ ks ks' buf buf', SameExpert s r (k3ExpertLoad s ks r buf) r.packed (k3ExpertLoad s ks' r.packed buf') := by
  obtain ⟨hnamed, a, b, c, shard, h, hp⟩ := k3ExpertRef_accepted hs href
  refine ⟨hnamed, ⟨h.regionsInside, hp.regionsInside⟩, fun ks buf => ⟨(h.load ks buf).1, ?_⟩,
    fun ks kd buf bufcap payloadOff => ⟨fun hfull => ?_, h.loadDirect_count ks kd buf payloadOff⟩,
    fun ks ks' buf buf' => ?_⟩
  · exact everyMat_of_places h.w1 h.w2 h.w3 (h.load ks buf).2
  · exact everyMat_of_places h.w1 h.w2 h.w3 (h.loadDirect ks kd buf hfull)
  · have hone := (h.load ks buf).2
    have hsixth := (hp.load ks' buf').2
    simp only [K3ExpertRef.places, List.forall_mem_cons] at hone hsixth
    obtain ⟨h1, h2, h3, h4, h5, h6, -⟩ := hone
    obtain ⟨g1, g2, g3, g4, g5, g6, -⟩ := hsixth
    simp only [SameExpert, K3ExpertQ.mats, fillQ, List.zip_cons_cons, List.zip_nil_left, List.forall_mem_cons]
    exact ⟨⟨a.pk, a.sc, h.w1.pk, h.w1.sc, h1.symm.trans g1, h2.symm.trans g2⟩,
      ⟨b.pk, b.sc, h.w2.pk, h.w2.sc, h3.symm.trans g3, h4.symm.trans g4⟩,
      ⟨c.pk, c.sc, h.w3.pk, h.w3.sc, h5.symm.trans g5, h6.symm.trans g6⟩,
      fun _ hmem => absurd hmem List.not_mem_nil⟩

/-- A packed matrix of one row of 32 elements, at `off`. -/
def tinyPacked (off : Nat) (h : off < 64) : K3Tensor where
  shard := 0
  dtype := .u8
  shape := [1, 16]
  off := off
  nbytes := 16
  rank := by decide
  known := by decide
  consistent := by decide
  off_min := by omega
  off_max := by omega
  ends := by omega

/-- Its one scale. -/
def tinyScale (off : Nat) (h : off < 64) : K3Tensor where
  shard := 0
  dtype := .u8
  shape := [1, 1]
  off := off
  nbytes := 1
  rank := by decide
  known := by decide
  consistent := by decide
  off_min := by omega
  off_max := by omega
  ends := by omega

/-- Expert 0 of layer 0: the scale of `w1` is the last byte of its matrix, and nothing has byte 16. -/
def tinyNames : List (String × K3Tensor) :=
  [(expertName 0 0 "w1" "weight_packed", tinyPacked 0 (by decide)),
    (expertName 0 0 "w1" "weight_scale", tinyScale 15 (by decide)),
    (expertName 0 0 "w2" "weight_packed", tinyPacked 17 (by decide)),
    (expertName 0 0 "w2" "weight_scale", tinyScale 33 (by decide)),
    (expertName 0 0 "w3" "weight_packed", tinyPacked 34 (by decide)),
    (expertName 0 0 "w3" "weight_scale", tinyScale 50 (by decide))]

def tinyIndex : K3StIndex where
  nshard := 1
  shard := fun _ => { byte := UInt8.ofNat, size := 51, bounded := by decide }
  dfd := some fun _ => 3
  find := fun name => tinyNames.lookup name

theorem tinyIndex_inside : tinyIndex.Inside := by
  have hall : ∀ x ∈ tinyNames, x.2.shard = 0 ∧ 0 ≤ x.2.off ∧ 0 ≤ x.2.nbytes ∧ x.2.off + x.2.nbytes ≤ 51 := by
    decide +kernel
  refine ⟨fun name t h => ?_, fun name t h => ?_⟩
  · have hmem := (hall _ (mem_of_lookup h)).1
    simp only at hmem
    rw [hmem]
    decide
  · obtain ⟨hshard, hoff, hn, hend⟩ := hall _ (mem_of_lookup h)
    exact ⟨hoff, hn, by exact_mod_cast hend⟩

/-- The overlap makes up for the gap, so this is one run of 51 bytes, and the kernels find the scale of `w1`
at byte 15. -/
theorem tinyIndex_loads_agree :
    ∃ r, k3ExpertRef tinyIndex 0 0 = .ok r ∧ r.contiguous = true ∧ r.nbytes = 51 ∧ r.m1.sOff = 15 ∧
      Delivered tinyIndex r (k3ExpertLoad tinyIndex (fun _ _ => .bytewise _) r fun _ => 0) := by
  have href : ∃ r, k3ExpertRef tinyIndex 0 0 = .ok r ∧ r.contiguous = true ∧ r.nbytes = 51 ∧ r.m1.sOff = 15 :=
    ⟨runRef 0 0 ⟨tinyPacked 0 (by decide), tinyScale 15 (by decide)⟩
        ⟨tinyPacked 17 (by decide), tinyScale 33 (by decide)⟩ ⟨tinyPacked 34 (by decide), tinyScale 50 (by decide)⟩,
      by decide +kernel⟩
  obtain ⟨r, hr, hrun, hbytes, hplace⟩ := href
  obtain ⟨-, -, hload, -⟩ := expert_loads_agree tinyIndex_inside hr
  exact ⟨r, hr, hrun, hbytes, hplace, (hload _ _).2⟩

end LlmEngine.Bind
