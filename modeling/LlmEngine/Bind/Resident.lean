/-
# LlmEngine.Bind.Resident — binding a layer from the checkpoint (`k3_bind_layer`).

`plan_resolve` checks every request against the checkpoint and lays out one blob; `plan_load` reads
the tensors into it.  A matrix keeps its bf16 bytes, everything else is widened.  The dtype tag is per
struct, so one matrix that is not bf16 sends the whole layer back to be bound at fp32.

`bindLayer_denotes` is the contract: whatever the layout, the demotions and the chunks of the reads, a
weight read under the tag is the tensor the checkpoint holds under its name.

* `Laid` is what resolving makes of the blob: placements one behind the other, aligned, none reaching into the next.
* `Placed.Holds` is one request after the load, and survives what is written elsewhere (`Placed.Holds.frame`);
  `planLoad_ok` runs that over the list.
* `Placed.Holds.value` reads a weight back, under the tag of the struct the kernels find it in.

A request that names no tensor of the checkpoint, or one of another size, refuses the layer.  One that resolves is
bound (`bindLayer_isSome`).
-/
import LlmEngine.Bind.Checkpoint
import Mathlib.Data.List.Nodup

namespace LlmEngine.Bind

open LlmEngine.Core LlmEngine.Lib

/-! ## Bound layers -/

/-- Where a weight pointer points: into the blob, into a packed run, or into its widen area. -/
inductive Ptr
  | blob (off : Int)
  | run (off : Int)
  | widen (off : Int)
  deriving DecidableEq, Repr

/-- The memories pointers lead into. -/
structure Mems where
  blob : Mem
  run : Mem
  widen : Mem

def Ptr.mem (ms : Mems) : Ptr → Mem
  | .blob _ => ms.blob
  | .run _ => ms.run
  | .widen _ => ms.widen

def Ptr.off : Ptr → Int
  | .blob o => o
  | .run o => o
  | .widen o => o

/-- `K3LayerBind`: the weight pointers, the tag all four structs get, and which of `lay.kda`, `lay.mla`
and `lay.moe` are set. -/
structure K3LayerBind where
  dest : Dest → Option Ptr
  wdt : Wdt
  kda : Bool
  mla : Bool
  moe : Bool

/-- Element `i` of a matrix stored as `wdt` at `p`; an int8 row is its scale, then its `cols` values. -/
def matElem (ops : FloatOps) (wdt : Wdt) (cols : Nat) (m : Mem) (p i : Int) : BitVec 32 :=
  match wdt with
  | .f32 => le32 m (p + 4 * i)
  | .bf16 => bf16f (le16 m (p + 2 * i))
  | .i8 =>
      let row := p + i / cols * (4 + cols)
      ops.scaleI8 (m (row + 4 + i % cols)) (le32 m row)

/-- Element `i` of a weight, as the kernels see it: a matrix under the tag, a vector as fp32. -/
def K3LayerBind.value (b : K3LayerBind) (ops : FloatOps) (c : K3Cfg) (ms : Mems) (d : Dest) (i : Int) :
    Option (BitVec 32) :=
  (b.dest d).map fun p =>
    match d.shape c with
    | some (_, cols) => matElem ops b.wdt cols (p.mem ms) p.off i
    | none => le32 (p.mem ms) (p.off + 4 * i)

/-! ## Resolve -/

/-- `Req`, resolved: its tensor, its storage class and its place in the blob. -/
structure Placed where
  req : Req
  t : K3Tensor
  narrow : Bool
  off : Int

def align8 (x : Int) : Int := (x + 7) / 8 * 8

/-- The bytes the request takes in the blob. -/
def Placed.bytes (p : Placed) : Int := p.req.take * if p.narrow then 2 else 4

/-- One iteration of `plan_resolve`; `none` is `p->bad++`. -/
def resolveOne (st : K3StIndex) (off : Int) (q : Req) : Option Placed :=
  match st.find q.name with
  | none => none
  | some t =>
      if 0 ≤ q.want ∧ t.numel ≠ q.want then none
      else if q.take > t.numel then none
      else
        let narrow := q.narrow && decide (t.dtype = .bf16)
        if narrow = true ∧ q.take ≠ t.numel then none
        else some { req := q, t := t, narrow := narrow, off := align8 off }

/-- `plan_resolve`.  A bad request is reported and the loop goes on to report the others; the result is
a refusal either way. -/
def planResolve (st : K3StIndex) : List Req → Int → Option (List Placed)
  | [], _ => some []
  | q :: qs, off =>
      match resolveOne st off q with
      | none => none
      | some p =>
          match planResolve st qs (p.off + p.bytes) with
          | none => none
          | some ps => some (p :: ps)

/-- `p->demoted`: a matrix was not bf16 after all. -/
def demoted (ps : List Placed) : Nat := (ps.filter fun p => p.req.narrow && !p.narrow).length

/-! ## Load -/

/-- How the kernel serves the reads: for each file, request and loop of the request. -/
abbrev Io := (f : FileBytes) → Nat → Nat → Kernel f.size

/-- One iteration of `plan_load`; `none` is a short read.  `junk` is what fresh memory holds. -/
def loadOne (ops : FloatOps) (st : K3StIndex) (io : Io) (junk : Mem) (i : Nat) (p : Placed) (blob : Mem) :
    Option Mem :=
  let f := st.shard p.t.shard
  if p.narrow then
    let r := k3StRead f (io f i 0) p.t blob p.off
    if r.1 ≠ p.t.nbytes then none else some r.2
  else if p.req.take = p.t.numel then
    let r := k3StReadF32 ops f (io f i) p.t junk blob p.off
    if r.1 ≠ p.t.numel then none else some r.2
  else
    -- a prefix: the whole tensor into scratch, the front kept
    let r := k3StReadF32 ops f (io f i) p.t junk junk 0
    if r.1 ≠ p.t.numel then none else some (putBytes blob p.off (p.req.take * 4) r.2)

/-- `plan_load`, from request `i` on. -/
def planLoad (ops : FloatOps) (st : K3StIndex) (io : Io) (junk : Mem) :
    Nat → List Placed → (Dest → Option Ptr) → Mem → Option ((Dest → Option Ptr) × Mem)
  | _, [], dest, blob => some (dest, blob)
  | i, p :: ps, dest, blob =>
      match loadOne ops st io junk i p blob with
      | none => none
      | some blob' =>
          planLoad ops st io junk (i + 1) ps (Function.update dest p.req.dest (some (.blob p.off))) blob'

/-- The plan `k3_bind_layer` loads, with `p.narrow_ok`: a layer with a matrix that is not bf16 is
planned again at fp32. -/
def layerPlan (st : K3StIndex) (c : K3Cfg) (L : Nat) : Option (Bool × List Placed) :=
  match planResolve st (planLayer true c L) 0 with
  | none => none
  | some ps =>
      if demoted ps = 0 then some (true, ps)
      else (planResolve st (planLayer false c L) 0).map fun ps => (false, ps)

/-- `k3_bind_layer`; `blob` is the allocation as it comes. -/
def bindLayer (ops : FloatOps) (st : K3StIndex) (io : Io) (junk : Mem) (c : K3Cfg) (L : Nat) (blob : Mem) :
    Option (K3LayerBind × Mem) :=
  match layerPlan st c L with
  | none => none
  | some (narrowOk, ps) =>
      match planLoad ops st io junk 0 ps (fun _ => none) blob with
      | none => none
      | some (dest, blob) =>
          some ({ dest := dest
                  wdt := if narrowOk then .bf16 else .f32
                  kda := !c.isMla L
                  mla := c.isMla L
                  moe := !isDense c L }, blob)

/-! ## What resolving establishes -/

/-- A resolved request: the tensor has its name and its element count, and a matrix is kept as it is
only if it is bf16 and whole. -/
structure Placed.Ok (st : K3StIndex) (p : Placed) : Prop where
  found : st.find p.req.name = some p.t
  numel : p.t.numel = p.req.want
  take_le : p.req.take ≤ p.t.numel
  narrow : p.narrow = (p.req.narrow && decide (p.t.dtype = .bf16))
  whole : p.narrow = true → p.req.take = p.t.numel

/-- The requests lie one after the other from `off` on. -/
def Laid : Int → List Placed → Prop
  | _, [] => True
  | off, p :: ps => off ≤ p.off ∧ Laid (p.off + p.bytes) ps

theorem resolveOne_ok {st : K3StIndex} {off : Int} {q : Req} {p : Placed} (hq : 0 ≤ q.want)
    (h : resolveOne st off q = some p) : p.req = q ∧ p.Ok st ∧ off ≤ p.off := by
  unfold resolveOne at h
  cases hfind : st.find q.name with
  | none => simp [hfind] at h
  | some t =>
      simp only [hfind] at h
      split_ifs at h with hwant htake hwhole
      obtain rfl := Option.some.inj h
      refine ⟨rfl, ⟨hfind, ?_, not_lt.mp htake, rfl, fun hn => ?_⟩, ?_⟩
      · by_contra hne
        exact hwant ⟨hq, hne⟩
      · by_contra hne
        exact hwhole ⟨hn, hne⟩
      · show off ≤ align8 off
        unfold align8
        omega

theorem planResolve_ok {st : K3StIndex} : ∀ {qs : List Req} {off : Int} {ps : List Placed},
    (∀ q ∈ qs, 0 ≤ q.want) → planResolve st qs off = some ps →
    ps.map Placed.req = qs ∧ (∀ p ∈ ps, p.Ok st) ∧ Laid off ps
  | [], off, ps, _, h => by
      obtain rfl := Option.some.inj h
      exact ⟨rfl, fun p hp => absurd hp List.not_mem_nil, trivial⟩
  | q :: qs, off, ps, hqs, h => by
      unfold planResolve at h
      cases hone : resolveOne st off q with
      | none => simp [hone] at h
      | some p =>
          cases hrest : planResolve st qs (p.off + p.bytes) with
          | none => simp [hone, hrest] at h
          | some ps' =>
              simp only [hone, hrest, Option.some.injEq] at h
              subst h
              obtain ⟨hreq, hok, hoff⟩ := resolveOne_ok (hqs q (List.mem_cons_self ..)) hone
              obtain ⟨hmap, hall, hlaid⟩ := planResolve_ok
                (fun q' hq' => hqs q' (List.mem_cons_of_mem _ hq')) hrest
              exact ⟨by rw [List.map_cons, hreq, hmap], List.forall_mem_cons.mpr ⟨hok, hall⟩, hoff, hlaid⟩

/-! ## What loading establishes -/

/-- The blob holds the request: the tensor's own bytes, or the elements taken of it as fp32. -/
def Placed.Holds (ops : FloatOps) (st : K3StIndex) (p : Placed) (m : Mem) : Prop :=
  if p.narrow then SameBytes (st.shard p.t.shard).mem p.t.off m p.off p.bytes
  else p.t.WidenedAt ops (st.shard p.t.shard) m p.off p.req.take

/-- What is stored behind a request does not disturb it. -/
theorem Placed.Holds.frame {ops : FloatOps} {st : K3StIndex} {p : Placed} {m m' : Mem}
    (h : p.Holds ops st m) (hsame : SameBytes m p.off m' p.off p.bytes) : p.Holds ops st m' := by
  unfold Placed.Holds at h ⊢
  cases hn : p.narrow with
  | true =>
      rw [hn, if_pos rfl] at h
      rw [if_pos rfl]
      exact h.trans hsame
  | false =>
      rw [hn, if_neg Bool.false_ne_true] at h
      rw [if_neg Bool.false_ne_true]
      have hbytes : p.bytes = p.req.take * 4 := by
        unfold Placed.bytes
        rw [hn, if_neg Bool.false_ne_true]
      intro i hi hlt
      rw [hsame.word32 (by omega) (by omega)]
      exact h i hi hlt

theorem loadOne_ok {ops : FloatOps} {st : K3StIndex} {io : Io} {junk : Mem} {i : Nat} {p : Placed}
    {blob blob' : Mem} (hp : p.Ok st) (htake : 0 ≤ p.req.take)
    (h : loadOne ops st io junk i p blob = some blob') :
    p.Holds ops st blob' ∧ Kept blob blob' p.off (p.off + p.bytes) := by
  have hnumel : 0 ≤ p.t.numel := htake.trans hp.take_le
  unfold loadOne at h
  unfold Placed.Holds Placed.bytes
  cases hn : p.narrow with
  | true =>
      simp only [hn, if_true] at h ⊢
      split_ifs at h with hfull
      obtain rfl := Option.some.inj h
      have hbf16 : p.t.dtype = .bf16 := by
        have := hp.narrow
        rw [hn] at this
        simpa using (Bool.and_eq_true_iff.mp this.symm).2
      have hbytes : p.req.take * 2 = p.t.nbytes := by
        rw [hp.whole hn, p.t.consistent, hbf16]
        rfl
      rw [hbytes]
      exact k3StRead_full (by omega) (not_not.mp hfull).ge
  | false =>
      simp only [hn, Bool.false_eq_true, if_false] at h ⊢
      by_cases hall : p.req.take = p.t.numel
      · rw [if_pos hall] at h
        split_ifs at h with hfull
        obtain rfl := Option.some.inj h
        obtain ⟨hwords, hkept⟩ := k3StReadF32_full hnumel (not_not.mp hfull)
        rw [hall, mul_comm]
        exact ⟨hwords, hkept⟩
      · rw [if_neg hall] at h
        split_ifs at h with hfull
        obtain rfl := Option.some.inj h
        obtain ⟨hwords, -⟩ := k3StReadF32_full hnumel (not_not.mp hfull)
        refine ⟨fun j hj hlt => ?_, putBytes_kept _ _ _ _⟩
        have hsame : SameBytes (k3StReadF32 ops (st.shard p.t.shard) (io (st.shard p.t.shard) i) p.t junk
            junk 0).2 0 (putBytes blob p.off (p.req.take * 4) (k3StReadF32 ops (st.shard p.t.shard)
            (io (st.shard p.t.shard) i) p.t junk junk 0).2) p.off (p.req.take * 4) := by
          intro o ho hlen
          rw [putBytes_inside _ _ (by omega) (by omega), add_sub_cancel_left, zero_add]
        rw [hsame.word32 (by omega) (by omega)]
        exact hwords j hj (by have := hp.take_le; omega)

/-- **The whole load**: every request is where its pointer says, the pointers of no request are left
alone, and so is what lies before the first. -/
theorem planLoad_ok {ops : FloatOps} {st : K3StIndex} {io : Io} {junk : Mem} : ∀ {ps : List Placed}
    {i : Nat} {lo : Int} {dest dest' : Dest → Option Ptr} {blob blob' : Mem}, (∀ p ∈ ps, p.Ok st) →
    (∀ p ∈ ps, 0 ≤ p.req.take) → Laid lo ps → (ps.map fun p => p.req.dest).Nodup →
    planLoad ops st io junk i ps dest blob = some (dest', blob') →
    (∀ p ∈ ps, dest' p.req.dest = some (.blob p.off) ∧ p.Holds ops st blob') ∧
      (∀ d, d ∉ ps.map (fun p => p.req.dest) → dest' d = dest d) ∧ ∀ a < lo, blob' a = blob a
  | [], i, lo, dest, dest', blob, blob', _, _, _, _, h => by
      obtain ⟨rfl, rfl⟩ := Prod.mk.inj (Option.some.inj h)
      exact ⟨fun p hp => absurd hp List.not_mem_nil, fun _ _ => rfl, fun _ _ => rfl⟩
  | p :: ps, i, lo, dest, dest', blob, blob', hok, htake, hlaid, hnodup, h => by
      unfold planLoad at h
      obtain ⟨hlo, hlaid'⟩ := hlaid
      obtain ⟨hp, hok'⟩ := List.forall_mem_cons.mp hok
      obtain ⟨htp, htake'⟩ := List.forall_mem_cons.mp htake
      rw [List.map_cons, List.nodup_cons] at hnodup
      have hbytes : 0 ≤ p.bytes := by
        unfold Placed.bytes
        split_ifs <;> omega
      cases hone : loadOne ops st io junk i p blob with
      | none => simp [hone] at h
      | some blob₁ =>
          simp only [hone] at h
          obtain ⟨hholds, hkept⟩ := loadOne_ok hp htp hone
          obtain ⟨hrest, hother, hbelow⟩ := planLoad_ok hok' htake' hlaid' hnodup.2 h
          refine ⟨List.forall_mem_cons.mpr ⟨⟨?_, ?_⟩, hrest⟩, fun d hd => ?_, fun a ha => ?_⟩
          · rw [hother _ hnodup.1, Function.update_self]
          · exact hholds.frame fun j _ hj => hbelow _ (by omega)
          · rw [List.map_cons, List.mem_cons, not_or] at hd
            rw [hother d hd.2, Function.update_of_ne hd.1]
          · rw [hbelow a (by omega), hkept a (Or.inl (by omega))]

/-! ## The contract -/

/-- The bound layer is the checkpoint's: every weight of the plan reads, under the tag, as the tensor
of its name; no other pointer is set; and the structs are the ones the configuration says. -/
structure Denotes (ops : FloatOps) (st : K3StIndex) (c : K3Cfg) (L : Nat) (b : K3LayerBind) (ms : Mems) :
    Prop where
  weight : ∀ q ∈ planLayer true c L, ∃ t, st.find q.name = some t ∧ ∀ i : Int, 0 ≤ i → i < q.dest.len c →
    b.value ops c ms q.dest i = some (t.elem ops (st.shard t.shard) i)
  others : ∀ d, d ∉ (planLayer true c L).map Req.dest → b.dest d = none
  kda : b.kda = !c.isMla L
  mla : b.mla = c.isMla L
  moe : b.moe = !isDense c L

/-- A request the blob holds, read under a tag that fits its storage class. -/
theorem Placed.Holds.value {ops : FloatOps} {st : K3StIndex} {c : K3Cfg} {p : Placed} {ms : Mems}
    {b : K3LayerBind} (h : p.Holds ops st ms.blob) (hp : p.Ok st)
    (hdest : b.dest p.req.dest = some (.blob p.off)) (htake : p.req.take = p.req.dest.len c)
    (htag : p.narrow = (p.req.dest.shape c).isSome ∧ b.wdt = .bf16 ∨ p.narrow = false ∧ b.wdt = .f32)
    {i : Int} (hi : 0 ≤ i) (hlt : i < p.req.dest.len c) :
    b.value ops c ms p.req.dest i = some (p.t.elem ops (st.shard p.t.shard) i) := by
  unfold K3LayerBind.value
  rw [hdest, Option.map_some, Option.some.injEq]
  unfold Placed.Holds at h
  show (match p.req.dest.shape c with
    | some (_, cols) => matElem ops b.wdt cols ms.blob p.off i
    | none => le32 ms.blob (p.off + 4 * i)) = _
  cases hn : p.narrow with
  | true =>
      -- the tensor's own bytes, bf16 as the tag says
      rw [hn, if_pos rfl] at h
      rw [hn] at htag
      obtain ⟨hshape, hwdt⟩ := htag.resolve_right fun hr => by cases hr.1
      obtain ⟨⟨rows, cols⟩, hsh⟩ := Option.isSome_iff_exists.mp hshape.symm
      have hbf16 : p.t.dtype = .bf16 := by
        have := hp.narrow
        rw [hn] at this
        simpa using (Bool.and_eq_true_iff.mp this.symm).2
      have hbytes : p.bytes = p.req.take * 2 := by
        unfold Placed.bytes
        rw [hn, if_pos rfl]
      rw [hsh, hwdt]
      simp only [matElem]
      rw [h.word16 (by omega) (by omega), K3Tensor.elem, hbf16]
      rfl
  | false =>
      rw [hn, if_neg Bool.false_ne_true] at h
      have hword : le32 ms.blob (p.off + 4 * i) = p.t.elem ops (st.shard p.t.shard) i :=
        h i hi (by omega)
      cases hsh : p.req.dest.shape c with
      | none => exact hword
      | some rc =>
          rw [hn, hsh] at htag
          obtain ⟨-, hwdt⟩ := htag.resolve_left fun hl => by cases hl.1
          rw [hwdt]
          exact hword

/-- Whichever plan is loaded, it is the layer's, laid out from 0, with the one storage class for
matrices that its tag names. -/
theorem layerPlan_ok {st : K3StIndex} {c : K3Cfg} {L : Nat} {narrowOk : Bool} {ps : List Placed}
    (h : layerPlan st c L = some (narrowOk, ps)) :
    ps.map Placed.req = planLayer narrowOk c L ∧ (∀ p ∈ ps, p.Ok st) ∧ Laid 0 ps ∧
      ∀ p ∈ ps, p.narrow = (narrowOk && (p.req.dest.shape c).isSome) := by
  have hwant : ∀ narrowOk, ∀ q ∈ planLayer narrowOk c L, 0 ≤ q.want :=
    fun _ q hq => (planLayer_fits L q hq).want_nonneg
  unfold layerPlan at h
  cases hfirst : planResolve st (planLayer true c L) 0 with
  | none => simp [hfirst] at h
  | some ps₀ =>
      simp only [hfirst] at h
      split_ifs at h with hdem
      · obtain ⟨rfl, rfl⟩ := Prod.mk.inj (Option.some.inj h)
        obtain ⟨hmap, hok, hlaid⟩ := planResolve_ok (hwant true) hfirst
        refine ⟨hmap, hok, hlaid, fun p hp => ?_⟩
        have hfit := planLayer_fits L p.req (hmap ▸ List.mem_map_of_mem hp)
        -- a matrix that is not kept as it is would have been counted
        have hnot : ¬ (p.req.narrow && !p.narrow) = true := by
          intro hd
          have hmem := (List.mem_filter (p := fun p : Placed => p.req.narrow && !p.narrow)).mpr ⟨hp, hd⟩
          rw [List.length_eq_zero_iff.mp hdem] at hmem
          exact absurd hmem List.not_mem_nil
        have hn := (hok p hp).narrow
        rw [← hfit.narrow]
        revert hn hnot
        cases p.req.narrow <;> cases p.narrow <;> simp
      · obtain ⟨ps', hsecond, heq⟩ := Option.map_eq_some_iff.mp h
        obtain ⟨rfl, rfl⟩ := Prod.mk.inj heq
        obtain ⟨hmap, hok, hlaid⟩ := planResolve_ok (hwant false) hsecond
        refine ⟨hmap, hok, hlaid, fun p hp => ?_⟩
        have hfit := planLayer_fits L p.req (hmap ▸ List.mem_map_of_mem hp)
        rw [(hok p hp).narrow, hfit.narrow]
        rfl

/-- A request of the layer's plan is in the plan that is loaded, whatever its storage class there. -/
theorem mem_planLayer {c : K3Cfg} {L : Nat} {q : Req} (hq : q ∈ planLayer true c L) (narrowOk : Bool) :
    ∃ q' ∈ planLayer narrowOk c L, q'.name = q.name ∧ q'.dest = q.dest := by
  cases narrowOk with
  | true => exact ⟨q, hq, rfl, rfl⟩
  | false =>
      rw [planLayer_wide]
      exact ⟨q.wide, List.mem_map_of_mem hq, rfl, rfl⟩

theorem planLayer_dests_eq (c : K3Cfg) (L : Nat) (narrowOk : Bool) :
    (planLayer narrowOk c L).map Req.dest = (planLayer true c L).map Req.dest := by
  cases narrowOk with
  | true => rfl
  | false =>
      rw [planLayer_wide, List.map_map]
      rfl

/-- **Binding from the checkpoint denotes the checkpoint.** -/
theorem bindLayer_denotes {ops : FloatOps} {st : K3StIndex} {io : Io} {junk : Mem} {c : K3Cfg} {L : Nat}
    {blob blob' : Mem} {b : K3LayerBind} (h : bindLayer ops st io junk c L blob = some (b, blob'))
    (run widen : Mem) : Denotes ops st c L b ⟨blob', run, widen⟩ := by
  unfold bindLayer at h
  cases hplan : layerPlan st c L with
  | none => simp [hplan] at h
  | some r =>
      obtain ⟨narrowOk, ps⟩ := r
      simp only [hplan] at h
      obtain ⟨hmap, hok, hlaid, hclass⟩ := layerPlan_ok hplan
      have hfit : ∀ p ∈ ps, p.req.Fits narrowOk c := fun p hp =>
        planLayer_fits L p.req (hmap ▸ List.mem_map_of_mem hp)
      have hdests : ps.map (fun p => p.req.dest) = (planLayer narrowOk c L).map Req.dest := by
        rw [← hmap, List.map_map]
        rfl
      cases hload : planLoad ops st io junk 0 ps (fun _ => none) blob with
      | none => simp [hload] at h
      | some r =>
          obtain ⟨dest, blob₁⟩ := r
          simp only [hload, Option.some.injEq, Prod.mk.injEq] at h
          obtain ⟨rfl, rfl⟩ := h
          obtain ⟨hall, hother, -⟩ := planLoad_ok hok
            (fun p hp => by rw [(hfit p hp).take]; exact Int.natCast_nonneg _) hlaid
            (by rw [hdests]; exact planLayer_dests narrowOk c L) hload
          refine ⟨fun q hq => ?_, fun d hd => ?_, rfl, rfl, rfl⟩
          · obtain ⟨q', hq', hname, hdest⟩ := mem_planLayer hq narrowOk
            rw [← hmap] at hq'
            obtain ⟨p, hp, rfl⟩ := List.mem_map.mp hq'
            obtain ⟨hptr, hholds⟩ := hall p hp
            refine ⟨p.t, hname ▸ (hok p hp).found, fun i hi hlt => ?_⟩
            rw [← hdest] at hlt ⊢
            have hholds' : p.Holds ops st (Mems.mk blob₁ run widen).blob := hholds
            have hptr' : (K3LayerBind.mk dest (if narrowOk then .bf16 else .f32) (!c.isMla L) (c.isMla L)
                (!isDense c L)).dest p.req.dest = some (.blob p.off) := hptr
            refine hholds'.value (hok p hp) hptr' (hfit p hp).take ?_ hi hlt
            rw [hclass p hp]
            cases narrowOk with
            | true => exact Or.inl ⟨Bool.true_and _, rfl⟩
            | false => exact Or.inr ⟨rfl, rfl⟩
          · exact hother d (by rw [hdests, planLayer_dests_eq]; exact hd)

/-! ## When it binds -/

theorem loadOne_isSome (ops : FloatOps) {st : K3StIndex} {p : Placed}
    (h : p.t.InFile (st.shard p.t.shard)) (io : Io) (junk : Mem) (i : Nat) (blob : Mem) :
    (loadOne ops st io junk i p blob).isSome := by
  unfold loadOne
  simp only [k3StRead_inFile h, k3StReadF32_inFile h, ne_eq, not_true_eq_false, if_false]
  split_ifs <;> rfl

theorem planLoad_isSome (ops : FloatOps) {st : K3StIndex} (io : Io) (junk : Mem) : ∀ {ps : List Placed}
    (i : Nat) (dest : Dest → Option Ptr) (blob : Mem), (∀ p ∈ ps, p.t.InFile (st.shard p.t.shard)) →
    (planLoad ops st io junk i ps dest blob).isSome
  | [], _, _, _, _ => rfl
  | p :: ps, i, dest, blob, h => by
      obtain ⟨blob', hone⟩ := Option.isSome_iff_exists.mp
        (loadOne_isSome ops (h p (List.mem_cons_self ..)) io junk i blob)
      unfold planLoad
      rw [hone]
      exact planLoad_isSome ops io junk (i + 1) _ blob' fun p' hp' => h p' (List.mem_cons_of_mem _ hp')

/-- **A layer that resolves is bound**, if its tensors lie inside their files. -/
theorem bindLayer_isSome {ops : FloatOps} {st : K3StIndex} {c : K3Cfg} {L : Nat}
    (hresolves : (layerPlan st c L).isSome) (hfiles : ∀ name t, st.find name = some t → t.InFile (st.shard t.shard))
    (io : Io) (junk blob : Mem) : (bindLayer ops st io junk c L blob).isSome := by
  obtain ⟨⟨narrowOk, ps⟩, hplan⟩ := Option.isSome_iff_exists.mp hresolves
  obtain ⟨-, hok, -, -⟩ := layerPlan_ok hplan
  obtain ⟨r, hload⟩ := Option.isSome_iff_exists.mp (planLoad_isSome ops io junk 0
    (fun _ => none) blob fun p hp => hfiles _ _ (hok p hp).found)
  unfold bindLayer
  rw [hplan]
  simp only [hload, Option.isSome_some]

end LlmEngine.Bind
