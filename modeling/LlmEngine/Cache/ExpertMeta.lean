/-
# LlmEngine.Cache.ExpertMeta — the reference of an expert as a slot's metadata (`src/cache/k3_cache.c`).

The cache keeps one `K3ExpertRef` per slot as opaque bytes: `k3_describe` writes the structure,
`k3_load` and `fill_q` read it back through a cast.  The structure is its members at their widths on a
64-bit target, padding included.  `k3_expert_ref` clears it first and fills it as the matrices pass, so a
refusal leaves the names of the expert and the sizes of the matrices before the one that failed.

* `K3ExpertRef.members` lists the members in their order; the widths are those of the structure (`refWidths`), so
  the bytes are those of a record (`Lib.Record`).
* `ofBytes_toBytes` is the cast back, for members that fit their widths (`Storable`).
* `refLeft` is what a refused `k3_expert_ref` leaves in the slot.
* `k3ExpertRef_storable`: an accepted reference fits, if the checkpoint's tensors lie inside their files and the
  expert's size is an `int64_t`.
-/
import LlmEngine.Bind.Expert
import LlmEngine.Lib.Record

namespace LlmEngine.Bind

open LlmEngine.Lib
open LlmEngine.Lib.Record (Holds encode decode)

/-! ## The structure -/

/-- The members of `K3QMat`. -/
def K3QMat.members (q : K3QMat) : List (Nat × Int) :=
  [(8, q.pOff), (8, q.pBytes), (8, q.sOff), (8, q.sBytes), (4, q.rows), (4, q.pcols), (4, q.scols), (4, 0)]

/-- The members of `K3ExpertRef`. -/
def K3ExpertRef.members (r : K3ExpertRef) : List (Nat × Int) :=
  [(4, r.layer), (4, r.expert), (4, (r.shard : Int)), (4, 0), (8, r.off), (8, r.nbytes),
    (4, if r.contiguous then 1 else 0), (4, 0)] ++ r.m1.members ++ r.m2.members ++ r.m3.members

/-- `sizeof(K3ExpertRef)`. -/
abbrev refBytes : Nat := 184

def matWidths : List Nat := [8, 8, 8, 8, 4, 4, 4, 4]

def refWidths : List Nat := [4, 4, 4, 4, 8, 8, 4, 4] ++ matWidths ++ matWidths ++ matWidths

/-- The widths do not depend on the values. -/
theorem K3ExpertRef.members_widths (r : K3ExpertRef) : r.members.map Prod.fst = refWidths := rfl

/-- The structure as it lies in memory. -/
def K3ExpertRef.toBytes (r : K3ExpertRef) : Vector UInt8 refBytes :=
  ⟨(encode r.members).toArray, by
    rw [List.size_toArray, Record.encode_length, r.members_widths]
    rfl⟩

/-- The matrix whose members start at `x 0`. -/
def matAt (x : Nat → Int) : K3QMat := ⟨x 0, x 1, x 2, x 3, x 4, x 5, x 6⟩

/-- `(const K3ExpertRef *)meta`. -/
def K3ExpertRef.ofBytes (v : Vector UInt8 refBytes) : K3ExpertRef :=
  let x := fun i => (decode refWidths v.toList).getD i 0
  { layer := x 0, expert := x 1, shard := (x 2).toNat, off := x 4, nbytes := x 5, contiguous := decide (x 6 ≠ 0)
    m1 := matAt fun i => x (8 + i)
    m2 := matAt fun i => x (16 + i)
    m3 := matAt fun i => x (24 + i) }

/-- Every member has room for its value. -/
def K3ExpertRef.Storable (r : K3ExpertRef) : Prop := ∀ m ∈ r.members, Holds m.1 m.2

/-- **The reference survives the copy into a slot and back.** -/
theorem K3ExpertRef.ofBytes_toBytes {r : K3ExpertRef} (h : r.Storable) : ofBytes r.toBytes = r := by
  have hlist : r.toBytes.toList = encode r.members := by
    simp only [toBytes, Vector.toList_mk]
  have hvals : decode refWidths r.toBytes.toList = r.members.map Prod.snd := by
    rw [hlist, ← r.members_widths]
    exact Record.decode_encode r.members h
  obtain ⟨layer, expert, shard, off, nbytes, contiguous, m1, m2, m3⟩ := r
  unfold ofBytes
  rw [hvals]
  cases contiguous <;> rfl

/-! ## What a refusal leaves -/

/-- What `k3_expert_ref` leaves in `*r`, accepted or refused. -/
def refLeft (s : K3StIndex) (layer expert : Int) : K3ExpertRef :=
  match k3ExpertRef s layer expert with
  | .ok r => r
  | .error _ =>
      let none_ : K3QMat := ⟨0, 0, 0, 0, 0, 0, 0⟩
      let cleared : K3ExpertRef :=
        { layer := layer, expert := expert, shard := 0, off := 0, nbytes := 0, contiguous := false
          m1 := none_, m2 := none_, m3 := none_ }
      match refPair s layer expert none "w1" with
      | .error _ => cleared
      | .ok a =>
          match refPair s layer expert (some a.pk.shard) "w2" with
          | .error _ => { cleared with m1 := a.place 0 0 }
          | .ok b => { cleared with m1 := a.place 0 0, m2 := b.place 0 0 }

theorem refLeft_ok {s : K3StIndex} {layer expert : Int} {r : K3ExpertRef} (h : k3ExpertRef s layer expert = .ok r) :
    refLeft s layer expert = r := by
  unfold refLeft
  rw [h]

/-! ## What is accepted can be stored -/

/-- A dimension cut to an `int` is an `int`. -/
theorem holds_bmod (v : Int) : Holds 4 (v.bmod (2 ^ 32)) := by
  have hlo := Int.le_bmod (x := v) (m := 2 ^ 32) (by decide)
  have hhi := Int.bmod_lt (x := v) (m := 2 ^ 32) (by decide)
  unfold Holds
  omega

/-- The values of a matrix placed inside the run can be stored. -/
theorem place_storable {x : Pair} {pOff sOff n : Int} (hn : n < 2 ^ 63) (hp : 0 ≤ pOff ∧ pOff + x.pk.nbytes ≤ n)
    (hs : 0 ≤ sOff ∧ sOff + x.sc.nbytes ≤ n) (hpk : 0 ≤ x.pk.nbytes) (hsc : 0 ≤ x.sc.nbytes) :
    ∀ m ∈ (x.place pOff sOff).members, Holds m.1 m.2 := by
  simp only [K3QMat.members, Pair.place, List.forall_mem_cons]
  refine ⟨?_, ?_, ?_, ?_, holds_bmod _, holds_bmod _, holds_bmod _, by decide, fun _ h => absurd h List.not_mem_nil⟩
  all_goals
    unfold Holds
    omega

/-- The six places of an accepted expert lie in its bytes. -/
theorem K3ExpertRef.Accepted.place_inside {s : K3StIndex} {r : K3ExpertRef} {a b c : Pair} {shard : Nat}
    (h : r.Accepted s a b c shard) {x : K3Tensor × Int} (hx : x ∈ r.places a b c) :
    0 ≤ x.2 ∧ x.2 + x.1.nbytes ≤ r.nbytes := by
  obtain hrun | hsix := h.layout
  · exact (hrun.place x hx).2.2
  · exact hsix.inside h.inFile hx

/-- `v` is an `int`. -/
def IsInt (v : Int) : Prop := -2 ^ 31 ≤ v ∧ v < 2 ^ 31

/-- **A reference that `k3_expert_ref` accepts can be stored**, if its size is an `int64_t`. -/
theorem k3ExpertRef_storable {s : K3StIndex} (hs : s.Inside) (hshards : s.nshard < 2 ^ 31) {layer expert : Int}
    (hlayer : IsInt layer) (hexpert : IsInt expert) {r : K3ExpertRef} (h : k3ExpertRef s layer expert = .ok r)
    (hn : r.nbytes < 2 ^ 63) : r.Storable := by
  obtain ⟨a, b, c, hr, ha, hb, hc⟩ := k3ExpertRef_ok h
  have hshard := hs.shard _ _ ha.pk
  have hstart : 0 ≤ lowest a.pk.off (sixOf a b c) :=
    le_lowest (hs.span _ _ ha.pk).start fun t ht => by
      obtain ⟨name, hname, -⟩ := sixOf_found ha hb hc ht
      exact (hs.span _ _ hname).start
  have hfirst := (lowest_le a.pk.off (sixOf a b c)).1
  have hmax := a.pk.off_max
  -- both layouts place the same six tensors inside the bytes of the reference
  have hacc : r.Accepted s a b c a.pk.shard := by
    rw [hr]
    unfold makeRef
    split_ifs with htest
    · exact .of_layout hs ha hb hc (Or.inl (runRef_isRun hs ha hb hc htest))
    · exact .of_layout hs ha hb hc (Or.inr (packedRef_isPacked layer expert a b c))
  have hfields : r.layer = layer ∧ r.expert = expert ∧ r.shard = a.pk.shard ∧
      r.off = lowest a.pk.off (sixOf a b c) ∧ r.m1 = a.place r.m1.pOff r.m1.sOff ∧
      r.m2 = b.place r.m2.pOff r.m2.sOff ∧ r.m3 = c.place r.m3.pOff r.m3.sOff := by
    rw [hr]
    unfold makeRef
    split_ifs <;> exact ⟨rfl, rfl, rfl, rfl, rfl, rfl, rfl⟩
  have hplace := fun x hx => hacc.place_inside (x := x) hx
  have hsize := fun x hx => (hacc.inFile x hx).size
  simp only [K3ExpertRef.places, List.forall_mem_cons] at hplace hsize
  obtain ⟨h1, h2, h3, h4, h5, h6, -⟩ := hplace
  obtain ⟨g1, g2, g3, g4, g5, g6, -⟩ := hsize
  obtain ⟨hlay, hexp, hsh, hoff, hm1, hm2, hm3⟩ := hfields
  have hn0 : 0 ≤ r.nbytes := by omega
  unfold K3ExpertRef.Storable K3ExpertRef.members IsInt at *
  rw [hm1, hm2, hm3, hlay, hexp, hsh, hoff]
  simp only [List.forall_mem_append, List.forall_mem_cons]
  refine ⟨⟨⟨⟨?_, ?_, ?_, by decide, ?_, ?_, ?_, by decide, fun _ h => absurd h List.not_mem_nil⟩,
    place_storable hn h1 h2 g1 g2⟩, place_storable hn h3 h4 g3 g4⟩, place_storable hn h5 h6 g5 g6⟩
  · unfold Holds
    omega
  · unfold Holds
    omega
  · unfold Holds
    omega
  · unfold Holds
    omega
  · unfold Holds
    omega
  · split <;> decide

end LlmEngine.Bind
