/-
# LlmEngine.Formats.GgufWalk — what an accepted header is known to satisfy.

Every span the walk handed out lies in the blob, every string array has been walked to its end, every
fixed-width array has been stepped over by the product the code computed, and every tensor carries
the size and the place the code computed.  These are the facts the code checks, in its own
arithmetic; whether they bound the exact sizes is another question (`GgufHostile`).

* `KvIn` is what is known of an entry, `TensorIn` of a tensor, and `Inside` of the walk: its record's entries and
  tensors are so, and the cursor is in the blob.
* Every reader keeps `Inside`; there is one lemma for each (`rd_inside` to `readTensor_inside`), put together by the
  rules of `Lib.Walk`.
* `readCounts_eq` says what the fixed fields decide, and `roundUp_eq` where the data section starts.

`skipStrs` is the walk over a string array as a function of the blob, which `gguf_arr_str` repeats later.
-/
import LlmEngine.Formats.Gguf

namespace LlmEngine.Formats

open LlmEngine.Lib
open LlmEngine.Lib.LittleEndian
open LlmEngine.Lib.Walk
open LlmEngine.Tensor

/-! ## Strings in a blob -/

/-- The length field of the string at `pos`. -/
def strLenAt (blob : Bytes) (pos : Nat) : Nat := (word 64 8 (blob.drop pos)).toNat

/-- Where the string at `pos` ends, if the blob holds it. -/
def skipStr (blob : Bytes) (pos : Nat) : Option Nat :=
  if pos + 8 + strLenAt blob pos ≤ blob.length then some (pos + 8 + strLenAt blob pos) else none

/-- Where the `n` strings from `pos` on end. -/
def skipStrs (blob : Bytes) : Nat → Nat → Option Nat
  | 0, pos => some pos
  | n + 1, pos => (skipStr blob pos).bind (skipStrs blob n)

theorem skipStr_some {blob : Bytes} {pos fin : Nat} (h : skipStr blob pos = some fin) :
    fin = pos + 8 + strLenAt blob pos ∧ fin ≤ blob.length := by
  unfold skipStr at h
  split_ifs at h with hle
  obtain rfl := Option.some.inj h
  exact ⟨rfl, hle⟩

theorem skipStrs_le {blob : Bytes} (n : Nat) : ∀ {pos fin : Nat}, pos ≤ blob.length →
    skipStrs blob n pos = some fin → pos ≤ fin ∧ fin ≤ blob.length := by
  induction n with
  | zero =>
      intro pos fin hpos h
      obtain rfl := Option.some.inj h
      exact ⟨Nat.le_refl _, hpos⟩
  | succ n ih =>
      intro pos fin _ h
      obtain ⟨q, hq, hrest⟩ := Option.bind_eq_some_iff.mp h
      obtain ⟨hqeq, hqle⟩ := skipStr_some hq
      obtain ⟨hle, hfin⟩ := ih hqle hrest
      exact ⟨by omega, hfin⟩

/-- A walk to the end passes every string on the way. -/
theorem skipStrs_split {blob : Bytes} (i m : Nat) : ∀ {pos : Nat},
    skipStrs blob (i + m) pos = (skipStrs blob i pos).bind (skipStrs blob m) := by
  induction i with
  | zero =>
      intro pos
      rw [Nat.zero_add]
      rfl
  | succ i ih =>
      intro pos
      rw [Nat.succ_add, skipStrs, skipStrs, Option.bind_assoc]
      congr 1
      funext q
      exact ih

/-- The string at `i`, among those that were walked over. -/
theorem skipStrs_at {blob : Bytes} {n i pos fin : Nat} (h : skipStrs blob n pos = some fin) (hi : i < n) :
    ∃ q q', skipStrs blob i pos = some q ∧ skipStr blob q = some q' ∧
      skipStrs blob (n - i - 1) q' = some fin := by
  rw [show n = i + (n - i - 1 + 1) by omega, skipStrs_split] at h
  obtain ⟨q, hq, hrest⟩ := Option.bind_eq_some_iff.mp h
  obtain ⟨q', hq', hrest'⟩ := Option.bind_eq_some_iff.mp hrest
  exact ⟨q, q', hq, hq', hrest'⟩

/-! ## What is known of an entry -/

/-- The number of payload bytes the walk steps over, as the code computes it. -/
def stepOver (ty : GgufType) (n : BitVec 64) : Nat := (BitVec.ofNat 64 (scalarSize ty) * n).toNat

/-- The payload of an array of `n` elements of type `ty` at `pos`, as far as the walk looks. -/
def PayloadIn (blob : Bytes) (ty : GgufType) (n : BitVec 64) (pos : Nat) : Prop :=
  (scalarSize ty > 0 ∧ pos + stepOver ty n ≤ blob.length) ∨
    (ty = .string ∧ ∃ fin, skipStrs blob n.toInt.toNat pos = some fin)

/-- What the walk knows of an entry's value. -/
structure KvIn (blob : Bytes) (k : GgufKV) : Prop where
  i_lt : k.i < 2 ^ 63
  str : ∀ sp, k.str = some sp → sp.off + sp.len ≤ blob.length
  array : k.type = .array → k.arrData ≤ blob.length ∧
    ∃ n : BitVec 64, k.arrLen = n.toInt ∧ PayloadIn blob k.arrType n k.arrData

/-- What the walk knows of a tensor before it is placed. -/
structure TensorIn (t : GgufTensor) : Prop where
  dims : ∃ ds : List (BitVec 64), t.shape = ds.map BitVec.toInt ∧ 1 ≤ ds.length ∧ ds.length ≤ 4
  dtype : ggufDtype t.ggmlType = some t.dtype
  nbytes : t.nbytes = engTensorNbytes t.dtype t.shape
  nbytes_nonneg : 0 ≤ t.nbytes
  relOff : ∃ o : BitVec 64, t.relOff = o.toInt

/-- The types a container can name are not row-scaled. -/
theorem ggufDtype_plain {v : BitVec 32} {dt : EngDType} (h : ggufDtype v = some dt) :
    (engDtypeInfo dt).rowScale = false := by
  unfold ggufDtype at h
  split at h <;> first
    | (obtain rfl := Option.some.inj h; rfl)
    | exact absurd h (by simp)

/-- The state of a walk that set out from the record `g₀`. -/
structure Inside (g₀ : Gguf) (s : Walk) : Prop where
  blob_eq : s.g.blob = g₀.blob
  file_eq : s.g.fileSize = g₀.fileSize
  data_eq : s.g.dataBytes = g₀.dataBytes
  pos : s.c.pos ≤ g₀.blob.length
  kv : ∀ k ∈ s.g.kv, KvIn g₀.blob k
  t : ∀ t ∈ s.g.t, TensorIn t

section Steps

variable {g₀ : Gguf}

theorem Inside.latch {s : Walk} (h : Inside g₀ s) : Inside g₀ s.latch :=
  ⟨h.blob_eq, h.file_eq, h.data_eq, h.pos, h.kv, h.t⟩

theorem Inside.advance {s : Walk} {n : Nat} (h : Inside g₀ s) (hn : s.c.pos + n ≤ g₀.blob.length) :
    Inside g₀ (s.advance n) :=
  ⟨h.blob_eq, h.file_eq, h.data_eq, hn, h.kv, h.t⟩

theorem rd_has {s : Walk} {n : Nat} (h : s.Has n) :
    rd n s = .ok (word 64 n (s.g.blob.drop s.c.pos)) (s.advance n) := if_pos h

theorem rd_lacks {s : Walk} {n : Nat} (h : ¬ s.Has n) : rd n s = .ok 0 s.latch := if_neg h

theorem rd_inside (n : Nat) : Ensures (Inside g₀) (rd n) fun _ s => Inside g₀ s := by
  intro s hs v t h
  unfold rd at h
  split_ifs at h with hhas
  · obtain ⟨-, rfl⟩ := EStateM.Result.ok.inj h
    exact hs.advance (hs.blob_eq ▸ hhas.2)
  · obtain ⟨-, rfl⟩ := EStateM.Result.ok.inj h
    exact hs.latch

theorem rdU8_inside : Ensures (Inside g₀) rdU8 fun _ s => Inside g₀ s :=
  (rd_inside 1).bind fun _ => Ensures.pure fun _ h => h

theorem rdU16_inside : Ensures (Inside g₀) rdU16 fun _ s => Inside g₀ s :=
  (rd_inside 2).bind fun _ => Ensures.pure fun _ h => h

theorem rdU32_inside : Ensures (Inside g₀) rdU32 fun _ s => Inside g₀ s :=
  (rd_inside 4).bind fun _ => Ensures.pure fun _ h => h

theorem rdU64_inside : Ensures (Inside g₀) rdU64 fun _ s => Inside g₀ s := rd_inside 8

/-- **What `rd_str` does**: the string at the cursor, or the latch. -/
theorem rdStr_eq {s : Walk} (hlive : s.c.bad = false) :
    rdStr s = match skipStr s.g.blob s.c.pos with
      | some fin => .ok ⟨s.c.pos + 8, strLenAt s.g.blob s.c.pos⟩ (s.advance (fin - s.c.pos))
      | none => if s.Has 8 then .ok ⟨0, 0⟩ (s.advance 8).latch else .ok ⟨0, 0⟩ s.latch.latch := by
  unfold rdStr rdU64
  by_cases hhas : s.Has 8
  · have hrd : rd 8 s = .ok (word 64 8 (s.g.blob.drop s.c.pos)) (s.advance 8) := if_pos hhas
    rw [bind_of_ok hrd]
    unfold skipStr strLenAt takeSpan
    by_cases hle : s.c.pos + 8 + (word 64 8 (s.g.blob.drop s.c.pos)).toNat ≤ s.g.blob.length
    · have hstr : (s.advance 8).Has (word 64 8 (s.g.blob.drop s.c.pos)).toNat := ⟨hlive, hle⟩
      rw [if_pos hle, if_pos hstr]
      simp only [Walk.advance, EStateM.Result.ok.injEq, Walk.mk.injEq, Cur.mk.injEq, true_and,
        and_true]
      omega
    · have hstr : ¬ (s.advance 8).Has (word 64 8 (s.g.blob.drop s.c.pos)).toNat := fun h => hle h.2
      rw [if_neg hle, if_neg hstr]
      exact (if_pos hhas).symm
  · have hrd : rd 8 s = .ok 0 s.latch := if_neg hhas
    have hdead : ¬ s.latch.Has (0 : BitVec 64).toNat := fun h => absurd h.1 (by simp [Walk.latch])
    have hshort : ¬ s.c.pos + 8 + strLenAt s.g.blob s.c.pos ≤ s.g.blob.length := fun h =>
      hhas ⟨hlive, by omega⟩
    rw [bind_of_ok hrd, skipStr, if_neg hshort, takeSpan, if_neg hdead]
    exact (if_neg hhas).symm

theorem rdStr_inside : Ensures (Inside g₀) rdStr fun sp s =>
    Inside g₀ s ∧ (s.c.bad = false → sp.off + sp.len = s.c.pos) := by
  unfold rdStr
  refine rdU64_inside.bind fun n => ?_
  intro s hs sp t h
  unfold takeSpan at h
  split_ifs at h with hhas
  · obtain ⟨rfl, rfl⟩ := EStateM.Result.ok.inj h
    exact ⟨hs.advance (hs.blob_eq ▸ hhas.2), fun _ => rfl⟩
  · obtain ⟨-, rfl⟩ := EStateM.Result.ok.inj h
    exact ⟨hs.latch, fun hl => absurd hl (by simp [Walk.latch])⟩

theorem checkBad_ensures {P : Walk → Prop} :
    Ensures P checkBad fun _ s => P s ∧ s.c.bad = false := by
  intro s hs _ t h
  unfold checkBad at h
  split_ifs at h with hbad
  obtain ⟨-, rfl⟩ := EStateM.Result.ok.inj h
  exact ⟨hs, Bool.eq_false_iff.mpr hbad⟩

theorem refuseIf_ensures {P : Walk → Prop} {p : Prop} [Decidable p] {e : Stop} :
    Ensures P (refuseIf p e) fun _ s => P s ∧ ¬ p := by
  intro s hs _ t h
  unfold refuseIf at h
  split_ifs at h with hp
  obtain ⟨-, rfl⟩ := EStateM.Result.ok.inj h
  exact ⟨hs, hp⟩

theorem onG_ensures {P : Walk → Prop} {Q : Unit → Walk → Prop} {f : Gguf → Gguf}
    (h : ∀ s, P s → Q () { s with g := f s.g }) : Ensures P (onG f) Q := by
  intro s hs _ t ht
  obtain ⟨-, rfl⟩ := EStateM.Result.ok.inj ht
  exact h s hs

theorem getPos_ensures {P : Walk → Prop} : Ensures P getPos fun a s => P s ∧ a = s.c.pos := by
  intro s hs a t ht
  obtain ⟨rfl, rfl⟩ := EStateM.Result.ok.inj ht
  exact ⟨hs, rfl⟩

theorem readName_inside : Ensures (Inside g₀) readName fun _ s => Inside g₀ s := by
  refine rdStr_inside.bind fun sp => checkBad_ensures.bind fun _ => ?_
  intro s hs _ t h
  unfold poolAdd at h
  split_ifs at h
  obtain ⟨-, rfl⟩ := EStateM.Result.ok.inj h
  exact ⟨hs.1.1.blob_eq, hs.1.1.file_eq, hs.1.1.data_eq, hs.1.1.pos, hs.1.1.kv, hs.1.1.t⟩

/-- One string of an array, stepped over. -/
theorem stepStr_ensures (pos : Nat) :
    Ensures (fun s => Inside g₀ s ∧ s.c.bad = false ∧ s.c.pos = pos)
      (do let _ ← rdStr; checkBad) fun _ s =>
        Inside g₀ s ∧ s.c.bad = false ∧ skipStr g₀.blob pos = some s.c.pos := by
  rintro s ⟨hs, hlive, rfl⟩ _ t h
  obtain ⟨sp, u, hrd, hcheck⟩ := bind_ok h
  have hu := rdStr_inside s hs sp u hrd
  obtain ⟨-, hlive'⟩ := checkBad_ensures (P := fun _ => True) u trivial _ t hcheck
  obtain rfl : t = u := by
    unfold checkBad at hcheck
    split_ifs at hcheck
    exact (EStateM.Result.ok.inj hcheck).2.symm
  refine ⟨hu.1, hlive', ?_⟩
  rw [rdStr_eq hlive, hs.blob_eq] at hrd
  cases hskip : skipStr g₀.blob s.c.pos with
  | some fin =>
      rw [hskip] at hrd
      obtain ⟨-, rfl⟩ := EStateM.Result.ok.inj hrd
      obtain ⟨hfin, -⟩ := skipStr_some hskip
      have hpos : s.c.pos + (fin - s.c.pos) = fin := by omega
      exact congrArg some hpos.symm
  | none =>
      rw [hskip] at hrd
      simp only at hrd
      split_ifs at hrd <;>
        exact absurd ((EStateM.Result.ok.inj hrd).2 ▸ hlive') (by simp [Walk.latch])

/-- The strings of an array are walked to the end. -/
theorem stepStrs_ensures (n : Nat) : ∀ pos : Nat,
    Ensures (fun s => Inside g₀ s ∧ s.c.bad = false ∧ s.c.pos = pos)
      (times (do let _ ← rdStr; checkBad) n) fun _ s =>
        Inside g₀ s ∧ s.c.bad = false ∧ skipStrs g₀.blob n pos = some s.c.pos := by
  induction n with
  | zero =>
      intro pos
      exact Ensures.pure fun s hs => ⟨hs.1, hs.2.1, congrArg some hs.2.2.symm⟩
  | succ n ih =>
      intro pos
      refine (stepStr_ensures pos).bind fun _ => ?_
      intro s hs
      refine ((ih s.c.pos).bind fun _ => Ensures.pure fun u hu => ?_) s ⟨hs.1, hs.2.1, rfl⟩
      refine ⟨hu.1, hu.2.1, ?_⟩
      rw [skipStrs, hs.2.2]
      exact hu.2.2

theorem skipPayload_ensures (ty : GgufType) (n : BitVec 64) (pos : Nat) :
    Ensures (fun s => Inside g₀ s ∧ s.c.bad = false ∧ s.c.pos = pos) (skipPayload ty n)
      fun _ s => Inside g₀ s ∧ s.c.bad = false ∧ PayloadIn g₀.blob ty n pos := by
  unfold skipPayload
  split_ifs with hscalar hstring
  · rintro s ⟨hs, hlive, rfl⟩ _ t h
    unfold skipBytes at h
    split_ifs at h with hle
    obtain ⟨-, rfl⟩ := EStateM.Result.ok.inj h
    rw [hs.blob_eq] at hle
    exact ⟨hs.advance hle, hlive, .inl ⟨hscalar, hle⟩⟩
  · refine (stepStrs_ensures _ pos).bind fun _ => Ensures.pure fun s hs => ?_
    exact ⟨hs.1, hs.2.1, .inr ⟨hstring, _, hs.2.2⟩⟩
  · exact Ensures.throw

theorem readArray_ensures (k : GgufKV) (hi : k.i < 2 ^ 63) (hstr : k.str = none) :
    Ensures (Inside g₀) (readArray k) fun k' s =>
      Inside g₀ s ∧ (s.c.bad = false → k'.key = k.key ∧ KvIn g₀.blob k') := by
  unfold readArray
  refine rdU32_inside.bind fun ty => rdU64_inside.bind fun n => checkBad_ensures.bind fun _ =>
    getPos_ensures.bind fun pos => ?_
  cases GgufType.ofU32 ty with
  | none => exact Ensures.throw
  | some ty =>
      intro s hs
      refine ((skipPayload_ensures ty n pos).bind fun _ => Ensures.pure fun u hu => ?_) s
        ⟨hs.1.1, hs.1.2, hs.2.symm⟩
      refine ⟨hu.1, fun _ => ⟨rfl, ⟨hi, fun sp hsp => absurd (hstr.symm.trans hsp) (by simp),
        fun _ => ⟨?_, n, rfl, hu.2.2⟩⟩⟩⟩
      show pos ≤ g₀.blob.length
      rw [hs.2]
      exact hs.1.1.pos

/-- A scalar says nothing about spans. -/
theorem KvIn.scalar {k : GgufKV} (hk : k.type ≠ .array) (hstr : k.str = none) (hi : k.i < 2 ^ 63) :
    KvIn g₀.blob k :=
  ⟨hi, fun _ h => absurd (hstr.symm.trans h) (by simp), fun h => absurd h hk⟩

/-- Nothing an `int64_t` is assigned from can be larger than it. -/
theorem unsigned_lt {w : Nat} (v : BitVec w) (hw : w < 64) : (v.toNat : Int) < 2 ^ 63 := by
  have hlt := v.isLt
  have hpow : 2 ^ w ≤ 2 ^ 63 := Nat.pow_le_pow_right (by decide) (by omega)
  omega

theorem signed_lt {w : Nat} (v : BitVec w) (hw : w ≤ 64) : v.toInt < 2 ^ 63 := by
  have hlt := BitVec.two_mul_toInt_lt (x := v)
  have hpow : 2 ^ w ≤ 2 ^ 64 := Nat.pow_le_pow_right (by decide) hw
  have hcast : ((2 : Int) ^ w) = ((2 ^ w : Nat) : Int) := by norm_cast
  omega

theorem readValue_ensures (key : Bytes) (ty : GgufType) :
    Ensures (Inside g₀) (readValue (.blank key ty)) fun k s =>
      Inside g₀ s ∧ (s.c.bad = false → k.key = key ∧ KvIn g₀.blob k) := by
  cases ty with
  | array => exact readArray_ensures _ (by simp [GgufKV.blank]) rfl
  | string =>
      refine rdStr_inside.bind fun sp => Ensures.pure fun s hs => ⟨hs.1, fun hlive => ⟨rfl, ?_⟩⟩
      refine ⟨by simp [GgufKV.blank], fun sp' h => ?_, fun h => absurd h (by simp [GgufKV.blank])⟩
      obtain rfl := Option.some.inj h
      rw [hs.2 hlive]
      exact hs.1.pos
  | uint8 =>
      exact rdU8_inside.bind fun v => Ensures.pure fun s hs =>
        ⟨hs, fun _ => ⟨rfl, .scalar (by simp [GgufKV.blank]) rfl (unsigned_lt v (by decide))⟩⟩
  | int8 =>
      exact rdU8_inside.bind fun v => Ensures.pure fun s hs =>
        ⟨hs, fun _ => ⟨rfl, .scalar (by simp [GgufKV.blank]) rfl (signed_lt v (by decide))⟩⟩
  | bool =>
      refine rdU8_inside.bind fun v => Ensures.pure fun s hs =>
        ⟨hs, fun _ => ⟨rfl, .scalar (by simp [GgufKV.blank]) rfl ?_⟩⟩
      show (if v ≠ 0 then 1 else 0 : Int) < 2 ^ 63
      split_ifs <;> decide
  | uint16 =>
      exact rdU16_inside.bind fun v => Ensures.pure fun s hs =>
        ⟨hs, fun _ => ⟨rfl, .scalar (by simp [GgufKV.blank]) rfl (unsigned_lt v (by decide))⟩⟩
  | int16 =>
      exact rdU16_inside.bind fun v => Ensures.pure fun s hs =>
        ⟨hs, fun _ => ⟨rfl, .scalar (by simp [GgufKV.blank]) rfl (signed_lt v (by decide))⟩⟩
  | uint32 =>
      exact rdU32_inside.bind fun v => Ensures.pure fun s hs =>
        ⟨hs, fun _ => ⟨rfl, .scalar (by simp [GgufKV.blank]) rfl (unsigned_lt v (by decide))⟩⟩
  | int32 =>
      exact rdU32_inside.bind fun v => Ensures.pure fun s hs =>
        ⟨hs, fun _ => ⟨rfl, .scalar (by simp [GgufKV.blank]) rfl (signed_lt v (by decide))⟩⟩
  | float32 =>
      exact rdU32_inside.bind fun v => Ensures.pure fun s hs =>
        ⟨hs, fun _ => ⟨rfl, .scalar (by simp [GgufKV.blank]) rfl (by simp [GgufKV.blank])⟩⟩
  | uint64 | int64 =>
      exact rdU64_inside.bind fun v => Ensures.pure fun s hs =>
        ⟨hs, fun _ => ⟨rfl, .scalar (by simp [GgufKV.blank]) rfl (signed_lt v (by decide))⟩⟩
  | float64 =>
      exact rdU64_inside.bind fun v => Ensures.pure fun s hs =>
        ⟨hs, fun _ => ⟨rfl, .scalar (by simp [GgufKV.blank]) rfl (by simp [GgufKV.blank])⟩⟩

theorem readKv_inside : Ensures (Inside g₀) readKv fun _ s => Inside g₀ s := by
  unfold readKv
  refine readName_inside.bind fun key => rdU32_inside.bind fun ty => ?_
  cases GgufType.ofU32 ty with
  | none => exact Ensures.throw
  | some ty =>
      refine (readValue_ensures key ty).bind fun k => checkBad_ensures.bind fun _ =>
        onG_ensures fun s hs => ?_
      obtain ⟨⟨hin, hk⟩, hlive⟩ := hs
      refine ⟨hin.blob_eq, hin.file_eq, hin.data_eq, hin.pos, fun k' hk' => ?_, hin.t⟩
      rcases List.mem_append.mp hk' with hold | hnew
      · exact hin.kv k' hold
      · rw [List.mem_singleton.mp hnew]
        exact (hk hlive).2

theorem times_length {α : Type} {P : Walk → Prop} {m : Parse α} (hm : Ensures P m fun _ s => P s)
    (n : Nat) : Ensures P (times m n) fun as s => P s ∧ as.length = n := by
  induction n with
  | zero => exact Ensures.pure fun s hs => ⟨hs, rfl⟩
  | succ n ih =>
      exact hm.bind fun a => ih.bind fun as => Ensures.pure fun s hs =>
        ⟨hs.1, congrArg (· + 1) hs.2⟩

theorem readTensor_inside : Ensures (Inside g₀) readTensor fun _ s => Inside g₀ s := by
  unfold readTensor
  refine readName_inside.bind fun name => rdU32_inside.bind fun nDims => checkBad_ensures.bind
    fun _ => refuseIf_ensures.bind fun _ => ?_
  intro s hs
  have hdims : 1 ≤ nDims.toNat ∧ nDims.toNat ≤ 4 := by
    have h := hs.2
    have hint := BitVec.toInt_eq_toNat_cond nDims
    unfold ggufMaxDims at h
    split_ifs at hint <;> omega
  refine ((times_length rdU64_inside nDims.toNat).bind fun ds => ?_) s hs.1.1
  intro u hu
  refine (rdU32_inside.bind fun ty => rdU64_inside.bind fun off => checkBad_ensures.bind fun _ => ?_) u
    hu.1
  cases hty : ggufDtype ty with
  | none => exact Ensures.throw
  | some dt =>
      refine refuseIf_ensures.bind fun _ => onG_ensures fun v hv => ?_
      obtain ⟨⟨hin, -⟩, hnb⟩ := hv
      refine ⟨hin.blob_eq, hin.file_eq, hin.data_eq, hin.pos, hin.kv, fun t' ht' => ?_⟩
      rcases List.mem_append.mp ht' with hold | hnew
      · exact hin.t t' hold
      · rw [List.mem_singleton.mp hnew]
        exact ⟨⟨ds, rfl, by omega, by omega⟩, hty, rfl, not_lt.mp hnb, ⟨off, rfl⟩⟩

end Steps

/-! ## The fixed fields -/

/-- The fields at the front of a header, as they are stored. -/
def versionOf (blob : Bytes) : BitVec 32 := (word 64 4 (blob.drop 4)).setWidth 32

def nTensorsOf (blob : Bytes) : BitVec 64 := word 64 8 (blob.drop 8)

def nKvOf (blob : Bytes) : BitVec 64 := word 64 8 (blob.drop 16)

/-- The record with the counts stored. -/
def Gguf.counted (g : Gguf) : Gguf :=
  { g with
    version := versionOf g.blob
    nTensors := (nTensorsOf g.blob).toInt
    nKv := (nKvOf g.blob).toInt }

/-- The record once the counts are accepted: whatever it held before is overwritten, except the data
section's fields, which are set at the end. -/
def Gguf.begun (g : Gguf) : Gguf :=
  { g.counted with
    kv := [], t := [], strused := 0
    strcap := g.blob.length + (nKvOf g.blob).toInt + (nTensorsOf g.blob).toInt + 2 }

theorem rd_at {g : Gguf} {n pos : Nat} (h : pos + n ≤ g.blob.length) :
    rd n ⟨g, ⟨pos, false⟩⟩ = .ok (word 64 n (g.blob.drop pos)) ⟨g, ⟨pos + n, false⟩⟩ := by
  have hhas : Walk.Has ⟨g, ⟨pos, false⟩⟩ n := ⟨rfl, h⟩
  unfold rd
  rw [if_pos hhas]
  rfl

theorem refuseIf_pos {p : Prop} [Decidable p] (h : p) (e : Stop) (s : Walk) :
    refuseIf p e s = .error e s := if_pos h

theorem refuseIf_neg {p : Prop} [Decidable p] (h : ¬ p) (e : Stop) (s : Walk) :
    refuseIf p e s = .ok () s := if_neg h

/-- **What the fixed fields decide.** -/
theorem readCounts_eq (g : Gguf) : readCounts ⟨g, ⟨0, false⟩⟩ =
    if g.blob.length < 24 then .error .short ⟨g, ⟨0, false⟩⟩
    else if g.blob.take 4 ≠ ggufMagic then .error .malformed ⟨g, ⟨0, false⟩⟩
    else if versionOf g.blob ≠ 2 ∧ versionOf g.blob ≠ 3 then
      .error .malformed ⟨{ g with version := versionOf g.blob }, ⟨8, false⟩⟩
    else if CountsBad (nTensorsOf g.blob) (nKvOf g.blob) then
      .error .malformed ⟨g.counted, ⟨24, false⟩⟩
    else .ok (g.begun.nKv.toNat, g.begun.nTensors.toNat) ⟨g.begun, ⟨24, false⟩⟩ := by
  unfold readCounts
  rw [bind_of_ok (rfl : askG Gguf.blob ⟨g, ⟨0, false⟩⟩ = .ok g.blob ⟨g, ⟨0, false⟩⟩)]
  by_cases hlen : g.blob.length < 24
  · rw [if_pos hlen, bind_of_error (refuseIf_pos hlen _ _)]
  rw [if_neg hlen, bind_of_ok (refuseIf_neg hlen _ _)]
  by_cases hmagic : g.blob.take 4 ≠ ggufMagic
  · rw [if_pos hmagic, bind_of_error (refuseIf_pos hmagic _ _)]
  rw [if_neg hmagic, bind_of_ok (refuseIf_neg hmagic _ _)]
  have hskip : skipBytes 4 ⟨g, ⟨0, false⟩⟩ = .ok () ⟨g, ⟨4, false⟩⟩ :=
    if_pos (show 0 + 4 ≤ g.blob.length by omega)
  have hversion : rdU32 ⟨g, ⟨4, false⟩⟩ = .ok (versionOf g.blob) ⟨g, ⟨8, false⟩⟩ := by
    unfold rdU32
    rw [bind_of_ok (rd_at (show 4 + 4 ≤ g.blob.length by omega))]
    rfl
  rw [bind_of_ok hskip, bind_of_ok hversion,
    bind_of_ok (rfl : onG (fun g' => { g' with version := versionOf g.blob }) ⟨g, ⟨8, false⟩⟩ =
      .ok () ⟨{ g with version := versionOf g.blob }, ⟨8, false⟩⟩)]
  by_cases hv : versionOf g.blob ≠ 2 ∧ versionOf g.blob ≠ 3
  · rw [if_pos hv, bind_of_error (refuseIf_pos hv _ _)]
  rw [if_neg hv, bind_of_ok (refuseIf_neg hv _ _)]
  have htensors : rdU64 ⟨{ g with version := versionOf g.blob }, ⟨8, false⟩⟩ =
      .ok (nTensorsOf g.blob) ⟨{ g with version := versionOf g.blob }, ⟨16, false⟩⟩ :=
    rd_at (show 8 + 8 ≤ g.blob.length by omega)
  have hkv : rdU64 ⟨{ g with version := versionOf g.blob }, ⟨16, false⟩⟩ =
      .ok (nKvOf g.blob) ⟨{ g with version := versionOf g.blob }, ⟨24, false⟩⟩ :=
    rd_at (show 16 + 8 ≤ g.blob.length by omega)
  have hcounted : onG (fun g' => { g' with
      nTensors := (nTensorsOf g.blob).toInt
      nKv := (nKvOf g.blob).toInt }) ⟨{ g with version := versionOf g.blob }, ⟨24, false⟩⟩ =
      .ok () ⟨g.counted, ⟨24, false⟩⟩ := rfl
  rw [bind_of_ok htensors, bind_of_ok hkv, bind_of_ok hcounted,
    bind_of_ok (rfl : checkBad ⟨g.counted, ⟨24, false⟩⟩ = .ok () ⟨g.counted, ⟨24, false⟩⟩)]
  by_cases hcounts : CountsBad (nTensorsOf g.blob) (nKvOf g.blob)
  · rw [if_pos hcounts, bind_of_error (refuseIf_pos hcounts _ _)]
  rw [if_neg hcounts, bind_of_ok (refuseIf_neg hcounts _ _)]
  rfl

/-! ## Placing the tensors -/

theorem alignmentOf_lt {blob : Bytes} {kv : List GgufKV} (h : ∀ k ∈ kv, KvIn blob k) :
    alignmentOf kv < 2 ^ 63 := by
  unfold alignmentOf
  split
  · decide
  · next k hk =>
      split_ifs
      · exact (h k (List.mem_of_find?_eq_some hk)).i_lt
      · decide

/-- **The data section starts at the header's end, rounded up.** -/
theorem roundUp_eq {hdrEnd : Nat} {a : Int} (hend : hdrEnd ≤ 2 ^ 62) (hpos : 0 < a) (hlt : a < 2 ^ 63)
    (hpow : notPow2 a = false) : roundUp hdrEnd a = (hdrEnd + a - 1) / a * a := by
  have hand : BitVec.ofInt 64 a &&& BitVec.ofInt 64 (a - 1) = 0 := by
    unfold notPow2 at hpow
    simpa using hpow
  obtain ⟨k, hk, rfl⟩ := pow2_of_and_pred hpos hlt hand
  have hle : (2 : Int) ^ k ≤ 2 ^ 62 := by
    have hnat : 2 ^ k ≤ 2 ^ 62 := Nat.pow_le_pow_right (by decide) hk
    exact_mod_cast hnat
  unfold roundUp
  rw [clear_low (by omega) (by omega) hk]


/-- A tensor at its place in the file. -/
def GgufTensor.place (t : GgufTensor) (dataStart : Int) : GgufTensor :=
  { t with fileOff := wrap64 (dataStart + t.relOff) }

/-- The end of a placed tensor passes the check against the file's size. -/
def GgufTensor.Passes (t : GgufTensor) (dataStart fileSize : Int) : Prop :=
  wrap64 (wrap64 (dataStart + t.relOff) + t.nbytes) ≤ fileSize

/-- **What the last loop does.** -/
theorem placeTensors_cases (ts : List GgufTensor) : ∀ s : Walk,
    ((∀ t ∈ ts, t.Passes s.g.dataStart s.g.fileSize) ∧ placeTensors ts s =
      .ok (ts.map (·.place s.g.dataStart))
        ⟨{ s.g with dataBytes := ts.foldl growBytes s.g.dataBytes }, s.c⟩) ∨
    ((∃ t ∈ ts, ¬ t.Passes s.g.dataStart s.g.fileSize) ∧
      ∃ u, placeTensors ts s = .error .malformed u) := by
  induction ts with
  | nil =>
      intro s
      exact .inl ⟨fun t ht => absurd ht (List.not_mem_nil), rfl⟩
  | cons t ts ih =>
      intro s
      rw [placeTensors,
        bind_of_ok (rfl : askG (fun g => wrap64 (g.dataStart + t.relOff)) s = .ok _ s),
        bind_of_ok (rfl : askG Gguf.fileSize s = .ok _ s)]
      by_cases hpass : t.Passes s.g.dataStart s.g.fileSize
      · rw [bind_of_ok (refuseIf_neg (not_lt.mpr hpass) _ _),
          bind_of_ok (rfl : onG (fun g => { g with dataBytes := growBytes g.dataBytes t }) s = .ok () _)]
        -- the rest of the loop starts from the record with this tensor counted in
        obtain ⟨hall, hok⟩ | ⟨⟨t', ht', hfail⟩, u, herr⟩ :=
          ih ⟨{ s.g with dataBytes := growBytes s.g.dataBytes t }, s.c⟩
        · refine .inl ⟨?_, ?_⟩
          · intro t' ht'
            rcases List.mem_cons.mp ht' with rfl | hmem
            · exact hpass
            · exact hall t' hmem
          · rw [bind_of_ok hok]
            rfl
        · exact .inr ⟨⟨t', List.mem_cons_of_mem _ ht', hfail⟩, u, bind_of_error herr _⟩
      · refine .inr ⟨⟨t, List.mem_cons_self, hpass⟩, s, ?_⟩
        rw [bind_of_error (refuseIf_pos (not_le.mp hpass) _ _)]

/-- The record with its data section placed, the header having ended at `hdrEnd`. -/
def Gguf.placed (g : Gguf) (hdrEnd : Nat) : Gguf :=
  { g with
    alignment := alignmentOf g.kv
    dataStart := roundUp hdrEnd (alignmentOf g.kv)
    t := g.t.map (·.place (roundUp hdrEnd (alignmentOf g.kv)))
    dataBytes := g.t.foldl growBytes g.dataBytes }

/-- The alignment and every tensor pass their checks. -/
def Gguf.CanPlace (g : Gguf) (hdrEnd : Nat) : Prop :=
  0 < alignmentOf g.kv ∧ notPow2 (alignmentOf g.kv) = false ∧
    ∀ t ∈ g.t, t.Passes (roundUp hdrEnd (alignmentOf g.kv)) g.fileSize

/-- **What happens after the tables.** -/
theorem placeData_cases (s : Walk) :
    (s.g.CanPlace s.c.pos ∧ placeData s = .ok () ⟨s.g.placed s.c.pos, s.c⟩) ∨
    (¬ s.g.CanPlace s.c.pos ∧ ∃ u, placeData s = .error .malformed u) := by
  unfold placeData
  rw [bind_of_ok (rfl : onG (fun g => { g with alignment := alignmentOf g.kv }) s = .ok () _),
    bind_of_ok (rfl : askG Gguf.alignment _ = .ok _ _)]
  by_cases halign : alignmentOf s.g.kv ≤ 0 ∨ notPow2 (alignmentOf s.g.kv) = true
  · refine .inr ⟨fun h => ?_, _, bind_of_error (refuseIf_pos halign _ _) _⟩
    rcases halign with hle | hpow
    · exact absurd h.1 (not_lt.mpr hle)
    · exact absurd h.2.1 (by rw [hpow]; decide)
  · have hpos : 0 < alignmentOf s.g.kv := not_le.mp fun h => halign (.inl h)
    have hpow : notPow2 (alignmentOf s.g.kv) = false := Bool.eq_false_iff.mpr fun h => halign (.inr h)
    rw [bind_of_ok (refuseIf_neg halign _ _), bind_of_ok (rfl : getPos _ = .ok _ _),
      bind_of_ok (rfl : onG _ _ = .ok () _), bind_of_ok (rfl : askG Gguf.t _ = .ok _ _)]
    obtain ⟨hall, hok⟩ | ⟨⟨t, ht, hfail⟩, u, herr⟩ := placeTensors_cases s.g.t
      ⟨{ s.g with
        alignment := alignmentOf s.g.kv
        dataStart := roundUp s.c.pos (alignmentOf s.g.kv) }, s.c⟩
    · refine .inl ⟨⟨hpos, hpow, hall⟩, ?_⟩
      rw [bind_of_ok hok]
      rfl
    · refine .inr ⟨fun h => hfail (h.2.2 t ht), u, bind_of_error herr _⟩

/-! ## The whole walk -/

theorem Gguf.begun_inside (g : Gguf) (hlen : 24 ≤ g.blob.length) :
    Inside g ⟨g.begun, ⟨24, false⟩⟩ :=
  ⟨rfl, rfl, rfl, hlen, fun _ h => absurd h List.not_mem_nil, fun _ h => absurd h List.not_mem_nil⟩

/-- **An accepted header**: the walk read both tables inside the blob, and placed the data. -/
theorem parseBody_ok {g : Gguf} {w : Walk} (h : parseBody ⟨g, ⟨0, false⟩⟩ = .ok () w) :
    ∃ s, Inside g s ∧ s.g.CanPlace s.c.pos ∧ w = ⟨s.g.placed s.c.pos, s.c⟩ := by
  unfold parseBody at h
  obtain ⟨counts, s₀, hcounts, h⟩ := bind_ok h
  have hs₀ : Inside g s₀ := by
    rw [readCounts_eq] at hcounts
    split_ifs at hcounts with hlen
    obtain ⟨-, rfl⟩ := EStateM.Result.ok.inj hcounts
    exact g.begun_inside (not_lt.mp hlen)
  obtain ⟨_, s₁, hkvs, h⟩ := bind_ok h
  have hs₁ : Inside g s₁ := (times_length readKv_inside counts.1 s₀ hs₀ _ s₁ hkvs).1
  obtain ⟨_, s₂, hts, h⟩ := bind_ok h
  have hs₂ : Inside g s₂ := (times_length readTensor_inside counts.2 s₁ hs₁ _ s₂ hts).1
  rcases placeData_cases s₂ with ⟨hcan, hok⟩ | ⟨-, u, herr⟩
  · rw [hok] at h
    exact ⟨s₂, hs₂, hcan, (EStateM.Result.ok.inj h).2.symm⟩
  · rw [herr] at h
    exact absurd h (by simp)

theorem parseHeader_ok {g g' : Gguf} (h : parseHeader g = (.ok, g')) :
    ∃ s, Inside g s ∧ s.g.CanPlace s.c.pos ∧ g' = s.g.placed s.c.pos := by
  unfold parseHeader at h
  split at h
  · next w hw =>
      obtain ⟨s, hs, hcan, rfl⟩ := parseBody_ok hw
      exact ⟨s, hs, hcan, (Prod.mk.inj h).2.symm⟩
  · exact absurd (Prod.mk.inj h).1 (by decide)
  · exact absurd (Prod.mk.inj h).1 (by decide)

end LlmEngine.Formats
