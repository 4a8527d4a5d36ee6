/-
# LlmEngine.Formats.GgufHostile — what an accepted container promises, and when it keeps it.

`gguf_open` treats every length as untrusted, but checks them in 64-bit arithmetic.  A product that
wraps around and a negative value that a cast lets through both pass: an array of `2 ^ 61` eight-byte
elements is stepped over in 0 bytes, and a tensor with a negative offset lies in the header.
`Harmless` is the promise, in exact arithmetic; `Tame` says of the stored counts, dimensions and
offsets that none of them reaches a wrap-around or a sign.  An accepted container is harmless exactly
when it is tame.

* `arrayInside_iff`, for one array: the bytes stepped over are those of its elements, if the product does not wrap.
* `tensorInside_iff`, for one tensor: its size is exact (`TensorIn.nbytes_eq`), and its end is compared from above
  only, so the start has to be looked at.
* `accepted_harmless_iff` takes both over the tables of any file that `gguf_open` accepts.

What is known of an accepted container is `Formats.GgufWalk`'s, and the loop of `gguf_open` comes down to its last
attempt (`ggufOpen_attempt`).  `tame` and `hostile` are files of either kind.
-/
import LlmEngine.Formats.GgufOpen

namespace LlmEngine.Formats

open LlmEngine.Lib
open LlmEngine.Lib.LittleEndian
open LlmEngine.Lib.Walk
open LlmEngine.Tensor

/-! ## The promise -/

/-- The elements of an array, counted exactly, lie in the blob. -/
def ArrayInside (g : Gguf) (k : GgufKV) : Prop :=
  0 ≤ k.arrLen ∧
    ((0 < scalarSize k.arrType ∧ k.arrData + scalarSize k.arrType * k.arrLen ≤ g.blob.length) ∨
      (k.arrType = .string ∧ ∃ fin, skipStrs g.blob k.arrLen.toNat k.arrData = some fin ∧
        fin ≤ g.blob.length))

/-- The bytes of a tensor, counted exactly, lie in the data section. -/
def TensorInside (g : Gguf) (t : GgufTensor) : Prop :=
  g.dataStart ≤ t.fileOff ∧ t.fileOff + exactBytes t.dtype t.shape ≤ g.fileSize

structure Harmless (g : Gguf) : Prop where
  arrays : ∀ k ∈ g.kv, k.type = .array → ArrayInside g k
  tensors : ∀ t ∈ g.t, TensorInside g t

/-! ## The condition -/

/-- The count as it is stored, before the cast to `int64_t`. -/
def GgufKV.storedLen (k : GgufKV) : Nat := (BitVec.ofInt 64 k.arrLen).toNat

/-- The count reaches neither the wrap-around of the one multiply nor, for strings, the sign. -/
def GgufKV.Tame (k : GgufKV) : Prop :=
  if k.arrType = .string then k.storedLen < 2 ^ 63 else scalarSize k.arrType * k.storedLen < 2 ^ 64

/-- Where the tensor ends, exactly. -/
def GgufTensor.exactEnd (t : GgufTensor) (dataStart : Int) : Int :=
  dataStart + t.relOff + exactBytes t.dtype t.shape

/-- The offset is not negative, the end does not reach the sign, and the element count does not wrap
around (which a quantised tensor survives if the file, beyond `2 ^ 62` bytes, really is that long). -/
def GgufTensor.Tame (t : GgufTensor) (dataStart fileSize : Int) : Prop :=
  0 ≤ t.relOff ∧ t.exactEnd dataStart < 2 ^ 63 ∧
    (exactElems t.shape < 2 ^ 64 ∨ (2 ^ 62 ≤ fileSize ∧ t.exactEnd dataStart ≤ fileSize))

structure Tame (g : Gguf) : Prop where
  arrays : ∀ k ∈ g.kv, k.type = .array → k.Tame
  tensors : ∀ t ∈ g.t, t.Tame g.dataStart g.fileSize

/-! ## Arrays -/

theorem arrayInside_iff {g : Gguf} {k : GgufKV} (hblob : g.blob.length < 2 ^ 62)
    (hk : KvIn g.blob k) (harr : k.type = .array) : ArrayInside g k ↔ k.Tame := by
  obtain ⟨hdata, n, hn, hpay⟩ := hk.array harr
  have hstored : k.storedLen = n.toNat := by
    unfold GgufKV.storedLen
    rw [hn, BitVec.ofInt_toInt]
  have hcond := BitVec.toInt_eq_toNat_cond n
  have hlt := n.isLt
  unfold ArrayInside GgufKV.Tame
  rw [hstored]
  rcases hpay with ⟨hscalar, hle⟩ | ⟨hstr, fin, hfin⟩
  · have hstr : k.arrType ≠ .string := fun h => absurd hscalar (by rw [h]; decide)
    have hstep : stepOver k.arrType n = scalarSize k.arrType * n.toNat % 2 ^ 64 := by
      have hsize : scalarSize k.arrType < 2 ^ 64 := by cases k.arrType <;> decide
      unfold stepOver
      rw [BitVec.toNat_mul, BitVec.toNat_ofNat, Nat.mod_eq_of_lt hsize]
    rw [if_neg hstr]
    constructor
    · rintro ⟨hnn, ⟨-, hin⟩ | ⟨h, -⟩⟩
      · -- the exact payload lies in the blob, so the count is small
        have hval : n.toInt = n.toNat := by
          split_ifs at hcond <;> omega
        rw [hn, hval] at hin
        have hcast : ((scalarSize k.arrType * n.toNat : Nat) : Int) =
            (scalarSize k.arrType : Int) * n.toNat := Int.natCast_mul _ _
        omega
      · exact absurd h hstr
    · intro htame
      rw [hstep, Nat.mod_eq_of_lt htame] at hle
      have hmul : n.toNat ≤ scalarSize k.arrType * n.toNat := Nat.le_mul_of_pos_left _ hscalar
      have hval : n.toInt = n.toNat := by
        split_ifs at hcond <;> omega
      rw [hn, hval]
      refine ⟨by omega, .inl ⟨hscalar, ?_⟩⟩
      exact_mod_cast hle
  · rw [if_pos hstr, hn]
    constructor
    · rintro ⟨hnn, -⟩
      split_ifs at hcond <;> omega
    · intro htame
      have hnn : 0 ≤ n.toInt := by
        split_ifs at hcond <;> omega
      exact ⟨hnn, .inr ⟨hstr, fin, hfin, (skipStrs_le _ hdata hfin).2⟩⟩

/-! ## Tensors -/

section Tensors

variable {t : GgufTensor}

/-- **What the size of an accepted tensor is**: the exact one, with the element count and then the
byte count wrapped around. -/
theorem TensorIn.nbytes_eq (ht : TensorIn t) :
    (∀ d ∈ t.shape, 0 ≤ d) ∧ ((engDtypeInfo t.dtype).blockElems : Int) ∣ exactElems t.shape ∧
      0 ≤ wrap64 (exactElems t.shape) ∧
      t.nbytes = wrap64 (wrap64 (exactElems t.shape) / (engDtypeInfo t.dtype).blockElems *
        (engDtypeInfo t.dtype).blockBytes) := by
  have hnn := ht.nbytes_nonneg
  have hne : t.shape ≠ [] := by
    obtain ⟨ds, hds, hlen, -⟩ := ht.dims
    intro hnil
    rw [hnil] at hds
    rw [List.map_eq_nil_iff.mp hds.symm] at hlen
    exact absurd hlen (by decide)
  have hmul : mulAll 1 t.shape = wrap64 (exactElems t.shape) := by
    rw [mulAll_eq t.shape (show wrap64 1 = 1 by decide), one_mul]
  rw [ht.nbytes] at hnn ⊢
  unfold engTensorNbytes at hnn ⊢
  simp only [ggufDtype_plain ht.dtype, Bool.false_eq_true, if_false, hmul] at hnn ⊢
  -- every early return is a -1, which the walk refuses
  split_ifs at hnn ⊢ with hlen hneg hblock
  · exact absurd hnn (by decide)
  · exact absurd hnn (by decide)
  · exact absurd hnn (by decide)
  · unfold engDtypeBytes at hnn ⊢
    simp only [ggufDtype_plain ht.dtype, Bool.false_eq_true, if_false] at hnn ⊢
    split_ifs at hnn ⊢ with hwrap hpart
    · exact absurd hnn (by decide)
    · exact absurd hnn (by decide)
    · refine ⟨fun d hd => ?_, blocks_dvd hne hblock (blockElems_pos _), not_lt.mp hwrap, rfl⟩
      by_contra hd'
      exact hneg (List.any_eq_true.mpr ⟨d, hd, decide_eq_true (not_le.mp hd')⟩)

/-- A row is whole blocks. -/
theorem TensorIn.row_dvd (ht : TensorIn t) : ((engDtypeInfo t.dtype).blockElems : Int) ∣ t.shape.headD 1 := by
  have hnn := ht.nbytes_nonneg
  rw [ht.nbytes] at hnn
  unfold engTensorNbytes at hnn
  simp only [ggufDtype_plain ht.dtype, Bool.false_eq_true, if_false] at hnn
  split_ifs at hnn with hlen hneg hblock
  · exact absurd hnn (by decide)
  · exact absurd hnn (by decide)
  · exact absurd hnn (by decide)
  · have hpos := blockElems_pos t.dtype
    by_cases hone : (engDtypeInfo t.dtype).blockElems > 1
    · exact Int.dvd_of_emod_eq_zero (not_not.mp fun hmod => hblock ⟨hone, hmod⟩)
    · rw [show (engDtypeInfo t.dtype).blockElems = 1 by omega]
      exact one_dvd _

/-- The exact size is at least a quarter of the element count. -/
theorem exactBytes_ge {dt : EngDType} {shape : List Int} (hnn : 0 ≤ exactElems shape)
    (hdvd : ((engDtypeInfo dt).blockElems : Int) ∣ exactElems shape) :
    exactElems shape ≤ 4 * exactBytes dt shape := by
  obtain ⟨q, hq⟩ := hdvd
  have hbe := blockElems_pos dt
  have hle := blockElems_le dt
  have hqnn : 0 ≤ q := by
    by_contra hneg
    have hlt : ((engDtypeInfo dt).blockElems : Int) * q < 0 :=
      Int.mul_neg_of_pos_of_neg (by omega) (by omega)
    omega
  unfold exactBytes
  rw [hq, Int.mul_ediv_cancel_left q (by omega)]
  calc ((engDtypeInfo dt).blockElems : Int) * q
      ≤ (4 * (engDtypeInfo dt).blockBytes) * q := Int.mul_le_mul_of_nonneg_right (by omega) hqnn
    _ = 4 * (q * (engDtypeInfo dt).blockBytes) := by ring

/-- An element count that does not wrap around gives the exact size, wrapped around at most once. -/
theorem TensorIn.nbytes_of_elems (ht : TensorIn t) (hlt : exactElems t.shape < 2 ^ 64) :
    t.nbytes = wrap64 (exactBytes t.dtype t.shape) := by
  obtain ⟨hshape, -, hnn, heq⟩ := ht.nbytes_eq
  have hge := exactElems_nonneg hshape
  have hexact : wrap64 (exactElems t.shape) = exactElems t.shape := by
    by_cases hbig : exactElems t.shape < 2 ^ 63
    · exact wrap64_of_range (by omega) hbig
    · -- it would be negative
      exfalso
      have hmod := wrap64_above (not_lt.mp hbig) (by omega)
      omega
  rw [heq, hexact]
  rfl

theorem tensorInside_iff {g : Gguf} (hds : 0 ≤ g.dataStart) (hds' : g.dataStart < 2 ^ 63)
    (hfs : g.fileSize < 2 ^ 63) (ht : TensorIn t) (hpass : t.Passes g.dataStart g.fileSize) :
    TensorInside g (t.place g.dataStart) ↔ (t.place g.dataStart).Tame g.dataStart g.fileSize := by
  have hS := exactBytes_nonneg t.dtype ht.nbytes_eq.1
  obtain ⟨o, ho⟩ := ht.relOff
  have hlo := BitVec.le_toInt o
  have hhi := BitVec.toInt_lt (x := o)
  rw [← ho] at hlo hhi
  show g.dataStart ≤ wrap64 (g.dataStart + t.relOff) ∧
      wrap64 (g.dataStart + t.relOff) + exactBytes t.dtype t.shape ≤ g.fileSize ↔
    0 ≤ t.relOff ∧ t.exactEnd g.dataStart < 2 ^ 63 ∧
      (exactElems t.shape < 2 ^ 64 ∨ (2 ^ 62 ≤ g.fileSize ∧ t.exactEnd g.dataStart ≤ g.fileSize))
  unfold GgufTensor.exactEnd
  constructor
  · rintro ⟨hstart, hend⟩
    -- a negative offset would place it before the section, a wrapped one before the file
    have hwrap : g.dataStart + t.relOff < 2 ^ 63 := by
      by_contra hbig
      have habove := wrap64_above (not_lt.mp hbig) (by omega)
      omega
    rw [wrap64_of_range (by omega) hwrap] at hstart hend
    refine ⟨by omega, by omega, ?_⟩
    by_cases helems : exactElems t.shape < 2 ^ 64
    · exact .inl helems
    · obtain ⟨hshape, hdvd, -, -⟩ := ht.nbytes_eq
      have hge := exactBytes_ge (exactElems_nonneg hshape) hdvd
      exact .inr ⟨by omega, by omega⟩
  · rintro ⟨hoff, hend, hcase⟩
    rw [wrap64_of_range (by omega) (by omega)]
    refine ⟨by omega, ?_⟩
    rcases hcase with helems | ⟨-, hfits⟩
    · have hnb := ht.nbytes_of_elems helems
      rw [wrap64_of_range (by omega) (by omega)] at hnb
      unfold GgufTensor.Passes at hpass
      rw [hnb, wrap64_of_range (i := g.dataStart + t.relOff) (by omega) (by omega),
        wrap64_of_range (by omega) (by omega)] at hpass
      exact hpass
    · exact hfits

end Tensors

/-! ## The container -/

/-- An accepted container is what one attempt on a prefix within the cap delivered. -/
theorem openLoop_attempt {f : File} {g g' : Gguf} {w : Nat} (hw : 0 < w) (h : LeftOver f g)
    (hle : w ≤ min f.bytes.length hdrMax) (hopen : openLoop f g w hw = some g') :
    ∃ g₀ w', LeftOver f g₀ ∧ w' ≤ min f.bytes.length hdrMax ∧ attempt f g₀ w' = (.ok, g') := by
  fun_induction openLoop f g w hw with
  | case1 g w hw g'' hok =>
      obtain rfl := Option.some.inj hopen
      exact ⟨g, w, h, hle, hok⟩
  | case2 | case3 => exact absurd hopen (by simp)
  | case4 g w hw g'' hshort hmore ih =>
      have hleft := LeftOver.retry h (show (attempt f g w).1 = .short from congrArg Prod.fst hshort)
      have hg'' : (attempt f g w).2 = g'' := congrArg Prod.snd hshort
      rw [hg''] at hleft
      exact ih hleft (by unfold grow; omega) hopen

theorem ggufOpen_attempt {f : File} {g : Gguf} (hopen : ggufOpen f = some g) :
    ∃ g₀ w, LeftOver f g₀ ∧ w ≤ min f.bytes.length hdrMax ∧ attempt f g₀ w = (.ok, g) := by
  unfold ggufOpen at hopen
  split_ifs at hopen with hlen
  exact openLoop_attempt _ .fresh (by unfold hdrFirst hdrMax; omega) hopen

/-- What is known of the tensors of an opened container. -/
theorem ggufOpen_tensors {f : File} {g : Gguf} (hopen : ggufOpen f = some g) : ∀ t ∈ g.t, TensorIn t := by
  obtain ⟨g₀, w, -, -, hok⟩ := ggufOpen_attempt hopen
  obtain ⟨s, hs, -, rfl⟩ := parseHeader_ok hok
  intro t ht
  obtain ⟨t₀, ht₀, rfl⟩ := List.mem_map.mp ht
  obtain ⟨hdims, hdtype, hnbytes, hnn, hoff⟩ := hs.t t₀ ht₀
  exact ⟨hdims, hdtype, hnbytes, hnn, hoff⟩

/-- **An accepted container is harmless exactly when it is tame.** -/
theorem accepted_harmless_iff (f : File) (g : Gguf) (hopen : ggufOpen f = some g) :
    Harmless g ↔ Tame g := by
  obtain ⟨g₀, w, hleft, hw, hok⟩ := ggufOpen_attempt hopen
  obtain ⟨s, hs, ⟨hpos, hpow, hpass⟩, rfl⟩ := parseHeader_ok hok
  have hlen : s.g.blob.length ≤ 2 ^ 28 := by
    rw [hs.blob_eq]
    show (f.bytes.take w).length ≤ 2 ^ 28
    rw [List.length_take]
    unfold hdrMax at hw
    omega
  have hend : s.c.pos ≤ 2 ^ 28 := by
    have hinside := hs.pos
    rw [← hs.blob_eq] at hinside
    omega
  have hfile : s.g.fileSize < 2 ^ 63 := by
    rw [hs.file_eq]
    show g₀.fileSize < 2 ^ 63
    rw [hleft.carried.1]
    exact_mod_cast f.len_lt
  have halign := alignmentOf_lt hs.kv
  have hround := roundUp_eq (show s.c.pos ≤ 2 ^ 62 by omega) hpos halign hpow
  have hstart : 0 ≤ roundUp s.c.pos (alignmentOf s.g.kv) := by
    rw [hround]
    exact Int.mul_nonneg (Int.ediv_nonneg (by omega) (by omega)) (by omega)
  have hstart' : roundUp s.c.pos (alignmentOf s.g.kv) < 2 ^ 63 := signed_lt _ (by decide)
  have harrays : ∀ k ∈ s.g.kv, k.type = .array →
      (ArrayInside (s.g.placed s.c.pos) k ↔ k.Tame) := fun k hk harr =>
    arrayInside_iff (show s.g.blob.length < 2 ^ 62 by omega)
      (by show KvIn s.g.blob k; rw [hs.blob_eq]; exact hs.kv k hk) harr
  have htensors : ∀ t ∈ s.g.t, TensorInside (s.g.placed s.c.pos)
        (t.place (roundUp s.c.pos (alignmentOf s.g.kv))) ↔
      (t.place (roundUp s.c.pos (alignmentOf s.g.kv))).Tame
        (roundUp s.c.pos (alignmentOf s.g.kv)) s.g.fileSize := fun t ht =>
    tensorInside_iff (g := s.g.placed s.c.pos) hstart hstart' hfile (hs.t t ht) (hpass t ht)
  constructor
  · intro h
    refine ⟨fun k hk harr => (harrays k hk harr).mp (h.arrays k hk harr), fun t ht => ?_⟩
    obtain ⟨t₀, ht₀, rfl⟩ := List.mem_map.mp ht
    exact (htensors t₀ ht₀).mp (h.tensors _ ht)
  · intro h
    refine ⟨fun k hk harr => (harrays k hk harr).mpr (h.arrays k hk harr), fun t ht => ?_⟩
    obtain ⟨t₀, ht₀, rfl⟩ := List.mem_map.mp ht
    exact (htensors t₀ ht₀).mpr (h.tensors _ ht)

theorem openLoop_ok {f : File} {g : Gguf} {w : Nat} (hw : 0 < w) (hok : (attempt f g w).1 = .ok) :
    openLoop f g w hw = some (attempt f g w).2 := by
  rw [openLoop]
  revert hok
  unfold attempt
  generalize parseHeader _ = r
  obtain ⟨rc, g'⟩ := r
  rintro (rfl : rc = .ok)
  rfl

/-- A file shorter than the first prefix is read whole. -/
theorem ggufOpen_small {f : File} (hlen : 24 ≤ f.bytes.length) (hsmall : f.bytes.length ≤ hdrFirst)
    (hok : (attempt f (Gguf.zero f.bytes.length) f.bytes.length).1 = .ok) :
    ggufOpen f = some (attempt f (Gguf.zero f.bytes.length) f.bytes.length).2 := by
  have hmin : min hdrFirst f.bytes.length = f.bytes.length := Nat.min_eq_right hsmall
  unfold ggufOpen
  rw [dif_neg (by omega), openLoop_ok _ (by rw [hmin]; exact hok), hmin]

/-- An array of two bytes, and a tensor of one float at the start of the data section. -/
def tame : File where
  bytes := ggufMagic ++ [3, 0, 0, 0] ++ [1, 0, 0, 0, 0, 0, 0, 0] ++ [1, 0, 0, 0, 0, 0, 0, 0] ++
    [1, 0, 0, 0, 0, 0, 0, 0, 97] ++ [9, 0, 0, 0] ++ [0, 0, 0, 0] ++ [2, 0, 0, 0, 0, 0, 0, 0] ++ [7, 8] ++
    [1, 0, 0, 0, 0, 0, 0, 0, 119] ++ [1, 0, 0, 0] ++ [1, 0, 0, 0, 0, 0, 0, 0] ++ [0, 0, 0, 0] ++
    [0, 0, 0, 0, 0, 0, 0, 0] ++ List.replicate 12 0 ++ [0, 0, 128, 63]
  len_lt := by decide

/-- It is accepted with both, and harmless. -/
theorem tame_harmless : ∃ g, ggufOpen tame = some g ∧ (∃ k ∈ g.kv, k.type = .array ∧ k.arrLen = 2) ∧
    (∃ t ∈ g.t, t.fileOff = 96 ∧ exactBytes t.dtype t.shape = 4) ∧ Harmless g := by
  have hlen : tame.bytes.length = 100 := by decide
  have hopen := ggufOpen_small (f := tame) (by rw [hlen]; decide) (by rw [hlen]; decide) (by decide +kernel)
  rw [hlen] at hopen
  have hkv : (attempt tame (Gguf.zero 100) 100).2.kv.map (fun k => (k.type, k.arrType, k.arrLen)) =
    [(.array, .uint8, 2)] := by decide +kernel
  have ht : (attempt tame (Gguf.zero 100) 100).2.t.map (fun t => (t.fileOff, t.relOff, t.dtype, t.shape)) =
    [(96, 0, .f32, [1])] := by decide +kernel
  have hstart : (attempt tame (Gguf.zero 100) 100).2.dataStart = 96 := by decide +kernel
  generalize (attempt tame (Gguf.zero 100) 100).2 = g at hopen hkv ht hstart
  obtain ⟨k, hk⟩ := List.map_eq_singleton_iff.mp hkv
  obtain ⟨t, ht⟩ := List.map_eq_singleton_iff.mp ht
  simp only [Prod.mk.injEq] at hk ht
  refine ⟨g, hopen, ⟨k, by rw [hk.1]; exact List.mem_singleton_self k, hk.2.1, hk.2.2.2⟩,
    ⟨t, by rw [ht.1]; exact List.mem_singleton_self t, ht.2.1, by rw [ht.2.2.2.1, ht.2.2.2.2]; decide⟩,
    (accepted_harmless_iff tame g hopen).mpr ⟨fun k' hk' _ => ?_, fun t' ht' => ?_⟩⟩
  · rw [hk.1] at hk'
    obtain rfl := List.mem_singleton.mp hk'
    unfold GgufKV.Tame GgufKV.storedLen
    rw [hk.2.2.1, hk.2.2.2]
    decide
  · rw [ht.1] at ht'
    obtain rfl := List.mem_singleton.mp ht'
    unfold GgufTensor.Tame GgufTensor.exactEnd
    rw [ht.2.2.1, ht.2.2.2.1, ht.2.2.2.2, hstart]
    exact ⟨by decide, by decide, .inl (by decide)⟩

/-- An array of `2 ^ 61` elements of eight bytes, and a tensor 64 bytes before the data section. -/
def hostile : File where
  bytes := ggufMagic ++ [3, 0, 0, 0] ++ [1, 0, 0, 0, 0, 0, 0, 0] ++ [1, 0, 0, 0, 0, 0, 0, 0] ++
    [1, 0, 0, 0, 0, 0, 0, 0, 97] ++ [9, 0, 0, 0] ++ [10, 0, 0, 0] ++ [0, 0, 0, 0, 0, 0, 0, 32] ++
    [1, 0, 0, 0, 0, 0, 0, 0, 119] ++ [1, 0, 0, 0] ++ [1, 0, 0, 0, 0, 0, 0, 0] ++ [0, 0, 0, 0] ++
    [192, 255, 255, 255, 255, 255, 255, 255]
  len_lt := by decide

/-- Both are accepted: the product is `2 ^ 64`, stepped over as 0 bytes, and the end of the tensor is
checked from above only. -/
theorem hostile_accepted : ∃ g, ggufOpen hostile = some g ∧
    (∃ k ∈ g.kv, k.type = .array ∧ ¬ ArrayInside g k) ∧ (∃ t ∈ g.t, ¬ TensorInside g t) ∧
    ¬ Harmless g := by
  have hlen : hostile.bytes.length = 82 := by decide
  have hopen := ggufOpen_small (f := hostile) (by rw [hlen]; decide) (by rw [hlen]; decide)
    (by decide +kernel)
  rw [hlen] at hopen
  have hkv : (attempt hostile (Gguf.zero 82) 82).2.kv.map (fun k => (k.type, k.arrType, k.arrLen)) =
    [(.array, .uint64, 2 ^ 61)] := by decide +kernel
  have hblob : (attempt hostile (Gguf.zero 82) 82).2.blob.length = 82 := by decide +kernel
  have ht : (attempt hostile (Gguf.zero 82) 82).2.t.map (·.fileOff) = [32] := by decide +kernel
  have hstart : (attempt hostile (Gguf.zero 82) 82).2.dataStart = 96 := by decide +kernel
  generalize (attempt hostile (Gguf.zero 82) 82).2 = g at hopen hkv hblob ht hstart
  refine ⟨g, hopen, ?_⟩
  obtain ⟨k, hk⟩ := List.map_eq_singleton_iff.mp hkv
  simp only [Prod.mk.injEq] at hk
  have harr : ¬ ArrayInside g k := by
    unfold ArrayInside
    rw [hk.2.2.1, hk.2.2.2, hblob]
    rintro ⟨-, ⟨-, hle⟩ | ⟨hstr, -⟩⟩
    · simp only [scalarSize] at hle
      omega
    · exact absurd hstr (by decide)
  obtain ⟨t, ht⟩ := List.map_eq_singleton_iff.mp ht
  have hmem : t ∈ g.t := by
    rw [ht.1]
    exact List.mem_singleton.mpr rfl
  have hout : ¬ TensorInside g t := by
    unfold TensorInside
    rw [ht.2, hstart]
    exact fun h => absurd h.1 (by decide)
  exact ⟨⟨k, by rw [hk.1]; exact List.mem_singleton.mpr rfl, hk.2.1, harr⟩, ⟨t, hmem, hout⟩,
    fun h => hout (h.tensors t hmem)⟩

end LlmEngine.Formats
