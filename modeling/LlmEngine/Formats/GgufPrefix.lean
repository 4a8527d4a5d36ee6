/-
# LlmEngine.Formats.GgufPrefix — how much of the file was read does not matter.

`gguf_open` parses a prefix of the file and, when told that it was too short, a longer one.  A verdict
other than "too short" never changes on a longer prefix, and neither does any value: each read either
finds its bytes, which are the same, or latches, and a latched walk can only say "too short".  The one
thing that depends on the length of the prefix otherwise is the capacity of the name pool; it is never
reached.  What an abandoned attempt leaves in the record is overwritten, and `data_bytes`, which is
only ever raised, has not been touched.

* `Longer r` relates the two walks while both are live: the same record and cursor, one blob a prefix of the other, and
  room in the pool for the `r` names still to come.
* There are two lemmas for each reader, `_keeps` for a pair of walks and `_latched` for a walk that can only come to
  "too short" any more; the rules that put readers together are those of `Lib.Walk`.
* `poolAdd_keeps`: the pool is sized by the prefix, and a name lies in the prefix behind eight bytes of length.
* `parseBody_keeps` is the header.

Whether the first attempt's leftovers matter is settled in `Formats.GgufOpen`.
-/
import LlmEngine.Formats.GgufWalk

namespace LlmEngine.Formats

open LlmEngine.Lib
open LlmEngine.Lib.LittleEndian
open LlmEngine.Lib.Walk
open LlmEngine.Tensor

/-! ## Two walks over one file -/

/-- The latch is set. -/
def Dead (s : Walk) : Prop := s.c.bad = true

/-- `s` and `s'` are the same walk, on a prefix and on a longer one.  `r` names are still to be
copied: that they fit is what keeps the pool's capacity out of sight. -/
structure Longer (r : Nat) (s s' : Walk) : Prop where
  live : s.c.bad = false
  pos : s.c.pos ≤ s.g.blob.length
  cap : s.g.strcap = s.g.blob.length + s.g.nKv + s.g.nTensors + 2
  pool : s.g.strused + r ≤ s.c.pos + s.g.nKv + s.g.nTensors
  ext : ∃ b' a' d', s.g.blob <+: b' ∧ s' = ⟨{ s.g with
    blob := b', strcap := b'.length + s.g.nKv + s.g.nTensors + 2, alignment := a'
    dataStart := d' }, s.c⟩

theorem take_drop_longer {b b' : Bytes} (h : b <+: b') {pos n : Nat} (hle : pos + n ≤ b.length) :
    (b'.drop pos).take n = (b.drop pos).take n := by
  obtain ⟨tail, rfl⟩ := h
  rw [List.drop_append_of_le_length (by omega), List.take_append_of_le_length]
  rw [List.length_drop]
  omega

theorem word_longer {b b' : Bytes} (h : b <+: b') {pos n w : Nat} (hle : pos + n ≤ b.length) :
    word w n (b'.drop pos) = word w n (b.drop pos) := by
  unfold word
  rw [take_drop_longer h hle]

section Steps

variable {r : Nat}

theorem Longer.advance {s s' : Walk} (h : Longer r s s') {n k : Nat} (hk : k ≤ n)
    (hn : s.c.pos + n ≤ s.g.blob.length) : Longer (r + k) (s.advance n) (s'.advance n) := by
  obtain ⟨b', a', d', hpre, rfl⟩ := h.ext
  refine ⟨h.live, hn, h.cap, ?_, b', a', d', hpre, rfl⟩
  have hpool := h.pool
  show s.g.strused + ((r + k : Nat) : Int) ≤ ((s.c.pos + n : Nat) : Int) + s.g.nKv + s.g.nTensors
  omega

theorem Longer.has {s s' : Walk} (h : Longer r s s') {n : Nat} (hn : s.Has n) : s'.Has n := by
  obtain ⟨b', a', d', hpre, rfl⟩ := h.ext
  exact ⟨hn.1, Nat.le_trans hn.2 hpre.length_le⟩

theorem rd_keeps (n : Nat) : Keeps Dead .short (Longer r) (rd n) fun _ => Longer r := by
  intro s s' h
  by_cases hhas : s.Has n
  · have hrd : rd n s = .ok (word 64 n (s.g.blob.drop s.c.pos)) (s.advance n) := if_pos hhas
    have hrd' : rd n s' = .ok (word 64 n (s'.g.blob.drop s'.c.pos)) (s'.advance n) :=
      if_pos (h.has hhas)
    rw [hrd]
    refine .inr ⟨s'.advance n, ?_, h.advance (Nat.zero_le n) hhas.2⟩
    obtain ⟨b', a', d', hpre, rfl⟩ := h.ext
    rw [hrd']
    congr 1
    exact word_longer hpre hhas.2
  · have hrd : rd n s = .ok 0 s.latch := if_neg hhas
    rw [hrd]
    exact .inl rfl

theorem rd_dead (n : Nat) {s : Walk} (hs : Dead s) : rd n s = .ok 0 s := by
  have hhas : ¬ s.Has n := fun h => absurd (hs.symm.trans h.1) (by decide)
  have hlatch : s.latch = s := by
    unfold Walk.latch
    rw [← hs]
  unfold rd
  rw [if_neg hhas, hlatch]

theorem rd_latched (n : Nat) : Latched Dead Dead .short (rd n) := by
  intro s hs
  rw [rd_dead n hs]
  exact hs

theorem rdU8_keeps : Keeps Dead .short (Longer r) rdU8 fun _ => Longer r :=
  (rd_keeps 1).bind (fun _ => Keeps.pure _ fun _ _ h => h) fun _ => Latched.pure _

theorem rdU16_keeps : Keeps Dead .short (Longer r) rdU16 fun _ => Longer r :=
  (rd_keeps 2).bind (fun _ => Keeps.pure _ fun _ _ h => h) fun _ => Latched.pure _

theorem rdU32_keeps : Keeps Dead .short (Longer r) rdU32 fun _ => Longer r :=
  (rd_keeps 4).bind (fun _ => Keeps.pure _ fun _ _ h => h) fun _ => Latched.pure _

theorem rdU64_keeps : Keeps Dead .short (Longer r) rdU64 fun _ => Longer r := rd_keeps 8

theorem rdU8_latched : Latched Dead Dead .short rdU8 := (rd_latched 1).bind fun _ => Latched.pure _

theorem rdU32_latched : Latched Dead Dead .short rdU32 := (rd_latched 4).bind fun _ => Latched.pure _

/-- A `u32` that could not be read is a zero: what follows it need only be latched there. -/
theorem rdU32_seq {α : Type} {dead : Walk → Prop} {f : BitVec 32 → Parse α}
    {R : α → Walk → Walk → Prop} (hf : ∀ v, Keeps dead .short (Longer r) (f v) R)
    (h0 : Latched Dead dead .short (f 0)) : Keeps dead .short (Longer r) (rdU32 >>= f) R := by
  intro s s' h
  by_cases hhas : s.Has 4
  · have hrd := rdU32_keeps s s' h
    have hok : rdU32 s = .ok ((word 64 4 (s.g.blob.drop s.c.pos)).setWidth 32) (s.advance 4) := by
      unfold rdU32
      rw [bind_of_ok (rd_has hhas)]
      rfl
    rw [hok] at hrd
    rw [bind_of_ok hok]
    obtain ⟨t', hok', ht⟩ := hrd.resolve_left fun hdead => absurd (h.live.symm.trans hdead) (by decide)
    rw [bind_of_ok hok']
    exact hf _ _ _ ht
  · have hok : rdU32 s = .ok 0 s.latch := by
      unfold rdU32
      rw [bind_of_ok (rd_lacks hhas)]
      rfl
    rw [bind_of_ok hok]
    have hlatch := h0 s.latch rfl
    cases hfs : f 0 s.latch with
    | ok a t =>
        rw [hfs] at hlatch
        exact .inl hlatch
    | error e t =>
        rw [hfs] at hlatch
        exact .inl hlatch

/-- Every relation below is a `Longer` with something added. -/
def Sound (P : Walk → Walk → Prop) : Prop := ∀ s s', P s s' → s.c.bad = false ∧ s'.c = s.c

theorem Longer.sound : Sound (Longer r) := by
  intro s s' h
  obtain ⟨b', a', d', -, rfl⟩ := h.ext
  exact ⟨h.live, rfl⟩

theorem checkBad_live {s : Walk} (h : s.c.bad = false) : checkBad s = .ok () s :=
  if_neg (by rw [h]; decide)

theorem checkBad_keeps {P : Walk → Walk → Prop} (hP : Sound P) :
    Keeps never .short P checkBad fun _ => P := by
  intro s s' hs
  obtain ⟨hlive, hcur⟩ := hP s s' hs
  rw [checkBad_live hlive]
  exact .inr ⟨s', checkBad_live (hcur ▸ hlive), hs⟩

/-- Behind the check there is no dead walk. -/
theorem checkBad_latched : Latched Dead never .short checkBad := by
  intro s hs
  have hcheck : checkBad s = .error .short s := if_pos hs
  rw [hcheck]

theorem checkBad_bind_latched {α : Type} {dead : Walk → Prop} (f : Unit → Parse α) :
    Latched Dead dead .short (checkBad >>= f) :=
  checkBad_latched.bind fun a => Latched.never (f a)

theorem takeSpan_keeps (n : Nat) : Keeps Dead .short (Longer r) (takeSpan n) fun sp s s' =>
    Longer (r + sp.len) s s' ∧ sp.off + sp.len ≤ s.g.blob.length := by
  intro s s' h
  by_cases hhas : s.Has n
  · have ht : takeSpan n s = .ok ⟨s.c.pos, n⟩ (s.advance n) := if_pos hhas
    have ht' : takeSpan n s' = .ok ⟨s'.c.pos, n⟩ (s'.advance n) := if_pos (h.has hhas)
    rw [ht]
    refine .inr ⟨s'.advance n, ?_, h.advance (Nat.le_refl n) hhas.2, hhas.2⟩
    obtain ⟨b', a', d', hpre, rfl⟩ := h.ext
    exact ht'
  · have ht : takeSpan n s = .ok ⟨0, 0⟩ s.latch := if_neg hhas
    rw [ht]
    exact .inl rfl

theorem takeSpan_latched (n : Nat) : Latched Dead Dead .short (takeSpan n) := by
  intro s hs
  have ht : takeSpan n s = .ok ⟨0, 0⟩ s.latch :=
    if_neg fun h => absurd (hs.symm.trans h.1) (by decide)
  rw [ht]
  rfl

theorem rdStr_keeps : Keeps Dead .short (Longer r) rdStr fun sp s s' =>
    Longer (r + sp.len) s s' ∧ sp.off + sp.len ≤ s.g.blob.length :=
  rdU64_keeps.bind (fun n => takeSpan_keeps n.toNat) fun n => takeSpan_latched n.toNat

/-- Fewer names to come is less to ask for. -/
theorem Longer.fewer {k : Nat} {s s' : Walk} (h : Longer (r + k) s s') : Longer r s s' := by
  refine ⟨h.live, h.pos, h.cap, ?_, h.ext⟩
  have hpool := h.pool
  omega

/-- **The pool is never exhausted**: the name lies in the header behind eight bytes of length. -/
theorem poolAdd_keeps (sp : Span) : Keeps never .short
    (fun s s' => Longer (r + 1 + sp.len) s s' ∧ sp.off + sp.len ≤ s.g.blob.length) (poolAdd sp)
    fun _ => Longer r := by
  rintro s s' ⟨h, hsp⟩
  obtain ⟨b', a', d', hpre, rfl⟩ := h.ext
  have hpool := h.pool
  have hpos := h.pos
  have hlen := hpre.length_le
  have hcap := h.cap
  have hroom : ¬ s.g.strused + sp.len + 1 > s.g.strcap := by omega
  have hroom' : ¬ s.g.strused + sp.len + 1 > (b'.length : Int) + s.g.nKv + s.g.nTensors + 2 := by omega
  have hadd : poolAdd sp s = .ok ((s.g.blob.drop sp.off).take sp.len)
      ⟨{ s.g with strused := s.g.strused + sp.len + 1 }, s.c⟩ := if_neg hroom
  rw [hadd]
  refine .inr ⟨_, (if_neg hroom').trans ?_, h.live, h.pos, h.cap, ?_, b', a', d', hpre, rfl⟩
  · congr 1
    exact take_drop_longer hpre hsp
  · show s.g.strused + sp.len + 1 + (r : Int) ≤ s.c.pos + s.g.nKv + s.g.nTensors
    omega

theorem readName_keeps : Keeps never .short (Longer (r + 1)) readName fun _ => Longer r := by
  unfold readName
  refine rdStr_keeps.bind (fun sp => ?_) fun sp => checkBad_bind_latched _
  exact (checkBad_keeps fun s s' h => h.1.sound s s').seq fun _ => poolAdd_keeps sp

theorem skipBytes_keeps (need : Nat) :
    Keeps never .short (Longer r) (skipBytes need) fun _ => Longer r := by
  intro s s' h
  by_cases hle : s.c.pos + need ≤ s.g.blob.length
  · have hskip : skipBytes need s = .ok () (s.advance need) := if_pos hle
    have hskip' : skipBytes need s' = .ok () (s'.advance need) :=
      if_pos (h.has (n := need) ⟨h.live, hle⟩).2
    rw [hskip]
    exact .inr ⟨_, hskip', h.advance (Nat.zero_le need) hle⟩
  · have hskip : skipBytes need s = .error .short s := if_neg hle
    rw [hskip]
    exact .inl rfl

theorem refuseIf_keeps {P : Walk → Walk → Prop} (p : Prop) [Decidable p] (e : Stop) :
    Keeps never .short P (refuseIf p e) fun _ => P := by
  intro s s' h
  by_cases hp : p
  · rw [refuseIf_pos hp]
    exact .inr ⟨s', refuseIf_pos hp e s'⟩
  · rw [refuseIf_neg hp]
    exact .inr ⟨s', refuseIf_neg hp e s', h⟩

theorem getPos_keeps : Keeps never .short (Longer r) getPos fun _ => Longer r := by
  intro s s' h
  have hcur := (h.sound s s').2
  exact .inr ⟨s', by show EStateM.Result.ok s'.c.pos s' = _; rw [hcur], h⟩

/-- The rounds of the loop over a string array are all alike. -/
theorem stepStrs_keeps (n : Nat) : Keeps never .short (Longer r)
    (times (do let _ ← rdStr; checkBad) n) fun _ => Longer r := by
  refine Keeps.times (I := fun _ => Longer r) (fun _ => ?_) (Latched.never _) n
  refine rdStr_keeps.bind (fun sp => ?_) fun sp => checkBad_latched
  exact fun s s' h => checkBad_keeps Longer.sound s s' h.1.fewer

theorem skipPayload_keeps (ty : GgufType) (n : BitVec 64) :
    Keeps never .short (Longer r) (skipPayload ty n) fun _ => Longer r := by
  unfold skipPayload
  split_ifs
  · exact skipBytes_keeps _
  · exact (stepStrs_keeps _).seq fun _ => Keeps.pure () fun _ _ h => h
  · exact Keeps.throw _

theorem readArray_keeps (k : GgufKV) :
    Keeps never .short (Longer r) (readArray k) fun _ => Longer r := by
  unfold readArray
  refine rdU32_keeps.bind (fun ty => ?_) fun ty => (rd_latched 8).bind fun n =>
    checkBad_bind_latched _
  refine rdU64_keeps.bind (fun n => ?_) fun n => checkBad_bind_latched _
  refine (checkBad_keeps Longer.sound).seq fun _ => getPos_keeps.seq fun pos => ?_
  cases GgufType.ofU32 ty with
  | none => exact Keeps.throw _
  | some ty => exact (skipPayload_keeps ty n).seq fun _ => Keeps.pure _ fun _ _ h => h

theorem readValue_keeps (k : GgufKV) :
    Keeps Dead .short (Longer r) (readValue k) fun _ => Longer r := by
  unfold readValue
  cases k.type with
  | array => exact (readArray_keeps k).of_never
  | string =>
      refine rdStr_keeps.bind (fun sp => Keeps.pure _ fun _ _ h => h.1.fewer) fun _ => Latched.pure _
  | uint8 | int8 | bool =>
      exact rdU8_keeps.bind (fun _ => Keeps.pure _ fun _ _ h => h) fun _ => Latched.pure _
  | uint16 | int16 =>
      exact rdU16_keeps.bind (fun _ => Keeps.pure _ fun _ _ h => h) fun _ => Latched.pure _
  | uint32 | int32 | float32 =>
      exact rdU32_keeps.bind (fun _ => Keeps.pure _ fun _ _ h => h) fun _ => Latched.pure _
  | uint64 | int64 | float64 =>
      exact rdU64_keeps.bind (fun _ => Keeps.pure _ fun _ _ h => h) fun _ => Latched.pure _

theorem onG_keeps {Q : Walk → Walk → Prop} {f : Gguf → Gguf}
    (h : ∀ s s', Longer r s s' → Q ⟨f s.g, s.c⟩ ⟨f s'.g, s'.c⟩) :
    Keeps never .short (Longer r) (onG f) fun _ => Q :=
  fun s s' hs => .inr ⟨_, rfl, h s s' hs⟩

theorem readKv_keeps : Keeps never .short (Longer (r + 1)) readKv fun _ => Longer r := by
  unfold readKv
  refine readName_keeps.seq fun key => rdU32_seq (fun ty => ?_) ?_
  · cases GgufType.ofU32 ty with
    | none => exact Keeps.throw _
    | some ty =>
        refine (readValue_keeps _).bind (fun k => ?_) fun k => checkBad_bind_latched _
        refine (checkBad_keeps Longer.sound).seq fun _ => onG_keeps fun s s' h => ?_
        obtain ⟨b', a', d', hpre, rfl⟩ := h.ext
        exact ⟨h.live, h.pos, h.cap, h.pool, b', a', d', hpre, rfl⟩
  · -- the type is taken for 0, a `UINT8`, and its value for another 0
    exact (rdU8_latched.bind fun _ => Latched.pure _).bind fun k => checkBad_bind_latched _

theorem readTensor_keeps : Keeps never .short (Longer (r + 1)) readTensor fun _ => Longer r := by
  unfold readTensor
  refine readName_keeps.seq fun name => rdU32_keeps.bind (fun nDims => ?_) fun nDims =>
    checkBad_bind_latched _
  refine (checkBad_keeps Longer.sound).seq fun _ => (refuseIf_keeps _ _).seq fun _ => ?_
  have hdims := Keeps.times (I := fun _ => Longer r) (fun _ => rdU64_keeps) (rd_latched 8) nDims.toNat
  refine hdims.bind (fun ds => ?_) fun ds => rdU32_latched.bind fun ty => (rd_latched 8).bind
    fun off => checkBad_bind_latched _
  refine rdU32_keeps.bind (fun ty => ?_) fun ty => (rd_latched 8).bind fun off =>
    checkBad_bind_latched _
  refine rdU64_keeps.bind (fun off => ?_) fun off => checkBad_bind_latched _
  refine (checkBad_keeps Longer.sound).seq fun _ => ?_
  cases ggufDtype ty with
  | none => exact Keeps.throw _
  | some dt =>
      refine (refuseIf_keeps _ _).seq fun _ => onG_keeps fun s s' h => ?_
      obtain ⟨b', a', d', hpre, rfl⟩ := h.ext
      exact ⟨h.live, h.pos, h.cap, h.pool, b', a', d', hpre, rfl⟩

end Steps

/-! ## The whole header -/

/-- The same header, read from a prefix and from a longer one. -/
def SameHeader (s s' : Walk) : Prop :=
  ∃ b' c', s.g.blob <+: b' ∧ s' = ⟨{ s.g with blob := b', strcap := c' }, s.c⟩

/-- Two records to start from: whatever earlier attempts left in them, they agree on the file. -/
structure Starts (g g' : Gguf) : Prop where
  blob : g.blob <+: g'.blob
  file : g'.fileSize = g.fileSize
  data : g'.dataBytes = g.dataBytes

theorem fields_longer {b b' : Bytes} (h : b <+: b') (hlen : 24 ≤ b.length) :
    b'.take 4 = b.take 4 ∧ versionOf b' = versionOf b ∧ nTensorsOf b' = nTensorsOf b ∧
      nKvOf b' = nKvOf b := by
  refine ⟨take_drop_longer h (show 0 + 4 ≤ b.length by omega), ?_, word_longer h (by omega),
    word_longer h (by omega)⟩
  unfold versionOf
  rw [word_longer h (by omega)]

theorem Gguf.begun_longer {g g' : Gguf} (h : Starts g g') (hlen : 24 ≤ g.blob.length)
    (hcounts : ¬ CountsBad (nTensorsOf g.blob) (nKvOf g.blob)) :
    Longer (g.begun.nKv.toNat + g.begun.nTensors.toNat) ⟨g.begun, ⟨24, false⟩⟩
      ⟨g'.begun, ⟨24, false⟩⟩ := by
  obtain ⟨-, hv, ht, hk⟩ := fields_longer h.blob hlen
  refine ⟨rfl, hlen, rfl, ?_, g'.blob, g'.alignment, g'.dataStart, h.blob, ?_⟩
  · have hnn : 0 ≤ (nTensorsOf g.blob).toInt ∧ 0 ≤ (nKvOf g.blob).toInt := by
      unfold CountsBad at hcounts
      omega
    show (0 : Int) + (((nKvOf g.blob).toInt.toNat + (nTensorsOf g.blob).toInt.toNat : Nat) : Int)
      ≤ ((24 : Nat) : Int) + (nKvOf g.blob).toInt + (nTensorsOf g.blob).toInt
    omega
  · unfold Gguf.begun Gguf.counted
    simp only [hv, ht, hk, h.file, h.data]

theorem placeData_keeps : Keeps never .short (Longer 0) placeData fun _ => SameHeader := by
  intro s s' h
  obtain ⟨b', a', d', hpre, rfl⟩ := h.ext
  rcases placeData_cases s with ⟨hcan, hok⟩ | ⟨hcan, u, herr⟩
  · rw [hok]
    rcases placeData_cases ⟨{ s.g with
        blob := b', strcap := b'.length + s.g.nKv + s.g.nTensors + 2, alignment := a'
        dataStart := d' }, s.c⟩ with ⟨-, hok'⟩ | ⟨hcan', -⟩
    · exact .inr ⟨_, hok', b', _, hpre, rfl⟩
    · exact absurd hcan hcan'
  · rw [herr]
    rcases placeData_cases ⟨{ s.g with
        blob := b', strcap := b'.length + s.g.nKv + s.g.nTensors + 2, alignment := a'
        dataStart := d' }, s.c⟩ with ⟨hcan', -⟩ | ⟨-, u', herr'⟩
    · exact absurd hcan' hcan
    · exact .inr ⟨u', herr'⟩

/-- **A verdict other than "too short", and every value, is the same on a longer prefix.** -/
theorem parseBody_keeps : Keeps never .short
    (fun s s' => Starts s.g s'.g ∧ s.c = ⟨0, false⟩ ∧ s'.c = ⟨0, false⟩) parseBody
    fun _ => SameHeader := by
  rintro ⟨g, c⟩ ⟨g', c'⟩ ⟨hstart, rfl, rfl⟩
  replace hstart : Starts g g' := hstart
  unfold parseBody
  by_cases hlen : g.blob.length < 24
  · have herr : readCounts ⟨g, ⟨0, false⟩⟩ = .error .short ⟨g, ⟨0, false⟩⟩ := by
      rw [readCounts_eq, if_pos hlen]
    rw [bind_of_error herr]
    exact .inl rfl
  · have hlen' : ¬ g'.blob.length < 24 := by
      have := hstart.blob.length_le
      omega
    obtain ⟨hm, hv, ht, hk⟩ := fields_longer hstart.blob (not_lt.mp hlen)
    have heq := readCounts_eq g
    have heq' := readCounts_eq g'
    rw [if_neg hlen] at heq
    rw [if_neg hlen', hm, hv, ht, hk] at heq'
    split_ifs at heq heq' with hmagic hversion hcounts
    · rw [bind_of_error heq]
      exact .inr ⟨_, bind_of_error heq' _⟩
    · rw [bind_of_error heq]
      exact .inr ⟨_, bind_of_error heq' _⟩
    · rw [bind_of_error heq]
      exact .inr ⟨_, bind_of_error heq' _⟩
    · rw [bind_of_ok heq, bind_of_ok heq']
      have hbegun := Gguf.begun_longer hstart (not_lt.mp hlen) hcounts
      have hkvs := Keeps.times (I := fun n => Longer (n + g.begun.nTensors.toNat))
        (fun n => by rw [Nat.succ_add]; exact readKv_keeps) (Latched.never _) g.begun.nKv.toNat
      have hts := Keeps.times (I := Longer) (fun n => readTensor_keeps) (Latched.never _)
        g.begun.nTensors.toNat
      simp only [Nat.zero_add] at hkvs
      have hall := hkvs.seq fun _ => hts.seq fun _ => placeData_keeps
      have hk' : g'.begun.nKv = g.begun.nKv := congrArg BitVec.toInt hk
      have ht' : g'.begun.nTensors = g.begun.nTensors := congrArg BitVec.toInt ht
      rw [hk', ht']
      exact hall _ _ hbegun

end LlmEngine.Formats
