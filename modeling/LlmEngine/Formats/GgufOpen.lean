/-
# LlmEngine.Formats.GgufOpen — `gguf_open` is one parse of the longest prefix it may read.

The grow-and-retry loop against a single attempt on the first 256 MB of the file.  What the two are
compared by is the header as a caller can see it (`Gguf.view`): the entries with their strings and
array elements resolved, the tensors, and where the data lies.

* `LeftOver` is what the record can be at the start of an attempt: fresh, or left by one that came up short.
* `attempt_longer`: on a longer prefix the verdict and the values are the same, unless the shorter one was too short;
  this is `parseBody_keeps` (`Formats.GgufPrefix`) with the two records' beginnings.
* `openLoop_view` is the induction over the retries.

`gguf_open` ends, since each retry takes a longer prefix, up to the limit or the file's end.
`ggufOpen_eq_openOnce` states the whole for every file; in `oneEntry_retried` a retry is really made.
-/
import LlmEngine.Formats.GgufPrefix

namespace LlmEngine.Formats

open LlmEngine.Lib
open LlmEngine.Lib.LittleEndian
open LlmEngine.Lib.Walk
open LlmEngine.Tensor

/-! ## What a caller sees -/

/-- An entry with its pointers into the blob resolved. -/
structure KvView where
  key : Bytes
  type : GgufType
  i : Int
  f : Float
  str : Option Bytes
  arrType : GgufType
  arrLen : Int
  arrData : Nat
  payload : Bytes
  elems : Nat → Option Bytes

/-- The complete parsed header. -/
structure HeaderView where
  version : BitVec 32
  nTensors : Int
  nKv : Int
  kv : List KvView
  t : List GgufTensor
  alignment : Int
  dataStart : Int
  dataBytes : Int

/-- `payload` is what the walk stepped over of a fixed-width array. -/
def Gguf.kvView (g : Gguf) (k : GgufKV) : KvView where
  key := k.key
  type := k.type
  i := k.i
  f := k.f
  str := k.str.map g.text
  arrType := k.arrType
  arrLen := k.arrLen
  arrData := k.arrData
  payload := if k.type = .array then
    g.text ⟨k.arrData, stepOver k.arrType (BitVec.ofInt 64 k.arrLen)⟩ else []
  elems := ggufArrStr g k

def Gguf.view (g : Gguf) : HeaderView where
  version := g.version
  nTensors := g.nTensors
  nKv := g.nKv
  kv := g.kv.map g.kvView
  t := g.t
  alignment := g.alignment
  dataStart := g.dataStart
  dataBytes := g.dataBytes

/-! ## Strings on a longer prefix -/

section Strings

variable {b b' : Bytes}

theorem strLenAt_longer (h : b <+: b') {pos : Nat} (hle : pos + 8 ≤ b.length) :
    strLenAt b' pos = strLenAt b pos := by
  unfold strLenAt
  rw [word_longer h hle]

theorem skipStr_longer (h : b <+: b') {pos fin : Nat} (hs : skipStr b pos = some fin) :
    skipStr b' pos = some fin := by
  obtain ⟨rfl, hle⟩ := skipStr_some hs
  have hlen := strLenAt_longer h (show pos + 8 ≤ b.length by omega)
  have hb := h.length_le
  unfold skipStr
  rw [hlen, if_pos (by omega)]

theorem skipStrs_longer (h : b <+: b') (n : Nat) : ∀ {pos fin : Nat},
    skipStrs b n pos = some fin → skipStrs b' n pos = some fin := by
  induction n with
  | zero =>
      intro pos fin hs
      exact hs
  | succ n ih =>
      intro pos fin hs
      obtain ⟨q, hq, hrest⟩ := Option.bind_eq_some_iff.mp hs
      rw [skipStrs, skipStr_longer h hq]
      exact ih hrest

/-- One step of the walk: past the string that stands there, or to it when it is the one asked for. -/
theorem arrWalk_step (g : Gguf) (i pos : Nat) : arrWalk g i ⟨pos, false⟩ =
    (skipStr g.blob pos).bind fun fin =>
      match i with
      | 0 => some ⟨pos + 8, strLenAt g.blob pos⟩
      | i + 1 => arrWalk g i ⟨fin, false⟩ := by
  rw [arrWalk, rdStr_eq (s := ⟨g, ⟨pos, false⟩⟩) rfl]
  cases hskip : skipStr g.blob pos with
  | none =>
      by_cases hhas : Walk.Has ⟨g, ⟨pos, false⟩⟩ 8
      · simp only [if_pos hhas]
        rfl
      · simp only [if_neg hhas]
        rfl
  | some fin =>
      obtain ⟨hfin, -⟩ := skipStr_some hskip
      have hpos : pos + (fin - pos) = fin := by omega
      simp only [Walk.advance, hpos]
      rfl

/-- **What `gguf_arr_str` walks to**: past `i` strings, the one that stands there. -/
theorem arrWalk_eq (g : Gguf) (i : Nat) : ∀ pos : Nat,
    arrWalk g i ⟨pos, false⟩ = (skipStrs g.blob i pos).bind fun q =>
      (skipStr g.blob q).map fun _ => ⟨q + 8, strLenAt g.blob q⟩ := by
  induction i with
  | zero =>
      intro pos
      rw [arrWalk_step]
      show _ = (skipStr g.blob pos).map _
      cases skipStr g.blob pos <;> rfl
  | succ i ih =>
      intro pos
      rw [arrWalk_step, skipStrs, Option.bind_assoc]
      congr 1
      funext fin
      exact ih fin

end Strings

section View

variable {g g' : Gguf}

theorem text_longer (h : g.blob <+: g'.blob) {sp : Span} (hsp : sp.off + sp.len ≤ g.blob.length) :
    g'.text sp = g.text sp := take_drop_longer h hsp

theorem arrStr_longer (h : g.blob <+: g'.blob) {k : GgufKV} (hk : KvIn g.blob k) (i : Nat) :
    ggufArrStr g' k i = ggufArrStr g k i := by
  unfold ggufArrStr
  split_ifs with hty hlen
  · rfl
  · rfl
  · simp only [not_or, not_not] at hty
    obtain ⟨-, n, hn, hpay⟩ := hk.array hty.1
    obtain ⟨-, fin, hfin⟩ := hpay.resolve_left fun hs => absurd hs.1 (by rw [hty.2]; decide)
    obtain ⟨q, q', hq, hone, -⟩ := skipStrs_at (i := i) hfin (by rw [hn] at hlen; omega)
    obtain ⟨hfin', hle⟩ := skipStr_some hone
    have hlenq := strLenAt_longer h (show q + 8 ≤ g.blob.length by omega)
    rw [arrWalk_eq, arrWalk_eq, hq, skipStrs_longer h i hq, Option.bind_some, Option.bind_some, hone,
      skipStr_longer h hone, Option.map_some, Option.map_some, hlenq, Option.map_some,
      Option.map_some]
    congr 1
    exact text_longer h (by show q + 8 + strLenAt g.blob q ≤ g.blob.length; omega)

theorem payload_longer (h : g.blob <+: g'.blob) {k : GgufKV} (hk : KvIn g.blob k)
    (harr : k.type = .array) :
    g'.text ⟨k.arrData, stepOver k.arrType (BitVec.ofInt 64 k.arrLen)⟩ =
      g.text ⟨k.arrData, stepOver k.arrType (BitVec.ofInt 64 k.arrLen)⟩ := by
  obtain ⟨hdata, n, hn, hpay⟩ := hk.array harr
  apply text_longer h
  show k.arrData + stepOver k.arrType (BitVec.ofInt 64 k.arrLen) ≤ g.blob.length
  rw [hn, BitVec.ofInt_toInt]
  rcases hpay with ⟨-, hle⟩ | ⟨hstr, -⟩
  · exact hle
  · -- strings are walked over one by one: nothing is stepped over in one go
    have hnone : stepOver .string n = 0 := by
      unfold stepOver scalarSize
      simp
    rw [hstr, hnone]
    exact hdata

theorem kvView_longer (h : g.blob <+: g'.blob) {k : GgufKV} (hk : KvIn g.blob k) :
    g'.kvView k = g.kvView k := by
  have hstr : k.str.map g'.text = k.str.map g.text := by
    cases hs : k.str with
    | none => rfl
    | some sp => exact congrArg some (text_longer h (hk.str sp hs))
  have helems : ggufArrStr g' k = ggufArrStr g k := funext (arrStr_longer h hk)
  have hpay : (if k.type = .array then
      g'.text ⟨k.arrData, stepOver k.arrType (BitVec.ofInt 64 k.arrLen)⟩ else []) =
      if k.type = .array then
        g.text ⟨k.arrData, stepOver k.arrType (BitVec.ofInt 64 k.arrLen)⟩ else [] := by
    split_ifs with harr
    · exact payload_longer h hk harr
    · rfl
  unfold Gguf.kvView
  rw [hstr, helems, hpay]

/-- What the caller sees of a header does not depend on how much was read behind it. -/
theorem view_longer (h : g.blob <+: g'.blob) (hkv : ∀ k ∈ g.kv, KvIn g.blob k) {c' : Int}
    (hg' : g' = { g with blob := g'.blob, strcap := c' }) : g'.view = g.view := by
  have hmap : g.kv.map g'.kvView = g.kv.map g.kvView :=
    List.map_congr_left fun k hk => kvView_longer h (hkv k hk)
  rw [hg'] at hmap ⊢
  unfold Gguf.view
  rw [← hmap]

end View

/-! ## One attempt -/

/-- `parse_header` on the first `w` bytes of the file, with whatever the record holds. -/
def attempt (f : File) (g : Gguf) (w : Nat) : Rc × Gguf :=
  parseHeader { g with blob := f.bytes.take w }

/-- The records an attempt can start from: the cleared one, or what an abandoned attempt left, with
its two tables freed. -/
inductive LeftOver (f : File) : Gguf → Prop
  | fresh : LeftOver f (Gguf.zero f.bytes.length)
  | retry {g : Gguf} {w : Nat} : LeftOver f g → (attempt f g w).1 = .short →
      LeftOver f { (attempt f g w).2 with kv := [], t := [] }

/-- A single attempt on the longest prefix that `gguf_open` may read. -/
def openOnce (f : File) : Option Gguf :=
  match attempt f (Gguf.zero f.bytes.length) (min f.bytes.length hdrMax) with
  | (.ok, g) => some g
  | (.short, _) => none
  | (.malformed, _) => none

/-! ## What an abandoned attempt leaves behind -/

section Abandoned

/-- The size of the file, and the field that is only ever raised. -/
def Walk.carried (s : Walk) : Int × Int := (s.g.fileSize, s.g.dataBytes)

theorem rd_leaves (n : Nat) : Leaves Walk.carried (rd n) := by
  intro s
  unfold rd
  split_ifs <;> rfl

theorem rdU32_leaves : Leaves Walk.carried rdU32 := (rd_leaves 4).bind fun _ => Leaves.pure _

theorem rdStr_leaves : Leaves Walk.carried rdStr := by
  refine (rd_leaves 8).bind fun n s => ?_
  unfold takeSpan
  split_ifs <;> rfl

theorem checkBad_leaves : Leaves Walk.carried checkBad := by
  intro s
  unfold checkBad
  split_ifs <;> rfl

theorem refuseIf_leaves (p : Prop) [Decidable p] (e : Stop) :
    Leaves Walk.carried (refuseIf p e) := by
  intro s
  unfold refuseIf
  split_ifs <;> rfl

theorem skipBytes_leaves (n : Nat) : Leaves Walk.carried (skipBytes n) := by
  intro s
  unfold skipBytes
  split_ifs <;> rfl

theorem readName_leaves : Leaves Walk.carried readName := by
  refine rdStr_leaves.bind fun sp => checkBad_leaves.bind fun _ s => ?_
  unfold poolAdd
  split_ifs <;> rfl

theorem skipPayload_leaves (ty : GgufType) (n : BitVec 64) :
    Leaves Walk.carried (skipPayload ty n) := by
  unfold skipPayload
  split_ifs
  · exact skipBytes_leaves _
  · exact ((rdStr_leaves.bind fun _ => checkBad_leaves).times _).bind fun _ => Leaves.pure ()
  · exact Leaves.throw _

theorem readArray_leaves (k : GgufKV) : Leaves Walk.carried (readArray k) := by
  refine rdU32_leaves.bind fun ty => (rd_leaves 8).bind fun n => checkBad_leaves.bind fun _ =>
    Leaves.bind (fun _ => rfl) fun pos => ?_
  cases GgufType.ofU32 ty with
  | none => exact Leaves.throw _
  | some ty => exact (skipPayload_leaves ty n).bind fun _ => Leaves.pure _

theorem readValue_leaves (k : GgufKV) : Leaves Walk.carried (readValue k) := by
  unfold readValue
  cases k.type with
  | array => exact readArray_leaves k
  | string => exact rdStr_leaves.bind fun _ => Leaves.pure _
  | uint8 | int8 | bool | uint16 | int16 | uint32 | int32 | float32 =>
      exact ((rd_leaves _).bind fun _ => Leaves.pure _).bind fun _ => Leaves.pure _
  | uint64 | int64 | float64 => exact (rd_leaves 8).bind fun _ => Leaves.pure _

theorem readKv_leaves : Leaves Walk.carried readKv := by
  refine readName_leaves.bind fun key => rdU32_leaves.bind fun ty => ?_
  cases GgufType.ofU32 ty with
  | none => exact Leaves.throw _
  | some ty => exact (readValue_leaves _).bind fun k => checkBad_leaves.bind fun _ _ => rfl

theorem readTensor_leaves : Leaves Walk.carried readTensor := by
  refine readName_leaves.bind fun name => rdU32_leaves.bind fun nDims => checkBad_leaves.bind
    fun _ => (refuseIf_leaves _ _).bind fun _ => ((rd_leaves 8).times _).bind fun ds =>
    rdU32_leaves.bind fun ty => (rd_leaves 8).bind fun off => checkBad_leaves.bind fun _ => ?_
  cases ggufDtype ty with
  | none => exact Leaves.throw _
  | some dt => exact (refuseIf_leaves _ _).bind fun _ _ => rfl

theorem readCounts_leaves (g : Gguf) :
    match readCounts ⟨g, ⟨0, false⟩⟩ with
    | .ok _ t => t.carried = (g.fileSize, g.dataBytes)
    | .error _ t => t.carried = (g.fileSize, g.dataBytes) := by
  rw [readCounts_eq]
  split_ifs <;> rfl

/-- The data section is only looked at once everything before it has been read: an attempt that ran
out of bytes has not touched `data_bytes`. -/
theorem short_carried {g : Gguf} {w : Walk} (h : parseBody ⟨g, ⟨0, false⟩⟩ = .error .short w) :
    w.g.fileSize = g.fileSize ∧ w.g.dataBytes = g.dataBytes := by
  rw [← Prod.mk.injEq]
  unfold parseBody at h
  have hcounts := readCounts_leaves g
  cases hrc : readCounts ⟨g, ⟨0, false⟩⟩ with
  | error e u =>
      rw [hrc] at hcounts
      rw [bind_of_error hrc] at h
      obtain ⟨-, rfl⟩ := EStateM.Result.error.inj h
      exact hcounts
  | ok counts u =>
      rw [hrc] at hcounts
      rw [bind_of_ok hrc] at h
      have hkvs := readKv_leaves.times counts.1 u
      cases hk : times readKv counts.1 u with
      | error e v =>
          rw [hk] at hkvs
          rw [bind_of_error hk] at h
          obtain ⟨-, rfl⟩ := EStateM.Result.error.inj h
          exact hkvs.trans hcounts
      | ok _ v =>
          rw [hk] at hkvs
          rw [bind_of_ok hk] at h
          have hts := readTensor_leaves.times counts.2 v
          cases ht : times readTensor counts.2 v with
          | error e x =>
              rw [ht] at hts
              rw [bind_of_error ht] at h
              obtain ⟨-, rfl⟩ := EStateM.Result.error.inj h
              exact hts.trans (hkvs.trans hcounts)
          | ok _ x =>
              rw [bind_of_ok ht] at h
              rcases placeData_cases x with ⟨-, hok⟩ | ⟨-, y, herr⟩
              · rw [hok] at h
                exact absurd h (by simp)
              · rw [herr] at h
                exact absurd h (by simp)

theorem attempt_short {f : File} {g : Gguf} {w : Nat} (h : (attempt f g w).1 = .short) :
    (attempt f g w).2.fileSize = g.fileSize ∧ (attempt f g w).2.dataBytes = g.dataBytes := by
  unfold attempt parseHeader at *
  split at h
  · exact Rc.noConfusion h
  · next u hu => exact short_carried (g := { g with blob := f.bytes.take w }) hu
  · exact Rc.noConfusion h

theorem LeftOver.carried {f : File} {g : Gguf} (h : LeftOver f g) :
    g.fileSize = f.bytes.length ∧ g.dataBytes = 0 := by
  induction h with
  | fresh => exact ⟨rfl, rfl⟩
  | retry _ hshort ih =>
      obtain ⟨hfile, hdata⟩ := attempt_short hshort
      exact ⟨hfile.trans ih.1, hdata.trans ih.2⟩

end Abandoned

/-! ## Any two attempts -/

section Attempts

variable {f : File} {g g' : Gguf} {w w' : Nat}

theorem LeftOver.starts (h : LeftOver f g) (h' : LeftOver f g') (hw : w ≤ w') :
    Starts { g with blob := f.bytes.take w } { g' with blob := f.bytes.take w' } where
  blob := List.take_prefix_take_left hw
  file := h'.carried.1.trans h.carried.1.symm
  data := h'.carried.2.trans h.carried.2.symm

/-- **The verdict and the values are final**: whatever the two attempts found in the record. -/
theorem attempt_longer (h : LeftOver f g) (h' : LeftOver f g') (hw : w ≤ w')
    (hverdict : (attempt f g w).1 ≠ .short) :
    (attempt f g' w').1 = (attempt f g w).1 ∧
      ((attempt f g w).1 = .ok → (attempt f g' w').2.view = (attempt f g w).2.view) := by
  have hkeeps := parseBody_keeps ⟨{ g with blob := f.bytes.take w }, ⟨0, false⟩⟩
    ⟨{ g' with blob := f.bytes.take w' }, ⟨0, false⟩⟩ ⟨h.starts h' hw, rfl, rfl⟩
  unfold attempt parseHeader at *
  cases hbody : parseBody ⟨{ g with blob := f.bytes.take w }, ⟨0, false⟩⟩ with
  | ok _ t =>
      rw [hbody] at hkeeps
      obtain ⟨t', hbody', b', c', hpre, rfl⟩ := hkeeps.resolve_left id
      rw [hbody']
      refine ⟨rfl, fun _ => ?_⟩
      obtain ⟨s, hs, -, hplaced⟩ := parseBody_ok hbody
      have hkv : ∀ k ∈ t.g.kv, KvIn t.g.blob k := by
        rw [hplaced]
        show ∀ k ∈ s.g.kv, KvIn s.g.blob k
        rw [hs.blob_eq]
        exact hs.kv
      exact view_longer hpre hkv rfl
  | error e t =>
      rw [hbody] at hkeeps hverdict
      cases e with
      | short => exact absurd rfl hverdict
      | malformed =>
          obtain ⟨t', hbody'⟩ := hkeeps.resolve_left (by simp)
          rw [hbody']
          exact ⟨rfl, fun h => Rc.noConfusion h⟩

theorem openOnce_eq (f : File) : openOnce f =
    if (attempt f (Gguf.zero f.bytes.length) (min f.bytes.length hdrMax)).1 = .ok then
      some (attempt f (Gguf.zero f.bytes.length) (min f.bytes.length hdrMax)).2 else none := by
  unfold openOnce
  generalize attempt f (Gguf.zero f.bytes.length) (min f.bytes.length hdrMax) = r
  obtain ⟨rc, g⟩ := r
  cases rc <;> rfl

theorem attempt_refused (hverdict : (attempt f g w).1 = .malformed) (h : LeftOver f g)
    (hw : w ≤ min f.bytes.length hdrMax) : openOnce f = none := by
  obtain ⟨hsame, -⟩ := attempt_longer h .fresh hw (by rw [hverdict]; decide)
  rw [openOnce_eq, hsame, hverdict]
  rfl

theorem attempt_accepted (hverdict : (attempt f g w).1 = .ok) (h : LeftOver f g)
    (hw : w ≤ min f.bytes.length hdrMax) :
    (openOnce f).map Gguf.view = some (attempt f g w).2.view := by
  obtain ⟨hsame, hview⟩ := attempt_longer h .fresh hw (by rw [hverdict]; decide)
  rw [openOnce_eq, hsame, if_pos hverdict, Option.map_some, hview hverdict]

/-- Running out of the longest prefix is running out in the single attempt. -/
theorem attempt_exhausted (hverdict : (attempt f g w).1 = .short) (h : LeftOver f g)
    (hw : w = min f.bytes.length hdrMax) : openOnce f = none := by
  subst hw
  rw [openOnce_eq, if_neg]
  intro hok
  obtain ⟨hsame, -⟩ := attempt_longer .fresh h (Nat.le_refl _) (by rw [hok]; decide)
  rw [hverdict, hok] at hsame
  exact Rc.noConfusion hsame

/-- **The loop**: each retry starts from leftovers and looks at a longer prefix, so the first verdict
other than "too short" is the single attempt's, and without one the last prefix is the single
attempt's as well. -/
theorem openLoop_view (f : File) (g : Gguf) (w : Nat) (hw : 0 < w) (h : LeftOver f g)
    (hle : w ≤ min f.bytes.length hdrMax) :
    (openLoop f g w hw).map Gguf.view = (openOnce f).map Gguf.view := by
  fun_induction openLoop f g w hw with
  | case1 g w hw g' hok =>
      have hverdict : (attempt f g w).1 = .ok := congrArg Prod.fst hok
      rw [attempt_accepted hverdict h hle]
      exact congrArg (fun r : Rc × Gguf => some r.2.view) hok.symm
  | case2 g w hw g' hbad =>
      rw [attempt_refused (congrArg Prod.fst hbad) h hle]
  | case3 g w hw g' hshort hlast =>
      rw [attempt_exhausted (congrArg Prod.fst hshort) h (by omega)]
  | case4 g w hw g' hshort hmore ih =>
      have hverdict : (attempt f g w).1 = .short := congrArg Prod.fst hshort
      have hleft := LeftOver.retry h hverdict
      have hg' : (attempt f g w).2 = g' := congrArg Prod.snd hshort
      rw [hg'] at hleft
      exact ih hleft (by unfold grow; omega)

end Attempts

/-- **How much of the header was read first does not matter.**  `gguf_open` delivers what a single
attempt on the first 256 MB delivers; and any attempt that does not run out of bytes, starting from
the cleared record or from what abandoned attempts left in it, has the verdict and the header of
every attempt on a longer prefix. -/
theorem ggufOpen_eq_openOnce (f : File) :
    (ggufOpen f).map Gguf.view = (openOnce f).map Gguf.view ∧
      ∀ (g g' : Gguf) (w w' : Nat), LeftOver f g → LeftOver f g' → w ≤ w' →
        (attempt f g w).1 ≠ .short →
        (attempt f g' w').1 = (attempt f g w).1 ∧
          ((attempt f g w).1 = .ok → (attempt f g' w').2.view = (attempt f g w).2.view) := by
  refine ⟨?_, fun g g' w w' h h' hw hverdict => attempt_longer h h' hw hverdict⟩
  unfold ggufOpen
  split_ifs with hlen
  · -- such a file is too short for the single attempt as well
    have hshort : attempt f (Gguf.zero f.bytes.length) (min f.bytes.length hdrMax) =
        (.short, { Gguf.zero f.bytes.length with
          blob := f.bytes.take (min f.bytes.length hdrMax) }) := by
      have hblob : (f.bytes.take (min f.bytes.length hdrMax)).length < 24 := by
        rw [List.length_take]
        omega
      unfold attempt parseHeader parseBody
      rw [bind_of_error (show readCounts _ = .error .short _ by rw [readCounts_eq, if_pos hblob])]
    unfold openOnce
    rw [hshort]
  · refine openLoop_view f _ _ _ .fresh ?_
    unfold hdrFirst hdrMax
    omega

/-- Version 3, one entry (`"a"`, a `UINT8`), no tensors; then eight bytes of data. -/
def oneEntry : File where
  bytes := ggufMagic ++ [3, 0, 0, 0] ++ [0, 0, 0, 0, 0, 0, 0, 0] ++ [1, 0, 0, 0, 0, 0, 0, 0] ++
    [1, 0, 0, 0, 0, 0, 0, 0, 97] ++ [0, 0, 0, 0] ++ [7] ++ [1, 2, 3, 4, 5, 6, 7, 8]
  len_lt := by decide

/-- Its header is 38 bytes: an attempt on 30 is abandoned, and a retry on 46 finds what an attempt on
38 finds. -/
theorem oneEntry_retried :
    (attempt oneEntry (Gguf.zero 46) 30).1 = .short ∧ (attempt oneEntry (Gguf.zero 46) 38).1 = .ok ∧
      (attempt oneEntry { (attempt oneEntry (Gguf.zero 46) 30).2 with kv := [], t := [] } 46).2.view =
        (attempt oneEntry (Gguf.zero 46) 38).2.view :=
  ⟨by decide, by decide,
    ((ggufOpen_eq_openOnce oneEntry).2 _ _ 38 46 .fresh (.retry .fresh (by decide)) (by decide)
      (by decide)).2 (by decide)⟩

end LlmEngine.Formats
