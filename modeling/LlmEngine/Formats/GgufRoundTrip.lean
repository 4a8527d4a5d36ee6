/-
# LlmEngine.Formats.GgufRoundTrip — what the writer wrote is what the reader delivers.

The walk over a blob in which the encoding of a header lies at the front.  Each reader is given the
bytes of its own part (`Lies`) and a state that has read everything before it (`On`), and delivers the
part's value and the state behind it; `r` counts the names still to be copied, which is what the pool
needs to have room for.

* There is one lemma for each reader, `_delivers`, with the bytes of its part as hypothesis; strings, arrays and
  dimensions are tables of their elements (`table_delivers`).
* `readValue_delivers` is a metadata value of any type, `readTensor_delivers` a descriptor.
* `alignmentOf_eq`: the alignment is looked up in the entries delivered, so it is the writer's.
* Placing the tensors computes the offsets the writer meant, when they fit the file.

The bytes in front and behind are arbitrary, as is what the record held before.
-/
import LlmEngine.Formats.GgufEncode
import LlmEngine.Formats.GgufOpen
import Mathlib.Data.List.TakeWhile

namespace LlmEngine.Formats

open LlmEngine.Lib
open LlmEngine.Lib.LittleEndian
open LlmEngine.Lib.Walk
open LlmEngine.Tensor

/-! ## Bytes at a place -/

/-- `x` stands at `pos`. -/
structure Lies (b : Bytes) (pos : Nat) (x : Bytes) : Prop where
  le : pos + x.length ≤ b.length
  eq : (b.drop pos).take x.length = x

theorem Lies.left {b x y : Bytes} {pos : Nat} (h : Lies b pos (x ++ y)) : Lies b pos x := by
  have hle := h.le
  rw [List.length_append] at hle
  refine ⟨by omega, ?_⟩
  have heq := congrArg (List.take x.length) h.eq
  rwa [List.take_take, List.length_append, Nat.min_eq_left (Nat.le_add_right _ _),
    List.take_left' rfl] at heq

theorem Lies.right {b x y : Bytes} {pos : Nat} (h : Lies b pos (x ++ y)) :
    Lies b (pos + x.length) y := by
  have hle := h.le
  rw [List.length_append] at hle
  refine ⟨by omega, ?_⟩
  have heq := congrArg (List.drop x.length) h.eq
  rwa [List.length_append, List.drop_take, List.drop_drop, Nat.add_sub_cancel_left,
    List.drop_left' rfl] at heq

theorem Lies.word {b : Bytes} {pos n v : Nat} (h : Lies b pos (put n v)) (hv : v < 256 ^ n) (w : Nat) :
    LittleEndian.word w n (b.drop pos) = BitVec.ofNat w v := by
  have heq := h.eq
  rw [put_length] at heq
  unfold LittleEndian.word
  rw [heq, get_put, Nat.mod_eq_of_lt hv]

/-- The string that stands there is the one that is skipped. -/
theorem Lies.skipStr {b s : Bytes} {pos : Nat} (h : Lies b pos (encStr s)) (hs : s.length < 2 ^ 64) :
    strLenAt b pos = s.length ∧ Formats.skipStr b pos = some (pos + (encStr s).length) := by
  have hlen : strLenAt b pos = s.length := by
    unfold strLenAt
    rw [h.left.word (by omega) 64, BitVec.toNat_ofNat, Nat.mod_eq_of_lt hs]
  have hle := h.le
  have henc : (encStr s).length = 8 + s.length := by
    unfold encStr
    rw [List.length_append, put_length]
  refine ⟨hlen, ?_⟩
  unfold Formats.skipStr
  rw [hlen, if_pos (by omega), henc, Nat.add_assoc]

/-! ## The state of the walk -/

/-- The walk has filled the record as far as `g` and stands at `pos`, with room for `r` more names. -/
structure On (g : Gguf) (pos r : Nat) (s : Walk) : Prop where
  g_eq : s.g = { g with strused := s.g.strused }
  cur : s.c = ⟨pos, false⟩
  pool : s.g.strused + r ≤ pos + g.nKv + g.nTensors

section Readers

variable {g : Gguf} {pos r : Nat}

theorem On.blob_eq {s : Walk} (h : On g pos r s) : s.g.blob = g.blob := by
  rw [h.g_eq]

theorem On.advance {s : Walk} (h : On g pos r s) {n k : Nat} (hk : k ≤ n) :
    On g (pos + n) (r + k) (s.advance n) := by
  refine ⟨h.g_eq, ?_, ?_⟩
  · unfold Walk.advance
    rw [h.cur]
  · have hpool := h.pool
    show s.g.strused + ((r + k : Nat) : Int) ≤ ((pos + n : Nat) : Int) + g.nKv + g.nTensors
    omega

theorem On.has {s : Walk} (h : On g pos r s) {n : Nat} (hn : pos + n ≤ g.blob.length) : s.Has n := by
  unfold Walk.Has
  rw [h.cur, h.blob_eq]
  exact ⟨rfl, hn⟩

theorem rd_delivers {n v : Nat} (h : Lies g.blob pos (put n v)) (hv : v < 256 ^ n) :
    Delivers (On g pos r) (rd n) fun a s => a = BitVec.ofNat 64 v ∧ On g (pos + n) r s := by
  intro s hs
  have hle := h.le
  rw [put_length] at hle
  refine ⟨_, _, rd_has (hs.has hle), ?_, hs.advance (Nat.zero_le n)⟩
  rw [hs.blob_eq, hs.cur]
  exact h.word hv 64

theorem rdU8_delivers {v : BitVec 8} (h : Lies g.blob pos (put 1 v.toNat)) :
    Delivers (On g pos r) rdU8 fun a s => a = v ∧ On g (pos + 1) r s :=
  (rd_delivers h (by have := v.isLt; omega)).bind fun a => Delivers.pure fun s hs =>
    ⟨by rw [hs.1]; simp, hs.2⟩

theorem rdU16_delivers {v : BitVec 16} (h : Lies g.blob pos (put 2 v.toNat)) :
    Delivers (On g pos r) rdU16 fun a s => a = v ∧ On g (pos + 2) r s :=
  (rd_delivers h (by have := v.isLt; omega)).bind fun a => Delivers.pure fun s hs =>
    ⟨by rw [hs.1]; simp, hs.2⟩

theorem rdU32_delivers {v : BitVec 32} (h : Lies g.blob pos (put 4 v.toNat)) :
    Delivers (On g pos r) rdU32 fun a s => a = v ∧ On g (pos + 4) r s :=
  (rd_delivers h (by have := v.isLt; omega)).bind fun a => Delivers.pure fun s hs =>
    ⟨by rw [hs.1]; simp, hs.2⟩

theorem rdU64_delivers {v : BitVec 64} (h : Lies g.blob pos (put 8 v.toNat)) :
    Delivers (On g pos r) rdU64 fun a s => a = v ∧ On g (pos + 8) r s :=
  (rd_delivers h (by have := v.isLt; omega)).weaken fun a s hs => ⟨by rw [hs.1]; simp, hs.2⟩

theorem checkBad_delivers : Delivers (On g pos r) checkBad fun _ s => On g pos r s := by
  intro s hs
  have hlive : s.c.bad = false := by rw [hs.cur]
  exact ⟨(), s, if_neg (by rw [hlive]; decide), hs⟩

theorem refuseIf_delivers {p : Prop} [Decidable p] {e : Stop} (h : ¬ p) :
    Delivers (On g pos r) (refuseIf p e) fun _ s => On g pos r s :=
  fun s hs => ⟨(), s, refuseIf_neg h e s, hs⟩

theorem rdStr_delivers {str : Bytes} (h : Lies g.blob pos (encStr str)) (hlen : str.length < 2 ^ 64) :
    Delivers (On g pos r) rdStr fun sp s =>
      sp = ⟨pos + 8, str.length⟩ ∧ On g (pos + (encStr str).length) (r + str.length) s := by
  intro s hs
  obtain ⟨hstr, hskip⟩ := h.skipStr hlen
  have henc : (encStr str).length = 8 + str.length := by
    unfold encStr
    rw [List.length_append, put_length]
  refine ⟨_, _, (rdStr_eq (by rw [hs.cur])).trans ?_, rfl, hs.advance (n := (encStr str).length) ?_⟩
  · rw [hs.blob_eq, hs.cur, hskip, hstr]
    simp only [Nat.add_sub_cancel_left]
  · omega

/-- **A name fits the pool**: it lies behind eight bytes of length, and its terminator was counted
in. -/
theorem readName_delivers {name : Bytes} (h : Lies g.blob pos (encStr name))
    (hcap : g.strcap = g.blob.length + g.nKv + g.nTensors + 2) (hlen : name.length < 2 ^ 64) :
    Delivers (On g pos (r + 1)) readName fun a s =>
      a = name ∧ On g (pos + (encStr name).length) r s := by
  refine (rdStr_delivers h hlen).bind fun sp => Delivers.assuming ?_
  rintro rfl
  refine checkBad_delivers.bind fun _ s hs => ?_
  have hpool := hs.pool
  have hle := h.le
  have hcap' : s.g.strcap = g.strcap := by rw [hs.g_eq]
  have hroom : ¬ s.g.strused + name.length + 1 > s.g.strcap := by
    rw [hcap', hcap]
    omega
  have hname := h.right
  rw [put_length] at hname
  refine ⟨_, _, if_neg hroom, ?_, ?_, hs.cur, ?_⟩
  · rw [hs.blob_eq]
    exact hname.eq
  · show { s.g with strused := s.g.strused + name.length + 1 } = _
    rw [hs.g_eq]
  · show s.g.strused + name.length + 1 + (r : Int) ≤ _
    omega

theorem onG_delivers {f : Gguf → Gguf} (hf : ∀ g u, f { g with strused := u } =
    { f g with strused := u }) (hkv : (f g).nKv = g.nKv) (hts : (f g).nTensors = g.nTensors) :
    Delivers (On g pos r) (onG f) fun _ s => On (f g) pos r s := by
  intro s hs
  have heq : f s.g = { f g with strused := s.g.strused } := by
    rw [hs.g_eq]
    exact hf g _
  have hused : (f s.g).strused = s.g.strused := by rw [heq]
  refine ⟨(), _, rfl, ?_, hs.cur, ?_⟩
  · show f s.g = { f g with strused := (f s.g).strused }
    rw [hused]
    exact heq
  · show (f s.g).strused + (r : Int) ≤ pos + (f g).nKv + (f g).nTensors
    rw [hused, hkv, hts]
    exact hs.pool

/-! ## Values -/

theorem readScalar_delivers (v : Scalar) (key : Bytes) (h : Lies g.blob pos v.enc) :
    Delivers (On g pos r) (readValue (.blank key v.type)) fun k s =>
      k = { GgufKV.blank key v.type with i := v.int, f := v.float } ∧
        On g (pos + v.enc.length) r s := by
  unfold Scalar.enc at *
  rw [put_length]
  cases v with
  | uint8 v | int8 v =>
      refine (rdU8_delivers h).bind fun a => Delivers.assuming ?_
      rintro rfl
      exact Delivers.pure fun s hs => ⟨rfl, hs⟩
  | uint16 v | int16 v =>
      refine (rdU16_delivers h).bind fun a => Delivers.assuming ?_
      rintro rfl
      exact Delivers.pure fun s hs => ⟨rfl, hs⟩
  | uint32 v | int32 v | float32 v =>
      refine (rdU32_delivers h).bind fun a => Delivers.assuming ?_
      rintro rfl
      exact Delivers.pure fun s hs => ⟨rfl, hs⟩
  | uint64 v | int64 v | float64 v =>
      refine (rdU64_delivers h).bind fun a => Delivers.assuming ?_
      rintro rfl
      exact Delivers.pure fun s hs => ⟨rfl, hs⟩
  | bool b =>
      have hb : (Scalar.bool b).bits = (BitVec.ofNat 8 b.toNat).toNat := by cases b <;> rfl
      rw [hb] at h
      refine (rdU8_delivers h).bind fun a => Delivers.assuming ?_
      rintro rfl
      refine Delivers.pure fun s hs => ⟨?_, hs⟩
      cases b <;> rfl

/-- `On` with room that is not needed. -/
theorem On.fewer {k : Nat} {s : Walk} (h : On g pos (r + k) s) : On g pos r s := by
  refine ⟨h.g_eq, h.cur, ?_⟩
  have hpool := h.pool
  omega

/-- **The rule for a table**: what each row delivers from its own bytes, the rows deliver in
sequence. -/
theorem table_delivers {α γ : Type} {e : γ → Bytes} {m : Parse α} {b : Bytes}
    {J : Nat → List γ → List α → Walk → Prop}
    (hrow : ∀ x xs as pos, Lies b pos (e x) →
      Delivers (J pos (x :: xs) as) m fun a s => J (pos + (e x).length) xs (as ++ [a]) s)
    (xs : List γ) (as : List α) {pos : Nat} (h : Lies b pos (xs.flatMap e)) :
    Delivers (J pos xs as) (times m xs.length) fun bs s =>
      J (pos + (xs.flatMap e).length) [] (as ++ bs) s := by
  have hloop := Delivers.times (I := fun ys bs s => ∃ p, Lies b p (ys.flatMap e) ∧
    p + (ys.flatMap e).length = pos + (xs.flatMap e).length ∧ J p ys bs s) (m := m) ?_ xs as
  · intro s hs
    obtain ⟨bs, t, hok, p, -, hp, ht⟩ := hloop s ⟨pos, h, rfl, hs⟩
    obtain rfl : p = pos + (xs.flatMap e).length := hp
    exact ⟨bs, t, hok, ht⟩
  · rintro y ys bs s ⟨p, hlies, hp, hs⟩
    rw [List.flatMap_cons] at hlies hp
    obtain ⟨a, t, hok, ht⟩ := hrow y ys bs p hlies.left s hs
    refine ⟨a, t, hok, p + (e y).length, hlies.right, ?_, ht⟩
    rw [List.length_append] at hp
    omega

theorem encStr_length (x : Bytes) : (encStr x).length = 8 + x.length := by
  unfold encStr
  rw [List.length_append, put_length]

/-- A string that lies in the blob is shorter than the blob. -/
theorem Lies.str_lt {b x : Bytes} (h : Lies b pos (encStr x)) (hb : b.length < 2 ^ 63) :
    x.length < 2 ^ 64 := by
  have hle := h.le
  rw [encStr_length] at hle
  omega

theorem stepStrs_delivers (elems : List Bytes) (h : Lies g.blob pos (elems.flatMap encStr))
    (hblob : g.blob.length < 2 ^ 63) :
    Delivers (On g pos r) (times (do let _ ← rdStr; checkBad) elems.length) fun _ s =>
      On g (pos + (elems.flatMap encStr).length) r s := by
  refine table_delivers (J := fun p _ _ s => On g p r s) (fun x _ _ p hx => ?_) elems [] h
  refine (rdStr_delivers hx (hx.str_lt hblob)).bind fun sp => Delivers.assuming fun _ => ?_
  exact checkBad_delivers.weaken fun _ s hs => hs.fewer

/-- The strings of an array can be skipped one by one. -/
theorem Lies.skipStrs {b : Bytes} (hb : b.length < 2 ^ 63) (elems : List Bytes) : ∀ {pos : Nat},
    Lies b pos (elems.flatMap encStr) →
      Formats.skipStrs b elems.length pos = some (pos + (elems.flatMap encStr).length) := by
  induction elems with
  | nil => intro pos _; rfl
  | cons x xs ih =>
      intro pos h
      rw [List.flatMap_cons] at h
      obtain ⟨-, hskip⟩ := h.left.skipStr (h.left.str_lt hb)
      rw [List.length_cons, Formats.skipStrs, hskip, Option.bind_some, ih h.right, List.flatMap_cons,
        List.length_append, Nat.add_assoc]

/-- **`gguf_arr_str` finds the `i`-th string.** -/
theorem ggufArrStr_eq {k : GgufKV} {elems : List Bytes} (hb : g.blob.length < 2 ^ 63)
    (hty : k.type = .array) (harr : k.arrType = .string) (hlen : k.arrLen = elems.length)
    (h : Lies g.blob k.arrData (elems.flatMap encStr)) (i : Nat) : ggufArrStr g k i = elems[i]? := by
  unfold ggufArrStr
  rw [if_neg (by simp [hty, harr]), hlen]
  split_ifs with hi
  · exact (List.getElem?_eq_none (by omega)).symm
  · have hlt : i < elems.length := by omega
    have hsplit : elems = elems.take i ++ elems[i] :: elems.drop (i + 1) := by
      rw [← List.drop_eq_getElem_cons hlt, List.take_append_drop]
    rw [hsplit, List.flatMap_append, List.flatMap_cons] at h
    have hskip := Lies.skipStrs hb _ h.left
    rw [List.length_take, Nat.min_eq_left (Nat.le_of_lt hlt)] at hskip
    have hat := h.right.left
    obtain ⟨hstr, hone⟩ := hat.skipStr (hat.str_lt hb)
    rw [arrWalk_eq, hskip, Option.bind_some, hone, Option.map_some, hstr, Option.map_some,
      List.getElem?_eq_getElem hlt]
    have htext := hat.right.eq
    rw [put_length] at htext
    exact congrArg some htext

theorem ofU32_toNat (ty : GgufType) : GgufType.ofU32 (BitVec.ofNat 32 ty.toNat) = some ty := by
  cases ty <;> rfl

theorem rdType_delivers {ty : GgufType} (h : Lies g.blob pos (put 4 ty.toNat)) :
    Delivers (On g pos r) rdU32 fun a s => GgufType.ofU32 a = some ty ∧ On g (pos + 4) r s := by
  have hty : ty.toNat = (BitVec.ofNat 32 ty.toNat).toNat := by cases ty <;> rfl
  rw [hty] at h
  exact (rdU32_delivers h).weaken fun a s hs => ⟨by rw [hs.1, ofU32_toNat], hs.2⟩

/-- A count that is less than the sign. -/
theorem rdCount_delivers {n : Nat} (h : Lies g.blob pos (put 8 n)) (hn : n < 2 ^ 63) :
    Delivers (On g pos r) rdU64 fun a s =>
      (a.toNat = n ∧ a.toInt = n) ∧ On g (pos + 8) r s := by
  refine (rd_delivers h (by omega)).weaken fun a s hs => ⟨?_, hs.2⟩
  rw [hs.1]
  exact ⟨by rw [BitVec.toNat_ofNat, Nat.mod_eq_of_lt (by omega)], ofNat64_toInt hn⟩

theorem getPos_delivers : Delivers (On g pos r) getPos fun a s => a = pos ∧ On g pos r s :=
  fun s hs => ⟨s.c.pos, s, rfl, by rw [hs.cur], hs⟩

theorem skipBytes_delivers {need : Nat} (h : pos + need ≤ g.blob.length) :
    Delivers (On g pos r) (skipBytes need) fun _ s => On g (pos + need) r s := by
  intro s hs
  refine ⟨(), s.advance need, if_pos ?_, hs.advance (Nat.zero_le _)⟩
  rw [hs.cur, hs.blob_eq]
  exact h

/-- What follows the element type of an array: its count and its payload. -/
theorem readArray_delivers (k : GgufKV) {ty : GgufType} {n : Nat} {payload : Bytes}
    (h : Lies g.blob pos (put 4 ty.toNat ++ (put 8 n ++ payload))) (hn : n < 2 ^ 63)
    (hskip : ∀ c : BitVec 64, c.toNat = n → c.toInt = n →
      Delivers (On g (pos + 4 + 8) r) (skipPayload ty c) fun _ s =>
        On g (pos + 4 + 8 + payload.length) r s) :
    Delivers (On g pos r) (readArray k) fun k' s =>
      k' = { k with arrType := ty, arrLen := n, arrData := pos + 4 + 8 } ∧
        On g (pos + (put 4 ty.toNat ++ (put 8 n ++ payload)).length) r s := by
  have hcount := h.right
  rw [put_length] at hcount
  have hlen : pos + (put 4 ty.toNat ++ (put 8 n ++ payload)).length =
      pos + 4 + 8 + payload.length := by
    rw [List.length_append, List.length_append, put_length, put_length]
    omega
  rw [hlen]
  refine (rdType_delivers h.left).bind fun a => Delivers.assuming fun hty => ?_
  refine (rdCount_delivers hcount.left hn).bind fun c => Delivers.assuming fun hc => ?_
  refine checkBad_delivers.bind fun _ => getPos_delivers.bind fun p => Delivers.assuming ?_
  rintro rfl
  rw [hty]
  refine (hskip c hc.1 hc.2).bind fun _ => Delivers.pure fun s hs => ⟨?_, hs⟩
  rw [hc.2]

theorem payload_length {ty : GgufType} (fixed : 0 < scalarSize ty)
    (elems : List { v : Scalar // v.type = ty }) :
    (Value.array ty fixed elems).payload.length = scalarSize ty * elems.length := by
  show (elems.flatMap fun v => v.val.enc).length = _
  induction elems with
  | nil => rfl
  | cons v vs ih =>
      have hv : v.val.enc.length = scalarSize ty := by
        unfold Scalar.enc
        rw [put_length, v.property]
      rw [List.flatMap_cons, List.length_append, ih, hv, List.length_cons, Nat.mul_succ, Nat.add_comm]

theorem length_le_flatMap_encStr (elems : List Bytes) :
    elems.length ≤ (elems.flatMap encStr).length := by
  induction elems with
  | nil => exact Nat.le_refl 0
  | cons x xs ih =>
      rw [List.flatMap_cons, List.length_append, encStr_length, List.length_cons]
      omega

/-- **A value is read back**, whatever its type. -/
theorem readValue_delivers (e : Entry) (hb : g.blob.length < 2 ^ 63)
    (h : Lies g.blob pos e.value.enc) :
    Delivers (On g pos r) (readValue (.blank e.key e.value.type)) fun k s =>
      Holds g e k ∧ On g (pos + e.value.enc.length) r s := by
  obtain ⟨key, value, noNul⟩ := e
  cases value with
  | scalar v =>
      refine (readScalar_delivers v key h).weaken fun k s hs => ⟨?_, hs.2⟩
      obtain ⟨rfl, -⟩ := hs
      exact ⟨rfl, rfl, rfl, rfl, rfl, fun _ _ _ h => Value.noConfusion h,
        fun _ h => Value.noConfusion h⟩
  | string str =>
      refine (rdStr_delivers h (h.str_lt hb)).bind fun sp => Delivers.assuming ?_
      rintro rfl
      refine Delivers.pure fun s hs => ⟨?_, hs.fewer⟩
      have htext := h.right.eq
      rw [put_length] at htext
      exact ⟨rfl, rfl, rfl, rfl, congrArg some htext, fun _ _ _ h => Value.noConfusion h,
        fun _ h => Value.noConfusion h⟩
  | array ty fixed elems =>
      have hle := h.right.right.le
      rw [put_length, put_length, payload_length] at hle
      -- the payload fits the file, so its size is computed without wrapping
      have hmul : elems.length ≤ scalarSize ty * elems.length := Nat.le_mul_of_pos_left _ fixed
      have hpay := h.right.right.eq
      rw [put_length, put_length, payload_length] at hpay
      refine (readArray_delivers _ h (by omega) fun c hc _ => ?_).weaken fun k s hs => ⟨?_, hs.2⟩
      · unfold skipPayload
        have hsize : scalarSize ty < 2 ^ 64 := by cases ty <;> decide
        have hstep : (BitVec.ofNat 64 (scalarSize ty) * c).toNat = scalarSize ty * elems.length := by
          rw [BitVec.toNat_mul, BitVec.toNat_ofNat, hc, Nat.mod_eq_of_lt hsize,
            Nat.mod_eq_of_lt (by omega)]
        rw [if_pos fixed, hstep, payload_length]
        exact skipBytes_delivers hle
      · obtain ⟨rfl, -⟩ := hs
        refine ⟨rfl, rfl, rfl, rfl, rfl, fun ty' fixed' elems' heq => ?_,
          fun _ heq => Value.noConfusion heq⟩
        cases heq
        exact ⟨rfl, rfl, hpay⟩
  | strings elems =>
      have hle := h.right.right.le
      rw [put_length, put_length] at hle
      -- every string takes at least the eight bytes of its length, which bounds their number
      have hcount := length_le_flatMap_encStr elems
      have hlies : Lies g.blob (pos + 4 + 8) (elems.flatMap encStr) := by
        have hr := h.right.right
        rwa [put_length, put_length] at hr
      have hn : elems.length < 2 ^ 63 := by
        have := hlies.le
        omega
      refine (readArray_delivers _ h hn fun c hc hint => ?_).weaken fun k s hs => ⟨?_, hs.2⟩
      · have hstr : ¬ scalarSize GgufType.string > 0 := by decide
        unfold skipPayload
        rw [if_neg hstr, if_pos rfl, hint, Int.toNat_natCast]
        exact (stepStrs_delivers elems hlies hb).bind fun _ => Delivers.pure fun s hs => hs
      · obtain ⟨rfl, -⟩ := hs
        refine ⟨rfl, rfl, rfl, rfl, rfl, fun _ _ _ heq => Value.noConfusion heq, fun elems' heq => ?_⟩
        cases heq
        exact ⟨rfl, rfl, ggufArrStr_eq hb rfl rfl rfl hlies⟩

/-! ## The two tables -/

/-- What an entry holds depends on the blob only. -/
theorem Holds.of_blob {g' : Gguf} {e : Entry} {k : GgufKV} (hb : g'.blob = g.blob)
    (h : Holds g e k) : Holds g' e k := by
  have htext : g'.text = g.text := by
    funext sp
    unfold Gguf.text
    rw [hb]
  have harr : ∀ i, ggufArrStr g' k i = ggufArrStr g k i := by
    intro i
    unfold ggufArrStr
    rw [arrWalk_eq, arrWalk_eq, hb, htext]
  refine ⟨h.key, h.type, h.int, h.float, ?_, fun ty fixed elems heq => ?_, fun elems heq => ?_⟩
  · rw [htext]
    exact h.str
  · rw [htext]
    exact h.array ty fixed elems heq
  · obtain ⟨hty, hlen, helems⟩ := h.strings elems heq
    exact ⟨hty, hlen, fun i => (harr i).trans (helems i)⟩

theorem readKv_delivers (e : Entry) (hb : g.blob.length < 2 ^ 63)
    (hcap : g.strcap = g.blob.length + g.nKv + g.nTensors + 2) (h : Lies g.blob pos e.enc) :
    Delivers (On g pos (r + 1)) readKv fun _ s =>
      ∃ k, Holds g e k ∧ On { g with kv := g.kv ++ [k] } (pos + e.enc.length) r s := by
  have hty := h.right.left
  have hvalue := h.right.right
  rw [put_length] at hvalue
  have hlen : pos + e.enc.length =
      pos + (encStr e.key).length + 4 + e.value.enc.length := by
    unfold Entry.enc
    rw [List.length_append, List.length_append, put_length]
    omega
  rw [hlen]
  refine (readName_delivers h.left hcap (h.left.str_lt hb)).bind fun key => Delivers.assuming ?_
  rintro rfl
  refine (rdType_delivers hty).bind fun v => Delivers.assuming fun hv => ?_
  rw [hv]
  refine (readValue_delivers e hb hvalue).bind fun k => Delivers.assuming fun hk => ?_
  refine checkBad_delivers.bind fun _ => ?_
  exact (onG_delivers (f := fun g => { g with kv := g.kv ++ [k] }) (fun _ _ => rfl) rfl rfl).weaken
    fun _ s hs => ⟨k, hk, hs⟩

theorem readKvs_delivers (es : List Entry) (hb : g.blob.length < 2 ^ 63)
    (hcap : g.strcap = g.blob.length + g.nKv + g.nTensors + 2) (hnil : g.kv = [])
    (h : Lies g.blob pos (es.flatMap Entry.enc)) :
    Delivers (On g pos (es.length + r)) (times readKv es.length) fun _ s =>
      ∃ ks, List.Forall₂ (Holds g) es ks ∧
        On { g with kv := ks } (pos + (es.flatMap Entry.enc).length) r s := by
  have hloop := table_delivers (e := Entry.enc) (m := readKv) (b := g.blob)
    (J := fun p xs _ s => ∃ done ks, done ++ xs = es ∧ List.Forall₂ (Holds g) done ks ∧
      On { g with kv := ks } p (xs.length + r) s) ?_ es [] h
  · intro s hs
    obtain ⟨bs, t, hok, done, ks, hdone, hks, ht⟩ := hloop s ⟨[], [], rfl, .nil, by
      rw [← hnil]
      exact hs⟩
    rw [List.append_nil] at hdone
    rw [hdone] at hks
    rw [List.length_nil, Nat.zero_add] at ht
    exact ⟨bs, t, hok, ks, hks, ht⟩
  · rintro x xs _ p hx s ⟨done, ks, hdone, hks, hs⟩
    rw [List.length_cons, Nat.succ_add] at hs
    obtain ⟨u, t, hok, k, hk, ht⟩ := readKv_delivers (g := { g with kv := ks }) x hb hcap hx s hs
    exact ⟨u, t, hok, done ++ [x], ks ++ [k], by rw [List.append_assoc]; exact hdone,
      List.rel_append hks (.cons (Holds.of_blob (g := { g with kv := ks }) rfl hk) .nil), ht⟩

/-- The dimensions, each read as it was written. -/
theorem readDims_delivers (ds : List Nat) (hds : ∀ d ∈ ds, d < 2 ^ 63)
    (h : Lies g.blob pos (ds.flatMap (put 8))) :
    Delivers (On g pos r) (times rdU64 ds.length) fun bs s =>
      bs.map BitVec.toInt = ds.map Int.ofNat ∧ On g (pos + (ds.flatMap (put 8)).length) r s := by
  have hloop := table_delivers (e := put 8) (m := rdU64) (b := g.blob)
    (J := fun p xs bs s => bs.map BitVec.toInt ++ xs.map Int.ofNat = ds.map Int.ofNat ∧
      (∀ d ∈ xs, d < 2 ^ 63) ∧ On g p r s) ?_ ds [] h
  · intro s hs
    obtain ⟨bs, t, hok, hbs, -, ht⟩ := hloop s ⟨rfl, hds, hs⟩
    refine ⟨bs, t, hok, ?_, ht⟩
    simpa using hbs
  · rintro x xs bs p hx s ⟨hbs, hlt, hs⟩
    obtain ⟨c, t, hok, hc, ht⟩ := rdCount_delivers hx (hlt x List.mem_cons_self) s hs
    refine ⟨c, t, hok, ?_, fun d hd => hlt d (List.mem_cons_of_mem _ hd), ?_⟩
    · rw [← hbs, List.map_append, List.append_assoc]
      congr 1
      show c.toInt :: xs.map Int.ofNat = _
      rw [hc.2]
      rfl
    · rw [put_length]
      exact ht

end Readers

/-- The descriptor before it is placed. -/
def TensorDesc.unplaced (t : TensorDesc) : GgufTensor := { t.read 0 with fileOff := 0 }

theorem TensorDesc.nbytes_eq (t : TensorDesc) :
    engTensorNbytes t.dtype (t.shape.map Int.ofNat) = t.bytes := by
  refine engTensorNbytes_exact (ggufDtype_plain t.supported) ?_ ?_ ?_ ?_ t.elems_lt t.bytes_lt
  · intro hnil
    have hlen := t.rank_pos
    rw [List.map_eq_nil_iff.mp hnil] at hlen
    exact absurd hlen (by decide)
  · rw [List.length_map]
    exact t.rank_le
  · intro d hd
    obtain ⟨n, -, rfl⟩ := List.mem_map.mp hd
    exact Int.natCast_nonneg n
  · have hwhole := t.whole
    cases hs : t.shape with
    | nil =>
        rw [hs] at hwhole
        exact Int.natCast_dvd_natCast.mpr hwhole
    | cons d ds =>
        rw [hs] at hwhole
        exact Int.natCast_dvd_natCast.mpr hwhole

theorem TensorDesc.bytes_nonneg (t : TensorDesc) : 0 ≤ t.bytes := by
  refine exactBytes_nonneg t.dtype fun d hd => ?_
  obtain ⟨n, -, rfl⟩ := List.mem_map.mp hd
  exact Int.natCast_nonneg n

section Tensors

variable {g : Gguf} {pos r : Nat}

theorem readTensor_delivers (t : TensorDesc) (hb : g.blob.length < 2 ^ 63)
    (hcap : g.strcap = g.blob.length + g.nKv + g.nTensors + 2) (h : Lies g.blob pos t.enc) :
    Delivers (On g pos (r + 1)) readTensor fun _ s =>
      On { g with t := g.t ++ [t.unplaced] } (pos + t.enc.length) r s := by
  have hname := h.left
  have hrank := h.right.left
  have hdims := h.right.right.left
  have hty := h.right.right.right.left
  have hoff := h.right.right.right.right
  have hlen : pos + t.enc.length = pos + (encStr t.name).length + (put 4 t.shape.length).length +
      (t.shape.flatMap (put 8)).length + (put 4 t.ggmlType.toNat).length + 8 := by
    unfold TensorDesc.enc
    simp only [List.length_append, put_length]
    omega
  have hle := t.rank_le
  have hpos := t.rank_pos
  have hrankv : t.shape.length = (BitVec.ofNat 32 t.shape.length).toNat := by
    rw [BitVec.toNat_ofNat, Nat.mod_eq_of_lt (by omega)]
  rw [hlen]
  refine (readName_delivers hname hcap (hname.str_lt hb)).bind fun nm => Delivers.assuming ?_
  rintro rfl
  rw [put_length] at hdims hty hoff ⊢
  rw [hrankv] at hrank
  refine (rdU32_delivers hrank).bind fun nd => Delivers.assuming ?_
  rintro rfl
  refine checkBad_delivers.bind fun _ => (refuseIf_delivers ?_).bind fun _ => ?_
  · have hint : (BitVec.ofNat 32 t.shape.length).toInt = t.shape.length := by
      rw [BitVec.toInt_eq_toNat_of_lt (by omega), ← hrankv]
    rw [hint]
    unfold ggufMaxDims
    omega
  rw [← hrankv]
  refine (readDims_delivers t.shape t.dims_lt hdims).bind fun ds => Delivers.assuming fun hds => ?_
  rw [put_length] at hoff ⊢
  refine (rdU32_delivers hty).bind fun ty => Delivers.assuming ?_
  rintro rfl
  refine (rdCount_delivers hoff t.off_lt).bind fun off => Delivers.assuming fun ho => ?_
  refine checkBad_delivers.bind fun _ => ?_
  rw [t.supported, hds, ho.2]
  simp only [t.nbytes_eq]
  refine (refuseIf_delivers (by rw [t.nbytes_eq]; exact not_lt.mpr t.bytes_nonneg)).bind fun _ => ?_
  exact onG_delivers (f := fun g => { g with t := g.t ++ [t.unplaced] }) (fun _ _ => rfl) rfl rfl

theorem readTensors_delivers (ts : List TensorDesc) (hb : g.blob.length < 2 ^ 63)
    (hcap : g.strcap = g.blob.length + g.nKv + g.nTensors + 2) (hnil : g.t = [])
    (h : Lies g.blob pos (ts.flatMap TensorDesc.enc)) :
    Delivers (On g pos ts.length) (times readTensor ts.length) fun _ s =>
      On { g with t := ts.map TensorDesc.unplaced } (pos + (ts.flatMap TensorDesc.enc).length) 0 s := by
  have hloop := table_delivers (e := TensorDesc.enc) (m := readTensor) (b := g.blob)
    (J := fun p xs _ s => ∃ done, done ++ xs = ts ∧
      On { g with t := done.map TensorDesc.unplaced } p xs.length s) ?_ ts [] h
  · intro s hs
    obtain ⟨bs, u, hok, done, hdone, hu⟩ := hloop s ⟨[], rfl, by
      rw [List.map_nil, ← hnil]
      exact hs⟩
    rw [List.append_nil] at hdone
    rw [hdone] at hu
    exact ⟨bs, u, hok, hu⟩
  · rintro x xs _ p hx s ⟨done, hdone, hs⟩
    obtain ⟨v, u, hok, hu⟩ :=
      readTensor_delivers (g := { g with t := done.map TensorDesc.unplaced }) x hb hcap hx s hs
    refine ⟨v, u, hok, done ++ [x], by rw [List.append_assoc]; exact hdone, ?_⟩
    rw [List.map_append]
    exact hu

end Tensors

/-! ## Looking up -/

section Lookup

variable {g : Gguf}

theorem strEq_noNul {a b : Bytes} (h : 0 ∉ a) : strEq a b = (a == b) := by
  unfold strEq
  congr 1
  apply List.takeWhile_eq_self_iff.mpr
  intro x hx
  exact decide_eq_true fun hzero => h (hzero ▸ hx)

/-- The first entry with a key, on both sides. -/
theorem find_rel {es : List Entry} {ks : List GgufKV} (h : List.Forall₂ (Holds g) es ks)
    (key : Bytes) : Option.Rel (Holds g) (es.find? fun e => e.key == key)
      (ks.find? fun k => strEq k.key key) := by
  induction h with
  | nil => exact .none
  | @cons e k es ks hek _ ih =>
      have hkey : strEq k.key key = (e.key == key) := by
        rw [hek.key, strEq_noNul e.noNul]
      rw [List.find?_cons, List.find?_cons, hkey]
      cases e.key == key with
      | true => exact .some hek
      | false => exact ih

theorem alignmentOf_eq {es : List Entry} {ks : List GgufKV} (h : List.Forall₂ (Holds g) es ks)
    (hpos : 0 < entriesAlignment es) : alignmentOf ks = entriesAlignment es := by
  have hrel := find_rel h alignmentKey
  unfold alignmentOf
  unfold entriesAlignment at hpos ⊢
  generalize es.find? (fun e => e.key == alignmentKey) = oe at hrel hpos ⊢
  generalize ks.find? (fun k => strEq k.key alignmentKey) = ok at hrel ⊢
  cases hrel with
  | none => rfl
  | some hek =>
      simp only [hek.int]
      exact if_pos hpos

end Lookup

/-! ## The header -/

section Whole

variable (h : Header) {blob : Bytes}

theorem Header.enc_length : h.enc.length =
    24 + ((h.kv.flatMap Entry.enc).length + (h.tensors.flatMap TensorDesc.enc).length) := by
  unfold Header.enc ggufMagic
  simp only [List.length_append, put_length, List.length_cons, List.length_nil]
  omega

/-- **The fixed fields are accepted**, and the walk is at the first entry. -/
theorem Header.readCounts_enc (g : Gguf) (hlies : Lies g.blob 0 h.enc) :
    readCounts ⟨g, ⟨0, false⟩⟩ = .ok (h.kv.length, h.tensors.length) ⟨g.begun, ⟨24, false⟩⟩ ∧
      g.begun.version = h.version ∧ g.begun.nKv = h.kv.length ∧
      g.begun.nTensors = h.tensors.length := by
  have hle := hlies.le
  rw [h.enc_length] at hle
  have hversion : Lies g.blob 4 _ := hlies.right.left
  have hnt : Lies g.blob 8 _ := hlies.right.right.left
  have hnkv : Lies g.blob 16 _ := hlies.right.right.right.left
  have hkvle := h.kv_le
  have htle := h.tensors_le
  have hmagic : g.blob.take 4 = ggufMagic := hlies.left.eq
  have hv : versionOf g.blob = h.version := by
    unfold versionOf
    rw [hversion.word (by have := h.version.isLt; omega) 64]
    simp
  have htensors : (nTensorsOf g.blob).toInt = h.tensors.length := by
    unfold nTensorsOf
    rw [hnt.word (by omega) 64, ofNat64_toInt (by omega)]
  have hkv : (nKvOf g.blob).toInt = h.kv.length := by
    unfold nKvOf
    rw [hnkv.word (by omega) 64, ofNat64_toInt (by omega)]
  refine ⟨?_, hv, hkv, htensors⟩
  have hcounts : ¬ CountsBad (nTensorsOf g.blob) (nKvOf g.blob) := by
    unfold CountsBad
    omega
  have hknown : ¬ (versionOf g.blob ≠ 2 ∧ versionOf g.blob ≠ 3) := by
    rw [hv]
    rintro ⟨h2, h3⟩
    exact h.version_ok.elim h2 h3
  have hk' : g.begun.nKv.toNat = h.kv.length := by
    show (nKvOf g.blob).toInt.toNat = _
    rw [hkv, Int.toNat_natCast]
  have ht' : g.begun.nTensors.toNat = h.tensors.length := by
    show (nTensorsOf g.blob).toInt.toNat = _
    rw [htensors, Int.toNat_natCast]
  rw [readCounts_eq, if_neg (by omega), if_neg (not_not.mpr hmagic), if_neg hknown, if_neg hcounts, hk',
    ht']

/-- **The two tables are read back.** -/
theorem Header.tables_enc (g : Gguf) (hlies : Lies g.blob 0 h.enc) (hb : g.blob.length < 2 ^ 63) :
    ∃ ks s, List.Forall₂ (Holds g) h.kv ks ∧
      On { g.begun with kv := ks, t := h.tensors.map TensorDesc.unplaced } h.enc.length 0 s ∧
      parseBody ⟨g, ⟨0, false⟩⟩ = placeData s := by
  obtain ⟨hcounts, -, hnkv, hnt⟩ := h.readCounts_enc g hlies
  have hkvs := hlies.right.right.right.right.left
  have hts := hlies.right.right.right.right.right
  simp only [put_length] at hkvs hts
  have hstart : On g.begun 24 (h.kv.length + h.tensors.length) ⟨g.begun, ⟨24, false⟩⟩ := by
    refine ⟨rfl, rfl, ?_⟩
    show (0 : Int) + ((h.kv.length + h.tensors.length : Nat) : Int) ≤
      ((24 : Nat) : Int) + g.begun.nKv + g.begun.nTensors
    omega
  obtain ⟨_, s₁, hok₁, ks, hks, hs₁⟩ :=
    readKvs_delivers (g := g.begun) h.kv hb rfl rfl hkvs _ hstart
  obtain ⟨_, s₂, hok₂, hs₂⟩ := readTensors_delivers (g := { g.begun with kv := ks }) h.tensors hb rfl
    rfl hts s₁ hs₁
  have hend : 0 + ggufMagic.length + 4 + 8 + 8 + (h.kv.flatMap Entry.enc).length +
      (h.tensors.flatMap TensorDesc.enc).length = h.enc.length := by
    rw [h.enc_length]
    show 0 + 4 + 4 + 8 + 8 + _ + _ = _
    omega
  rw [hend] at hs₂
  refine ⟨ks, s₂, hks.imp fun e k (hk : Holds g.begun e k) => hk.of_blob (show g.blob = g.begun.blob from rfl), hs₂, ?_⟩
  unfold parseBody
  rw [bind_of_ok hcounts, bind_of_ok hok₁, bind_of_ok hok₂]

/-- **Every tensor ends within the file, without a wrap-around.** -/
theorem Header.passes_enc {n : Nat} (hn : n < 2 ^ 63) (hfits : h.Fits n) (hds : 0 ≤ h.dataStart) :
    ∀ t ∈ h.tensors, t.unplaced.Passes h.dataStart n ∧
      t.unplaced.place h.dataStart = t.read h.dataStart := by
  intro t ht
  have hend := hfits t ht
  have hnn := t.bytes_nonneg
  have hoff : wrap64 (h.dataStart + t.relOff) = h.dataStart + t.relOff :=
    wrap64_of_range (by omega) (by omega)
  constructor
  · show wrap64 (wrap64 (h.dataStart + t.relOff) + t.bytes) ≤ n
    rw [hoff, wrap64_of_range (by omega) (by omega)]
    exact hend
  · show { t.unplaced with fileOff := wrap64 (h.dataStart + t.relOff) } = _
    rw [hoff]
    rfl

/-- The encoding stands at the front of every prefix that contains it. -/
theorem lies_take {x y : Bytes} {w : Nat} (hw : x.length ≤ w) : Lies ((x ++ y).take w) 0 x := by
  refine ⟨?_, ?_⟩
  · rw [List.length_take, List.length_append]
    omega
  · rw [List.drop_zero, List.take_take, Nat.min_eq_left hw, List.take_left' rfl]

/-- **Parsing undoes encoding.**  On any prefix of the file that contains the header, and whatever the
record held before, `parse_header` returns 0 and the record holds the header. -/
theorem parseHeader_enc (data : Bytes) (g₀ : Gguf) (w : Nat)
    (hmax : h.enc.length ≤ hdrMax) (hfile : (h.enc ++ data).length < 2 ^ 63)
    (hfits : h.Fits (h.enc ++ data).length) (hw : h.enc.length ≤ w) :
    ∃ g, parseHeader { g₀ with
        blob := (h.enc ++ data).take w
        fileSize := (h.enc ++ data).length } = (.ok, g) ∧ HoldsHeader g h := by
  obtain ⟨k, hk, hpow⟩ := h.pow2
  have hpos : 0 < entriesAlignment h.kv := by
    rw [hpow]
    exact Int.pow_pos (by decide)
  have halign : entriesAlignment h.kv < 2 ^ 63 := by
    rw [hpow]
    have hnat : 2 ^ k < 2 ^ 63 := Nat.pow_lt_pow_right (by decide) (by omega)
    exact_mod_cast hnat
  set g₁ : Gguf := { g₀ with
    blob := (h.enc ++ data).take w
    fileSize := (h.enc ++ data).length } with hg₁
  have hlies : Lies g₁.blob 0 h.enc := lies_take hw
  have hb : g₁.blob.length < 2 ^ 63 := by
    show ((h.enc ++ data).take w).length < 2 ^ 63
    rw [List.length_take]
    omega
  -- the counts, then the tables, leave the cursor behind the header
  obtain ⟨-, hversion, hnkv, hnt⟩ := h.readCounts_enc g₁ hlies
  obtain ⟨ks, s, hks, hs, hbody⟩ := h.tables_enc g₁ hlies hb
  have halignOf : alignmentOf ks = entriesAlignment h.kv := alignmentOf_eq hks hpos
  have hnotPow2 : notPow2 (entriesAlignment h.kv) = false := by
    rw [hpow]
    exact decide_eq_false (not_not.mpr (and_pred_of_pow2 hk))
  have hround : roundUp h.enc.length (entriesAlignment h.kv) = h.dataStart :=
    roundUp_eq (by unfold hdrMax at hmax; omega) hpos halign hnotPow2
  have hds : 0 ≤ h.dataStart :=
    Int.mul_nonneg (Int.ediv_nonneg (by omega) (by omega)) (by omega)
  have hpass := h.passes_enc hfile hfits hds
  have hkv : s.g.kv = ks := by rw [hs.g_eq]
  have ht : s.g.t = h.tensors.map TensorDesc.unplaced := by rw [hs.g_eq]
  have hsize : s.g.fileSize = (h.enc ++ data).length := by rw [hs.g_eq]; rfl
  -- with the alignment read back, every tensor passes the checks of the placement
  have hcan : s.g.CanPlace s.c.pos := by
    unfold Gguf.CanPlace
    rw [hkv, halignOf, hs.cur, hround, ht, hsize]
    refine ⟨hpos, hnotPow2, fun t htmem => ?_⟩
    obtain ⟨d, hd, rfl⟩ := List.mem_map.mp htmem
    exact (hpass d hd).1
  have hplace : placeData s = .ok () ⟨s.g.placed s.c.pos, s.c⟩ := by
    rcases placeData_cases s with ⟨-, hok⟩ | ⟨hcan', -⟩
    · exact hok
    · exact absurd hcan hcan'
  refine ⟨s.g.placed s.c.pos, ?_, ?_⟩
  · unfold parseHeader
    rw [hbody, hplace]
  have hblob : (s.g.placed s.c.pos).blob = g₁.blob := by
    show s.g.blob = _
    rw [hs.g_eq]
    rfl
  have hholds : List.Forall₂ (Holds (s.g.placed s.c.pos)) h.kv (s.g.placed s.c.pos).kv := by
    show List.Forall₂ _ h.kv s.g.kv
    rw [hkv]
    exact hks.imp fun e k hek => hek.of_blob hblob
  have hplaced : (s.g.placed s.c.pos).t = h.tensors.map (·.read h.dataStart) := by
    show s.g.t.map (·.place (roundUp s.c.pos (alignmentOf s.g.kv))) = _
    rw [ht, hkv, halignOf, hs.cur, hround, List.map_map]
    exact List.map_congr_left fun t htmem => (hpass t htmem).2
  refine ⟨?_, ?_, ?_, hholds, hplaced, ?_, ?_, fun key => find_rel hholds key, fun name => ?_⟩
  · show s.g.version = _
    rw [hs.g_eq]
    exact hversion
  · show s.g.nKv = _
    rw [hs.g_eq]
    exact hnkv
  · show s.g.nTensors = _
    rw [hs.g_eq]
    exact hnt
  · show alignmentOf s.g.kv = _
    rw [hkv, halignOf]
  · show roundUp s.c.pos (alignmentOf s.g.kv) = _
    rw [hkv, halignOf, hs.cur, hround]
  · unfold ggufTensor
    rw [hplaced, List.find?_map]
    rfl

end Whole

/-- An alignment of 64, two strings, and a tensor of four floats. -/
def sampleHeader : Header where
  version := 3
  kv := [⟨alignmentKey, .scalar (.uint32 64), by decide⟩, ⟨[110], .strings [[97], [98, 99]], by decide⟩]
  tensors := [{
    name := [119], shape := [4], ggmlType := 0, relOff := 0, dtype := .f32, supported := rfl
    rank_pos := by decide, rank_le := by decide, dims_lt := by decide, whole := by decide
    elems_lt := by decide, bytes_lt := by decide, off_lt := by decide }]
  version_ok := .inr rfl
  kv_le := by decide
  tensors_le := by decide
  pow2 := ⟨6, by decide, by decide⟩

/-- 134 bytes of header, read from a prefix of 140, and the file going on to 208. -/
theorem sampleHeader_read_back : sampleHeader.enc.length = 134 ∧ sampleHeader.dataStart = 192 ∧
    ∃ g, parseHeader { Gguf.zero 0 with
        blob := (sampleHeader.enc ++ List.replicate 74 0).take 140
        fileSize := (sampleHeader.enc ++ List.replicate 74 0).length } = (.ok, g) ∧
      HoldsHeader g sampleHeader :=
  ⟨by decide +kernel, by decide +kernel, parseHeader_enc sampleHeader (List.replicate 74 0) (Gguf.zero 0) 140
    (by decide +kernel) (by decide +kernel) (by unfold Header.Fits; decide +kernel) (by decide +kernel)⟩

end LlmEngine.Formats
