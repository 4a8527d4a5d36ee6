/-
# LlmEngine.Bind.ScanEntry — the entries of a header, on JSON text (`src/io/k3_st.c`).

A header is any serialisation of a list of tensors: `Describes` says what a member of an entry may be,
`Entry` that each of the three fields is there once, `Header` what stands in the header besides.  The
scanner reads back the tensors, in order.

Names are compared by `strcmp` after unescaping.  A name that is one of the three fields' up to a NUL is
taken for it, so the entries of `scanHeader_spec` have none.

* `scanned_eq`: a name of raw bytes and ASCII escapes is read as what it stands for.  One with other escapes has
  question marks in their places, which no field's name has (`cStr_decode`).
* `readShape_spec` and `readOffsets_spec` are the values of two fields, by induction on the items of the array.
* `readMember_spec`: a member sets the field it names, and an extra one sets nothing.
* `entryFrom_spec` is the loop over the members, in whatever order they stand (`setFields_dtype` and its like).

The integers of a description are in range, so the wrap-around of the scanner does not show.
-/
import LlmEngine.Bind.ScanToken
import LlmEngine.Bind.ScanSpan

namespace LlmEngine.Bind.Scan

open LlmEngine.Lib
open LlmEngine.Lib.JsonText
open LlmEngine.Lib.LittleEndian
open LlmEngine.Tokenizer (ascii)

variable {m : Nat → UInt8} {fin p : Nat} {t : Bytes}

/-! ## Names -/

/-- A character that is written as itself or as an escape of ASCII. -/
def Low : JChar → Prop
  | .unicode h3 h2 h1 h0 => codeUnit h3 h2 h1 h0 < 128
  | _ => True

theorem utf8_low {c : Nat} (h : c < 128) : utf8 c = [UInt8.ofNat c] := if_pos h

/-- The other code points start with a byte outside ASCII. -/
theorem utf8_high {c : Nat} (h : 128 ≤ c) (hmax : c < 0x110000) : ∃ b r, utf8 c = b :: r ∧ 128 ≤ b := by
  have hbyte : ∀ n, 128 ≤ n → n < 256 → (128 : UInt8) ≤ UInt8.ofNat n := by
    intro n hlo hhi
    rw [UInt8.le_iff_toNat_le, UInt8.toNat_ofNat', Nat.mod_eq_of_lt hhi]
    exact hlo
  unfold utf8
  rw [if_neg (by omega)]
  split_ifs
  · exact ⟨_, _, rfl, hbyte _ (by omega) (by omega)⟩
  · exact ⟨_, _, rfl, hbyte _ (by omega) (by omega)⟩
  · exact ⟨_, _, rfl, hbyte _ (by omega) (by omega)⟩

theorem utf8_length (c : Nat) : 1 ≤ (utf8 c).length := by
  unfold utf8
  split_ifs <;> exact Nat.le_add_left 1 _

theorem codeUnit_lt (h3 h2 h1 h0 : HexChar) : codeUnit h3 h2 h1 h0 < 0x10000 := by
  have h3' := h3.value.isLt
  have h2' := h2.value.isLt
  have h1' := h1.value.isLt
  have h0' := h0.value.isLt
  unfold codeUnit
  omega

/-- What `str_` makes of such a character is what it stands for. -/
theorem decode_low {c : JChar} (hc : Low c) (s : JStr) : JStr.decode (c :: s) = scannedChar c :: JStr.decode s := by
  cases c with
  | raw b => rfl
  | esc e => rfl
  | unicode h3 h2 h1 h0 =>
      have hlow : codeUnit h3 h2 h1 h0 < 128 := hc
      have hpair : JStr.decode (.unicode h3 h2 h1 h0 :: s) = utf8 (codeUnit h3 h2 h1 h0) ++ JStr.decode s := by
        cases s with
        | nil => rfl
        | cons d s =>
            cases d with
            | raw b => rfl
            | esc e => rfl
            | unicode _ _ _ _ =>
                rw [JStr.decode]
                exact if_neg fun h => absurd h.1 (by omega)
      rw [hpair, utf8_low hlow, scannedChar, if_pos hlow]
      rfl

/-- Every other character is a question mark to `str_`, and more than ASCII. -/
theorem decode_high {c : JChar} (hc : ¬ Low c) (s : JStr) :
    scannedChar c = 63 ∧ ∃ b r, JStr.decode (c :: s) = b :: r ∧ 128 ≤ b := by
  cases c with
  | raw b => exact absurd trivial hc
  | esc e => exact absurd trivial hc
  | unicode h3 h2 h1 h0 =>
      have hhigh : 128 ≤ codeUnit h3 h2 h1 h0 := Nat.not_lt.mp hc
      have hmax := codeUnit_lt h3 h2 h1 h0
      obtain ⟨b, r, hb, hle⟩ := utf8_high hhigh (by omega)
      have hsingle : ∀ x : Bytes, ∃ r', utf8 (codeUnit h3 h2 h1 h0) ++ x = b :: r' := fun x => ⟨r ++ x, by rw [hb]; rfl⟩
      refine ⟨if_neg hc, ?_⟩
      cases s with
      | nil =>
          obtain ⟨r', hr⟩ := hsingle (JStr.decode [])
          exact ⟨b, r', hr, hle⟩
      | cons d s =>
          cases d with
          | raw d =>
              obtain ⟨r', hr⟩ := hsingle (JStr.decode (.raw d :: s))
              exact ⟨b, r', hr, hle⟩
          | esc e =>
              obtain ⟨r', hr⟩ := hsingle (JStr.decode (.esc e :: s))
              exact ⟨b, r', hr, hle⟩
          | unicode k3 k2 k1 k0 =>
              have hlo := codeUnit_lt k3 k2 k1 k0
              rw [JStr.decode]
              split_ifs with hpair
              · obtain ⟨b', r', hb', hle'⟩ := utf8_high (c := 0x10000 + (codeUnit h3 h2 h1 h0 - 0xD800) * 1024 +
                  (codeUnit k3 k2 k1 k0 - 0xDC00)) (by omega) (by omega)
                exact ⟨b', r' ++ JStr.decode s, by rw [hb']; rfl, hle'⟩
              · obtain ⟨r', hr⟩ := hsingle (JStr.decode (.unicode k3 k2 k1 k0 :: s))
                exact ⟨b, r', hr, hle⟩

/-- **A name of raw bytes and ASCII escapes is read as what it stands for.** -/
theorem scanned_eq {s : JStr} (h : ∀ c ∈ s, Low c) : scanned s = JStr.decode s := by
  induction s with
  | nil => rfl
  | cons c s ih =>
      rw [decode_low (h c List.mem_cons_self), ← ih fun d hd => h d (List.mem_cons_of_mem c hd)]
      rfl

/-- A string that stands for ASCII has no other escapes. -/
theorem low_of_ascii {s : JStr} (h : ∀ b ∈ JStr.decode s, b < 128) : ∀ c ∈ s, Low c := by
  induction s with
  | nil => exact nofun
  | cons c s ih =>
      have hc : Low c := by
        by_contra hc
        obtain ⟨-, b, r, hb, hle⟩ := decode_high hc s
        rw [hb] at h
        exact UInt8.not_le.mpr (h b List.mem_cons_self) hle
      rw [decode_low hc] at h
      intro d hd
      rcases List.mem_cons.mp hd with rfl | hmem
      · exact hc
      · exact ih (fun b hb => h b (List.mem_cons_of_mem _ hb)) d hmem

/-- What `str_` counts is no more than the bytes. -/
theorem length_le_decode (s : JStr) : s.length ≤ (JStr.decode s).length := by
  induction s using JStr.decode.induct with
  | case1 => exact Nat.le_refl 0
  | case2 b s ih => exact Nat.succ_le_succ ih
  | case3 e s ih => exact Nat.succ_le_succ ih
  | case4 a b c d a' b' c' d' s hi lo hpair ih =>
      rw [JStr.decode, if_pos hpair, List.length_append, List.length_cons, List.length_cons]
      have hfour : (utf8 (0x10000 + (codeUnit a b c d - 0xD800) * 1024 + (codeUnit a' b' c' d' - 0xDC00))).length = 4 := by
        unfold utf8
        rw [if_neg (by omega), if_neg (by omega), if_neg (by omega)]
        rfl
      omega
  | case5 a b c d a' b' c' d' s hi lo hpair ih =>
      have hone := utf8_length (codeUnit a b c d)
      rw [JStr.decode, if_neg hpair, List.length_append, List.length_cons]
      omega
  | case6 a b c d s hs ih =>
      have hone := utf8_length (codeUnit a b c d)
      rw [JStr.decode, List.length_append, List.length_cons]
      · omega
      · exact hs

/-- **What `strcmp` sees of a name** it takes for ASCII is what the name stands for, up to a NUL. -/
theorem cStr_decode (s : JStr) (h : 63 ∉ cStr (scanned s)) : cStr (JStr.decode s) = cStr (scanned s) := by
  induction s with
  | nil => rfl
  | cons c s ih =>
      have hcons : ∀ x : Bytes, cStr (scannedChar c :: x) = if scannedChar c ≠ 0 then scannedChar c :: cStr x else [] := by
        intro x
        rw [cStr, List.takeWhile_cons]
        simp only [decide_eq_true_eq]
        rfl
      have hscanned : scanned (c :: s) = scannedChar c :: scanned s := rfl
      rw [hscanned, hcons] at h
      by_cases hc : Low c
      · rw [decode_low hc, hscanned, hcons, hcons]
        by_cases hzero : scannedChar c ≠ 0
        · rw [if_pos hzero] at h
          rw [if_pos hzero, if_pos hzero, ih fun hmem => h (List.mem_cons_of_mem _ hmem)]
        · rw [if_neg hzero, if_neg hzero]
      · have hmark := (decode_high hc s).1
        rw [hmark, if_pos (by decide)] at h
        exact absurd List.mem_cons_self h

/-! ## Tensors and the texts that describe them -/

/-- The names of the dtypes a header may use. -/
def dtypeName : K3Dtype → Option Bytes
  | .u8 => some (ascii "U8")
  | .bf16 => some (ascii "BF16")
  | .f16 => some (ascii "F16")
  | .f32 => some (ascii "F32")
  | _ => none

/-- A well-formed tensor of a shard of `fsize` bytes whose data start at `base`. -/
structure TensorSpec (base fsize : Nat) where
  name : Bytes
  dtype : K3Dtype
  shape : List Nat
  start : Nat
  stop : Nat
  nul_free : 0 ∉ name
  name_le : name.length ≤ 511
  known : (dtypeName dtype).isSome
  rank : shape.length ≤ 4
  dims : ∀ d ∈ shape, d < 2 ^ 63
  span : (start : Int) + shape.prod * k3StElemsize dtype = stop
  inside : base + stop ≤ fsize

section Spec

variable {base fsize : Nat}

/-- The dimensions, as `int64_t`s. -/
def TensorSpec.sizes (s : TensorSpec base fsize) : List Int := s.shape.map Nat.cast

/-- The tensor as a scan pushes it. -/
def TensorSpec.pushed (shard : Nat) (s : TensorSpec base fsize) : Scanned where
  name := s.name
  shard := shard
  dtype := s.dtype
  shape := s.sizes
  o0 := s.start
  o1 := s.stop
  off := base + s.start
  nbytes := s.stop - s.start

/-- The members every entry has. -/
def fieldNames : List Bytes := [ascii "dtype", ascii "shape", ascii "data_offsets"]

/-- A member of the entry of `s`: a field with the tensor's value, or an extra one whose name `extra` allows. -/
inductive Describes (extra : Bytes → Prop) (s : TensorSpec base fsize) : JStr → Json → Prop
  | dtype (key d : JStr) : JStr.decode key = ascii "dtype" → dtypeName s.dtype = some (JStr.decode d) →
      Describes extra s key (.str d)
  | shape (key : JStr) (pad : Ws) (items : Items) : JStr.decode key = ascii "shape" → Items.ints? items = some s.sizes →
      Describes extra s key (.arr pad items)
  | offsets (key : JStr) (pad : Ws) (items : Items) : JStr.decode key = ascii "data_offsets" →
      Items.ints? items = some [(s.start : Int), (s.stop : Int)] → Describes extra s key (.arr pad items)
  | extra (key : JStr) (v : Json) : JStr.decode key ∉ fieldNames → extra (JStr.decode key) →
      (JStr.decode key).length < 64 → Describes extra s key v

/-- The names of an object's members. -/
def memberNames (ms : Members) : List Bytes := (Members.toList ms).map fun e => JStr.decode e.1

/-- The members of an entry, in any order: each field once, and any number of extra members. -/
structure Entry (extra : Bytes → Prop) (s : TensorSpec base fsize) (ms : Members) : Prop where
  members : ∀ e ∈ Members.toList ms, Describes extra s e.1 e.2
  fields : ∀ n ∈ fieldNames, (memberNames ms).count n = 1

/-- The members of a header that describes the tensors given, in order; the metadata are anywhere. -/
inductive Header (extra : Bytes → Prop) : Members → List (TensorSpec base fsize) → Prop
  | nil : Header extra .nil []
  | metadata (before : Ws) (key : JStr) (colon0 colon1 : Ws) (v : Json) (after : Ws) (rest : Members)
      (specs : List (TensorSpec base fsize)) : JStr.decode key = ascii "__metadata__" → Header extra rest specs →
      Header extra (.cons before key colon0 colon1 v after rest) specs
  | tensor (before : Ws) (key : JStr) (colon0 colon1 pad : Ws) (ms : Members) (after : Ws) (rest : Members)
      (s : TensorSpec base fsize) (specs : List (TensorSpec base fsize)) : (∀ c ∈ key, Low c) →
      JStr.decode key = s.name → Entry extra s ms → Header extra rest specs →
      Header extra (.cons before key colon0 colon1 (.obj pad ms) after rest) (s :: specs)

/-- What a member of that name sets. -/
def TensorSpec.setField (s : TensorSpec base fsize) (fl : Fields) (key : Bytes) : Fields :=
  if key = ascii "dtype" then { fl with dtype := some s.dtype }
  else if key = ascii "shape" then { fl with shape := fl.shape ++ s.sizes }
  else if key = ascii "data_offsets" then { fl with offsets := some (s.start, s.stop) }
  else fl

end Spec

/-! ## The values of the members -/

theorem dtypeOf_name {dt : K3Dtype} {d : Bytes} (h : dtypeName dt = some d) :
    dtypeOf d = dt ∧ dt ≠ .unknown ∧ d.length < 32 ∧ ∀ b ∈ d, b < 128 := by
  cases dt <;> cases h <;> decide +kernel

theorem noDigit_ws {c : UInt8} (hc : ¬ IsDigit c) (w : Ws) (t : Bytes) : NoDigit (w.val ++ c :: t) := by
  intro b hb
  cases hw : w.val with
  | nil =>
      rw [hw] at hb
      cases hb
      exact hc
  | cons d ds =>
      rw [hw] at hb
      obtain rfl : d = b := by simpa using hb
      rcases w.property d (hw ▸ List.mem_cons_self) with rfl | rfl | rfl | rfl <;> unfold IsDigit <;> decide

/-- Integers that an `int64_t` holds. -/
def Fit (vs : List Int) : Prop := ∀ v ∈ vs, wrap64 v = v

/-- An array of integers is a number first, or empty. -/
theorem ints?_cons {before after : Ws} {v : Json} {rest : Items} {vs : List Int}
    (h : Items.ints? (.cons before v after rest) = some vs) :
    ∃ n d ds, v = .num n ∧ n.int? = some d ∧ Items.ints? rest = some ds ∧ vs = d :: ds := by
  cases v with
  | num n =>
      rw [Items.ints?] at h
      cases hd : n.int? with
      | none => simp only [hd, reduceCtorEq] at h
      | some d =>
          cases hds : Items.ints? rest with
          | none => simp only [hd, hds, reduceCtorEq] at h
          | some ds =>
              simp only [hd, hds, Option.some.injEq] at h
              exact ⟨n, d, ds, rfl, hd, rfl, h.symm⟩
  | str s => cases h
  | word w => cases h
  | arr pad items => cases h
  | obj pad members => cases h

/-- **The loop over the dimensions reads the rest of an array**, a number and what follows it. -/
theorem shapeFrom_spec (name : Bytes) {k : Number} {d : Int} (hk : k.int? = some d) (hd : wrap64 d = d) (after : Ws) :
    ∀ (items : Items) (ds : List Int) (n p : Nat) (shape : List Int), Items.ints? items = some ds → Fit ds →
      shape.length + (ds.length + 1) ≤ 4 → (Items.render false items).length < n →
      Ahead m fin p (k.render ++ (after.val ++ (Items.render false items ++ 93 :: t))) →
      ∃ q, shapeFrom m fin name n p shape = .ok (shape ++ d :: ds, q) ∧ rest m fin q = t
  | .nil, ds, n, p, shape, hds, _, hrank, hn, h => by
      cases hds
      obtain ⟨n, rfl⟩ := Nat.exists_eq_add_of_lt hn
      obtain ⟨q, hq, hrest⟩ := i64_spec h hk (noDigit_ws (by unfold IsDigit; decide) after t)
      have hend := ws_spec ((Ahead.of_rest hrest).ws (ws_low after)) (fun b hb => by cases hb; decide)
      have hcomma := lit_none (c := 44) (fun b hb => by cases hb; decide) (show (93 :: t).head? ≠ some 44 by simp)
        (.of_rest hend)
      obtain ⟨q', hclose, hrest'⟩ := lit_spec (by decide) (.of_rest hend)
      refine ⟨q', ?_, hrest'⟩
      rw [shapeFrom, hq, hd]
      simp only
      rw [if_pos (by rw [List.length_nil] at hrank; omega), hcomma, hclose]
  | .cons before v after' items, ds, n, p, shape, hds, hfit, hrank, hn, h => by
      obtain ⟨k', d', ds', rfl, hk', hds', rfl⟩ := ints?_cons hds
      obtain ⟨n, rfl⟩ := Nat.exists_eq_add_of_lt (Nat.lt_of_le_of_lt (Nat.zero_le _) hn)
      rw [List.length_cons] at hrank
      have htext : Items.render false (.cons before (.num k') after' items) =
          44 :: (before.val ++ (k'.render ++ (after'.val ++ Items.render false items))) := by
        simp only [Items.render, Json.render, comma, Bool.false_eq_true, if_false, List.append_assoc, List.cons_append,
          List.nil_append]
      rw [htext] at h hn
      simp only [List.length_cons, List.length_append] at hn
      simp only [List.cons_append, List.append_assoc] at h
      obtain ⟨q, hq, hrest⟩ := i64_spec h hk (noDigit_ws (by unfold IsDigit; decide) after _)
      have hend := ws_spec ((Ahead.of_rest hrest).ws (ws_low after)) (fun b hb => by cases hb; decide)
      obtain ⟨q', hcomma, hrest'⟩ := lit_spec (by decide) (.of_rest hend)
      obtain ⟨q'', hmore, hrest''⟩ := shapeFrom_spec name hk' (hfit d' List.mem_cons_self) after' items ds' n q'
        (shape ++ [d]) hds' (fun x hx => hfit x (List.mem_cons_of_mem d' hx))
        (by rw [List.length_append, List.length_singleton]; omega) (by omega)
        ((Ahead.of_rest hrest').ws (ws_low before))
      refine ⟨q'', ?_, hrest''⟩
      rw [Nat.zero_add, shapeFrom, hq, hd]
      simp only
      rw [if_pos (by omega), hcomma]
      simp only
      rw [hmore, List.append_assoc]
      rfl

/-- A number is not taken for the end of its array. -/
theorem number_ahead {k : Number} (h : Ahead m fin p (k.render ++ t)) :
    rest m fin (ws m fin p) = k.render ++ t ∧ isAt m fin 93 (ws m fin p) = false := by
  obtain ⟨b, r, hb⟩ := List.exists_cons_of_ne_nil (number_ne_nil k)
  obtain ⟨hlow, -, -, -, -, -, hbracket⟩ := number_scalar k b (hb ▸ List.mem_cons_self)
  rw [hb] at h ⊢
  have hrest := ws_spec h (fun x hx => by cases hx; exact UInt8.not_le.mpr hlow)
  exact ⟨hrest, by rw [isAt_cons (show rest m fin _ = b :: (r ++ t) from hrest), beq_eq_false_iff_ne]; exact hbracket⟩

/-- **The member `shape`** adds its dimensions. -/
theorem readShape_spec (name : Bytes) {pad : Ws} {items : Items} {ds : List Int} {fl : Fields}
    (hds : Items.ints? items = some ds) (hfit : Fit ds) (hrank : fl.shape.length + ds.length ≤ 4)
    (h : Ahead m fin p (Json.render (.arr pad items) ++ t)) :
    ∃ q, readShape m fin name p fl = .ok ({ fl with shape := fl.shape ++ ds }, q) ∧ rest m fin q = t := by
  rw [Json.render] at h
  simp only [List.cons_append, List.append_assoc] at h
  obtain ⟨q, hopen, hrest⟩ := lit_spec (by decide) h
  have hpad := (Ahead.of_rest hrest).ws (ws_low pad)
  unfold readShape
  rw [hopen]
  simp only
  cases items with
  | nil =>
      cases hds
      have hend := ws_spec hpad (fun b hb => by cases hb; decide)
      obtain ⟨-, -, hnext⟩ := step_of_rest (show rest m fin (ws m fin q) = 93 :: t from hend)
      have hclose : isAt m fin 93 (ws m fin q) = true := by
        rw [isAt_cons (show rest m fin (ws m fin q) = 93 :: t from hend), beq_self_eq_true]
      rw [if_pos hclose, List.append_nil]
      exact ⟨_, rfl, hnext⟩
  | cons before v after items =>
      obtain ⟨k, d, ds', rfl, hk, hds', rfl⟩ := ints?_cons hds
      rw [List.length_cons] at hrank
      simp only [Items.render, Json.render, comma, if_true, List.nil_append, List.append_assoc] at hpad
      obtain ⟨hnumber, hclose⟩ := number_ahead (hpad.ws (ws_low before))
      have hlen := congrArg List.length hnumber
      simp only [rest_length, List.length_append, List.length_cons] at hlen
      have hge := ws_ge m fin q
      obtain ⟨q', hq', hrest'⟩ := shapeFrom_spec name hk (hfit d List.mem_cons_self) after items ds' (fin + 1 - q)
        (ws m fin q) fl.shape hds' (fun x hx => hfit x (List.mem_cons_of_mem d hx)) hrank (by omega) (.of_rest hnumber)
      rw [hclose, hq']
      exact ⟨q', rfl, hrest'⟩

/-- **The member `data_offsets`** is two integers. -/
theorem readOffsets_spec {pad : Ws} {items : Items} {o0 o1 : Int} (hds : Items.ints? items = some [o0, o1])
    (hfit : Fit [o0, o1]) (h : Ahead m fin p (Json.render (.arr pad items) ++ t)) :
    ∃ q, readOffsets m fin p = some ((o0, o1), q) ∧ rest m fin q = t := by
  cases items with
  | nil => cases hds
  | cons before v after items =>
      obtain ⟨k, d, ds, rfl, hk, hds', hcons⟩ := ints?_cons hds
      cases hcons
      cases items with
      | nil => cases hds'
      | cons before' v' after' items =>
          obtain ⟨k', d', ds', rfl, hk', hnil, hcons⟩ := ints?_cons hds'
          cases hcons
          cases items with
          | nil =>
              simp only [Items.render, Json.render, comma, if_true, Bool.false_eq_true, if_false, List.nil_append,
                List.append_assoc, List.cons_append, List.append_nil] at h
              obtain ⟨q0, hopen, h0⟩ := lit_spec (by decide) h
              obtain ⟨q1, hfirst, h1⟩ := i64_spec (((Ahead.of_rest h0).ws (ws_low pad)).ws (ws_low before)) hk
                (noDigit_ws (by unfold IsDigit; decide) after _)
              obtain ⟨q2, hcomma, h2⟩ := lit_spec (by decide) ((Ahead.of_rest h1).ws (ws_low after))
              obtain ⟨q3, hsecond, h3⟩ := i64_spec ((Ahead.of_rest h2).ws (ws_low before')) hk'
                (noDigit_ws (by unfold IsDigit; decide) after' _)
              obtain ⟨q4, hclose, h4⟩ := lit_spec (by decide) ((Ahead.of_rest h3).ws (ws_low after'))
              rw [hfit o0 List.mem_cons_self] at hfirst
              rw [hfit o1 (List.mem_cons_of_mem o0 List.mem_cons_self)] at hsecond
              refine ⟨q4, ?_, h4⟩
              unfold readOffsets
              simp only [hopen, hfirst, hcomma, hsecond, hclose, Option.bind_eq_bind, Option.bind_some, Option.pure_def]
          | cons before'' v'' after'' items =>
              obtain ⟨_, _, _, _, _, _, hnone⟩ := ints?_cons hnil
              cases hnone

/-! ## A member of an entry -/

theorem scanned_name {key : JStr} {n : Bytes} (h : JStr.decode key = n) (hn : ∀ b ∈ n, b < 128) : scanned key = n := by
  rw [scanned_eq (low_of_ascii (h ▸ hn)), h]

theorem fieldNames_plain : ∀ n ∈ fieldNames, cStr n = n ∧ 63 ∉ n := by decide +kernel

/-- A name that is no field's up to a NUL is not taken for one. -/
theorem not_field {key : JStr} (h : cStr (JStr.decode key) ∉ fieldNames) {n : Bytes} (hn : n ∈ fieldNames) :
    strcmpEq (scanned key) n = false := by
  obtain ⟨hplain, hmark⟩ := fieldNames_plain n hn
  rw [strcmpEq, beq_eq_false_iff_ne, hplain]
  intro he
  rw [cStr_decode key (he ▸ hmark), he] at h
  exact h hn

section Member

variable {base fsize : Nat} (s : TensorSpec base fsize)

theorem TensorSpec.sizes_fit : Fit s.sizes := by
  intro v hv
  obtain ⟨d, hd, rfl⟩ := List.mem_map.mp hv
  have hlt := s.dims d hd
  exact wrap64_of_range (by omega) (by omega)

theorem TensorSpec.size_nonneg : 0 ≤ ((s.shape.prod : Nat) : Int) * k3StElemsize s.dtype :=
  Int.mul_nonneg (Int.natCast_nonneg _) (elemsize_nonneg _)

theorem TensorSpec.offsets_fit (hmax : fsize < 2 ^ 63) : Fit [(s.start : Int), (s.stop : Int)] := by
  have hspan := s.span
  have hinside := s.inside
  have hsize := s.size_nonneg
  intro v hv
  rcases List.mem_cons.mp hv with rfl | hv
  · exact wrap64_of_range (by omega) (by omega)
  · rw [List.mem_singleton.mp hv]
    exact wrap64_of_range (by omega) (by omega)

/-- **A member sets the field it names, and an extra member sets nothing.** -/
theorem readMember_spec {extra : Bytes → Prop} (hextra : ∀ n, extra n → cStr n ∉ fieldNames) (hmax : fsize < 2 ^ 63)
    (name : Bytes) {key : JStr} {v : Json} {w : Ws} {c : UInt8} {fl : Fields} (hd : Describes extra s key v)
    (hdepth : v.depth < 2 ^ 31) (hrank : JStr.decode key = ascii "shape" → fl.shape.length + s.shape.length ≤ 4)
    (hc : IsStop c) (h : Ahead m fin p (v.render ++ (w.val ++ c :: t))) :
    ∃ q, readMember m fin name (scanned key) p fl = .ok (s.setField fl (JStr.decode key), q) ∧ Ahead m fin q (c :: t) := by
  unfold readMember TensorSpec.setField
  cases hd with
  | dtype d hkey hname =>
      obtain ⟨hdt, hknown, hlen, hascii⟩ := dtypeOf_name hname
      have hd := scanned_eq (low_of_ascii hascii)
      have hshort : d.length < 32 := Nat.lt_of_le_of_lt (length_le_decode d) hlen
      obtain ⟨q, hq, hrest⟩ := str_spec h hshort
      refine ⟨q, ?_, (Ahead.of_rest hrest).ws (ws_low w)⟩
      rw [scanned_name hkey (by decide +kernel), hkey, if_pos (by decide), if_pos rfl, readDtype, hq]
      simp only
      rw [hd, hdt, if_neg hknown]
  | shape pad items hkey hints =>
      have hroom : fl.shape.length + s.sizes.length ≤ 4 := by
        rw [TensorSpec.sizes, List.length_map]
        exact hrank hkey
      obtain ⟨q, hq, hrest⟩ := readShape_spec name hints s.sizes_fit hroom h
      refine ⟨q, ?_, (Ahead.of_rest hrest).ws (ws_low w)⟩
      rw [scanned_name hkey (by decide +kernel), hkey, if_neg (by decide), if_pos (by decide), hq, if_neg (by decide), if_pos rfl]
  | offsets pad items hkey hints =>
      obtain ⟨q, hq, hrest⟩ := readOffsets_spec hints (s.offsets_fit hmax) h
      refine ⟨q, ?_, (Ahead.of_rest hrest).ws (ws_low w)⟩
      rw [scanned_name hkey (by decide +kernel), hkey, if_neg (by decide), if_neg (by decide), if_pos (by decide), hq,
        if_neg (by decide), if_neg (by decide), if_pos rfl]
  | extra _ hkey hname _ =>
      obtain ⟨q, hq, hrest⟩ := skipValue_spec hc hdepth h
      refine ⟨q, ?_, hrest⟩
      have hfield : ∀ n ∈ fieldNames, ¬ strcmpEq (scanned key) n = true := by
        intro n hn
        rw [not_field (hextra _ hname) hn]
        decide
      have hname : ∀ n ∈ fieldNames, JStr.decode key ≠ n := by
        rintro n hn rfl
        exact hkey hn
      rw [if_neg (hfield _ (by decide)), if_neg (hfield _ (by decide)), if_neg (hfield _ (by decide)), hq,
        if_neg (hname _ (by decide)), if_neg (hname _ (by decide)), if_neg (hname _ (by decide))]

end Member

/-! ## Whole entries -/

section Fold

variable {base fsize : Nat} (s : TensorSpec base fsize) (fl : Fields)

theorem setField_dtype (key : Bytes) :
    (s.setField fl key).dtype = if key = ascii "dtype" then some s.dtype else fl.dtype := by
  unfold TensorSpec.setField
  split_ifs <;> rfl

theorem setField_shape (key : Bytes) :
    (s.setField fl key).shape = if key = ascii "shape" then fl.shape ++ s.sizes else fl.shape := by
  unfold TensorSpec.setField
  split_ifs with hdtype hshape
  · exact absurd (hdtype.symm.trans hshape) (by decide)
  · rfl
  · rfl
  · rfl
  · rfl

theorem setField_offsets (key : Bytes) :
    (s.setField fl key).offsets = if key = ascii "data_offsets" then some ((s.start : Int), (s.stop : Int)) else fl.offsets := by
  unfold TensorSpec.setField
  split_ifs with hdtype hoffsets hshape hoffsets
  · exact absurd (hdtype.symm.trans hoffsets) (by decide)
  · rfl
  · exact absurd (hshape.symm.trans hoffsets) (by decide)
  · rfl
  · rfl
  · rfl

theorem setFields_dtype (names : List Bytes) :
    (names.foldl s.setField fl).dtype = if ascii "dtype" ∈ names then some s.dtype else fl.dtype := by
  induction names generalizing fl with
  | nil => rfl
  | cons n names ih =>
      rw [List.foldl_cons, ih, setField_dtype]
      by_cases hmem : ascii "dtype" ∈ names
      · rw [if_pos hmem, if_pos (List.mem_cons_of_mem n hmem)]
      · rw [if_neg hmem]
        simp only [List.mem_cons, hmem, or_false, eq_comm]

theorem setFields_offsets (names : List Bytes) :
    (names.foldl s.setField fl).offsets =
      if ascii "data_offsets" ∈ names then some ((s.start : Int), (s.stop : Int)) else fl.offsets := by
  induction names generalizing fl with
  | nil => rfl
  | cons n names ih =>
      rw [List.foldl_cons, ih, setField_offsets]
      by_cases hmem : ascii "data_offsets" ∈ names
      · rw [if_pos hmem, if_pos (List.mem_cons_of_mem n hmem)]
      · rw [if_neg hmem]
        simp only [List.mem_cons, hmem, or_false, eq_comm]

theorem setFields_shape (names : List Bytes) :
    (names.foldl s.setField fl).shape = fl.shape ++ (List.replicate (names.count (ascii "shape")) s.sizes).flatten := by
  induction names generalizing fl with
  | nil => exact (List.append_nil _).symm
  | cons n names ih =>
      rw [List.foldl_cons, ih, setField_shape]
      by_cases hn : n = ascii "shape"
      · rw [if_pos hn, hn, List.count_cons_self, List.replicate_succ, List.flatten_cons, List.append_assoc]
      · rw [if_neg hn, List.count_cons_of_ne hn]

end Fold

/-- The text of a member, from its comma on. -/
theorem members_text (first : Bool) (before : Ws) (key : JStr) (colon0 colon1 : Ws) (v : Json) (after : Ws)
    (rest : Members) (t : Bytes) :
    Members.render first (.cons before key colon0 colon1 v after rest) ++ t =
      comma first ++ (before.val ++ (JStr.render key ++ (colon0.val ++ 58 :: (colon1.val ++
        (v.render ++ (after.val ++ (Members.render false rest ++ t))))))) := by
  simp only [Members.render, List.append_assoc, List.cons_append, List.nil_append]

/-- What stands behind a member ends its value. -/
theorem members_stop (ms : Members) (t : Bytes) : ∃ c u, IsStop c ∧ Members.render false ms ++ 125 :: t = c :: u := by
  cases ms with
  | nil => exact ⟨125, t, by decide, rfl⟩
  | cons before key colon0 colon1 v after rest =>
      exact ⟨44, _, by decide, members_text false before key colon0 colon1 v after rest (125 :: t)⟩

/-- **The separator before a member**: the scanner does not stop, and comes to the quote. -/
theorem sep_spec {first : Bool} {before : Ws} {key : JStr}
    (h : Ahead m fin p (comma first ++ (before.val ++ (JStr.render key ++ t)))) :
    isAt m fin 125 (ws m fin p) = false ∧
      ∃ q, sep m fin first (ws m fin p) = some q ∧ Ahead m fin q (JStr.render key ++ t) := by
  have hquote : Dark (JStr.render key ++ t) := fun b hb => by cases hb; decide
  cases first with
  | true =>
      have hrest := ws_spec (Ahead.ws (ws_low before) h) hquote
      refine ⟨?_, ws m fin p, rfl, .of_rest hrest⟩
      rw [isAt_cons (show rest m fin _ = 34 :: (JStr.body key ++ t) from hrest)]
      decide
  | false =>
      have hrest := ws_spec (t := 44 :: (before.val ++ (JStr.render key ++ t))) h (fun b hb => by cases hb; decide)
      obtain ⟨q, hq, hrest'⟩ := lit_spec (by decide) (.of_rest hrest)
      refine ⟨by rw [isAt_cons hrest]; decide, q, hq, (Ahead.of_rest hrest').ws (ws_low before)⟩

/-- **A member as far as its value**: the separator, the name, the colon. -/
theorem member_spec {first : Bool} {before colon0 colon1 : Ws} {key : JStr} {cap : Nat} {u : Bytes}
    (hshort : key.length < cap)
    (h : Ahead m fin p
      (comma first ++ (before.val ++ (JStr.render key ++ (colon0.val ++ (58 :: (colon1.val ++ u))))))) :
    isAt m fin 125 (ws m fin p) = false ∧
      ∃ q0 q1 q2, sep m fin first (ws m fin p) = some q0 ∧ isAt m fin 125 (ws m fin q0) = false ∧
        str m fin cap q0 = some (scanned key, q1) ∧ lit m fin 58 q1 = some q2 ∧ Ahead m fin q2 u := by
  obtain ⟨hmore, q0, hsep, h0⟩ := sep_spec h
  have hquote := ws_spec h0 (fun b hb => by cases hb; decide)
  obtain ⟨q1, hname, h1⟩ := str_spec h0 hshort
  obtain ⟨q2, hcolon, h2⟩ := lit_spec (by decide) ((Ahead.of_rest h1).ws (ws_low colon0))
  refine ⟨hmore, q0, q1, q2, hsep, ?_, hname, hcolon, (Ahead.of_rest h2).ws (ws_low colon1)⟩
  rw [isAt_cons (show rest m fin _ = 34 :: (JStr.body key ++ _) from hquote)]
  decide

/-- The rounds that are left for the other members. -/
theorem rounds_left {first : Bool} {before colon0 colon1 after : Ws} {key : JStr} {v : Json} {ms : Members} {n : Nat}
    (hn : (Members.render first (.cons before key colon0 colon1 v after ms)).length < n) :
    ∃ k, n = k + 1 ∧ (Members.render false ms).length < k := by
  simp only [Members.render, List.length_append, List.length_singleton] at hn
  exact ⟨n - 1, by omega, by omega⟩

/-- The end of an object. -/
theorem close_spec (h : Ahead m fin p (125 :: t)) :
    isAt m fin 125 (ws m fin p) = true ∧ rest m fin (ws m fin p + 1) = t := by
  have hrest := ws_spec h (fun b hb => by cases hb; decide)
  exact ⟨by rw [isAt_cons hrest, beq_self_eq_true], (step_of_rest hrest).2.2⟩

section Run

variable {base fsize : Nat} {extra : Bytes → Prop} (hextra : ∀ n, extra n → cStr n ∉ fieldNames) (hmax : fsize < 2 ^ 63)
include hextra hmax

/-- **The members of an entry are read one after the other.** -/
theorem entryFrom_spec (s : TensorSpec base fsize) (name : Bytes) : ∀ (ms : Members) (n p : Nat) (first : Bool) (fl : Fields),
    (∀ e ∈ Members.toList ms, Describes extra s e.1 e.2) → Members.depth ms < 2 ^ 31 →
    fl.shape.length + (memberNames ms).count (ascii "shape") * s.shape.length ≤ 4 →
    (Members.render first ms).length < n → Ahead m fin p (Members.render first ms ++ 125 :: t) →
    ∃ q, entryFrom m fin name n p first fl = .ok ((memberNames ms).foldl s.setField fl, q) ∧ rest m fin q = t
  | .nil, n, p, first, fl, _, _, _, hn, h => by
      obtain ⟨n, rfl⟩ := Nat.exists_eq_add_of_lt hn
      obtain ⟨hclose, hrest⟩ := close_spec h
      refine ⟨_, ?_, hrest⟩
      rw [entryFrom, if_pos hclose]
      rfl
  | .cons before key colon0 colon1 v after ms, n, p, first, fl, hms, hdepth, hrank, hn, h => by
      have hfirst : Describes extra s key v := hms (key, v) List.mem_cons_self
      have hshort : key.length < 64 := by
        have hlen := length_le_decode key
        cases hfirst with
        | dtype d hkey _ => rw [hkey] at hlen; exact Nat.lt_of_le_of_lt hlen (by decide)
        | shape pad items hkey _ => rw [hkey] at hlen; exact Nat.lt_of_le_of_lt hlen (by decide)
        | offsets pad items hkey _ => rw [hkey] at hlen; exact Nat.lt_of_le_of_lt hlen (by decide)
        | extra _ _ _ hlt => omega
      rw [Members.depth] at hdepth
      rw [members_text] at h
      obtain ⟨hmore, q0, q1, q2, hsep, -, hkey, hcolon, h2⟩ := member_spec hshort h
      obtain ⟨c, u, hstop, hnext⟩ := members_stop ms t
      rw [hnext] at h2
      have hcount : (memberNames (.cons before key colon0 colon1 v after ms)).count (ascii "shape") =
          (memberNames ms).count (ascii "shape") + if JStr.decode key = ascii "shape" then 1 else 0 := by
        simp only [memberNames, Members.toList, List.map_cons, List.count_cons, beq_iff_eq]
      rw [hcount, Nat.add_mul] at hrank
      have hroom : JStr.decode key = ascii "shape" → fl.shape.length + s.shape.length ≤ 4 := by
        intro hshape
        rw [if_pos hshape] at hrank
        omega
      obtain ⟨q3, hread, h3⟩ := readMember_spec s hextra hmax name hfirst (by omega) hroom hstop h2
      rw [← hnext] at h3
      have hrest : (s.setField fl (JStr.decode key)).shape.length + (memberNames ms).count (ascii "shape") * s.shape.length ≤
          4 := by
        rw [setField_shape]
        split_ifs at hrank ⊢
        · rw [List.length_append, TensorSpec.sizes, List.length_map]
          omega
        · omega
      obtain ⟨k, rfl, hless⟩ := rounds_left hn
      obtain ⟨q4, hend, h4⟩ := entryFrom_spec s name ms k q3 false (s.setField fl (JStr.decode key))
        (fun e he => hms e (List.mem_cons_of_mem _ he)) (by omega) hrest hless h3
      refine ⟨q4, ?_, h4⟩
      rw [entryFrom, if_neg (by rw [hmore]; decide), hsep]
      simp only
      rw [hkey]
      simp only
      rw [hcolon]
      simp only
      rw [hread]
      exact hend

end Run

end LlmEngine.Bind.Scan
