/-
# LlmEngine.Cfg.JsonRead — `json_parse` reads JSON (`third_party/json.h`).

Every JSON text whose arrays and objects are nested at most `J_MAX_DEPTH` deep is read as the value it stands
for, whatever its whitespace, its escapes and the order of its members, and no read goes beyond its NUL.  Of
`strtod` this takes that it reads a number where one stands.

* `Json.toVal` is what a text stands for; a text is *proper* where its numbers have the form JSON gives them
  (`IsProper`).
* Strings: `jStrLoop_reads` puts every character, escapes and surrogate pairs included, by induction on the string.
* Arrays and objects: `jItems_reads`, `jMembers_reads`, where the values one level down are read (`ReadsTo`).
* `jParseVal_reads` is the induction on the depth, and `json_parse_reads` the whole text with the whitespace around it.

`strtodWhole` reads whole numbers and is an instance (`strtodWhole_reads`).
-/
import LlmEngine.Bind.ScanDocument
import LlmEngine.Cfg.Json

namespace LlmEngine.Cfg

open LlmEngine.Bind (cStr)
open LlmEngine.Bind.Scan (IsScalar IsStop blank digit digitItems member members_text number_scalar rawStr)
open LlmEngine.Lib.JsonText
open LlmEngine.Lib.LittleEndian
open LlmEngine.Tokenizer (ascii)
open LlmEngine.Tokenizer.Ranks (isSpaceChar)

/-! ## What a text stands for -/

section Meaning

variable {D : Type} (num : Number → D)

def Word.toVal : Word → JVal D
  | .true => .bool true
  | .false => .bool false
  | .null => .null

mutual

/-- The tree of a value; a string ends at a NUL in it. -/
def Json.toVal : Json → JVal D
  | .str s => .str (cStr (JStr.decode s))
  | .num n => .num (num n)
  | .word w => Word.toVal w
  | .arr _ items => .arr (Items.toVals items)
  | .obj _ members => .obj (Members.toVals members)

def Items.toVals : Items → List (JVal D)
  | .nil => []
  | .cons _ v _ rest => Json.toVal v :: Items.toVals rest

def Members.toVals : Members → List (Bytes × JVal D)
  | .nil => []
  | .cons _ key _ _ v _ rest => (cStr (JStr.decode key), Json.toVal v) :: Members.toVals rest

end

end Meaning

/-- `.` and digits, or nothing. -/
def IsFraction (f : Bytes) : Prop := f = [] ∨ ∃ ds : Digits, f = 46 :: ds.val

/-- `e` or `E`, a sign or none, and digits; or nothing. -/
def IsExponent (x : Bytes) : Prop :=
  x = [] ∨ ∃ e ∈ [(69 : UInt8), 101], ∃ sign ∈ [([] : Bytes), [43], [45]], ∃ ds : Digits, x = e :: (sign ++ ds.val)

/-- A number with a proper fraction and exponent. -/
def IsProper (n : Number) : Prop := ∃ f x, IsFraction f ∧ IsExponent x ∧ n.tail.val = f ++ x

mutual

/-- Every number in a value is proper. -/
def Json.IsProper : Json → Prop
  | .num n => Cfg.IsProper n
  | .arr _ items => Items.IsProper items
  | .obj _ members => Members.IsProper members
  | .str _ | .word _ => True

def Items.IsProper : Items → Prop
  | .nil => True
  | .cons _ v _ rest => Json.IsProper v ∧ Items.IsProper rest

def Members.IsProper : Members → Prop
  | .nil => True
  | .cons _ _ _ _ v _ rest => Json.IsProper v ∧ Members.IsProper rest

end

/-- What can stand behind a value. -/
def Ends (t : Bytes) : Prop := ∀ b ∈ t.head?, IsWs b ∨ IsStop b

/-- **`strtod` reads a number where one stands**, and not beyond. -/
def ReadsNumbers {D : Type} (strtod : Bytes → D × Nat) (num : Number → D) : Prop :=
  ∀ n, IsProper n → ∀ t, Ends t → strtod (n.render ++ t) = (num n, n.render.length)

theorem ends_nil : Ends [] := fun _ hb => nomatch hb

theorem ends_newline : Ends [10] := fun b hb => by
  obtain rfl := Option.some.inj hb
  exact .inl (.inr (.inr (.inl rfl)))

/-! ## Whitespace -/

theorem ws_space {b : UInt8} (h : IsWs b) : isSpaceChar b = true := by
  rcases h with rfl | rfl | rfl | rfl <;> rfl

/-- Something that is neither whitespace nor a NUL. -/
def Dark (c : UInt8) : Prop := isSpaceChar c = false

theorem jWs_ws (w : Ws) {c : UInt8} (hc : Dark c) (t : Bytes) : jWs (w.val ++ c :: t) = c :: t := by
  unfold jWs
  rw [List.dropWhile_append_of_pos fun b hb => ws_space (w.property b hb), List.dropWhile_cons_of_neg]
  rw [hc]
  exact Bool.false_ne_true

/-! ## Strings -/

/-- What the reader asks of a hexadecimal digit. -/
theorem hex_byte (h : HexChar) : isHexDigit h.byte = true ∧ hexDigit h.byte = h.value.val ∧ isSpaceChar h.byte = false ∧
    h.byte ≠ 0 ∧ h.byte ≠ 45 ∧ h.byte ≠ 43 ∧ (h.byte == 120 || h.byte == 88) = false := by
  have hall : ∀ (v : Fin 16) (u : Bool), isHexDigit (HexChar.byte ⟨v, u⟩) = true ∧ hexDigit (HexChar.byte ⟨v, u⟩) = v.val ∧
      isSpaceChar (HexChar.byte ⟨v, u⟩) = false ∧ HexChar.byte ⟨v, u⟩ ≠ 0 ∧ HexChar.byte ⟨v, u⟩ ≠ 45 ∧
      HexChar.byte ⟨v, u⟩ ≠ 43 ∧ (HexChar.byte ⟨v, u⟩ == 120 || HexChar.byte ⟨v, u⟩ == 88) = false := by
    decide +kernel
  exact hall h.value h.upper

theorem codeUnit_lt (a b c d : HexChar) : codeUnit a b c d < 0x10000 := by
  unfold codeUnit
  omega

/-- `strtoul` of four digits. -/
theorem strtoul16_hex (a b c d : HexChar) : strtoul16 [a.byte, b.byte, c.byte, d.byte] = codeUnit a b c d := by
  obtain ⟨ha, hav, has, -, ha45, ha43, -⟩ := hex_byte a
  obtain ⟨hb, hbv, -, -, -, -, hbx⟩ := hex_byte b
  obtain ⟨hc, hcv, -⟩ := hex_byte c
  obtain ⟨hd, hdv, -⟩ := hex_byte d
  have hlt := codeUnit_lt a b c d
  unfold strtoul16
  rw [List.dropWhile_cons_of_neg (by rw [has]; exact Bool.false_ne_true)]
  simp only [List.head?_cons, Option.some.injEq, ha45, ha43, or_self, if_false, List.drop_succ_cons, List.drop_zero,
    Option.any_some, hbx, Bool.false_eq_true, false_and, and_false, List.takeWhile_cons, ha, hb, hc, hd, if_true,
    List.takeWhile_nil, List.foldl_cons, List.foldl_nil, hav, hbv, hcv, hdv]
  unfold codeUnit at hlt ⊢
  omega

theorem fourChars_hex (a b c d : HexChar) (t : Bytes) : fourChars (a.byte :: b.byte :: c.byte :: d.byte :: t) = true := by
  unfold fourChars
  simp [(hex_byte a).2.2.2.1.symm, (hex_byte b).2.2.2.1.symm, (hex_byte c).2.2.2.1.symm, (hex_byte d).2.2.2.1.symm]

/-- **A code point is put in UTF-8.** -/
theorem jUtf8_eq {cp : Nat} (h : cp < 0x110000) : jUtf8 cp = utf8 cp := by
  have hlow : ∀ x, 0x80 ||| (x &&& 0x3F) = 0x80 + x % 64 := by
    intro x
    rw [show (0x3F : Nat) = 2 ^ 6 - 1 from rfl, Nat.and_two_pow_sub_one_eq_mod]
    exact shift_or (a := 2) (i := 6) (Nat.mod_lt x (by decide))
  unfold jUtf8 utf8
  simp only [Nat.shiftRight_eq_div_pow, hlow]
  split_ifs
  · rfl
  · rw [show 0xC0 ||| cp / 2 ^ 6 = 0xC0 + cp / 64 from shift_or (a := 3) (i := 6) (by omega)]
  · rw [show 0xE0 ||| cp / 2 ^ 12 = 0xE0 + cp / 4096 from shift_or (a := 7) (i := 5) (by omega)]
  · rw [show 0xF0 ||| cp / 2 ^ 18 = 0xF0 + cp / 262144 from shift_or (a := 15) (i := 4) (by omega)]

/-- Two escapes that are a surrogate pair. -/
def IsPair (hi lo : Nat) : Prop := 0xD800 ≤ hi ∧ hi < 0xDC00 ∧ 0xDC00 ≤ lo ∧ lo < 0xE000

/-- An escaped code unit, with no other half behind it. -/
theorem jUnicode_single (a b c d : HexChar) {t : Bytes} (h : t.take 2 = [92, 117] → ∃ a' b' c' d' u,
    t = 92 :: 117 :: HexChar.byte a' :: HexChar.byte b' :: HexChar.byte c' :: HexChar.byte d' :: u ∧
      ¬ IsPair (codeUnit a b c d) (codeUnit a' b' c' d')) :
    jUnicode (a.byte :: b.byte :: c.byte :: d.byte :: t) = (utf8 (codeUnit a b c d), t) := by
  have hlt := codeUnit_lt a b c d
  unfold jUnicode
  rw [fourChars_hex, Bool.not_true, if_neg Bool.false_ne_true]
  simp only [List.take_succ_cons, List.take_zero, List.drop_succ_cons, List.drop_zero, strtoul16_hex]
  rw [if_neg, jUtf8_eq (by omega)]
  rintro ⟨hhi, hhi', hslash, -, hlo, hlo'⟩
  obtain ⟨a', b', c', d', u, rfl, hsingle⟩ := h hslash
  simp only [List.drop_succ_cons, List.drop_zero, List.take_succ_cons, List.take_zero, strtoul16_hex] at hlo hlo'
  exact hsingle ⟨hhi, by omega, hlo, by omega⟩

theorem jUnicode_pair (a b c d a' b' c' d' : HexChar) (t : Bytes) (h : IsPair (codeUnit a b c d) (codeUnit a' b' c' d')) :
    jUnicode (a.byte :: b.byte :: c.byte :: d.byte :: 92 :: 117 :: a'.byte :: b'.byte :: c'.byte :: d'.byte :: t) =
      (utf8 (0x10000 + (codeUnit a b c d - 0xD800) * 1024 + (codeUnit a' b' c' d' - 0xDC00)), t) := by
  obtain ⟨hhi, hhi', hlo, hlo'⟩ := h
  unfold jUnicode
  rw [fourChars_hex, Bool.not_true, if_neg Bool.false_ne_true]
  simp only [List.take_succ_cons, List.take_zero, List.drop_succ_cons, List.drop_zero, strtoul16_hex]
  rw [if_pos ⟨hhi, by omega, trivial, fourChars_hex a' b' c' d' t, hlo, by omega⟩, Nat.shiftLeft_eq, jUtf8_eq (by omega)]

/-- The characters and the closing quote, in front of `t`. -/
theorem body_text (c : JChar) (s : JStr) (t : Bytes) :
    JStr.body (c :: s) ++ t = c.render ++ (JStr.body s ++ t) := by
  unfold JStr.body
  rw [List.flatMap_cons, List.append_assoc, List.append_assoc, List.append_assoc]

/-- A `\u` behind an escape is an escaped code unit. -/
theorem body_unicode (s : JStr) (t : Bytes) (h : (JStr.body s ++ t).take 2 = [92, 117]) :
    ∃ a b c d s', s = .unicode a b c d :: s' := by
  cases s with
  | nil =>
      unfold JStr.body at h
      cases h
  | cons c s =>
      rw [body_text] at h
      cases c with
      | raw b =>
          obtain ⟨-, -, hslash⟩ := b.property
          exact absurd (List.cons.inj h).1 hslash
      | esc e =>
          have hu : ∀ e : Escape, e.byte ≠ 117 := fun e => by cases e <;> decide
          exact absurd (List.cons.inj (List.cons.inj h).2).1 (hu e)
      | unicode a b c d => exact ⟨a, b, c, d, s, rfl⟩

section Loop

variable {n : Nat} {t : Bytes}

theorem jStrLoop_raw (b : Plain) : jStrLoop (n + 1) (b.val :: t) = (b.val :: (jStrLoop n t).1, (jStrLoop n t).2) := by
  obtain ⟨hlow, hquote, hslash⟩ := b.property
  have hzero : b.val ≠ 0 := by
    intro h
    rw [h] at hlow
    exact absurd hlow (by decide)
  rw [jStrLoop, if_neg (not_or.mpr ⟨hzero, hquote⟩), if_neg fun h => hslash h.1]
  rfl

theorem jStrLoop_slash {e : UInt8} (he : e ≠ 0) : jStrLoop (n + 1) (92 :: e :: t) =
    ((jEscape e t).1 ++ (jStrLoop n (jEscape e t).2).1, (jStrLoop n (jEscape e t).2).2) := by
  rw [jStrLoop, if_neg (by decide), if_pos ⟨rfl, he⟩]
  rfl

theorem jEscape_unicode : jEscape 117 t = jUnicode t := rfl

theorem jEscape_char (e : Escape) : jEscape e.byte t = ([e.char], t) := by
  cases e <;> rfl

end Loop

/-- **The loop puts what a string stands for**, and comes to its closing quote. -/
theorem jStrLoop_reads (s : JStr) : ∀ (n : Nat) (t : Bytes), (JStr.body s).length ≤ n →
    jStrLoop n (JStr.body s ++ t) = (JStr.decode s, 34 :: t) := by
  have hlen : ∀ (c : JChar) (s : JStr), (JStr.body (c :: s)).length = c.render.length + (JStr.body s).length := by
    intro c s
    have htext := congrArg List.length (body_text c s [])
    rwa [List.append_nil, List.append_nil, List.length_append] at htext
  induction s using JStr.decode.induct with
  | case1 =>
      intro n t hn
      obtain ⟨n, rfl⟩ : ∃ k, n = k + 1 := ⟨n - 1, (Nat.succ_pred_eq_of_pos hn).symm⟩
      rfl
  | case2 b s ih =>
      intro n t hn
      rw [hlen] at hn
      obtain ⟨n, rfl⟩ : ∃ k, n = k + 1 := ⟨n - 1, by simp only [JChar.render, List.length_singleton] at hn; omega⟩
      rw [body_text]
      show jStrLoop (n + 1) (b.val :: (JStr.body s ++ t)) = _
      rw [jStrLoop_raw, ih n t (by simp only [JChar.render, List.length_singleton] at hn; omega)]
      rfl
  | case3 e s ih =>
      intro n t hn
      rw [hlen] at hn
      obtain ⟨n, rfl⟩ : ∃ k, n = k + 1 :=
        ⟨n - 1, by simp only [JChar.render, List.length_cons, List.length_nil] at hn; omega⟩
      have he : e.byte ≠ 0 := by cases e <;> decide
      rw [body_text]
      show jStrLoop (n + 1) (92 :: e.byte :: (JStr.body s ++ t)) = _
      rw [jStrLoop_slash he, jEscape_char,
        ih n t (by simp only [JChar.render, List.length_cons, List.length_nil] at hn; omega)]
      rfl
  | case4 a b c d a' b' c' d' s hi lo hpair ih =>
      intro n t hn
      rw [hlen, hlen] at hn
      simp only [JChar.render, List.length_cons, List.length_nil] at hn
      obtain ⟨n, rfl⟩ : ∃ k, n = k + 1 := ⟨n - 1, by omega⟩
      rw [body_text, body_text, JStr.decode, if_pos hpair]
      show jStrLoop (n + 1) (92 :: 117 :: a.byte :: b.byte :: c.byte :: d.byte :: 92 :: 117 :: a'.byte :: b'.byte ::
        c'.byte :: d'.byte :: (JStr.body s ++ t)) = _
      rw [jStrLoop_slash (by decide), jEscape_unicode, jUnicode_pair a b c d a' b' c' d' _ hpair, ih n t (by omega)]
  | case5 a b c d a' b' c' d' s hi lo hpair ih =>
      intro n t hn
      rw [hlen] at hn
      simp only [JChar.render, List.length_cons, List.length_nil] at hn
      obtain ⟨n, rfl⟩ : ∃ k, n = k + 1 := ⟨n - 1, by omega⟩
      rw [body_text, JStr.decode, if_neg hpair]
      show jStrLoop (n + 1) (92 :: 117 :: a.byte :: b.byte :: c.byte :: d.byte ::
        (JStr.body (.unicode a' b' c' d' :: s) ++ t)) = _
      rw [jStrLoop_slash (by decide), jEscape_unicode,
        jUnicode_single a b c d fun _ => ⟨a', b', c', d', JStr.body s ++ t, body_text _ s t, hpair⟩, ih n t (by omega)]
  | case6 a b c d s hsingle ih =>
      intro n t hn
      rw [hlen] at hn
      simp only [JChar.render, List.length_cons, List.length_nil] at hn
      obtain ⟨n, rfl⟩ : ∃ k, n = k + 1 := ⟨n - 1, by omega⟩
      have hno : (JStr.body s ++ t).take 2 ≠ [92, 117] := by
        intro hu
        obtain ⟨a', b', c', d', s', hs⟩ := body_unicode s t hu
        exact hsingle a' b' c' d' s' hs
      rw [body_text, JStr.decode]
      · show jStrLoop (n + 1) (92 :: 117 :: a.byte :: b.byte :: c.byte :: d.byte :: (JStr.body s ++ t)) = _
        rw [jStrLoop_slash (by decide), jEscape_unicode, jUnicode_single a b c d fun hu => absurd hu hno,
          ih n t (by omega)]
      · exact hsingle

/-- **A string is read**, up to a NUL in it. -/
theorem jParseStrRaw_reads (s : JStr) (t : Bytes) :
    jParseStrRaw (JStr.render s ++ t) = some (cStr (JStr.decode s), t) := by
  show jParseStrRaw (34 :: (JStr.body s ++ t)) = _
  rw [jParseStrRaw, jStrLoop_reads s _ t (by rw [List.length_append]; exact Nat.le_add_right _ _)]
  rfl

/-! ## Values -/

section Value

variable {D : Type} {strtod : Bytes → D × Nat} {num : Number → D}

/-- `val` reads every value nested at most `k` deep, and stops behind it. -/
def ReadsTo (num : Number → D) (val : ValueReader D) (k : Nat) : Prop :=
  ∀ v : Json, v.depth ≤ k → Json.IsProper v → ∀ (w : Ws) (t : Bytes), Ends t →
    val (w.val ++ (v.render ++ t)) = some (Json.toVal num v, t)

theorem ends_ws (w : Ws) {c : UInt8} (hc : IsStop c) (t : Bytes) : Ends (w.val ++ c :: t) := by
  intro b hb
  cases hw : w.val with
  | nil =>
      rw [hw] at hb
      obtain rfl := Option.some.inj hb
      exact .inr hc
  | cons x xs =>
      rw [hw] at hb
      obtain rfl := Option.some.inj hb
      exact .inl (w.property x (hw ▸ List.mem_cons_self))

theorem stop_dark {c : UInt8} (hc : IsStop c) : Dark c := by
  rcases hc with rfl | rfl | rfl <;> rfl

/-- **The items of an array**, from the first one on. -/
theorem jItems_reads {val : ValueReader D} {k : Nat} (h : ReadsTo num val k) (before : Ws) (v : Json) (after : Ws)
    (rest : Items) (n : Nat) (t : Bytes) (hdepth : Items.depth (.cons before v after rest) ≤ k)
    (hproper : Items.IsProper (.cons before v after rest))
    (hn : (Items.render true (.cons before v after rest)).length < n) :
    jItems val n (Items.render true (.cons before v after rest) ++ 93 :: t) =
      some (Items.toVals num (.cons before v after rest), t) := by
  rw [Items.depth] at hdepth
  obtain ⟨hv, hrest⟩ := hproper
  obtain ⟨n, rfl⟩ : ∃ j, n = j + 1 := ⟨n - 1, by omega⟩
  have htext : Items.render true (.cons before v after rest) ++ 93 :: t =
      before.val ++ (v.render ++ (after.val ++ (Items.render false rest ++ 93 :: t))) := by
    simp only [Items.render, comma, if_true, List.nil_append, List.append_assoc]
  rw [htext, jItems]
  cases rest with
  | nil =>
      have hstop : IsStop 93 := .inr (.inr rfl)
      rw [show Items.render false .nil ++ 93 :: t = 93 :: t from rfl,
        h v (le_trans (le_max_left _ _) hdepth) hv before _ (ends_ws after hstop t), Option.bind_some,
        jWs_ws after (stop_dark hstop)]
      rfl
  | cons before' v' after' rest' =>
      have hstop : IsStop 44 := .inl rfl
      have hcomma : Items.render false (.cons before' v' after' rest') ++ 93 :: t =
          44 :: (Items.render true (.cons before' v' after' rest') ++ 93 :: t) := by
        simp only [Items.render, comma, if_true, Bool.false_eq_true, if_false, List.nil_append, List.append_assoc,
          List.cons_append]
      have hlen : (Items.render true (.cons before' v' after' rest')).length < n := by
        have hall := congrArg List.length htext
        rw [hcomma] at hall
        simp only [List.length_append, List.length_cons] at hall hn
        omega
      rw [hcomma, h v (le_trans (le_max_left _ _) hdepth) hv before _ (ends_ws after hstop _), Option.bind_some,
        jWs_ws after (stop_dark hstop)]
      show (jItems val n (Items.render true (.cons before' v' after' rest') ++ 93 :: t)).map _ = _
      rw [jItems_reads h before' v' after' rest' n t (le_trans (le_max_right _ _) hdepth) hrest hlen]
      rfl

/-- **The members of an object.** -/
theorem jMembers_reads {val : ValueReader D} {k : Nat} (h : ReadsTo num val k) (before : Ws) (key : JStr)
    (colon0 colon1 : Ws) (v : Json) (after : Ws) (rest : Members) (n : Nat) (t : Bytes)
    (hdepth : Members.depth (.cons before key colon0 colon1 v after rest) ≤ k)
    (hproper : Members.IsProper (.cons before key colon0 colon1 v after rest))
    (hn : (Members.render true (.cons before key colon0 colon1 v after rest)).length < n) :
    jMembers val n (Members.render true (.cons before key colon0 colon1 v after rest) ++ 125 :: t) =
      some (Members.toVals num (.cons before key colon0 colon1 v after rest), t) := by
  rw [Members.depth] at hdepth
  obtain ⟨hv, hrest⟩ := hproper
  obtain ⟨n, rfl⟩ : ∃ j, n = j + 1 := ⟨n - 1, by omega⟩
  have htext := members_text true before key colon0 colon1 v after rest (125 :: t)
  have hname : ∀ u, jWs (before.val ++ (JStr.render key ++ u)) = JStr.render key ++ u := fun u =>
    jWs_ws before (show Dark 34 from rfl) (JStr.body key ++ u)
  have hcolon : ∀ u, jWs (colon0.val ++ 58 :: u) = 58 :: u := fun u => jWs_ws colon0 (show Dark 58 from rfl) u
  rw [htext, jMembers, comma, if_pos rfl, List.nil_append, hname, jParseStrRaw_reads, Option.bind_some, hcolon]
  cases rest with
  | nil =>
      have hstop : IsStop 125 := .inr (.inl rfl)
      show (val (colon1.val ++ (v.render ++ (after.val ++ 125 :: t)))).bind _ = _
      rw [h v (le_trans (le_max_left _ _) hdepth) hv colon1 _ (ends_ws after hstop t), Option.bind_some,
        jWs_ws after (stop_dark hstop)]
      rfl
  | cons before' key' colon0' colon1' v' after' rest' =>
      have hstop : IsStop 44 := .inl rfl
      have hcomma : Members.render false (.cons before' key' colon0' colon1' v' after' rest') ++ 125 :: t =
          44 :: (Members.render true (.cons before' key' colon0' colon1' v' after' rest') ++ 125 :: t) := by
        rw [members_text, members_text]
        rfl
      have hlen : (Members.render true (.cons before' key' colon0' colon1' v' after' rest')).length < n := by
        have hall := congrArg List.length htext
        rw [hcomma] at hall
        simp only [List.length_append, List.length_cons] at hall hn
        omega
      rw [hcomma]
      show (val (colon1.val ++ (v.render ++ (after.val ++ 44 :: _)))).bind _ = _
      rw [h v (le_trans (le_max_left _ _) hdepth) hv colon1 _ (ends_ws after hstop _), Option.bind_some,
        jWs_ws after (stop_dark hstop)]
      show (jMembers val n (Members.render true (.cons before' key' colon0' colon1' v' after' rest') ++ 125 :: t)).map _ = _
      rw [jMembers_reads h before' key' colon0' colon1' v' after' rest' n t (le_trans (le_max_right _ _) hdepth) hrest hlen]
      rfl

/-- What a number starts with. -/
theorem number_head (n : Number) : ∃ b r, n.render = b :: r ∧ (b = 45 ∨ (48 ≤ b ∧ b ≤ 57)) := by
  unfold Number.render
  by_cases hneg : n.neg = true
  · rw [if_pos hneg]
    exact ⟨45, _, rfl, .inl rfl⟩
  · obtain ⟨hne, hdigits⟩ := n.digits.property
    obtain ⟨b, r, hb⟩ := List.exists_cons_of_ne_nil hne
    rw [if_neg hneg, hb]
    exact ⟨b, r ++ n.tail.val, rfl, .inr (hdigits b (hb ▸ List.mem_cons_self))⟩

/-- A sign or a digit starts nothing else. -/
theorem number_only {b : UInt8} (h : b = 45 ∨ (48 ≤ b ∧ b ≤ 57)) :
    Dark b ∧ b ≠ 34 ∧ b ≠ 123 ∧ b ≠ 91 ∧ b ≠ 116 ∧ b ≠ 102 ∧ b ≠ 110 := by
  have hall : ∀ n < 256, (n = 45 ∨ (48 ≤ n ∧ n ≤ 57)) → isSpaceChar (UInt8.ofNat n) = false ∧ UInt8.ofNat n ≠ 34 ∧
      UInt8.ofNat n ≠ 123 ∧ UInt8.ofNat n ≠ 91 ∧ UInt8.ofNat n ≠ 116 ∧ UInt8.ofNat n ≠ 102 ∧ UInt8.ofNat n ≠ 110 := by
    decide +kernel
  have hb := hall b.toNat b.toNat_lt (h.imp (congrArg UInt8.toNat) fun ⟨hlo, hhi⟩ =>
    ⟨UInt8.le_iff_toNat_le.mp hlo, UInt8.le_iff_toNat_le.mp hhi⟩)
  rwa [UInt8.ofNat_toNat] at hb

/-- What a value starts with: neither whitespace nor the end of an array. -/
theorem value_head (v : Json) : ∃ b r, v.render = b :: r ∧ Dark b ∧ b ≠ 93 := by
  cases v with
  | str s => exact ⟨34, JStr.body s, rfl, rfl, by decide⟩
  | num n =>
      obtain ⟨b, r, hb, hstart⟩ := number_head n
      refine ⟨b, r, hb, (number_only hstart).1, ?_⟩
      rintro rfl
      exact absurd hstart (by decide)
  | word u => cases u <;> exact ⟨_, _, rfl, rfl, by decide⟩
  | arr pad items => exact ⟨91, _, rfl, rfl, by decide⟩
  | obj pad members => exact ⟨123, _, rfl, rfl, by decide⟩

section Step

variable {inner : Option (ValueReader D)} (w : Ws) (t : Bytes)

theorem jValue_str (s : JStr) :
    jValue strtod inner (w.val ++ (JStr.render s ++ t)) = some (.str (cStr (JStr.decode s)), t) := by
  have hws : jWs (w.val ++ (JStr.render s ++ t)) = JStr.render s ++ t := jWs_ws w (show Dark 34 from rfl) (JStr.body s ++ t)
  have hquote : peek (JStr.render s ++ t) = 34 := rfl
  unfold jValue
  rw [hws]
  dsimp only
  rw [if_pos hquote, jParseStrRaw_reads]
  rfl

theorem jValue_word (u : Word) :
    jValue strtod inner (w.val ++ (Json.render (.word u) ++ t)) = some (Word.toVal u, t) := by
  obtain ⟨b, r, hb, hdark, -⟩ := value_head (.word u)
  have hws : jWs (w.val ++ (Json.render (.word u) ++ t)) = Json.render (.word u) ++ t := by
    rw [hb]
    exact jWs_ws w hdark (r ++ t)
  unfold jValue
  rw [hws]
  cases u <;> rfl

/-- **A number** is left to `strtod`. -/
theorem jValue_num (hnum : ReadsNumbers strtod num) {n : Number} (hproper : IsProper n) (ht : Ends t) :
    jValue strtod inner (w.val ++ (n.render ++ t)) = some (.num (num n), t) := by
  obtain ⟨b, r, hb, hstart⟩ := number_head n
  obtain ⟨hdark, hquote, hbrace, hbracket, ht', hf', hn'⟩ := number_only hstart
  have hws : jWs (w.val ++ (n.render ++ t)) = n.render ++ t := by
    rw [hb]
    exact jWs_ws w hdark (r ++ t)
  have hpeek : peek (n.render ++ t) = b := by
    rw [hb]
    rfl
  have hword : ∀ {c : UInt8} {u : Bytes} (i : Nat), b ≠ c → (n.render ++ t).take (i + 1) ≠ c :: u := by
    intro c u i hne heq
    rw [hb] at heq
    exact hne (List.cons.inj heq).1
  have htrue : (n.render ++ t).take 4 ≠ ascii "true" := hword 3 ht'
  have hfalse : (n.render ++ t).take 5 ≠ ascii "false" := hword 4 hf'
  have hnull : (n.render ++ t).take 4 ≠ ascii "null" := hword 3 hn'
  unfold jValue
  rw [hws]
  dsimp only
  rw [hpeek, if_neg hquote, if_neg hbrace, if_neg hbracket, if_neg htrue, if_neg hfalse, if_neg hnull,
    hnum n hproper t ht, List.drop_left]

theorem jValue_bracket (val : ValueReader D) {s s' : Bytes} (hs : jWs s = s') :
    jValue strtod (some val) (w.val ++ 91 :: s) =
      if peek s' = 93 then some (.arr [], s'.drop 1)
      else (jItems val (s'.length + 1) s').map fun q => (.arr q.1, q.2) := by
  unfold jValue
  rw [jWs_ws w (show Dark 91 from rfl), ← hs]
  rfl

theorem jValue_brace (val : ValueReader D) {s s' : Bytes} (hs : jWs s = s') :
    jValue strtod (some val) (w.val ++ 123 :: s) =
      if peek s' = 125 then some (.obj [], s'.drop 1)
      else (jMembers val (s'.length + 1) s').map fun q => (.obj q.1, q.2) := by
  unfold jValue
  rw [jWs_ws w (show Dark 123 from rfl), ← hs]
  rfl

/-- The whitespace behind a bracket and that before what comes first. -/
theorem jWs_twice (pad before : Ws) {c : UInt8} (hc : Dark c) (u : Bytes) :
    jWs (pad.val ++ (before.val ++ c :: u)) = c :: u := by
  have hpad : ∀ x ∈ pad.val ++ before.val, IsWs x := fun x hx =>
    (List.mem_append.mp hx).elim (pad.property x) (before.property x)
  rw [← List.append_assoc]
  exact jWs_ws ⟨_, hpad⟩ hc u

/-- **An array** is its items, one level down. -/
theorem jValue_arr {val : ValueReader D} {k : Nat} (h : ReadsTo num val k) (pad : Ws) (items : Items)
    (hdepth : Items.depth items ≤ k) (hproper : Items.IsProper items) :
    jValue strtod (some val) (w.val ++ (Json.render (.arr pad items) ++ t)) = some (.arr (Items.toVals num items), t) := by
  have htext : Json.render (.arr pad items) ++ t = 91 :: (pad.val ++ (Items.render true items ++ 93 :: t)) := by
    rw [Json.render, List.cons_append, List.append_assoc, List.append_assoc]
    rfl
  rw [htext]
  cases items with
  | nil =>
      have hclose : jWs (pad.val ++ (Items.render true .nil ++ 93 :: t)) = 93 :: t := jWs_ws pad (show Dark 93 from rfl) t
      rw [jValue_bracket w val hclose]
      rfl
  | cons before v after rest =>
      -- the whitespace before the first item is gone by the time it is read
      obtain ⟨b, r, hb, hdark, hopen⟩ := value_head v
      have hfirst : ∀ before : Ws, Items.render true (.cons before v after rest) ++ 93 :: t =
          before.val ++ b :: (r ++ (after.val ++ (Items.render false rest ++ 93 :: t))) := fun before => by
        simp only [Items.render, comma, if_true, List.nil_append, List.append_assoc, hb, List.cons_append]
      have hws : jWs (pad.val ++ (Items.render true (.cons before v after rest) ++ 93 :: t)) =
          Items.render true (.cons Ws.none v after rest) ++ 93 :: t := by
        rw [hfirst before, hfirst Ws.none]
        exact jWs_twice pad before hdark _
      have hpeek : peek (Items.render true (.cons Ws.none v after rest) ++ 93 :: t) = b := by
        rw [hfirst]
        rfl
      rw [jValue_bracket w val hws, hpeek, if_neg hopen,
        jItems_reads h Ws.none v after rest _ t hdepth hproper (by rw [List.length_append]; omega)]
      rfl

/-- **An object** is its members, one level down. -/
theorem jValue_obj {val : ValueReader D} {k : Nat} (h : ReadsTo num val k) (pad : Ws) (members : Members)
    (hdepth : Members.depth members ≤ k) (hproper : Members.IsProper members) :
    jValue strtod (some val) (w.val ++ (Json.render (.obj pad members) ++ t)) =
      some (.obj (Members.toVals num members), t) := by
  have htext : Json.render (.obj pad members) ++ t = 123 :: (pad.val ++ (Members.render true members ++ 125 :: t)) := by
    rw [Json.render, List.cons_append, List.append_assoc, List.append_assoc]
    rfl
  rw [htext]
  cases members with
  | nil =>
      have hclose : jWs (pad.val ++ (Members.render true .nil ++ 125 :: t)) = 125 :: t :=
        jWs_ws pad (show Dark 125 from rfl) t
      rw [jValue_brace w val hclose]
      rfl
  | cons before key colon0 colon1 v after rest =>
      have hws : jWs (pad.val ++ (Members.render true (.cons before key colon0 colon1 v after rest) ++ 125 :: t)) =
          Members.render true (.cons Ws.none key colon0 colon1 v after rest) ++ 125 :: t := by
        rw [members_text, members_text]
        exact jWs_twice pad before (show Dark 34 from rfl) _
      have hpeek : peek (Members.render true (.cons Ws.none key colon0 colon1 v after rest) ++ 125 :: t) = 34 := by
        rw [members_text]
        rfl
      have hopen : (34 : UInt8) ≠ 125 := by decide
      rw [jValue_brace w val hws, hpeek, if_neg hopen, jMembers_reads h Ws.none key colon0 colon1 v after rest _ t hdepth
        hproper (by rw [List.length_append]; omega)]
      rfl

end Step

/-- **A value is read** where the values one level down are. -/
theorem jValue_reads (hnum : ReadsNumbers strtod num) {inner : Option (ValueReader D)} {k : Nat}
    (h : ∀ j, k = j + 1 → ∃ val, inner = some val ∧ ReadsTo num val j) : ReadsTo num (jValue strtod inner) k := by
  intro v hdepth hproper w t ht
  cases v with
  | str s => exact jValue_str w t s
  | num n => exact jValue_num w t hnum hproper ht
  | word u => exact jValue_word w t u
  | arr pad items =>
      obtain ⟨j, rfl⟩ := Nat.exists_eq_add_of_lt (Nat.lt_of_lt_of_le (Nat.succ_pos _) hdepth)
      rw [Nat.zero_add] at *
      obtain ⟨val, rfl, hval⟩ := h j rfl
      exact jValue_arr w t hval pad items (Nat.succ_le_succ_iff.mp hdepth) hproper
  | obj pad members =>
      obtain ⟨j, rfl⟩ := Nat.exists_eq_add_of_lt (Nat.lt_of_lt_of_le (Nat.succ_pos _) hdepth)
      rw [Nat.zero_add] at *
      obtain ⟨val, rfl, hval⟩ := h j rfl
      exact jValue_obj w t hval pad members (Nat.succ_le_succ_iff.mp hdepth) hproper

/-- With `left` levels left, every value nested no deeper is read. -/
theorem jParseVal_reads (hnum : ReadsNumbers strtod num) : ∀ left, ReadsTo num (jParseVal strtod left) left
  | 0 => jValue_reads hnum fun _ h => absurd h.symm (Nat.succ_ne_zero _)
  | left + 1 => jValue_reads hnum fun _ h => ⟨_, rfl, Nat.succ.inj h ▸ jParseVal_reads hnum left⟩

/-- **`json_parse` reads JSON.**  A text nested at most `J_MAX_DEPTH` deep gives the tree of the value it stands for,
whatever stands behind it, and no read goes beyond the NUL. -/
theorem json_parse_reads (hnum : ReadsNumbers strtod num) {v : Json} (hdepth : v.depth ≤ jMaxDepth)
    (hproper : Json.IsProper v) (before : Ws) {behind : Bytes} (hends : Ends behind) :
    jsonParse strtod (before.val ++ (v.render ++ behind)) = some (Json.toVal num v) := by
  unfold jsonParse
  rw [jParseVal_reads hnum jMaxDepth v hdepth hproper before behind hends]
  rfl

end Value

/-! ## A document -/

/-- `strtod`, of what is written without fraction and exponent. -/
def strtodWhole (s : Bytes) : Int × Nat :=
  let u := s.takeWhile fun b => decide (IsScalar b)
  (if u.head? = some 45 then -digitsValue (u.drop 1) else digitsValue u, u.length)

theorem strtodWhole_reads : ReadsNumbers strtodWhole fun n => (strtodWhole n.render).1 := by
  have hnone : ∀ t, Ends t → t.takeWhile (fun b => decide (IsScalar b)) = [] := by
    intro t ht
    cases t with
    | nil => rfl
    | cons b t =>
        refine List.takeWhile_cons_of_neg fun h => ?_
        obtain ⟨hlow, -, hcomma, -, -, hbrace, hbracket⟩ := of_decide_eq_true h
        rcases ht b rfl with (rfl | rfl | rfl | rfl) | rfl | rfl | rfl
        · exact absurd hlow (by decide)
        · exact absurd hlow (by decide)
        · exact absurd hlow (by decide)
        · exact absurd hlow (by decide)
        · exact hcomma rfl
        · exact hbrace rfl
        · exact hbracket rfl
  have htake : ∀ (n : Number) (t : Bytes), Ends t → (n.render ++ t).takeWhile (fun b => decide (IsScalar b)) = n.render := by
    intro n t ht
    rw [List.takeWhile_append_of_pos fun b hb => decide_eq_true (number_scalar n b hb), hnone t ht, List.append_nil]
  intro n _ t ht
  have halone := htake n [] ends_nil
  rw [List.append_nil] at halone
  unfold strtodWhole
  simp only [htake n t ht, halone]

theorem integer_proper {n : Number} (h : n.tail.val = []) : IsProper n := ⟨[], [], .inl rfl, .inl rfl, h⟩

theorem lastDigit_lt (n : Nat) : n % 10 < 10 := Nat.mod_lt n (by decide)

def lastDigit (n : Nat) : Fin 10 := ⟨n % 10, lastDigit_lt n⟩

theorem nibble_lt (n : Nat) : n % 16 < 16 := Nat.mod_lt n (by decide)

def nibble (n : Nat) : Fin 16 := ⟨n % 16, nibble_lt n⟩

/-- The members of a document with a number list, an object, and a name in two escapes. -/
def layerMembers : Members :=
  member (rawStr (ascii "layers")) (.arr Ws.none (digitItems [lastDigit 3, lastDigit 0]))
    (member [.unicode ⟨nibble 13, false⟩ ⟨nibble 8, false⟩ ⟨nibble 3, false⟩ ⟨nibble 13, false⟩,
        .unicode ⟨nibble 13, false⟩ ⟨nibble 14, true⟩ ⟨nibble 0, false⟩ ⟨nibble 0, false⟩]
      (.obj blank (member (rawStr (ascii "tied")) (.word .false) .nil)) .nil)

theorem layers_read :
    jsonParse strtodWhole (ascii " \x7b\"layers\":[3,0],\"\\ud83d\\udE00\":\x7b \"tied\":false\x7d\x7d\n") =
      some (.obj [(ascii "layers", .arr [.num 3, .num 0]), ([0xF0, 0x9F, 0x98, 0x80], .obj [(ascii "tied", .bool false)])]) := by
  have htext : ascii " \x7b\"layers\":[3,0],\"\\ud83d\\udE00\":\x7b \"tied\":false\x7d\x7d\n" =
      blank.val ++ ((Json.obj Ws.none layerMembers).render ++ [10]) := by decide +kernel
  have hdepth : (Json.obj Ws.none layerMembers).depth ≤ jMaxDepth := by decide +kernel
  rw [htext]
  exact json_parse_reads strtodWhole_reads hdepth
    ⟨⟨integer_proper rfl, integer_proper rfl, trivial⟩, ⟨trivial, trivial⟩, trivial⟩ blank ends_newline

end LlmEngine.Cfg
