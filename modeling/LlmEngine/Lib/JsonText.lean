/-
# LlmEngine.Lib.JsonText — the texts of JSON values.

A value is kept with everything a writer may choose: whitespace, which characters of a string are escaped
and how, the order of the members, and whether a key comes twice.  `render` is its text, and every JSON
text is one of these, so that a statement about every value here is one about every text.

What can be built has well-formed parts.  Whitespace and the bytes that stand for themselves in a string
are subtypes (`Ws`, `Plain`); an escape is one of the eight letters or four hexadecimal digits; a number is
its sign, its digits and whatever follows them up to the end of the number (`Tail`), since what a reader
makes of a fraction and an exponent is its own business.

* `JStr.decode` is what a string stands for, in UTF-8: an escaped character by its code, two surrogates
  together by theirs, and a surrogate alone as it is.
* `Number.int?` is the value of a number that is written as an integer.
* `depth` is how deep objects and arrays are nested, which a recursive reader may bound.

The keys of an object are not required to differ: which of two members counts is for the reader to say.
-/
import LlmEngine.Lib.ForLoop
import LlmEngine.Lib.LittleEndian

namespace LlmEngine.Lib.JsonText

open LlmEngine.Lib.LittleEndian

/-! ## Strings -/

/-- Space, tab, line feed, carriage return. -/
def IsWs (b : UInt8) : Prop := b = 32 ∨ b = 9 ∨ b = 10 ∨ b = 13

/-- Whitespace. -/
abbrev Ws := {w : Bytes // ∀ b ∈ w, IsWs b}

def Ws.none : Ws := ⟨[], nofun⟩

/-- A hexadecimal digit, in either case. -/
structure HexChar where
  value : Fin 16
  upper : Bool

def HexChar.byte (h : HexChar) : UInt8 :=
  UInt8.ofNat (if h.value.val < 10 then 48 + h.value.val else (if h.upper then 55 else 87) + h.value.val)

/-- The character after a backslash. -/
inductive Escape
  | quote | backslash | slash | b | f | n | r | t

def Escape.byte : Escape → UInt8
  | quote => 34
  | backslash => 92
  | slash => 47
  | b => 98
  | f => 102
  | n => 110
  | r => 114
  | t => 116

/-- What it stands for. -/
def Escape.char : Escape → UInt8
  | quote => 34
  | backslash => 92
  | slash => 47
  | b => 8
  | f => 12
  | n => 10
  | r => 13
  | t => 9

/-- A byte of a string that stands for itself. -/
abbrev Plain := {b : UInt8 // 32 ≤ b ∧ b ≠ 34 ∧ b ≠ 92}

inductive JChar
  | raw (b : Plain)
  | esc (e : Escape)
  | unicode (h3 h2 h1 h0 : HexChar)

/-- The code unit of `\uXXXX`. -/
def codeUnit (h3 h2 h1 h0 : HexChar) : Nat :=
  ((h3.value.val * 16 + h2.value.val) * 16 + h1.value.val) * 16 + h0.value.val

def JChar.render : JChar → Bytes
  | raw b => [b.val]
  | esc e => [92, e.byte]
  | unicode h3 h2 h1 h0 => [92, 117, h3.byte, h2.byte, h1.byte, h0.byte]

/-- The characters of a string. -/
abbrev JStr := List JChar

/-- The characters and the closing quote. -/
def JStr.body (s : JStr) : Bytes := s.flatMap JChar.render ++ [34]

def JStr.render (s : JStr) : Bytes := 34 :: JStr.body s

/-- A code point below the surrogates or above them, or a lone surrogate, in UTF-8. -/
def utf8 (c : Nat) : Bytes :=
  if c < 0x80 then [UInt8.ofNat c]
  else if c < 0x800 then [UInt8.ofNat (0xC0 + c / 64), UInt8.ofNat (0x80 + c % 64)]
  else if c < 0x10000 then
    [UInt8.ofNat (0xE0 + c / 4096), UInt8.ofNat (0x80 + c / 64 % 64), UInt8.ofNat (0x80 + c % 64)]
  else
    [UInt8.ofNat (0xF0 + c / 262144), UInt8.ofNat (0x80 + c / 4096 % 64), UInt8.ofNat (0x80 + c / 64 % 64),
      UInt8.ofNat (0x80 + c % 64)]

/-- The bytes a string stands for.  Two escapes that are a surrogate pair are one character. -/
def JStr.decode : JStr → Bytes
  | [] => []
  | .raw b :: s => b.val :: decode s
  | .esc e :: s => e.char :: decode s
  | .unicode a b c d :: .unicode a' b' c' d' :: s =>
      let hi := codeUnit a b c d
      let lo := codeUnit a' b' c' d'
      if 0xD800 ≤ hi ∧ hi < 0xDC00 ∧ 0xDC00 ≤ lo ∧ lo < 0xE000 then
        utf8 (0x10000 + (hi - 0xD800) * 1024 + (lo - 0xDC00)) ++ decode s
      else utf8 hi ++ decode (.unicode a' b' c' d' :: s)
  | .unicode a b c d :: s => utf8 (codeUnit a b c d) ++ decode s

/-! ## Values -/

def IsDigit (b : UInt8) : Prop := 48 ≤ b ∧ b ≤ 57

/-- The digits of an integer. -/
abbrev Digits := {ds : Bytes // ds ≠ [] ∧ ∀ d ∈ ds, IsDigit d}

/-- A byte that can stand in a fraction or an exponent. -/
def IsTail (b : UInt8) : Prop := IsDigit b ∨ b = 43 ∨ b = 45 ∨ b = 46 ∨ b = 69 ∨ b = 101

/-- The fraction and the exponent of a number; an integer has none. -/
abbrev Tail := {t : Bytes // (∀ b ∈ t, IsTail b) ∧ ∀ b ∈ t.head?, b = 46 ∨ b = 69 ∨ b = 101}

structure Number where
  neg : Bool
  digits : Digits
  tail : Tail

def Number.render (n : Number) : Bytes := (if n.neg then [45] else []) ++ n.digits.val ++ n.tail.val

/-- The number that digits stand for. -/
def digitsValue (ds : Bytes) : Int := ds.foldl (fun a d => a * 10 + (d.toNat - 48)) 0

/-- The value of a number without fraction and exponent. -/
def Number.int? (n : Number) : Option Int :=
  if n.tail.val = [] then some (if n.neg then -digitsValue n.digits.val else digitsValue n.digits.val) else none

/-- A number with a value is its sign and its digits. -/
theorem Number.int?_some {n : Number} {v : Int} (h : n.int? = some v) :
    n.render = (if n.neg then [45] else []) ++ n.digits.val ∧
      v = if n.neg then -digitsValue n.digits.val else digitsValue n.digits.val := by
  unfold Number.int? at h
  by_cases htail : n.tail.val = []
  · rw [if_pos htail, Option.some.injEq] at h
    exact ⟨by rw [Number.render, htail, List.append_nil], h.symm⟩
  · rw [if_neg htail] at h
    cases h

inductive Word
  | true | false | null

def Word.render : Word → Bytes
  | .true => [116, 114, 117, 101]
  | .false => [102, 97, 108, 115, 101]
  | .null => [110, 117, 108, 108]

mutual

/-- A value, with its whitespace; `pad` stands behind the opening bracket. -/
inductive Json
  | str (s : JStr)
  | num (n : Number)
  | word (w : Word)
  | arr (pad : Ws) (items : Items)
  | obj (pad : Ws) (members : Members)

/-- The items of an array. -/
inductive Items
  | nil
  | cons (before : Ws) (v : Json) (after : Ws) (rest : Items)

/-- The members of an object. -/
inductive Members
  | nil
  | cons (before : Ws) (key : JStr) (colon0 colon1 : Ws) (v : Json) (after : Ws) (rest : Members)

end

mutual

/-- How deep arrays and objects are nested in a value. -/
def Json.depth : Json → Nat
  | .str _ | .num _ | .word _ => 0
  | .arr _ items => Items.depth items + 1
  | .obj _ members => Members.depth members + 1

def Items.depth : Items → Nat
  | .nil => 0
  | .cons _ v _ rest => max v.depth (Items.depth rest)

def Members.depth : Members → Nat
  | .nil => 0
  | .cons _ _ _ _ v _ rest => max v.depth (Members.depth rest)

end

/-- The members of an object, in order. -/
def Members.toList : Members → List (JStr × Json)
  | .nil => []
  | .cons _ key _ _ v _ rest => (key, v) :: Members.toList rest

/-- The items of an array of integers. -/
def Items.ints? : Items → Option (List Int)
  | .nil => some []
  | .cons _ (.num n) _ rest =>
      match n.int?, Items.ints? rest with
      | some v, some vs => some (v :: vs)
      | _, _ => none
  | .cons .. => none

/-- A comma, where something stands before. -/
def comma (first : Bool) : Bytes := if first then [] else [44]

mutual

def Json.render : Json → Bytes
  | .str s => JStr.render s
  | .num n => n.render
  | .word w => w.render
  | .arr pad items => 91 :: (pad.val ++ Items.render true items ++ [93])
  | .obj pad members => 123 :: (pad.val ++ Members.render true members ++ [125])

def Items.render (first : Bool) : Items → Bytes
  | .nil => []
  | .cons before v after rest => comma first ++ before.val ++ v.render ++ after.val ++ Items.render false rest

def Members.render (first : Bool) : Members → Bytes
  | .nil => []
  | .cons before key colon0 colon1 v after rest =>
      comma first ++ before.val ++ JStr.render key ++ colon0.val ++ [58] ++ colon1.val ++ v.render ++ after.val ++
        Members.render false rest

end

end LlmEngine.Lib.JsonText
