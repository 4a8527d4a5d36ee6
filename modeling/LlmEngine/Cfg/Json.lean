/-
# LlmEngine.Cfg.Json — the JSON parser (`third_party/json.h`).

A position in the text is what is left of it from there on, and behind it stands the NUL that a reader of a
file puts there: `*p->s` is the first byte, or 0.  `none` is a read behind that NUL.

The nodes are those of `k3_cfg_load`'s tree.  A string is what its readers see of it, up to a NUL; a double is
what `strtod` gives, which is a parameter: a value, and the number of characters it took.

The parser is layered as the source is: `jParseStrRaw` over `jStrLoop` and `jEscape` for strings, and `jValue` over
`jItems` and `jMembers`, which are given a reader for the values inside.  The depth is the recursion: `jParseVal` has
`J_MAX_DEPTH` levels, and a bracket below the last is a null.

It takes what it can and reports nothing: a text that is no JSON gives some tree.  What it makes of JSON is
`Cfg.JsonRead`, and that it stays inside any text that does not end behind a brace or a comma `Cfg.JsonBounds`.
-/
import LlmEngine.Bind.Index
import LlmEngine.Cfg.Load
import LlmEngine.Tokenizer.Ranks

namespace LlmEngine.Cfg

open LlmEngine.Bind (cStr)
open LlmEngine.Lib.LittleEndian
open LlmEngine.Tokenizer (ascii)
open LlmEngine.Tokenizer.Ranks (isSpaceChar)

/-- `*p->s`. -/
def peek (s : Bytes) : UInt8 := s.headD 0

/-- `j_ws`. -/
def jWs (s : Bytes) : Bytes := s.dropWhile isSpaceChar

/-! ## Strings -/

def isHexDigit (c : UInt8) : Bool := (48 ≤ c && c ≤ 57) || (65 ≤ c && c ≤ 70) || (97 ≤ c && c ≤ 102)

def hexDigit (c : UInt8) : Nat := if c ≤ 57 then c.toNat - 48 else if c ≤ 70 then c.toNat - 55 else c.toNat - 87

/-- `(unsigned)strtoul(s, NULL, 16)`, of few characters. -/
def strtoul16 (s : Bytes) : Nat :=
  let s := s.dropWhile isSpaceChar
  let neg := s.head? = some 45
  let s := if s.head? = some 45 ∨ s.head? = some 43 then s.drop 1 else s
  let prefixed := s.head? = some 48 ∧ (s.drop 1).head?.any (fun c => c == 120 || c == 88) ∧ (s.drop 2).head?.any isHexDigit
  let s := if prefixed then s.drop 2 else s
  let v := (s.takeWhile isHexDigit).foldl (fun a c => a * 16 + hexDigit c) 0
  (if neg then 2 ^ 32 - v % 2 ^ 32 else v) % 2 ^ 32

/-- A code point, put byte by byte. -/
def jUtf8 (cp : Nat) : Bytes :=
  if cp < 0x80 then [UInt8.ofNat cp]
  else if cp < 0x800 then [UInt8.ofNat (0xC0 ||| cp >>> 6), UInt8.ofNat (0x80 ||| cp &&& 0x3F)]
  else if cp < 0x10000 then
    [UInt8.ofNat (0xE0 ||| cp >>> 12), UInt8.ofNat (0x80 ||| cp >>> 6 &&& 0x3F), UInt8.ofNat (0x80 ||| cp &&& 0x3F)]
  else
    [UInt8.ofNat (0xF0 ||| cp >>> 18), UInt8.ofNat (0x80 ||| cp >>> 12 &&& 0x3F),
      UInt8.ofNat (0x80 ||| cp >>> 6 &&& 0x3F), UInt8.ofNat (0x80 ||| cp &&& 0x3F)]

/-- `p->s[0]` to `p->s[3]` are not the end. -/
def fourChars (s : Bytes) : Bool := (s.take 4).length == 4 && !(s.take 4).contains 0

/-- Behind a `\u`: what is put, and what is left. -/
def jUnicode (s : Bytes) : Bytes × Bytes :=
  if !fourChars s then ([63], s)
  else
    let cp := strtoul16 (s.take 4)
    let s := s.drop 4
    let lo := strtoul16 ((s.drop 2).take 4)
    if 0xD800 ≤ cp ∧ cp ≤ 0xDBFF ∧ s.take 2 = [92, 117] ∧ fourChars (s.drop 2) ∧ 0xDC00 ≤ lo ∧ lo ≤ 0xDFFF then
      (jUtf8 (0x10000 + ((cp - 0xD800) <<< 10) + (lo - 0xDC00)), s.drop 6)
    else (jUtf8 cp, s)

/-- `switch (e)`. -/
def jEscape (e : UInt8) (s : Bytes) : Bytes × Bytes :=
  if e = 110 then ([10], s)
  else if e = 116 then ([9], s)
  else if e = 114 then ([13], s)
  else if e = 98 then ([8], s)
  else if e = 102 then ([12], s)
  else if e = 117 then jUnicode s
  else ([e], s)

/-- `while (*p->s && *p->s != '"')`: what is put, and what is left.  Every round takes a character. -/
def jStrLoop : Nat → Bytes → Bytes × Bytes
  | n + 1, c :: s =>
      if c = 0 ∨ c = 34 then ([], c :: s)
      else
        let q := if c = 92 ∧ peek s ≠ 0 then jEscape (peek s) (s.drop 1) else ([c], s)
        let r := jStrLoop n q.2
        (q.1 ++ r.1, r.2)
  | _, s => ([], s)

/-- `j_parse_str_raw`.  What stands in front is stepped over, whatever it is. -/
def jParseStrRaw : Bytes → Option (Bytes × Bytes)
  | [] => none
  | _ :: s =>
      let q := jStrLoop s.length s
      some (cStr q.1, if peek q.2 = 34 then q.2.drop 1 else q.2)

/-! ## Values -/

section Value

variable {D : Type}

/-- What reads a value in front of the text. -/
abbrev ValueReader (D : Type) := Bytes → Option (JVal D × Bytes)

/-- The items of an array.  Every round but the last takes a comma. -/
def jItems (val : ValueReader D) : Nat → Bytes → Option (List (JVal D) × Bytes)
  | 0, _ => none
  | n + 1, s =>
      (val s).bind fun q =>
        let s := jWs q.2
        if peek s = 44 then (jItems val n (s.drop 1)).map fun r => (q.1 :: r.1, r.2)
        else some ([q.1], if peek s = 93 then s.drop 1 else s)

/-- The members of an object. -/
def jMembers (val : ValueReader D) : Nat → Bytes → Option (List (Bytes × JVal D) × Bytes)
  | 0, _ => none
  | n + 1, s =>
      (jParseStrRaw (jWs s)).bind fun k =>
        let s := jWs k.2
        (val (if peek s = 58 then s.drop 1 else s)).bind fun q =>
          let s := jWs q.2
          if peek s = 44 then (jMembers val n (s.drop 1)).map fun r => ((k.1, q.1) :: r.1, r.2)
          else some ([(k.1, q.1)], if peek s = 125 then s.drop 1 else s)

variable (strtod : Bytes → D × Nat)

/-- `j_parse_val`; `inner` reads the values inside, unless the text is nested too deep. -/
def jValue (inner : Option (ValueReader D)) (s : Bytes) : Option (JVal D × Bytes) :=
  let s := jWs s
  if peek s = 34 then (jParseStrRaw s).map fun q => (.str q.1, q.2)
  else if peek s = 123 then
    match inner with
    | none => some (.null, s)
    | some val =>
        let s := jWs (s.drop 1)
        if peek s = 125 then some (.obj [], s.drop 1)
        else (jMembers val (s.length + 1) s).map fun q => (.obj q.1, q.2)
  else if peek s = 91 then
    match inner with
    | none => some (.null, s)
    | some val =>
        let s := jWs (s.drop 1)
        if peek s = 93 then some (.arr [], s.drop 1)
        else (jItems val (s.length + 1) s).map fun q => (.arr q.1, q.2)
  else if s.take 4 = ascii "true" then some (.bool true, s.drop 4)
  else if s.take 5 = ascii "false" then some (.bool false, s.drop 5)
  else if s.take 4 = ascii "null" then some (.null, s.drop 4)
  else some (.num (strtod s).1, s.drop (strtod s).2)

/-- `J_MAX_DEPTH`. -/
def jMaxDepth : Nat := 1024

/-- `j_parse_val`, with so many levels left. -/
def jParseVal : Nat → ValueReader D
  | 0 => jValue strtod none
  | left + 1 => jValue strtod (some (jParseVal left))

/-- `json_parse`. -/
def jsonParse (text : Bytes) : Option (JVal D) := (jParseVal strtod jMaxDepth text).map Prod.fst

end Value

end LlmEngine.Cfg
