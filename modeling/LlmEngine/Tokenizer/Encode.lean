/-
# LlmEngine.Tokenizer.Encode — splitting, byte-mapping and merging (`src/tokenizer/bpe.c`).

A position in the text is the rest of the text from there on, so `next_fragment` gives a length where
the code gives an end.  The symbols of a fragment are spans of its byte-mapped buffer, as in the code:
merging lengthens one and drops the next.  `none` is the code's -1.

* `nextFragment` is the hand-written splitter, a rule for each first character; `spaceFragment` and `punctFragment` are
  two of its rules.
* `mergeFragment` joins the best pair until there is none, with the search of `Lib.PairMerge`; `emitPieces` looks the
  pieces up.
* `encodeLoop` takes the next special token and encodes the text in front of it, fragment by fragment; `engBpeEncode`
  is the call, with special tokens or without.

A capacity that is exhausted ends the encoding with -1, as does a piece that is no token.
-/
import LlmEngine.Lib.PairMerge
import LlmEngine.Tokenizer.Bpe

namespace LlmEngine.Tokenizer

open LlmEngine.Lib
open LlmEngine.Lib.LittleEndian

/-! ## Classes -/

/-- `is_letter`: every byte from 0x80 on counts as one. -/
def isLetter (c : UInt8) : Bool := (97 ≤ c && c ≤ 122) || (65 ≤ c && c ≤ 90) || 0x80 ≤ c

/-- `is_digit`. -/
def isDigit (c : UInt8) : Bool := 48 ≤ c && c ≤ 57

/-- `is_space`. -/
def isSpace (c : UInt8) : Bool :=
  c == 32 || c == 9 || c == 10 || c == 13 || c == 11 || c == 12

/-- `s[j] == '\r' || s[j] == '\n'`. -/
def isNewline (c : UInt8) : Bool := c == 13 || c == 10

/-- White space within a line. -/
def isBlank (c : UInt8) : Bool := isSpace c && !isNewline c

/-- Neither space nor letter nor digit. -/
def isPunct (c : UInt8) : Bool := !isSpace c && !isLetter c && !isDigit c

/-- `eng_bpe_ascii_exact`. -/
def engBpeAsciiExact (text : Bytes) : Bool := text.all (· < 0x80)

/-! ## One fragment -/

/-- How far a class reaches from the front: `while (j < n && p(s[j])) j++`. -/
def reach (p : UInt8 → Bool) (s : Bytes) : Nat := (s.takeWhile p).length

/-- The contractions, as the code tries them. -/
def contractions : List Bytes :=
  [ascii "s", ascii "t", ascii "m", ascii "d", ascii "re", ascii "ve", ascii "ll"]

/-- The length of the contraction that `s` starts with, in either case, behind the apostrophe. -/
def contractionAt (s : Bytes) : Option Nat :=
  (contractions.find? fun w => (s.take w.length).map (· ||| 0x20) == w).map (·.length)

/-- The whitespace rule, on a position where there is white space. -/
def spaceFragment (s : Bytes) : Nat :=
  let j := reach isBlank s
  let k := reach isNewline (s.drop j)
  if 0 < k then j + k
  else if j < s.length ∧ 1 < j then j - 1  -- the last one joins the next word
  else if 0 < j then j
  else 1

/-- The last two rules: punctuation with its newlines, then white space. -/
def punctFragment (c : UInt8) (rest : Bytes) : Nat :=
  let j := if c = 32 then 1 else 0
  let w := reach isPunct ((c :: rest).drop j)
  if (!isSpace c || (c == 32 && rest.head?.any (!isSpace ·))) ∧ 0 < w then
    j + w + reach isNewline ((c :: rest).drop (j + w))
  else if isSpace c then spaceFragment (c :: rest)
  else 1

/-- `next_fragment`: how long the fragment at the front of the text is. -/
def nextFragment : Bytes → Nat
  | [] => 0
  | c :: rest =>
      match if c = 39 then contractionAt rest else none with
      | some l => 1 + l
      | none =>
          -- an optional single byte that is neither letter, digit nor newline, then letters
          let j := if !isLetter c && !isDigit c && !isNewline c then 1 else 0
          let w := reach isLetter ((c :: rest).drop j)
          if 0 < w then j + w
          else if isDigit c then 1
          else punctFragment c rest

/-! ## Merging -/

/-- `Sym`: a piece of the fragment's buffer. -/
structure Sym where
  off : Nat
  len : Nat
  deriving DecidableEq, Repr

/-- `sym[best].len += sym[best + 1].len`. -/
def Sym.join (x y : Sym) : Sym := ⟨x.off, x.len + y.len⟩

def Sym.text (buf : Bytes) (x : Sym) : Bytes := (buf.drop x.off).take x.len

/-- The rank of a pair: that of the text the two make up in the buffer. -/
def symRank (b : EngBpe) (buf : Bytes) (x y : Sym) : Option Nat :=
  mapGet b.merge ((buf.drop x.off).take (x.len + y.len))

/-- The symbols of a fragment, one for each byte, from offset `w` on. -/
def symsOf : Nat → Bytes → List Sym
  | _, [] => []
  | w, c :: cs => ⟨w, (b2u c).length⟩ :: symsOf (w + (b2u c).length) cs

/-- The second loop of `merge_fragment`: the id of each piece, into a buffer of `cap` ids. -/
def emitPieces (b : EngBpe) (cap : Int) : List Bytes → List Nat → Option (List Nat)
  | [], out => some out
  | p :: ps, out =>
      if out.length ≥ cap then none
      else
        match mapGet b.vocab p with
        | none => none
        | some id => emitPieces b cap ps (out ++ [id])

/-- `merge_fragment`. -/
def mergeFragment (b : EngBpe) (cap : Int) (buf : Bytes) (syms : List Sym) (out : List Nat) :
    Option (List Nat) :=
  emitPieces b cap ((PairMerge.run Sym.join (symRank b buf) syms).map (Sym.text buf)) out

/-! ## Encoding -/

/-- The longest special token at the front; the first of equal length. -/
def specialAt (b : EngBpe) (s : Bytes) : Option (Nat × Nat) :=
  b.spec.foldl (fun best id =>
    let t := b.tok.getD id []
    if t.length ≤ (best.map Prod.snd).getD 0 then best
    else if t.isPrefixOf s then some (id, t.length)
    else best) none

/-- Where the next special token starts, `j` bytes from the outset, with its id and length. -/
def nextSpecial (b : EngBpe) : Bytes → Nat → Option (Nat × Nat × Nat)
  | [], _ => none
  | c :: rest, j =>
      match if b.specFirst c then specialAt b (c :: rest) else none with
      | some (id, l) => some (j, id, l)
      | none => nextSpecial b rest (j + 1)

/-- One fragment: its bytes are mapped and merged. -/
def encodeFragment (b : EngBpe) (cap : Int) (frag : Bytes) (out : List Nat) : Option (List Nat) :=
  if frag.length > 1024 then none
  else if (frag.flatMap b2u).length > 4096 then none
  else mergeFragment b cap (frag.flatMap b2u) (symsOf 0 frag) out

/-- The loop of `eng_bpe_encode` over the rest of the text.  Every round takes at least one byte, so
as many rounds as there are bytes are enough. -/
def encodeLoop (b : EngBpe) (cap : Int) (allowSpecial : Bool) :
    Nat → Bytes → List Nat → Option (List Nat)
  | _, [], out => some out
  | 0, _ :: _, _ => none
  | n + 1, c :: rest, out =>
      match if allowSpecial && !b.spec.isEmpty then nextSpecial b (c :: rest) 0 else none with
      | some (0, id, l) =>
          if out.length ≥ cap then none
          else encodeLoop b cap allowSpecial n ((c :: rest).drop l) (out ++ [id])
      | some (j + 1, _, _) =>
          -- the chunk of ordinary text before the special token
          let flen := nextFragment ((c :: rest).take (j + 1))
          match encodeFragment b cap (((c :: rest).take (j + 1)).take flen) out with
          | none => none
          | some out => encodeLoop b cap allowSpecial n ((c :: rest).drop flen) out
      | none =>
          let flen := nextFragment (c :: rest)
          match encodeFragment b cap ((c :: rest).take flen) out with
          | none => none
          | some out => encodeLoop b cap allowSpecial n ((c :: rest).drop flen) out

/-- `eng_bpe_encode` of a text passed with its length. -/
def engBpeEncode (b : EngBpe) (text : Bytes) (cap : Int) (allowSpecial : Bool) : Option (List Nat) :=
  encodeLoop b cap allowSpecial text.length text []

end LlmEngine.Tokenizer
