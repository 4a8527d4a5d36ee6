/-
# LlmEngine.Lib.Base64 — the standard base64 encoding.

Three bytes are four digits of six bits, most significant first.  One or two bytes at the end give two
or three digits, and an encoder may fill these up to four with the padding character.

    a b c   ↦   a/4,  (a % 4) · 16 + b/16,  (b % 16) · 4 + c/64,  c % 64

`digits` are the numbers, `encode` their letters of the alphabet, and `padding` what may follow.  This
is the meaning a decoder is measured by, written from the encoding itself; the decoder of the
repository, which takes any padding and skips nothing, is `Tokenizer.Ranks`.  Every group of three is
independent of the others, so facts about texts go by groups (`encode_group`).
-/
import LlmEngine.Lib.LittleEndian

namespace LlmEngine.Lib.Base64

open LlmEngine.Lib.LittleEndian

/-- `A` to `Z`, `a` to `z`, `0` to `9`, `+` and `/`. -/
def alphabet : Bytes :=
  (List.range 26).map (fun i => UInt8.ofNat (65 + i)) ++ (List.range 26).map (fun i => UInt8.ofNat (97 + i)) ++
    (List.range 10).map (fun i => UInt8.ofNat (48 + i)) ++ [43, 47]

/-- The character of a digit. -/
def letter (v : Nat) : UInt8 := alphabet.getD v 0

/-- The padding character. -/
def pad : UInt8 := 61

/-- The digits of a byte string. -/
def digits : Bytes → List Nat
  | [] => []
  | [a] => [a.toNat / 4, a.toNat % 4 * 16]
  | [a, b] => [a.toNat / 4, a.toNat % 4 * 16 + b.toNat / 16, b.toNat % 16 * 4]
  | a :: b :: c :: bs =>
      [a.toNat / 4, a.toNat % 4 * 16 + b.toNat / 16, b.toNat % 16 * 4 + c.toNat / 64, c.toNat % 64] ++ digits bs

/-- The encoding without padding. -/
def encode (bs : Bytes) : Bytes := (digits bs).map letter

/-- The padding that fills the last group. -/
def padding (bs : Bytes) : Bytes := List.replicate ((3 - bs.length % 3) % 3) pad

theorem encode_nil : encode [] = [] := rfl

theorem encode_group (a b c : UInt8) (bs : Bytes) :
    encode (a :: b :: c :: bs) =
      letter (a.toNat / 4) :: letter (a.toNat % 4 * 16 + b.toNat / 16) :: letter (b.toNat % 16 * 4 + c.toNat / 64) ::
        letter (c.toNat % 64) :: encode bs := rfl

end LlmEngine.Lib.Base64
