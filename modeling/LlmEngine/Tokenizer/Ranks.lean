/-
# LlmEngine.Tokenizer.Ranks — the rank lines of a tokenizer file (`src/tokenizer/k3_tok.h`).

A line of `tiktoken.model` is a token in base64, a space, and its rank.  `k3_b64` shifts every digit into
a 32-bit accumulator and never masks it: what is shifted out at the top has been written long before, and
the eight bits that are taken are among the lowest fourteen.

The file is the list of its bytes, followed by the NUL that `tk_read_file` puts there.

* `b64From_letter` is a round of the loop on a digit; `b64From_encode` is the induction over what was encoded, whatever
  the accumulator has been filled with before.
* `b64From_bad`: another character is an error, wherever it stands before the padding.
* `b64From_length`: what is written is no more than what was read, so no token overflows its buffer
  (`loadRanks_fits`).

`k3B64_exact` states the first two for every text and every padding.
-/
import LlmEngine.Lib.Base64
import LlmEngine.Lib.Int64
import LlmEngine.Tokenizer.Bpe
import Mathlib.Logic.Function.Basic

namespace LlmEngine.Tokenizer.Ranks

open LlmEngine.Lib
open LlmEngine.Lib.LittleEndian
open LlmEngine.Tokenizer (ascii)

/-! ## Base64 -/

/-- `A`. -/
def digitChars : Bytes := ascii "ABCDEFGHIJKLMNOPQRSTUVWXYZabcdefghijklmnopqrstuvwxyz0123456789+/"

/-- `static signed char t[256]`, filled. -/
def table : UInt8 → Int :=
  digitChars.zipIdx.foldl (fun t p => Function.update t p.1 (p.2 : Int)) fun _ => -1

/-- `(unsigned char)((acc >> bits) & 0xFF)` -/
def lowByte (acc : BitVec 32) (bits : Nat) : UInt8 := UInt8.ofNat (acc.sshiftRight bits &&& 0xFF).toNat

/-- The loop of `k3_b64`, as its return value and what it has written. -/
def b64From : Bytes → BitVec 32 → Nat → Bytes → Int × Bytes
  | [], _, _, out => (out.length, out)
  | c :: cs, acc, bits, out =>
      if c = 61 then (out.length, out)
      else
        let v := table c
        if v < 0 then (-1, out)
        else
          let acc := acc <<< 6 ||| BitVec.ofInt 32 v
          let bits := bits + 6
          if bits ≥ 8 then b64From cs acc (bits - 8) (out ++ [lowByte acc (bits - 8)])
          else b64From cs acc bits out

/-- `k3_b64`. -/
def k3B64 (s : Bytes) : Int × Bytes := b64From s 0 0 []

/-! ## Lines -/

/-- `K3_TOK_VOCAB`. -/
def k3TokVocab : Int := 163840

/-- `sizeof raw`. -/
def rawSize : Nat := 512

/-- A line of the file, as it is put into the vocabulary. -/
structure Rank where
  rank : Int
  raw : Bytes
  deriving DecidableEq

/-- Why `k3_tok_load` gives up on the ranks. -/
inductive TokFail
  /-- `%s: file too large (%ld bytes)` -/
  | tooLarge (n : Nat)
  /-- `k3_tok: tiktoken.model line %d has no rank field` -/
  | noRank (line : Nat)
  /-- `k3_tok: rank %d out of range at line %d` -/
  | outOfRange (rank : Int) (line : Nat)
  /-- `k3_tok: implausibly long token at rank %d` -/
  | tooLong (rank : Int)
  /-- `k3_tok: bad base64 at rank %d` -/
  | badBase64 (rank : Int)
  /-- `k3_tok: tiktoken.model is empty` -/
  | empty
  deriving DecidableEq

/-- `isspace` in the C locale. -/
def isSpaceChar (c : UInt8) : Bool := c == 32 || (9 ≤ c && c ≤ 13)

/-- `atoi`: the `int` of what `strtol` reads, which stays in a `long`. -/
def atoi (s : Bytes) : Int :=
  let s := s.dropWhile isSpaceChar
  let neg := s.head? = some 45
  let s := if s.head? = some 45 ∨ s.head? = some 43 then s.drop 1 else s
  let v := (s.takeWhile fun c => 48 ≤ c && c ≤ 57).foldl (fun a c => a * 10 + ((c.toNat : Int) - 48)) 0
  wrap32 (max (-2 ^ 63) (min (2 ^ 63 - 1) (if neg then -v else v)))

/-- The bytes of a line, `ls` to `le`. -/
def lineOf (buf : Bytes) : Bytes :=
  let line := buf.takeWhile (· ≠ 10)
  if line.getLast? = some 13 then line.dropLast else line

/-- What is left behind a line. -/
def afterLine (buf : Bytes) : Bytes := (buf.dropWhile (· ≠ 10)).drop 1

/-- The checks on a line before `k3_b64`: its rank, and the text to decode. -/
def rankText (nrank : Nat) (buf : Bytes) : Except TokFail (Int × Bytes) :=
  let text := (lineOf buf).takeWhile (· ≠ 32)
  if text.length ≥ (lineOf buf).length then .error (.noRank nrank)
  else
    let rank := atoi (buf.drop (text.length + 1))
    if rank < 0 ∨ rank ≥ k3TokVocab then .error (.outOfRange rank nrank)
    else if text.length > rawSize * 4 / 3 then .error (.tooLong rank)
    else .ok (rank, text)

/-- A line that is not blank. -/
def rankLine (nrank : Nat) (buf : Bytes) : Except TokFail Rank :=
  match rankText nrank buf with
  | .error e => .error e
  | .ok (rank, text) => if (k3B64 text).1 < 0 then .error (.badBase64 rank) else .ok ⟨rank, (k3B64 text).2⟩

/-- `while (i < nbuf)`. -/
def ranksFrom : Nat → Bytes → List Rank → Except TokFail (List Rank)
  | 0, _, ranks => .ok ranks
  | n + 1, buf, ranks =>
      if buf = [] then .ok ranks
      else if lineOf buf = [] then ranksFrom n (afterLine buf) ranks
      else
        match rankLine ranks.length buf with
        | .error e => .error e
        | .ok r => ranksFrom n (afterLine buf) (ranks ++ [r])

/-- The ranks of `k3_tok_load`, in the order of their lines. -/
def loadRanks (buf : Bytes) : Except TokFail (List Rank) :=
  if buf.length > 2 ^ 30 then .error (.tooLarge buf.length)
  else
    match ranksFrom buf.length buf [] with
    | .error e => .error e
    | .ok [] => .error .empty
    | .ok ranks => .ok ranks

/-! ## What a digit does -/

theorem digitChars_eq : digitChars = Base64.alphabet := by decide +kernel

theorem table_letter {v : Nat} (h : v < 64) : table (Base64.letter v) = v ∧ Base64.letter v ≠ 61 := by
  revert v
  decide +kernel

/-- A character outside the alphabet. -/
theorem table_other {c : UInt8} (h : c ∉ Base64.alphabet) : table c = -1 := by
  have hfold : ∀ (ps : List (UInt8 × Nat)) (t : UInt8 → Int), c ∉ ps.map Prod.fst →
      ps.foldl (fun t p => Function.update t p.1 (p.2 : Int)) t c = t c := by
    intro ps
    induction ps with
    | nil => exact fun t _ => rfl
    | cons p ps ih =>
        intro t hc
        rw [List.map_cons, List.mem_cons, not_or] at hc
        rw [List.foldl_cons, ih _ hc.2, Function.update_of_ne hc.1]
  refine hfold _ _ ?_
  rw [List.zipIdx_map_fst, digitChars_eq]
  exact h

/-- The bits that are taken, as a number: the shift brings no sign down to them. -/
theorem lowByte_eq (acc : BitVec 32) {k : Nat} (hk : k ≤ 24) : lowByte acc k = UInt8.ofNat (acc.toNat / 2 ^ k % 256) := by
  have hmask : ∀ i (hi : i < 32), 8 ≤ i → (0xFF : BitVec 32)[i] = false := by decide
  have hbits : acc.sshiftRight k &&& 0xFF = acc >>> k &&& 0xFF := by
    ext i hi
    simp only [BitVec.getElem_and, BitVec.getElem_sshiftRight, BitVec.getElem_ushiftRight]
    by_cases hlow : k + i < 32
    · rw [dif_pos hlow, BitVec.getLsbD_eq_getElem hlow]
    · rw [hmask i hi (by omega), Bool.and_false, Bool.and_false]
  unfold lowByte
  rw [hbits, BitVec.toNat_and, BitVec.toNat_ushiftRight, Nat.shiftRight_eq_div_pow]
  congr 1
  exact Nat.and_two_pow_sub_one_eq_mod _ 8

/-- A digit is shifted in from below. -/
theorem shift_in (acc : BitVec 32) {v : Nat} (h : v < 64) :
    (acc <<< 6 ||| BitVec.ofInt 32 v).toNat = (acc.toNat * 64 + v) % 2 ^ 32 := by
  have hlow : (acc.toNat <<< 6) % 2 ^ 32 = (acc.toNat % 2 ^ 26) <<< 6 := by
    rw [Nat.shiftLeft_eq, Nat.shiftLeft_eq]
    exact Nat.mul_mod_mul_right 64 acc.toNat (2 ^ 26)
  have hv : (BitVec.ofInt 32 v).toNat = v := by
    rw [BitVec.ofInt_natCast, BitVec.toNat_ofNat, Nat.mod_eq_of_lt (by omega)]
  rw [BitVec.toNat_or, BitVec.toNat_shiftLeft, hlow, hv, shift_or h]
  omega

/-- **A round on a digit**: the accumulator takes it, and eight bits are written once there are as many. -/
theorem b64From_letter {v : Nat} (hv : v < 64) (cs : Bytes) (acc : BitVec 32) (bits : Nat) (out : Bytes) :
    ∃ acc' : BitVec 32, acc'.toNat = (acc.toNat * 64 + v) % 2 ^ 32 ∧
      (bits < 2 → b64From (Base64.letter v :: cs) acc bits out = b64From cs acc' (bits + 6) out) ∧
      (2 ≤ bits → bits ≤ 26 → b64From (Base64.letter v :: cs) acc bits out =
        b64From cs acc' (bits - 2) (out ++ [UInt8.ofNat (acc'.toNat / 2 ^ (bits - 2) % 256)])) := by
  obtain ⟨htable, hpad⟩ := table_letter hv
  refine ⟨_, shift_in acc hv, fun hfew => ?_, fun hmany hmax => ?_⟩
  · rw [b64From, if_neg hpad, htable]
    simp only
    rw [if_neg (by omega), if_neg (by omega)]
  · rw [b64From, if_neg hpad, htable]
    simp only
    rw [if_neg (by omega), if_pos (by omega), lowByte_eq _ (by omega)]
    rfl

theorem byte_of {x : Nat} {a : UInt8} (h : x = a.toNat) : UInt8.ofNat x = a := by
  rw [h, UInt8.ofNat_toNat]

/-- The end of the text, or a padding character, ends the loop. -/
theorem b64From_end {tail : Bytes} (h : tail = [] ∨ ∃ t, tail = 61 :: t) (acc : BitVec 32) (bits : Nat) (out : Bytes) :
    b64From tail acc bits out = ((out.length : Int), out) := by
  rcases h with rfl | ⟨t, rfl⟩
  · rfl
  · rw [b64From, if_pos rfl]

/-- **Decoding gives back what was encoded**, whatever the accumulator has been filled with before. -/
theorem b64From_encode {tail : Bytes} (htail : tail = [] ∨ ∃ t, tail = 61 :: t) (bs : Bytes) :
    ∀ acc out, b64From (Base64.encode bs ++ tail) acc 0 out = (((out ++ bs).length : Int), out ++ bs) := by
  induction bs using Base64.digits.induct with
  | case1 =>
      intro acc out
      rw [Base64.encode_nil, List.nil_append, List.append_nil]
      exact b64From_end htail acc 0 out
  | case2 a =>
      intro acc out
      have ha := a.toNat_lt
      -- the second digit completes the byte; two bits are left over
      obtain ⟨acc1, h1, hfirst, -⟩ := b64From_letter (show a.toNat / 4 < 64 by omega)
        (Base64.letter (a.toNat % 4 * 16) :: tail) acc 0 out
      obtain ⟨acc2, h2, -, hsecond⟩ := b64From_letter (show a.toNat % 4 * 16 < 64 by omega) tail acc1 6 out
      have hbyte : UInt8.ofNat (acc2.toNat / 2 ^ 4 % 256) = a := byte_of (by omega)
      rw [show Base64.encode [a] ++ tail = Base64.letter (a.toNat / 4) :: Base64.letter (a.toNat % 4 * 16) :: tail from rfl,
        hfirst (by decide), hsecond (by decide) (by decide), hbyte, b64From_end htail]
  | case3 a b =>
      intro acc out
      have ha := a.toNat_lt
      have hb := b.toNat_lt
      -- three digits, two bytes; four bits and then two are left over
      obtain ⟨acc1, h1, hfirst, -⟩ := b64From_letter (show a.toNat / 4 < 64 by omega)
        (Base64.letter (a.toNat % 4 * 16 + b.toNat / 16) :: Base64.letter (b.toNat % 16 * 4) :: tail) acc 0 out
      obtain ⟨acc2, h2, -, hsecond⟩ := b64From_letter (show a.toNat % 4 * 16 + b.toNat / 16 < 64 by omega)
        (Base64.letter (b.toNat % 16 * 4) :: tail) acc1 6 out
      have hbyteA : UInt8.ofNat (acc2.toNat / 2 ^ 4 % 256) = a := byte_of (by omega)
      obtain ⟨acc3, h3, -, hthird⟩ := b64From_letter (show b.toNat % 16 * 4 < 64 by omega) tail acc2 4 (out ++ [a])
      have hbyteB : UInt8.ofNat (acc3.toNat / 2 ^ 2 % 256) = b := byte_of (by omega)
      rw [show Base64.encode [a, b] ++ tail = Base64.letter (a.toNat / 4) ::
          Base64.letter (a.toNat % 4 * 16 + b.toNat / 16) :: Base64.letter (b.toNat % 16 * 4) :: tail from rfl,
        hfirst (by decide), hsecond (by decide) (by decide), hbyteA, hthird (by decide) (by decide), hbyteB,
        b64From_end htail, List.append_assoc]
      rfl
  | case4 a b c bs ih =>
      intro acc out
      have ha := a.toNat_lt
      have hb := b.toNat_lt
      have hc := c.toNat_lt
      -- four digits, three bytes, and nothing is left over: the next group starts anew
      obtain ⟨acc1, h1, hfirst, -⟩ := b64From_letter (show a.toNat / 4 < 64 by omega)
        (Base64.letter (a.toNat % 4 * 16 + b.toNat / 16) :: Base64.letter (b.toNat % 16 * 4 + c.toNat / 64) ::
          Base64.letter (c.toNat % 64) :: (Base64.encode bs ++ tail)) acc 0 out
      obtain ⟨acc2, h2, -, hsecond⟩ := b64From_letter (show a.toNat % 4 * 16 + b.toNat / 16 < 64 by omega)
        (Base64.letter (b.toNat % 16 * 4 + c.toNat / 64) :: Base64.letter (c.toNat % 64) :: (Base64.encode bs ++ tail))
        acc1 6 out
      have hbyteA : UInt8.ofNat (acc2.toNat / 2 ^ 4 % 256) = a := byte_of (by omega)
      obtain ⟨acc3, h3, -, hthird⟩ := b64From_letter (show b.toNat % 16 * 4 + c.toNat / 64 < 64 by omega)
        (Base64.letter (c.toNat % 64) :: (Base64.encode bs ++ tail)) acc2 4 (out ++ [a])
      have hbyteB : UInt8.ofNat (acc3.toNat / 2 ^ 2 % 256) = b := byte_of (by omega)
      obtain ⟨acc4, h4, -, hfourth⟩ := b64From_letter (show c.toNat % 64 < 64 by omega) (Base64.encode bs ++ tail) acc3 2
        (out ++ [a] ++ [b])
      have hbyteC : UInt8.ofNat (acc4.toNat / 2 ^ 0 % 256) = c := byte_of (by omega)
      rw [Base64.encode_group, List.cons_append, List.cons_append, List.cons_append, List.cons_append, hfirst (by decide),
        hsecond (by decide) (by decide), hbyteA, hthird (by decide) (by decide), hbyteB, hfourth (by decide) (by decide),
        hbyteC, ih]
      simp only [List.append_assoc, List.cons_append, List.nil_append]

/-- **A character outside the alphabet is an error**, wherever it stands before the padding. -/
theorem b64From_bad {c : UInt8} (hpad : c ≠ 61) (hc : c ∉ Base64.alphabet) (post pre : Bytes) :
    ∀ acc bits out, 61 ∉ pre → (b64From (pre ++ c :: post) acc bits out).1 = -1 := by
  induction pre with
  | nil =>
      intro acc bits out _
      rw [List.nil_append, b64From, if_neg hpad, table_other hc]
      rfl
  | cons d pre ih =>
      intro acc bits out hpre
      rw [List.mem_cons, not_or] at hpre
      rw [List.cons_append, b64From, if_neg fun h => hpre.1 h.symm]
      simp only
      split_ifs
      · rfl
      · exact ih _ _ _ hpre.2
      · exact ih _ _ _ hpre.2

/-- **What is written is no more than the bits that were read.** -/
theorem b64From_length (s : Bytes) : ∀ acc bits out, bits < 8 →
    8 * (b64From s acc bits out).2.length ≤ 8 * out.length + bits + 6 * s.length := by
  induction s with
  | nil =>
      intro acc bits out _
      simp only [b64From]
      omega
  | cons c s ih =>
      intro acc bits out hbits
      rw [b64From, List.length_cons]
      simp only
      split_ifs with hpad hbad hmany
      · simp only
        omega
      · simp only
        omega
      · have hrest := ih (acc <<< 6 ||| BitVec.ofInt 32 (table c)) (bits + 6 - 8)
          (out ++ [lowByte (acc <<< 6 ||| BitVec.ofInt 32 (table c)) (bits + 6 - 8)]) (by omega)
        rw [List.length_append, List.length_singleton] at hrest
        omega
      · have hrest := ih (acc <<< 6 ||| BitVec.ofInt 32 (table c)) (bits + 6) out (by omega)
        omega

theorem k3B64_length (s : Bytes) : 8 * (k3B64 s).2.length ≤ 6 * s.length := by
  have h := b64From_length s 0 0 [] (by decide)
  rw [List.length_nil] at h
  unfold k3B64
  omega

/-! ## The lines of a file -/

/-- A text that has passed the checks decodes into the buffer, whether or not it is base64. -/
theorem rankText_fits {nrank : Nat} {buf text : Bytes} {rank : Int} (h : rankText nrank buf = .ok (rank, text)) :
    (k3B64 text).2.length ≤ rawSize := by
  have hlen := k3B64_length text
  unfold rankText rawSize at h
  simp only at h
  split_ifs at h with hno hrange hlong
  cases h
  unfold rawSize
  omega

/-- A line comes from a text that has passed them. -/
theorem rankLine_ok {nrank : Nat} {buf : Bytes} {r : Rank} (h : rankLine nrank buf = .ok r) :
    ∃ text, rankText nrank buf = .ok (r.rank, text) ∧ 0 ≤ (k3B64 text).1 ∧ r.raw = (k3B64 text).2 := by
  unfold rankLine at h
  cases htext : rankText nrank buf with
  | error e =>
      rw [htext] at h
      cases h
  | ok v =>
      rw [htext] at h
      simp only at h
      split_ifs at h with hbad
      cases h
      exact ⟨v.2, rfl, Int.not_lt.mp hbad, rfl⟩

/-- The lines of a file, as the loop comes to them: each is the decoding of a text that has passed the checks. -/
theorem ranksFrom_ok (n : Nat) : ∀ buf ranks all, ranksFrom n buf ranks = .ok all →
    ∃ more, all = ranks ++ more ∧
      ∀ r ∈ more, ∃ nrank rest text, rankText nrank rest = .ok (r.rank, text) ∧ r.raw = (k3B64 text).2 := by
  induction n with
  | zero =>
      intro buf ranks all h
      cases h
      exact ⟨[], (List.append_nil ranks).symm, nofun⟩
  | succ n ih =>
      intro buf ranks all h
      rw [ranksFrom] at h
      split_ifs at h
      · cases h
        exact ⟨[], (List.append_nil ranks).symm, nofun⟩
      · exact ih _ _ _ h
      · cases hline : rankLine ranks.length buf with
        | error e =>
            rw [hline] at h
            cases h
        | ok r =>
            rw [hline] at h
            obtain ⟨more, rfl, hmore⟩ := ih _ _ _ h
            obtain ⟨text, htext, -, hraw⟩ := rankLine_ok hline
            refine ⟨r :: more, List.append_assoc ranks [r] more, fun x hx => ?_⟩
            rcases List.mem_cons.mp hx with rfl | hmem
            · exact ⟨_, _, text, htext, hraw⟩
            · exact hmore x hmem

/-- **No token of a file overflows its buffer.** -/
theorem loadRanks_fits {buf : Bytes} {ranks : List Rank} (h : loadRanks buf = .ok ranks) :
    ∀ r ∈ ranks, r.raw.length ≤ rawSize := by
  have hrun : ranksFrom buf.length buf [] = .ok ranks := by
    unfold loadRanks at h
    split_ifs at h
    split at h
    · cases h
    · cases h
    · rename_i all hrun _
      cases h
      assumption
  obtain ⟨more, rfl, hmore⟩ := ranksFrom_ok _ _ _ _ hrun
  intro r hr
  obtain ⟨nrank, rest, text, htext, hraw⟩ := hmore r hr
  rw [hraw]
  exact rankText_fits htext

/-- **Base64 ranks decode exactly.**  `k3_b64` gives back what was encoded, padded or not, although its
accumulator overflows; a character outside the alphabet before the padding is an error; and what a line of a
file decodes to fits the buffer, whatever the line. -/
theorem k3B64_exact (b : Bytes) :
    k3B64 (Base64.encode b) = ((b.length : Int), b) ∧
      k3B64 (Base64.encode b ++ Base64.padding b) = ((b.length : Int), b) ∧
      (∀ (pre post : Bytes) (c : UInt8), 61 ∉ pre → c ≠ 61 → c ∉ Base64.alphabet → (k3B64 (pre ++ c :: post)).1 = -1) ∧
      (∀ (nrank : Nat) (buf text : Bytes) (rank : Int), rankText nrank buf = .ok (rank, text) →
        (k3B64 text).2.length ≤ rawSize) ∧
      ∀ (buf : Bytes) (ranks : List Rank), loadRanks buf = .ok ranks → ∀ r ∈ ranks, r.raw.length ≤ rawSize := by
  have hpadding : Base64.padding b = [] ∨ ∃ t, Base64.padding b = 61 :: t := by
    unfold Base64.padding
    cases (3 - b.length % 3) % 3 with
    | zero => exact .inl rfl
    | succ n => exact .inr ⟨_, List.replicate_succ⟩
  have hplain := b64From_encode (.inl rfl) b 0 []
  rw [List.append_nil, List.nil_append] at hplain
  have hpadded := b64From_encode hpadding b 0 []
  rw [List.nil_append] at hpadded
  exact ⟨hplain, hpadded, fun pre post c hpre hpad hc => b64From_bad hpad hc post pre 0 0 [] hpre,
    fun _ _ _ _ h => rankText_fits h, fun _ _ h => loadRanks_fits h⟩

/-- Four bytes: the second group is padded. -/
example : k3B64 (ascii "AP/+Cg==") = (4, [0, 255, 254, 10]) := by decide +kernel

end LlmEngine.Tokenizer.Ranks
