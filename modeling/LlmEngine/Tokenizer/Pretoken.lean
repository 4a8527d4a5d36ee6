/-
# LlmEngine.Tokenizer.Pretoken — the hand-written splitter against the qwen2 pattern.

On ASCII, `next_fragment` and the pattern take the same at every position but one kind: white space
that holds a newline, then blanks, then another newline.  The pattern's `\s*[\r\n]+` reaches the last
newline of the white space, the code stops behind the first run of newlines.  A text is split alike
exactly when no run of newlines is followed by blanks and another newline, unless the run comes
right behind punctuation, which takes it (`fragments_qwen2_iff`).

* `qwen2` is the pattern as a regular expression, of whose semantics (`Lib.Regex`) only the first match counts.
* One lemma for each alternative says what it takes: `first_contractionRx`, `first_wordRx`, `first_punctRx`,
  `first_breakRx`, `first_trailingRx`.
* `nextFragment_eq` writes the code as an ordered choice of the same rules, and `next_qwen2` the pattern; they differ
  in how far white space with a newline is taken.
* `fragments_qwen2_iff` carries this from one fragment to the whole text.

Texts are ASCII throughout.
-/
import LlmEngine.Lib.Regex
import LlmEngine.Tokenizer.Pieces
import Mathlib.Data.List.TakeWhile

namespace LlmEngine.Tokenizer

open LlmEngine.Lib
open LlmEngine.Lib.LittleEndian
open LlmEngine.Lib.Regex (Rx)

/-! ## The pattern -/

/-- `\p{L}`, on ASCII. -/
def pL (c : UInt8) : Bool := (97 ≤ c && c ≤ 122) || (65 ≤ c && c ≤ 90)

/-- `\p{N}`, on ASCII. -/
def pN (c : UInt8) : Bool := 48 ≤ c && c ≤ 57

/-- `\s`, on ASCII. -/
def ws (c : UInt8) : Bool := [32, 9, 10, 13, 11, 12].contains c

/-- `[\r\n]`. -/
def crlf (c : UInt8) : Bool := [13, 10].contains c

/-- A letter in either case. -/
def eitherCase (x : UInt8) : Rx UInt8 := .cls fun c => c == x || c == x - 32

/-- `(?i:'w)`. -/
def contraction (w : Bytes) : Rx UInt8 := w.foldl (fun r x => .seq r (eitherCase x)) (.cls (· == 39))

/-- `(?i:'s|'t|'re|'ve|'m|'ll|'d)`. -/
def contractionRx : Rx UInt8 :=
  .oneOf (contraction (ascii "s"))
    (["t", "re", "ve", "m", "ll", "d"].map fun w => contraction (ascii w))

/-- `[^\r\n\p{L}\p{N}]?\p{L}+`. -/
def wordRx : Rx UInt8 :=
  .seq (.opt (.cls fun c => !crlf c && !pL c && !pN c)) (.plus (.cls pL))

/-- ` ?[^\s\p{L}\p{N}]+[\r\n]*`. -/
def punctRx : Rx UInt8 :=
  .seq (.opt (.cls (· == 32)))
    (.seq (.plus (.cls fun c => !ws c && !pL c && !pN c)) (.many (.cls crlf)))

/-- `\s*[\r\n]+`. -/
def breakRx : Rx UInt8 := .seq (.many (.cls ws)) (.plus (.cls crlf))

/-- `\s+(?!\S)`. -/
def trailingRx : Rx UInt8 := .seq (.plus (.cls ws)) (.notAhead (.cls fun c => !ws c))

/-- The seven alternatives, in order. -/
def qwen2 : Rx UInt8 :=
  .oneOf contractionRx [wordRx, .cls pN, punctRx, breakRx, trailingRx, .plus (.cls ws)]

/-! ## Classes -/

section Classes

theorem ws_eq (c : UInt8) : ws c = isSpace c := by
  unfold ws isSpace
  simp only [List.contains_cons, List.contains_nil, Bool.or_false, Bool.or_assoc]

theorem crlf_eq (c : UInt8) : crlf c = isNewline c := by
  unfold crlf isNewline
  simp only [List.contains_cons, List.contains_nil, Bool.or_false]

theorem pL_eq {c : UInt8} (hc : c < 0x80) : pL c = isLetter c := by
  unfold pL isLetter
  have hge : ¬ (0x80 : UInt8) ≤ c := UInt8.not_le.mpr hc
  simp [hge]

theorem punct_eq {c : UInt8} (hc : c < 0x80) : (!ws c && !pL c && !pN c) = isPunct c := by
  rw [ws_eq, pL_eq hc]
  rfl

/-- A class reads alike wherever it agrees. -/
theorem reach_congr {p q : UInt8 → Bool} (s : Bytes) (h : ∀ c ∈ s, p c = q c) :
    reach p s = reach q s := by
  unfold reach
  induction s with
  | nil => rfl
  | cons c cs ih =>
      rw [List.takeWhile_cons, List.takeWhile_cons, h c List.mem_cons_self]
      split_ifs
      · rw [List.length_cons, List.length_cons, ih fun d hd => h d (List.mem_cons_of_mem c hd)]
      · rfl

end Classes

/-! ## Contractions -/

/-- Setting the case bit, and asking for either case. -/
theorem caseBit {x : UInt8} (hx : x ∈ ascii "stmdrevl") (c : UInt8) :
    (c ||| 0x20 == x) = (c == x || c == x - 32) := by
  have hnat : ∀ n < 256, ∀ k ∈ [115, 116, 109, 100, 114, 101, 118, 108], n ||| 32 = k ↔ n = k ∨ n = k - 32 := by
    decide +kernel
  have hletter : ∀ x ∈ ascii "stmdrevl", x.toNat ∈ [115, 116, 109, 100, 114, 101, 118, 108] ∧ 32 ≤ x := by
    decide +kernel
  obtain ⟨hmem, hle⟩ := hletter x hx
  rw [Bool.eq_iff_iff, Bool.or_eq_true, beq_iff_eq, beq_iff_eq, beq_iff_eq, ← UInt8.toNat_inj, ← UInt8.toNat_inj,
    ← UInt8.toNat_inj, UInt8.toNat_or, UInt8.toNat_sub_of_le _ _ hle]
  exact hnat c.toNat c.toNat_lt x.toNat hmem

/-- A contraction of one letter. -/
theorem first_one {x : UInt8} (hx : x ∈ ascii "stmdrevl") (rest : Bytes) :
    Regex.first (contraction [x]) (39 :: rest) =
      if rest.head?.any (· ||| 0x20 == x) then some 2 else none := by
  cases rest with
  | nil => rfl
  | cons c cs =>
      simp only [Regex.first, contraction, eitherCase, List.foldl_cons, List.foldl_nil,
        Regex.ways_seq_cls_cons, Regex.ways_cls_cons, List.head?_cons, Option.any_some, caseBit hx]
      split_ifs <;> simp_all

theorem first_two {x y : UInt8} (hx : x ∈ ascii "stmdrevl") (hy : y ∈ ascii "stmdrevl")
    (rest : Bytes) : Regex.first (contraction [x, y]) (39 :: rest) =
      if rest.head?.any (· ||| 0x20 == x) ∧ rest.tail.head?.any (· ||| 0x20 == y) then some 3
      else none := by
  have hinner : Regex.ways (contraction [x, y]) (39 :: rest) =
      (Regex.ways (contraction [x]) (39 :: rest)).flatMap fun k =>
        (Regex.ways (eitherCase y) ((39 :: rest).drop k)).map (k + ·) := rfl
  unfold Regex.first
  rw [hinner]
  rcases rest with _ | ⟨c, _ | ⟨d, ds⟩⟩
  · rfl
  · simp only [contraction, eitherCase, List.foldl_cons, List.foldl_nil,
      Regex.ways_seq_cls_cons, Regex.ways_cls_cons, List.head?_cons, Option.any_some, caseBit hx]
    split_ifs <;> simp_all
  · simp only [contraction, eitherCase, List.foldl_cons, List.foldl_nil, List.tail_cons,
      Regex.ways_seq_cls_cons, Regex.ways_cls_cons, List.head?_cons, Option.any_some, caseBit hx,
      caseBit hy]
    split_ifs <;> simp_all

/-- Without the apostrophe there is no contraction. -/
theorem ways_contraction_ne {c : UInt8} (hc : c ≠ 39) (w rest : Bytes) :
    Regex.ways (contraction w) (c :: rest) = [] := by
  have hfold : ∀ (w : Bytes) (r : Rx UInt8), Regex.ways r (c :: rest) = [] →
      Regex.ways (w.foldl (fun r x => .seq r (eitherCase x)) r) (c :: rest) = [] := by
    intro w
    induction w with
    | nil => exact fun r h => h
    | cons x xs ih =>
        intro r h
        exact ih _ (by rw [Regex.ways, h]; rfl)
  exact hfold w _ (by simp [hc])

/-- The code's list, in the pattern's order: no two entries start alike. -/
theorem contractionAt_eq (rest : Bytes) : (contractionAt rest).map (1 + ·) =
    (if rest.head?.any (· ||| 0x20 == 115) then some 2 else none).or
      ((if rest.head?.any (· ||| 0x20 == 116) then some 2 else none).or
        ((if rest.head?.any (· ||| 0x20 == 114) ∧ rest.tail.head?.any (· ||| 0x20 == 101) then some 3
            else none).or
          ((if rest.head?.any (· ||| 0x20 == 118) ∧ rest.tail.head?.any (· ||| 0x20 == 101) then
              some 3 else none).or
            ((if rest.head?.any (· ||| 0x20 == 109) then some 2 else none).or
              ((if rest.head?.any (· ||| 0x20 == 108) ∧ rest.tail.head?.any (· ||| 0x20 == 108) then
                  some 3 else none).or
                (if rest.head?.any (· ||| 0x20 == 100) then some 2 else none)))))) := by
  have hlist : contractions = [[115], [116], [109], [100], [114, 101], [118, 101], [108, 108]] := rfl
  have hfirst : ∀ u : UInt8, u = 115 ∨ u = 116 ∨ u = 109 ∨ u = 100 ∨ u = 114 ∨ u = 118 ∨ u = 108 ∨
      (u ≠ 115 ∧ u ≠ 116 ∧ u ≠ 109 ∧ u ≠ 100 ∧ u ≠ 114 ∧ u ≠ 118 ∧ u ≠ 108) := by
    intro u
    tauto
  unfold contractionAt
  rw [hlist]
  rcases rest with _ | ⟨c, _ | ⟨d, ds⟩⟩
  · rfl
  · rcases hfirst (c ||| 0x20) with h | h | h | h | h | h | h | ⟨h₁, h₂, h₃, h₄, h₅, h₆, h₇⟩
    all_goals simp_all
  · rcases hfirst (c ||| 0x20) with h | h | h | h | h | h | h | ⟨h₁, h₂, h₃, h₄, h₅, h₆, h₇⟩
    -- a second letter matters behind `r`, `v` and `l` only
    case inr.inr.inr.inr.inl => by_cases hd : d ||| 0x20 = 101 <;> simp [h, hd]
    case inr.inr.inr.inr.inr.inl => by_cases hd : d ||| 0x20 = 101 <;> simp [h, hd]
    case inr.inr.inr.inr.inr.inr.inl => by_cases hd : d ||| 0x20 = 108 <;> simp [h, hd]
    all_goals simp_all

theorem first_contractionRx (c : UInt8) (rest : Bytes) : Regex.first contractionRx (c :: rest) =
    if c = 39 then (contractionAt rest).map (1 + ·) else none := by
  by_cases hc : c = 39
  · subst hc
    simp only [contractionRx, Rx.oneOf, List.map_cons, List.map_nil, Regex.first_alt]
    rw [show ascii "s" = [115] from rfl, show ascii "t" = [116] from rfl,
      show ascii "re" = [114, 101] from rfl, show ascii "ve" = [118, 101] from rfl,
      show ascii "m" = [109] from rfl, show ascii "ll" = [108, 108] from rfl,
      show ascii "d" = [100] from rfl,
      first_one (by decide), first_one (by decide), first_two (by decide) (by decide),
      first_two (by decide) (by decide), first_one (by decide), first_two (by decide) (by decide),
      first_one (by decide)]
    simp only [if_true]
    exact (contractionAt_eq rest).symm
  · rw [if_neg hc]
    simp [contractionRx, Rx.oneOf, Regex.first, Regex.ways, ways_contraction_ne hc]

/-! ## Words and punctuation -/

section Rules

variable {c : UInt8} {rest : Bytes}

/-- The word rule of the code. -/
def wordAt (c : UInt8) (rest : Bytes) : Option Nat :=
  let j := if !isLetter c && !isDigit c && !isNewline c then 1 else 0
  let w := reach isLetter ((c :: rest).drop j)
  if 0 < w then some (j + w) else none

/-- The punctuation rule of the code. -/
def punctAt (c : UInt8) (rest : Bytes) : Option Nat :=
  let j := if c = 32 then 1 else 0
  let w := reach isPunct ((c :: rest).drop j)
  if 0 < w then some (j + w + reach isNewline ((c :: rest).drop (j + w))) else none

/-- The rules that come before white space: contractions, words, digits, punctuation. -/
def ruleAt (c : UInt8) (rest : Bytes) : Option Nat :=
  (if c = 39 then (contractionAt rest).map (1 + ·) else none).or ((wordAt c rest).or
    ((if isDigit c then some 1 else none).or (punctAt c rest)))

/-- A class reaches somewhere if it has the first symbol. -/
theorem reach_pos {p : UInt8 → Bool} {s : Bytes} : 0 < reach p s ↔ s.head?.any p := by
  unfold reach
  cases s with
  | nil => simp
  | cons c cs =>
      rw [List.takeWhile_cons]
      split_ifs with hc <;> simp [hc]

theorem reach_cons_neg {p : UInt8 → Bool} (h : p c = false) : reach p (c :: rest) = 0 := by
  unfold reach
  simp [h]

/-- The code's test before the punctuation rule adds nothing to the run it looks for. -/
theorem punct_test (h : 0 < reach isPunct ((c :: rest).drop (if c = 32 then 1 else 0))) :
    (!isSpace c || (c == 32 && rest.head?.any (!isSpace ·))) = true := by
  rw [reach_pos] at h
  by_cases hc : c = 32
  · rw [if_pos hc, List.drop_one, List.tail_cons] at h
    cases rest with
    | nil => exact absurd h (by simp)
    | cons d ds =>
        simp only [List.head?_cons, Option.any_some, isPunct, Bool.and_eq_true] at h
        simp [hc, h.1.1]
  · rw [if_neg hc] at h
    simp only [List.drop_zero, List.head?_cons, Option.any_some, isPunct, Bool.and_eq_true] at h
    simp [h.1.1]

theorem punctFragment_eq : punctFragment c rest =
    (punctAt c rest).getD (if isSpace c then spaceFragment (c :: rest) else 1) := by
  unfold punctFragment punctAt
  simp only
  by_cases hw : 0 < reach isPunct ((c :: rest).drop (if c = 32 then 1 else 0))
  · rw [if_pos hw, if_pos ⟨punct_test hw, hw⟩]
    rfl
  · rw [if_neg hw, if_neg fun h => hw h.2]
    rfl

/-- **`next_fragment` as ordered choice.** -/
theorem nextFragment_eq : nextFragment (c :: rest) =
    (ruleAt c rest).getD (if isSpace c then spaceFragment (c :: rest) else 1) := by
  rw [nextFragment, ruleAt]
  cases hcon : (if c = 39 then contractionAt rest else none) with
  | some l =>
      split_ifs at hcon with hc
      simp [hc, hcon]
  | none =>
      have hnone : (if c = 39 then (contractionAt rest).map (1 + ·) else none) = none := by
        split_ifs at hcon ⊢ with hc
        · rw [hcon]
          rfl
        · rfl
      rw [hnone, Option.none_or, punctFragment_eq]
      simp only [wordAt]
      split_ifs <;> rfl

/-- The pattern's optional lead is the code's. -/
theorem first_wordRx (hs : ∀ d ∈ c :: rest, d < 0x80) :
    Regex.first wordRx (c :: rest) = wordAt c rest := by
  have hc : c < 0x80 := hs c List.mem_cons_self
  have hplus : ∀ s : Bytes, (∀ d ∈ s, d < 0x80) → Regex.first (.plus (.cls pL)) s =
      if 0 < reach isLetter s then some (reach isLetter s) else none := by
    intro s hs
    rw [Regex.first_plus_cls]
    show (if 0 < reach pL s then some (reach pL s) else none) = _
    rw [reach_congr s fun d hd => pL_eq (hs d hd)]
  have hlead : (!crlf c && !pL c && !pN c) = (!isLetter c && !isDigit c && !isNewline c) := by
    rw [crlf_eq, pL_eq hc]
    show (!isNewline c && !isLetter c && !isDigit c) = _
    cases isNewline c <;> cases isLetter c <;> cases isDigit c <;> rfl
  unfold wordRx wordAt
  rw [Regex.first_seq_opt_cls, Regex.first_seq_cls_cons, hplus _ hs,
    hplus rest fun d hd => hs d (List.mem_cons_of_mem c hd), hlead]
  by_cases hl : (!isLetter c && !isDigit c && !isNewline c) = true
  · have hnot : isLetter c = false := by
      simp only [Bool.and_eq_true, Bool.not_eq_true'] at hl
      exact hl.1.1
    simp only [hl, if_true, List.drop_one, List.tail_cons, reach_cons_neg hnot, Nat.lt_irrefl, if_false,
      Option.or_none]
    split_ifs <;> rfl
  · simp only [hl, Bool.false_eq_true, if_false, List.drop_zero, Option.none_or, Nat.zero_add]

theorem first_punctRx (hs : ∀ d ∈ c :: rest, d < 0x80) :
    Regex.first punctRx (c :: rest) = punctAt c rest := by
  have hrun : ∀ s : Bytes, (∀ d ∈ s, d < 0x80) → Regex.first (.seq
      (.plus (.cls fun c => !ws c && !pL c && !pN c)) (.many (.cls crlf))) s =
      if 0 < reach isPunct s then some (reach isPunct s + reach isNewline (s.drop (reach isPunct s)))
      else none := by
    intro s hs
    have hnl : ∀ t : Bytes, Regex.reach crlf t = reach isNewline t := fun t =>
      reach_congr t fun d _ => crlf_eq d
    have hpunct : Regex.reach (fun c => !ws c && !pL c && !pN c) s = reach isPunct s :=
      reach_congr s fun d hd => punct_eq (hs d hd)
    rw [Regex.first_seq Regex.ways_many_cls_ne_nil, Regex.first_plus_cls, hpunct]
    split_ifs
    · rw [Option.bind_some, Regex.first_many_cls, hnl]
      rfl
    · rfl
  unfold punctRx punctAt
  rw [Regex.first_seq_opt_cls, Regex.first_seq_cls_cons, hrun _ hs,
    hrun rest fun d hd => hs d (List.mem_cons_of_mem c hd)]
  by_cases hsp : c = 32
  · have hnot : isPunct c = false := by
      subst hsp
      rfl
    simp only [hsp, beq_self_eq_true, if_true, List.drop_one, List.tail_cons]
    rw [← hsp, reach_cons_neg hnot]
    simp only [Nat.lt_irrefl, if_false, Option.or_none]
    split_ifs
    · rw [Option.map_some, Nat.add_comm 1 (reach isPunct rest), List.drop_succ_cons]
      congr 1
      omega
    · rfl
  · simp [hsp]

end Rules

/-! ## White space -/

section Spaces

/-- How far the last newline of the white space at the front reaches. -/
def lastBreak : Bytes → Option Nat
  | [] => none
  | c :: cs =>
      if isSpace c then
        match lastBreak cs with
        | some n => some (1 + n)
        | none => if isNewline c then some 1 else none
      else none

theorem isSpace_of_newline {c : UInt8} (h : isNewline c = true) : isSpace c = true := by
  unfold isNewline at h
  unfold isSpace
  simp only [Bool.or_eq_true] at h ⊢
  tauto

/-- Without a newline in the white space there is none at its front. -/
theorem reach_newline_of_lastBreak {s : Bytes} (h : lastBreak s = none) : reach isNewline s = 0 := by
  cases s with
  | nil => rfl
  | cons c cs =>
      apply reach_cons_neg
      rw [lastBreak] at h
      by_contra hnl
      rw [Bool.not_eq_false] at hnl
      rw [if_pos (isSpace_of_newline hnl)] at h
      cases hcs : lastBreak cs with
      | none => simp [hcs, hnl] at h
      | some n => simp [hcs] at h

/-- **`\s*[\r\n]+` takes the white space up to its last newline.** -/
theorem first_breakRx (s : Bytes) : Regex.first breakRx s = lastBreak s := by
  have hnl : ∀ t : Bytes, Regex.reach crlf t = reach isNewline t := fun t =>
    reach_congr t fun d _ => crlf_eq d
  induction s with
  | nil => rfl
  | cons c cs ih =>
      unfold Regex.first breakRx at ih ⊢
      rw [Regex.ways_seq_many_cls_cons, List.head?_append]
      have hplus : (Regex.ways (.plus (.cls crlf)) (c :: cs)).head? =
          if 0 < reach isNewline (c :: cs) then some (reach isNewline (c :: cs)) else none := by
        have h := Regex.first_plus_cls (p := crlf) (c :: cs)
        rw [hnl] at h
        exact h
      rw [hplus, lastBreak, ws_eq]
      by_cases hsp : isSpace c = true
      · rw [if_pos hsp, if_pos hsp, List.head?_map, ih]
        cases hcs : lastBreak cs with
        | some n => rfl
        | none =>
            -- the newline that is taken is the last one
            have hzero := reach_newline_of_lastBreak hcs
            unfold reach at hzero ⊢
            simp only [Option.map_none, Option.none_or, List.takeWhile_cons]
            split_ifs with hnl <;> simp_all
      · have hnl : isNewline c = false := by
          rw [Bool.eq_false_iff]
          exact fun h => hsp (isSpace_of_newline h)
        rw [if_neg hsp, if_neg hsp, reach_cons_neg hnl]
        rfl

/-- **`\s+(?!\S)` leaves the last blank to a word behind it.** -/
theorem first_trailingRx {c : UInt8} (hc : isSpace c = true) (cs : Bytes) :
    Regex.first trailingRx (c :: cs) =
      if reach isSpace cs = cs.length then some (1 + cs.length)
      else if 0 < reach isSpace cs then some (reach isSpace cs) else none := by
  have hmany : ∀ s : Bytes,
      (Regex.ways (.seq (.many (.cls ws)) (.notAhead (.cls fun c => !ws c))) s).head? =
        if reach isSpace s = s.length then some s.length
        else if 0 < reach isSpace s then some (reach isSpace s - 1) else none := by
    intro s
    induction s with
    | nil => rfl
    | cons d ds ih =>
        have hahead : Regex.ways (.notAhead (.cls fun c => !ws c)) (d :: ds) =
            if isSpace d then [0] else [] := by
          rw [Regex.ways, Regex.ways_cls_cons, ws_eq]
          cases isSpace d <;> rfl
        rw [Regex.ways_seq_many_cls_cons, List.head?_append, ws_eq, hahead]
        by_cases hd : isSpace d = true
        · have hreach : reach isSpace (d :: ds) = reach isSpace ds + 1 := by simp [reach, hd]
          rw [if_pos hd, if_pos hd, List.head?_map, ih, hreach, List.length_cons]
          split_ifs <;> simp <;> omega
        · rw [Bool.not_eq_true] at hd
          rw [reach_cons_neg hd]
          simp [hd]
  unfold Regex.first trailingRx Rx.plus
  rw [Regex.ways_seq_assoc, Regex.ways_seq_cls_cons, ws_eq, if_pos hc, List.head?_map, hmany]
  split_ifs <;> simp
  omega

theorem reach_blank_of_lastBreak (s : Bytes) (h : lastBreak s = none) :
    reach isBlank s = reach isSpace s := by
  induction s with
  | nil => rfl
  | cons c cs ih =>
      rw [lastBreak] at h
      by_cases hc : isSpace c = true
      · rw [if_pos hc] at h
        cases hcs : lastBreak cs with
        | some n => simp [hcs] at h
        | none =>
            have hnl : isNewline c = false := by simpa [hcs] using h
            have hrec := ih hcs
            unfold reach at hrec ⊢
            simp [isBlank, hc, hnl, hrec]
      · rw [Bool.not_eq_true] at hc
        rw [reach_cons_neg hc, reach_cons_neg (by simp [isBlank, hc])]

/-- What a class reaches, and what is left of it. -/
theorem take_reach (p : UInt8 → Bool) (s : Bytes) : s.take (reach p s) = s.takeWhile p := by
  unfold reach
  conv_lhs => rw [← List.takeWhile_append_dropWhile (p := p) (l := s)]
  rw [List.take_left' (by rw [List.takeWhile_append_dropWhile])]

theorem drop_reach (p : UInt8 → Bool) (s : Bytes) : s.drop (reach p s) = s.dropWhile p := by
  unfold reach
  conv_lhs => rw [← List.takeWhile_append_dropWhile (p := p) (l := s)]
  rw [List.drop_left' (by rw [List.takeWhile_append_dropWhile])]

theorem head_drop_reach (p : UInt8 → Bool) (s : Bytes) : (s.drop (reach p s)).head?.any p = false := by
  rw [drop_reach]
  cases hd : (s.dropWhile p).head? with
  | none => rfl
  | some c =>
      have := List.head?_dropWhile_not p s
      rw [hd] at this
      simpa using this

/-- **White space without a newline** is taken alike. -/
theorem trailing_eq {c : UInt8} (hc : isSpace c = true) (cs : Bytes) (h : lastBreak (c :: cs) = none) :
    (Regex.first trailingRx (c :: cs)).or (Regex.first (.plus (.cls ws)) (c :: cs)) =
      some (spaceFragment (c :: cs)) := by
  have hws : Regex.first (.plus (.cls ws)) (c :: cs) =
      if 0 < reach isSpace (c :: cs) then some (reach isSpace (c :: cs)) else none := by
    have hreach : Regex.reach ws (c :: cs) = reach isSpace (c :: cs) :=
      reach_congr _ fun d _ => ws_eq d
    rw [Regex.first_plus_cls, hreach]
  have hreach : reach isSpace (c :: cs) = reach isSpace cs + 1 := by simp [reach, hc]
  have hle := reach_le isSpace cs
  have hnone : reach isNewline ((c :: cs).drop (reach isSpace (c :: cs))) = 0 := by
    have hhead := head_drop_reach isSpace (c :: cs)
    by_contra hne
    have hnl := reach_pos.mp (Nat.pos_of_ne_zero hne)
    cases hd : (c :: cs).drop (reach isSpace (c :: cs)) with
    | nil => simp [hd] at hnl
    | cons d ds =>
        rw [hd] at hnl hhead
        simp only [List.head?_cons, Option.any_some] at hnl hhead
        rw [isSpace_of_newline hnl] at hhead
        exact absurd hhead (by simp)
  unfold spaceFragment
  rw [first_trailingRx hc, hws]
  simp only
  rw [reach_blank_of_lastBreak _ h, hnone, hreach, List.length_cons]
  simp only [Nat.lt_irrefl, if_false]
  split_ifs <;> simp <;> omega

theorem lastBreak_newline {c : UInt8} (hc : isNewline c = true) (cs : Bytes) :
    lastBreak (c :: cs) = some (1 + (lastBreak cs).getD 0) := by
  rw [lastBreak, if_pos (isSpace_of_newline hc)]
  cases lastBreak cs with
  | none => simp [hc]
  | some n => rfl

theorem lastBreak_blank {c : UInt8} (hc : isBlank c = true) (cs : Bytes) :
    lastBreak (c :: cs) = (lastBreak cs).map (1 + ·) := by
  obtain ⟨hsp, hnl⟩ : isSpace c = true ∧ isNewline c = false := by simpa [isBlank] using hc
  rw [lastBreak, if_pos hsp]
  cases lastBreak cs with
  | none => simp [hnl]
  | some n => rfl

theorem lastBreak_newlines (s : Bytes) : (lastBreak s).getD 0 =
    reach isNewline s + (lastBreak (s.drop (reach isNewline s))).getD 0 := by
  induction s with
  | nil => rfl
  | cons c cs ih =>
      by_cases hc : isNewline c = true
      · have hreach : reach isNewline (c :: cs) = reach isNewline cs + 1 := by simp [reach, hc]
        rw [lastBreak_newline hc, Option.getD_some, ih, hreach, List.drop_succ_cons]
        omega
      · rw [Bool.not_eq_true] at hc
        rw [reach_cons_neg hc]
        simp

/-- Blanks, then the newlines at once, then what the break goes on to. -/
theorem lastBreak_blanks (s : Bytes) : lastBreak s =
    if 0 < reach isNewline (s.drop (reach isBlank s)) then
      some (reach isBlank s + reach isNewline (s.drop (reach isBlank s)) +
        (lastBreak (s.drop (reach isBlank s + reach isNewline (s.drop (reach isBlank s))))).getD 0)
    else none := by
  induction s with
  | nil => rfl
  | cons c cs ih =>
      by_cases hb : isBlank c = true
      · have hreach : reach isBlank (c :: cs) = reach isBlank cs + 1 := by simp [reach, hb]
        rw [lastBreak_blank hb, ih, hreach, List.drop_succ_cons, Nat.add_right_comm _ 1,
          List.drop_succ_cons]
        split_ifs
        · rw [Option.map_some]
          congr 1
          omega
        · rfl
      · rw [Bool.not_eq_true] at hb
        rw [reach_cons_neg hb, List.drop_zero]
        by_cases hc : isNewline c = true
        · have hreach : reach isNewline (c :: cs) = reach isNewline cs + 1 := by simp [reach, hc]
          rw [lastBreak_newline hc, lastBreak_newlines cs, hreach, if_pos (Nat.succ_pos _),
            Nat.zero_add, List.drop_succ_cons]
          congr 1
          omega
        · -- no white space at all
          rw [Bool.not_eq_true] at hc
          have hsp : isSpace c = false := by simpa [isBlank, hc] using hb
          rw [reach_cons_neg hc, lastBreak]
          simp [hsp]

theorem lastBreak_pos {s : Bytes} {n : Nat} (h : lastBreak s = some n) : 0 < n := by
  rw [lastBreak_blanks] at h
  split_ifs at h
  have := Option.some.inj h
  omega

/-- A rule applies to everything but white space. -/
theorem ruleAt_of_not_space {c : UInt8} (hc : isSpace c = false) (rest : Bytes) :
    ruleAt c rest ≠ none := by
  unfold ruleAt
  rw [Ne, Option.or_eq_none_iff, Option.or_eq_none_iff, Option.or_eq_none_iff]
  rintro ⟨-, hword, hdigit, hpunct⟩
  have hd : isDigit c = false := by simpa using hdigit
  by_cases hl : isLetter c = true
  · have hpos : 0 < reach isLetter (c :: rest) := reach_pos.mpr (by simpa using hl)
    simp [wordAt, hl, hpos] at hword
  · have hp : isPunct c = true := by
      rw [Bool.not_eq_true] at hl
      simp [isPunct, hc, hd, hl]
    have hne : c ≠ 32 := by
      rintro rfl
      exact absurd hc (by decide)
    have hpos : 0 < reach isPunct (c :: rest) := reach_pos.mpr (by simpa using hp)
    simp [punctAt, hne, hpos] at hpunct

/-- **What the pattern takes**: the same rules, and white space up to its last newline. -/
theorem next_qwen2 {c : UInt8} {rest : Bytes} (hs : ∀ d ∈ c :: rest, d < 0x80) :
    Regex.next qwen2 (c :: rest) = (ruleAt c rest).getD
      (if isSpace c then (lastBreak (c :: rest)).getD (spaceFragment (c :: rest)) else 1) := by
  have hdigit : Regex.first (.cls pN) (c :: rest) = if isDigit c then some 1 else none := by
    rw [Regex.first, Regex.ways_cls_cons]
    show (if isDigit c then [1] else []).head? = _
    split_ifs <;> rfl
  have hfirst : Regex.first qwen2 (c :: rest) = (ruleAt c rest).or ((lastBreak (c :: rest)).or
      ((Regex.first trailingRx (c :: rest)).or (Regex.first (.plus (.cls ws)) (c :: rest)))) := by
    simp only [qwen2, Rx.oneOf, Regex.first_alt]
    rw [first_contractionRx, first_wordRx hs, hdigit, first_punctRx hs, first_breakRx, ruleAt]
    simp only [Option.or_assoc]
  unfold Regex.next
  rw [hfirst]
  cases hrule : ruleAt c rest with
  | some k => rfl
  | none =>
      have hc : isSpace c = true := by
        by_contra hno
        exact ruleAt_of_not_space (Bool.not_eq_true _ ▸ hno) rest hrule
      rw [Option.none_or, Option.getD_none, if_pos hc]
      cases hb : lastBreak (c :: rest) with
      | some n => rfl
      | none =>
          rw [Option.none_or, trailing_eq hc rest hb]
          rfl

/-- The pattern matches something everywhere: every symbol is in some class. -/
theorem qwen2_covers : Regex.Covers qwen2 := by
  apply Regex.covers_of_first rfl
  intro s hs hnone
  cases s with
  | nil => exact hs rfl
  | cons c rest =>
      simp only [qwen2, Rx.oneOf, Regex.first_alt, Option.or_eq_none_iff] at hnone
      obtain ⟨-, hword, hdigit, hpunct, -, -, hspace⟩ := hnone
      -- a class that matches nothing does not have the symbol
      have hplus : ∀ p : UInt8 → Bool, Regex.first (.plus (.cls p)) (c :: rest) = none → p c = false := by
        intro p hp
        rw [Regex.first_plus_cls] at hp
        split_ifs at hp with hpos
        by_contra hc
        rw [Bool.not_eq_false] at hc
        exact hpos (reach_pos.mpr (by simpa using hc))
      have hws : ws c = false := hplus ws hspace
      have hL : pL c = false := by
        rw [wordRx, Regex.first_seq_opt_cls, Option.or_eq_none_iff] at hword
        exact hplus pL hword.2
      have hN : pN c = false := by
        by_contra hc
        rw [Bool.not_eq_false] at hc
        simp [Regex.first, hc] at hdigit
      have hP : (!ws c && !pL c && !pN c) = false := by
        rw [punctRx, Regex.first_seq_opt_cls, Option.or_eq_none_iff,
          Regex.first_seq Regex.ways_many_cls_ne_nil] at hpunct
        apply hplus fun c => !ws c && !pL c && !pN c
        cases hfirst : Regex.first (.plus (.cls fun c => !ws c && !pL c && !pN c)) (c :: rest) with
        | none => rfl
        | some k =>
            rw [hfirst, Option.bind_some, Regex.first_many_cls] at hpunct
            exact absurd hpunct.2 (by simp)
      simp [hws, hL, hN] at hP

end Spaces

/-! ## What a fragment looks like -/

section Shapes

/-- No newlines, and no punctuation at the end. -/
def Plain (f : Bytes) : Prop :=
  (∀ x ∈ f, isNewline x = false) ∧ ∀ x, f.getLast? = some x → isPunct x = false

/-- Punctuation and all the newlines behind it. -/
def Punctuated (f rest : Bytes) : Prop :=
  ∃ x p nl, f = x ++ [p] ++ nl ∧ (∀ y ∈ x ++ [p], isNewline y = false) ∧ isPunct p = true ∧
    (∀ y ∈ nl, isNewline y = true) ∧ rest.head?.any isNewline = false

/-- Blanks and a run of newlines, all of it. -/
def Broken (f rest : Bytes) : Prop :=
  ∃ bl nl, f = bl ++ nl ∧ (∀ y ∈ bl, isBlank y = true) ∧ nl ≠ [] ∧ (∀ y ∈ nl, isNewline y = true) ∧
    rest.head?.any isNewline = false

theorem not_newline_of_not_space {c : UInt8} (h : isSpace c = false) : isNewline c = false := by
  rw [Bool.eq_false_iff] at h ⊢
  exact fun hnl => h (isSpace_of_newline hnl)

/-- A letter is neither a newline nor punctuation. -/
theorem letter_plain {c : UInt8} (h : isLetter c = true) :
    isNewline c = false ∧ isPunct c = false := by
  constructor
  · rw [Bool.eq_false_iff]
    intro hnl
    simp only [isNewline, Bool.or_eq_true, beq_iff_eq] at hnl
    rcases hnl with rfl | rfl <;> exact absurd h (by decide)
  · simp [isPunct, h]

theorem digit_plain {c : UInt8} (h : isDigit c = true) :
    isNewline c = false ∧ isPunct c = false := by
  constructor
  · rw [Bool.eq_false_iff]
    intro hnl
    simp only [isNewline, Bool.or_eq_true, beq_iff_eq] at hnl
    rcases hnl with rfl | rfl <;> exact absurd h (by decide)
  · simp [isPunct, h]

theorem blank_plain {c : UInt8} (h : isBlank c = true) : isNewline c = false ∧ isPunct c = false := by
  obtain ⟨hsp, hnl⟩ : isSpace c = true ∧ isNewline c = false := by simpa [isBlank] using h
  exact ⟨hnl, by simp [isPunct, hsp]⟩

/-- Something without newlines, then a run of neither newlines nor punctuation. -/
theorem plain_append {x l : Bytes} (hx : ∀ y ∈ x, isNewline y = false) (hne : l ≠ [])
    (hl : ∀ y ∈ l, isNewline y = false ∧ isPunct y = false) : Plain (x ++ l) := by
  refine ⟨fun y hy => ?_, fun y hy => ?_⟩
  · rcases List.mem_append.mp hy with h | h
    · exact hx y h
    · exact (hl y h).1
  · rw [List.getLast?_append_of_ne_nil x hne] at hy
    exact (hl y (List.mem_of_getLast? hy)).2

theorem takeWhile_ne_nil {p : UInt8 → Bool} {s : Bytes} (h : 0 < reach p s) : s.takeWhile p ≠ [] :=
  List.ne_nil_of_length_pos h

/-- The letters of a contraction. -/
theorem contractionAt_plain {rest : Bytes} {l : Nat} (h : contractionAt rest = some l) :
    ∀ y ∈ rest.take l, isNewline y = false ∧ isPunct y = false := by
  intro y hy
  obtain ⟨w, hfind, rfl⟩ := Option.map_eq_some_iff.mp h
  have hletters : ∀ w ∈ contractions, ∀ x ∈ w, x ∈ ascii "stmdrevl" := by decide +kernel
  have hcase : ∀ c : UInt8, c ||| 0x20 ∈ ascii "stmdrevl" → isLetter c = true := by
    apply forall_byte
    decide +kernel
  have hw := List.find?_some (p := fun w => (rest.take w.length).map (· ||| 0x20) == w) hfind
  apply letter_plain
  apply hcase
  apply hletters w (List.mem_of_find?_eq_some hfind)
  rw [← beq_iff_eq.mp hw]
  exact List.mem_map_of_mem hy

theorem wordAt_plain {c : UInt8} {rest : Bytes} {n : Nat} (h : wordAt c rest = some n) :
    Plain ((c :: rest).take n) := by
  unfold wordAt at h
  simp only at h
  split_ifs at h with hlead hpos hpos
  · obtain rfl := Option.some.inj h
    rw [List.take_add, take_reach]
    apply plain_append _ (takeWhile_ne_nil hpos) fun y hy => letter_plain (List.mem_takeWhile_imp hy)
    intro y hy
    obtain rfl : y = c := by simpa using hy
    simp only [Bool.and_eq_true, Bool.not_eq_true'] at hlead
    exact hlead.2
  · obtain rfl := Option.some.inj h
    rw [List.take_add, take_reach]
    exact plain_append (by simp) (takeWhile_ne_nil hpos) fun y hy => letter_plain (List.mem_takeWhile_imp hy)

theorem punctAt_punctuated {c : UInt8} {rest : Bytes} {n : Nat} (h : punctAt c rest = some n) :
    Punctuated ((c :: rest).take n) ((c :: rest).drop n) := by
  unfold punctAt at h
  simp only at h
  generalize hj : (if c = 32 then 1 else 0) = j at h
  split_ifs at h with hpos
  obtain rfl := Option.some.inj h
  have hrun := takeWhile_ne_nil hpos
  have hclass : ∀ y ∈ ((c :: rest).drop j).takeWhile isPunct, isPunct y = true := fun y hy =>
    List.mem_takeWhile_imp hy
  have hsplit : (c :: rest).take j ++ (((c :: rest).drop j).takeWhile isPunct).dropLast ++
      [(((c :: rest).drop j).takeWhile isPunct).getLast hrun] =
      (c :: rest).take j ++ ((c :: rest).drop j).takeWhile isPunct := by
    rw [List.append_assoc, List.dropLast_append_getLast hrun]
  refine ⟨(c :: rest).take j ++ (((c :: rest).drop j).takeWhile isPunct).dropLast, _,
    ((c :: rest).drop (j + reach isPunct ((c :: rest).drop j))).takeWhile isNewline, ?_,
    fun y hy => ?_, hclass _ (List.getLast_mem hrun), fun y hy => List.mem_takeWhile_imp hy, ?_⟩
  · rw [hsplit, List.take_add, List.take_add, take_reach, take_reach]
  · rw [hsplit] at hy
    rcases List.mem_append.mp hy with hlead | hmem
    · -- only a space can stand in front
      split_ifs at hj with hsp
      · subst hj
        obtain rfl : y = c := by simpa using hlead
        rw [hsp]
        decide
      · subst hj
        simp at hlead
    · have hp := hclass y hmem
      simp only [isPunct, Bool.and_eq_true, Bool.not_eq_true'] at hp
      exact not_newline_of_not_space hp.1.1
  · rw [← List.drop_drop]
    exact head_drop_reach _ _

theorem ruleAt_shape {c : UInt8} {rest : Bytes} {n : Nat} (h : ruleAt c rest = some n) :
    Plain ((c :: rest).take n) ∨ Punctuated ((c :: rest).take n) ((c :: rest).drop n) := by
  unfold ruleAt at h
  rcases Option.or_eq_some_iff.mp h with hcon | ⟨-, h⟩
  · split_ifs at hcon with hc
    obtain ⟨l, hl, rfl⟩ := Option.map_eq_some_iff.mp hcon
    left
    rw [Nat.add_comm, List.take_succ_cons]
    apply plain_append (x := [c]) (by simp [hc]; decide) _ (contractionAt_plain hl)
    obtain ⟨hpos, hle⟩ := contractionAt_le hl
    exact List.ne_nil_of_length_pos (by rw [List.length_take]; omega)
  rcases Option.or_eq_some_iff.mp h with hword | ⟨-, h⟩
  · exact .inl (wordAt_plain hword)
  rcases Option.or_eq_some_iff.mp h with hdigit | ⟨-, hpunct⟩
  · split_ifs at hdigit with hd
    obtain rfl := Option.some.inj hdigit
    left
    exact plain_append (x := []) (by simp) (by simp) (by simpa using digit_plain hd)
  · exact .inr (punctAt_punctuated hpunct)

/-- **White space**: without a newline it is taken in blanks, else up to its first newlines. -/
theorem spaceFragment_shape {c : UInt8} (rest : Bytes) (hc : isSpace c = true) :
    (Plain ((c :: rest).take (spaceFragment (c :: rest))) ∧ lastBreak (c :: rest) = none) ∨
    (Broken ((c :: rest).take (spaceFragment (c :: rest)))
        ((c :: rest).drop (spaceFragment (c :: rest))) ∧
      lastBreak (c :: rest) = some (spaceFragment (c :: rest) +
        (lastBreak ((c :: rest).drop (spaceFragment (c :: rest)))).getD 0)) := by
  rw [lastBreak_blanks (c :: rest)]
  by_cases hpos : 0 < reach isNewline ((c :: rest).drop (reach isBlank (c :: rest)))
  · right
    have hlen : spaceFragment (c :: rest) = reach isBlank (c :: rest) +
        reach isNewline ((c :: rest).drop (reach isBlank (c :: rest))) := by
      unfold spaceFragment
      simp only [if_pos hpos]
    rw [if_pos hpos, hlen]
    refine ⟨⟨(c :: rest).takeWhile isBlank, _, ?_, fun y hy => List.mem_takeWhile_imp hy,
      takeWhile_ne_nil hpos, fun y hy => List.mem_takeWhile_imp hy, ?_⟩, rfl⟩
    · rw [List.take_add, take_reach, take_reach]
    · rw [← List.drop_drop]
      exact head_drop_reach _ _
  · left
    refine ⟨?_, if_neg hpos⟩
    have hblank : isBlank c = true := by
      by_contra hb
      rw [Bool.not_eq_true] at hb
      rw [reach_cons_neg hb, List.drop_zero, reach_pos] at hpos
      simp [isBlank, hc] at hb
      simp [hb] at hpos
    have hone : 0 < reach isBlank (c :: rest) := reach_pos.mpr (by simpa using hblank)
    have hle : spaceFragment (c :: rest) ≤ reach isBlank (c :: rest) := by
      unfold spaceFragment
      simp only [if_neg hpos]
      split_ifs <;> omega
    have hall : ∀ y ∈ (c :: rest).take (spaceFragment (c :: rest)), isBlank y = true := by
      intro y hy
      apply List.mem_takeWhile_imp (p := isBlank) (l := c :: rest)
      rw [← take_reach]
      exact List.mem_of_mem_take (List.take_take .. ▸ Nat.min_eq_left hle ▸ hy)
    have hpos := (spaceFragment_le (s := c :: rest) (by simp)).1
    exact plain_append (x := []) (by simp)
      (List.ne_nil_of_length_pos (by rw [List.length_take, List.length_cons]; omega))
      fun y hy => blank_plain (hall y hy)

end Shapes

/-! ## Texts that break again -/

/-- A run of newlines, then blanks, then a newline again, where the run is whole and does not come
behind punctuation. -/
def Rebreaks (s : Bytes) : Prop :=
  ∃ a nl bl c rest, s = a ++ (nl ++ (bl ++ c :: rest)) ∧ (nl ≠ [] ∧ ∀ y ∈ nl, isNewline y = true) ∧
    (bl ≠ [] ∧ ∀ y ∈ bl, isBlank y = true) ∧ isNewline c = true ∧
    ∀ x, a.getLast? = some x → isNewline x = false ∧ isPunct x = false

section Rebreaks

/-- Where a run starts: behind everything that is not in its class. -/
theorem run_start {p : UInt8 → Bool} {u v a t : Bytes} {y : UInt8} (hu : ∀ z ∈ u, p z = false)
    (hv : ∀ z ∈ v, p z = true) (h : u ++ v = a ++ y :: t) (hy : p y = true)
    (ha : ∀ z, a.getLast? = some z → p z = false) : a = u ∧ v = y :: t := by
  rcases List.append_eq_append_iff.mp h with ⟨z, rfl, hz⟩ | ⟨z, rfl, hz⟩
  · -- `a` goes past `u`, into the run
    cases hlast : z.getLast? with
    | none =>
        obtain rfl := List.getLast?_eq_none_iff.mp hlast
        exact ⟨List.append_nil u, by simpa using hz⟩
    | some w =>
        have hw : w ∈ v := by
          rw [hz]
          exact List.mem_append_left _ (List.mem_of_getLast? hlast)
        have := ha w (by rw [List.getLast?_append, hlast]; rfl)
        rw [hv w hw] at this
        exact absurd this (by simp)
  · -- `u` goes past `a`, over the start of the run
    cases z with
    | nil => exact ⟨(List.append_nil a).symm, by simpa using hz.symm⟩
    | cons w ws =>
        obtain ⟨rfl, -⟩ := List.cons.inj hz
        have := hu y (List.mem_append_right _ List.mem_cons_self)
        rw [hy] at this
        exact absurd this (by simp)

theorem dropWhile_run {p : UInt8 → Bool} {u v : Bytes} (hu : ∀ z ∈ u, p z = true)
    (hv : v.head?.any p = false) : (u ++ v).dropWhile p = v := by
  rw [List.dropWhile_append_of_pos hu]
  cases v with
  | nil => rfl
  | cons c cs =>
      rw [List.dropWhile_cons_of_neg]
      simpa using hv

theorem lastBreak_ne_none {s : Bytes} : lastBreak s ≠ none ↔
    ∃ bl c rest, s = bl ++ c :: rest ∧ (∀ y ∈ bl, isBlank y = true) ∧ isNewline c = true := by
  constructor
  · intro h
    rw [lastBreak_blanks] at h
    split_ifs at h with hpos
    · rw [drop_reach] at hpos
      cases hd : s.dropWhile isBlank with
      | nil => simp [hd, reach] at hpos
      | cons c rest =>
          rw [hd, reach_pos] at hpos
          refine ⟨s.takeWhile isBlank, c, rest, ?_, fun y hy => List.mem_takeWhile_imp hy, by simpa using hpos⟩
          rw [← hd, List.takeWhile_append_dropWhile]
    · exact absurd rfl h
  · rintro ⟨bl, c, rest, rfl, hbl, hc⟩
    induction bl with
    | nil => simp [lastBreak_newline hc]
    | cons d ds ih =>
        rw [List.cons_append, lastBreak_blank (hbl d List.mem_cons_self)]
        simpa using ih fun y hy => hbl y (List.mem_cons_of_mem d hy)

/-- A text breaks again if the rest behind a fragment does, unless the fragment is what spares it. -/
theorem Rebreaks.append {f rest : Bytes} (h : Rebreaks rest)
    (hf : rest.head?.any isNewline = true →
      ∀ x, f.getLast? = some x → isNewline x = false ∧ isPunct x = false) : Rebreaks (f ++ rest) := by
  obtain ⟨a, nl, bl, c, t, rfl, ⟨hne, hnl⟩, hbl, hc, ha⟩ := h
  refine ⟨f ++ a, nl, bl, c, t, by rw [List.append_assoc], ⟨hne, hnl⟩, hbl, hc, fun x hx => ?_⟩
  cases hlast : a.getLast? with
  | some y =>
      rw [List.getLast?_append, hlast] at hx
      obtain rfl : y = x := by simpa using hx
      exact ha y hlast
  | none =>
      obtain rfl := List.getLast?_eq_none_iff.mp hlast
      rw [List.append_nil] at hx
      apply hf _ x hx
      cases nl with
      | nil => exact absurd rfl hne
      | cons d ds => simpa using hnl d List.mem_cons_self

/-- A fragment that is split alike holds no break that is taken up again. -/
theorem Rebreaks.rest {f rest : Bytes} (h : Rebreaks (f ++ rest))
    (hf : Plain f ∨ Punctuated f rest ∨ (Broken f rest ∧ lastBreak rest = none)) : Rebreaks rest := by
  obtain ⟨a, nl, bl, c, t, hs, ⟨hne, hnl⟩, ⟨hbne, hbl⟩, hc, ha⟩ := h
  rcases List.append_eq_append_iff.mp hs with ⟨a', rfl, hrest⟩ | ⟨x, hx, hrest⟩
  · -- the break lies behind the fragment
    refine ⟨a', nl, bl, c, t, hrest, ⟨hne, hnl⟩, ⟨hbne, hbl⟩, hc, fun x hx => ha x ?_⟩
    rw [List.getLast?_append, hx]
    rfl
  · cases x with
    | nil =>
        rw [List.nil_append] at hrest
        exact ⟨[], nl, bl, c, t, hrest.symm, ⟨hne, hnl⟩, ⟨hbne, hbl⟩, hc, by simp⟩
    | cons y ys =>
        -- the run of newlines starts within the fragment
        exfalso
        have hy : isNewline y = true := by
          cases nl with
          | nil => exact absurd rfl hne
          | cons d ds =>
              obtain ⟨rfl, -⟩ := List.cons.inj hrest
              exact hnl _ List.mem_cons_self
        rcases hf with ⟨hplain, -⟩ | ⟨x₀, p, nl', hf, hx₀, hp, hnl', -⟩ |
          ⟨⟨bl', nl', hf, hbl', -, hnl', hhead⟩, hnone⟩
        · have := hplain y (by rw [hx]; exact List.mem_append_right _ List.mem_cons_self)
          rw [hy] at this
          exact absurd this (by simp)
        · obtain ⟨rfl, -⟩ := run_start hx₀ hnl' (hf ▸ hx) hy fun z hz => (ha z hz).1
          have := (ha p (by simp)).2
          rw [hp] at this
          exact absurd this (by simp)
        · obtain ⟨rfl, rfl⟩ := run_start (fun z hz => (blank_plain (hbl' z hz)).1) hnl' (hf ▸ hx) hy
            fun z hz => (ha z hz).1
          have hsame : bl ++ c :: t = rest := by
            rw [← dropWhile_run (u := y :: ys) hnl' hhead, ← hrest, dropWhile_run hnl]
            cases bl with
            | nil => exact absurd rfl hbne
            | cons d ds => simpa using (blank_plain (hbl d List.mem_cons_self)).1
          exact lastBreak_ne_none.mpr ⟨bl, c, t, hsame.symm, hbl, hc⟩ hnone

theorem Broken.rebreaks {f rest : Bytes} (h : Broken f rest) (hrest : lastBreak rest ≠ none) :
    Rebreaks (f ++ rest) := by
  obtain ⟨bl', nl', rfl, hbl', hne, hnl', hhead⟩ := h
  obtain ⟨bl, c, t, rfl, hbl, hc⟩ := lastBreak_ne_none.mp hrest
  refine ⟨bl', nl', bl, c, t, by rw [List.append_assoc], ⟨hne, hnl'⟩, ⟨?_, hbl⟩, hc,
    fun x hx => blank_plain (hbl' x (List.mem_of_getLast? hx))⟩
  rintro rfl
  rw [List.nil_append, List.head?_cons, Option.any_some, hc] at hhead
  exact absurd hhead (by simp)

end Rebreaks

/-! ## The whole text -/

/-- One fragment: split alike, or a break that the pattern takes up again. -/
theorem fragment_cases {s : Bytes} (hs : s ≠ []) (hascii : ∀ d ∈ s, d < 0x80) :
    (Regex.next qwen2 s = nextFragment s ∧
      (Plain (s.take (nextFragment s)) ∨
        Punctuated (s.take (nextFragment s)) (s.drop (nextFragment s)) ∨
        (Broken (s.take (nextFragment s)) (s.drop (nextFragment s)) ∧
          lastBreak (s.drop (nextFragment s)) = none))) ∨
    (nextFragment s < Regex.next qwen2 s ∧
      Broken (s.take (nextFragment s)) (s.drop (nextFragment s)) ∧
      lastBreak (s.drop (nextFragment s)) ≠ none) := by
  cases s with
  | nil => exact absurd rfl hs
  | cons c rest =>
      rw [next_qwen2 hascii, nextFragment_eq]
      cases hrule : ruleAt c rest with
      | some n =>
          left
          refine ⟨rfl, ?_⟩
          rcases ruleAt_shape hrule with h | h
          · exact .inl h
          · exact .inr (.inl h)
      | none =>
          have hc : isSpace c = true := by
            by_contra hno
            exact ruleAt_of_not_space (Bool.not_eq_true _ ▸ hno) rest hrule
          simp only [Option.getD_none, hc, if_true]
          rcases spaceFragment_shape rest hc with ⟨hplain, hnone⟩ | ⟨hbroken, hlast⟩
          · left
            exact ⟨by rw [hnone]; rfl, .inl hplain⟩
          · rw [hlast, Option.getD_some]
            cases hnext : lastBreak ((c :: rest).drop (spaceFragment (c :: rest))) with
            | none => exact .inl ⟨rfl, .inr (.inr ⟨hbroken, rfl⟩)⟩
            | some m =>
                right
                have hpos := lastBreak_pos hnext
                exact ⟨by rw [Option.getD_some]; omega, hbroken, by simp⟩

/-- **The splitter is exact on the ASCII texts that do not break again, and on no others.** -/
theorem fragments_qwen2_iff (s : Bytes) (hascii : engBpeAsciiExact s = true) :
    fragments s = Regex.findAll qwen2 s ↔ ¬ Rebreaks s := by
  rw [Regex.findAll_eq_tiling qwen2_covers]
  have hall : ∀ d ∈ s, d < 0x80 := by simpa [engBpeAsciiExact] using hascii
  clear hascii
  induction s using Tiling.tiling_induction nextFragment_advances with
  | nil =>
      refine iff_of_true rfl ?_
      rintro ⟨a, nl, bl, c, rest, hs, -⟩
      exact absurd hs (by simp)
  | step s hs ih =>
      obtain ⟨hpos, hle⟩ := nextFragment_advances s hs
      have hsplit := List.take_append_drop (nextFragment s) s
      rw [fragments_step hs, Tiling.tiling_step qwen2_covers.advances hs]
      have hrest := ih fun d hd => hall d (List.mem_of_mem_drop hd)
      rcases fragment_cases hs hall with ⟨heq, hshape⟩ | ⟨hlt, hbroken, hagain⟩
      · -- alike here: the rest decides
        rw [heq, List.cons.injEq]
        simp only [true_and]
        refine Iff.trans hrest (not_congr ⟨fun h => ?_, fun h => ?_⟩)
        · rw [← hsplit]
          refine h.append fun hnl x hx => ?_
          rcases hshape with hplain | ⟨_, _, _, _, _, _, _, hhead⟩ | ⟨⟨_, _, _, _, _, _, hhead⟩, _⟩
          · exact ⟨hplain.1 x (List.mem_of_getLast? hx), hplain.2 x hx⟩
          all_goals
            rw [hnl] at hhead
            exact absurd hhead (by simp)
        · rw [← hsplit] at h
          exact h.rest hshape
      · refine iff_of_false (fun h => ?_) (fun h => h ?_)
        · have hlen := congrArg List.length (List.cons.inj h).1
          have hle' := (qwen2_covers.advances s hs).2
          rw [List.length_take, List.length_take] at hlen
          omega
        · rw [← hsplit]
          exact hbroken.rebreaks hagain

/-- Behind punctuation the first newline is taken, and a blank line after it is split alike. -/
theorem bang_split_alike : engBpeAsciiExact (ascii "!\n \n") = true ∧
    fragments (ascii "!\n \n") = [ascii "!\n", ascii " \n"] ∧
    Regex.findAll qwen2 (ascii "!\n \n") = [ascii "!\n", ascii " \n"] ∧ ¬ Rebreaks (ascii "!\n \n") := by
  have hcode : fragments (ascii "!\n \n") = [ascii "!\n", ascii " \n"] := by decide +kernel
  have hpattern : Regex.findAll qwen2 (ascii "!\n \n") = [ascii "!\n", ascii " \n"] := by
    decide +kernel
  exact ⟨by decide, hcode, hpattern,
    (fragments_qwen2_iff (ascii "!\n \n") (by decide)).mp (hcode.trans hpattern.symm)⟩

/-- A blank line with a space in it: two fragments where the pattern has one match. -/
theorem blank_line_split_apart : engBpeAsciiExact (ascii "\n \n") = true ∧
    fragments (ascii "\n \n") = [ascii "\n", ascii " \n"] ∧
    Regex.findAll qwen2 (ascii "\n \n") = [ascii "\n \n"] ∧
    fragments (ascii "\n \n") ≠ Regex.findAll qwen2 (ascii "\n \n") := by
  decide +kernel

end LlmEngine.Tokenizer
