/-
# LlmEngine.Cfg.JsonBounds — `json_parse` stays inside its text (`third_party/json.h`).

Nothing checks the text beforehand: it may be cut off anywhere, or be no JSON at all.  What is read ends at the
NUL behind it, with one exception: the member loop of an object steps over whatever stands where a name should,
and that may be the NUL.  This needs a text that ends behind a brace or a comma.

* `Closed` is the condition, on the last character that is not a space; it goes over to what is left of a text
  (`Closed.suffix`), and behind a brace or a comma of a closed text something follows (`Closed.next`).
* Each reader leaves a suffix of what it was given (`jStrLoop_suffix` and its like), which is also why a round for
  each character is enough for the loops over items and members.
* `Inside` is the statement for a reader of values; `jValue_inside` is one level of the recursion, `jParseVal_inside`
  all of them.

`open_brace_overread` is the exception: a brace with nothing but spaces behind it.
-/
import LlmEngine.Cfg.JsonRead
import Mathlib.Data.List.DropRight

namespace LlmEngine.Cfg

open LlmEngine.Lib.JsonText (Ws)
open LlmEngine.Lib.LittleEndian
open LlmEngine.Tokenizer (ascii)
open LlmEngine.Tokenizer.Ranks (isSpaceChar)

/-! ## The last character -/

/-- The last character that is not whitespace, or 0. -/
def lastChar (s : Bytes) : UInt8 := (s.reverse.dropWhile isSpaceChar).headD 0

/-- The text does not end behind an opening brace or a comma. -/
def Closed (s : Bytes) : Prop := lastChar s ≠ 123 ∧ lastChar s ≠ 44

instance (s : Bytes) : Decidable (Closed s) := inferInstanceAs (Decidable (_ ∧ _))

/-- What is left of such a text is such a text. -/
theorem Closed.suffix {s t : Bytes} (h : Closed s) (ht : t <:+ s) : Closed t := by
  obtain ⟨u, rfl⟩ := ht
  cases hlast : t.reverse.dropWhile isSpaceChar with
  | nil =>
      have hzero : lastChar t = 0 := by rw [lastChar, hlast]; rfl
      rw [Closed, hzero]
      decide
  | cons b r =>
      have hsame : lastChar (u ++ t) = lastChar t := by
        rw [lastChar, List.reverse_append, List.dropWhile_append, hlast, lastChar, hlast]
        rfl
      rwa [Closed, hsame] at h

/-- Behind a brace or a comma in it, there is something. -/
theorem Closed.next {c : UInt8} {s : Bytes} (h : Closed (c :: s)) (hc : c = 123 ∨ c = 44) : jWs s ≠ [] := by
  intro hnil
  have hspace : ∀ b ∈ s.reverse, isSpaceChar b = true := fun b hb =>
    List.dropWhile_eq_nil_iff.mp hnil b (List.mem_reverse.mp hb)
  have hdark : ¬ isSpaceChar c = true := by rcases hc with rfl | rfl <;> decide
  have hlast : lastChar (c :: s) = c := by
    rw [lastChar, List.reverse_cons, List.dropWhile_append_of_pos hspace, List.dropWhile_cons_of_neg hdark]
    rfl
  rw [Closed, hlast] at h
  exact hc.elim h.1 h.2

/-! ## What is left -/

theorem jWs_suffix (s : Bytes) : jWs s <:+ s := List.dropWhile_suffix _

/-- A character other than the NUL is in the text. -/
theorem eq_cons_of_peek {c : UInt8} {s : Bytes} (h : peek s = c) (hc : c ≠ 0) : s = c :: s.drop 1 := by
  cases s with
  | nil => exact absurd h.symm hc
  | cons b s => exact congrArg (· :: s) h

/-- A character that may be stepped over. -/
theorem drop_if_suffix {p : Prop} [Decidable p] {s t : Bytes} (h : t <:+ s) : (if p then t.drop 1 else t) <:+ s := by
  split_ifs
  · exact (List.drop_suffix _ _).trans h
  · exact h

/-- Behind a character there is less. -/
theorem drop_shorter {c : UInt8} {s t : Bytes} (h : t <:+ s) (hpeek : peek t = c) (hc : c ≠ 0) :
    (t.drop 1).length < s.length := by
  have hle := h.length_le
  rw [eq_cons_of_peek hpeek hc, List.length_cons] at hle
  exact hle

theorem jUnicode_suffix (s : Bytes) : (jUnicode s).2 <:+ s := by
  unfold jUnicode
  dsimp only
  split_ifs
  · exact List.suffix_rfl
  · exact (List.drop_suffix _ _).trans (List.drop_suffix _ _)
  · exact List.drop_suffix _ _

theorem jEscape_suffix (e : UInt8) (s : Bytes) : (jEscape e s).2 <:+ s := by
  unfold jEscape
  split_ifs
  all_goals first
    | exact List.suffix_rfl
    | exact jUnicode_suffix s

theorem jStrLoop_suffix (n : Nat) (s : Bytes) : (jStrLoop n s).2 <:+ s := by
  induction n generalizing s with
  | zero => exact List.suffix_rfl
  | succ n ih =>
      cases s with
      | nil => exact List.suffix_rfl
      | cons c s =>
          rw [jStrLoop]
          by_cases hend : c = 0 ∨ c = 34
          · rw [if_pos hend]
          · rw [if_neg hend]
            refine ((ih _).trans ?_).trans (List.suffix_cons c s)
            by_cases hesc : c = 92 ∧ peek s ≠ 0
            · rw [if_pos hesc]
              exact (jEscape_suffix _ _).trans (List.drop_suffix _ _)
            · rw [if_neg hesc]

/-- **A string** is read inside a text that has not ended. -/
theorem jParseStrRaw_inside {s : Bytes} (h : s ≠ []) : ∃ k t, jParseStrRaw s = some (k, t) ∧ t <:+ s := by
  obtain ⟨c, s, rfl⟩ := List.exists_cons_of_ne_nil h
  exact ⟨_, _, rfl, drop_if_suffix ((jStrLoop_suffix s.length s).trans (List.suffix_cons c s))⟩

/-! ## Values -/

section Value

variable {D : Type} {val : ValueReader D}

/-- The reader stays inside, and leaves what is behind the value. -/
def Inside (val : ValueReader D) : Prop := ∀ s, Closed s → ∃ v t, val s = some (v, t) ∧ t <:+ s

theorem jItems_inside (h : Inside val) : ∀ (n : Nat) (s : Bytes), s.length < n → Closed s →
    ∃ vs t, jItems val n s = some (vs, t) ∧ t <:+ s := by
  intro n
  induction n with
  | zero => exact fun s hn _ => absurd hn (Nat.not_lt_zero _)
  | succ n ih =>
      intro s hn hs
      obtain ⟨v, t, hv, ht⟩ := h s hs
      have hleft : jWs t <:+ s := (jWs_suffix t).trans ht
      rw [jItems, hv, Option.bind_some]
      dsimp only
      by_cases hcomma : peek (jWs t) = 44
      · have hrest : (jWs t).drop 1 <:+ s := (List.drop_suffix _ _).trans hleft
        have hlen := drop_shorter hleft hcomma (by decide)
        obtain ⟨vs, u, hvs, hu⟩ := ih _ (by omega) (hs.suffix hrest)
        rw [if_pos hcomma, hvs]
        exact ⟨_, _, rfl, hu.trans hrest⟩
      · rw [if_neg hcomma]
        exact ⟨_, _, rfl, drop_if_suffix hleft⟩

/-- The members of an object, where a name is to come. -/
theorem jMembers_inside (h : Inside val) : ∀ (n : Nat) (s : Bytes), s.length < n → Closed s → jWs s ≠ [] →
    ∃ ms t, jMembers val n s = some (ms, t) ∧ t <:+ s := by
  intro n
  induction n with
  | zero => exact fun s hn _ _ => absurd hn (Nat.not_lt_zero _)
  | succ n ih =>
      intro s hn hs hname
      obtain ⟨k, t, hk, ht⟩ := jParseStrRaw_inside hname
      have hcolon : (if peek (jWs t) = 58 then (jWs t).drop 1 else jWs t) <:+ s :=
        drop_if_suffix ((jWs_suffix t).trans (ht.trans (jWs_suffix s)))
      obtain ⟨v, u, hv, hu⟩ := h _ (hs.suffix hcolon)
      have hleft : jWs u <:+ s := (jWs_suffix u).trans (hu.trans hcolon)
      rw [jMembers, hk, Option.bind_some]
      dsimp only
      rw [hv, Option.bind_some]
      dsimp only
      by_cases hcomma : peek (jWs u) = 44
      · have hrest : (jWs u).drop 1 <:+ s := (List.drop_suffix _ _).trans hleft
        have hlen := drop_shorter hleft hcomma (by decide)
        have hnext : jWs ((jWs u).drop 1) ≠ [] := by
          have hclosed := hs.suffix hleft
          rw [eq_cons_of_peek hcomma (by decide)] at hclosed
          exact hclosed.next (.inr rfl)
        obtain ⟨ms, w, hms, hw⟩ := ih _ (by omega) (hs.suffix hrest) hnext
        rw [if_pos hcomma, hms]
        exact ⟨_, _, rfl, hw.trans hrest⟩
      · rw [if_neg hcomma]
        exact ⟨_, _, rfl, drop_if_suffix hleft⟩

/-- **A value**, where those inside are read inside. -/
theorem jValue_inside (strtod : Bytes → D × Nat) {inner : Option (ValueReader D)}
    (h : ∀ val, inner = some val → Inside val) : Inside (jValue strtod inner) := by
  intro s hs
  have hws := jWs_suffix s
  have hclosed := hs.suffix hws
  unfold jValue
  generalize jWs s = s' at hws hclosed
  dsimp only
  by_cases hquote : peek s' = 34
  · have hne : s' ≠ [] := fun hnil => by
      rw [hnil] at hquote
      exact absurd hquote (by decide)
    obtain ⟨k, t, hk, ht⟩ := jParseStrRaw_inside hne
    rw [if_pos hquote, hk]
    exact ⟨_, _, rfl, ht.trans hws⟩
  rw [if_neg hquote]
  have hskip : jWs (s'.drop 1) <:+ s := (jWs_suffix _).trans ((List.drop_suffix _ _).trans hws)
  by_cases hbrace : peek s' = 123
  · rw [if_pos hbrace]
    cases inner with
    | none => exact ⟨_, _, rfl, hws⟩
    | some val =>
        dsimp only
        by_cases hend : peek (jWs (s'.drop 1)) = 125
        · rw [if_pos hend]
          exact ⟨_, _, rfl, (List.drop_suffix _ _).trans hskip⟩
        · have hnext : jWs (s'.drop 1) ≠ [] := by
            rw [eq_cons_of_peek hbrace (by decide)] at hclosed
            exact hclosed.next (.inl rfl)
          obtain ⟨ms, t, hms, ht⟩ := jMembers_inside (h val rfl) _ (jWs (s'.drop 1)) (Nat.lt_succ_self _)
            (hs.suffix hskip) (by rw [jWs, jWs, List.dropWhile_idempotent]; exact hnext)
          rw [if_neg hend, hms]
          exact ⟨_, _, rfl, ht.trans hskip⟩
  rw [if_neg hbrace]
  by_cases hbracket : peek s' = 91
  · rw [if_pos hbracket]
    cases inner with
    | none => exact ⟨_, _, rfl, hws⟩
    | some val =>
        dsimp only
        by_cases hend : peek (jWs (s'.drop 1)) = 93
        · rw [if_pos hend]
          exact ⟨_, _, rfl, (List.drop_suffix _ _).trans hskip⟩
        · obtain ⟨vs, t, hvs, ht⟩ := jItems_inside (h val rfl) _ (jWs (s'.drop 1)) (Nat.lt_succ_self _) (hs.suffix hskip)
          rw [if_neg hend, hvs]
          exact ⟨_, _, rfl, ht.trans hskip⟩
  rw [if_neg hbracket]
  split_ifs
  all_goals exact ⟨_, _, rfl, (List.drop_suffix _ _).trans hws⟩

theorem jParseVal_inside (strtod : Bytes → D × Nat) : ∀ left, Inside (jParseVal strtod left)
  | 0 => jValue_inside strtod fun _ h => nomatch h
  | left + 1 => jValue_inside strtod fun _ h => Option.some.inj h ▸ jParseVal_inside strtod left

/-- **`json_parse` reads nothing behind the NUL** of any text that does not end behind an opening brace or a comma. -/
theorem json_parse_inside (strtod : Bytes → D × Nat) {text : Bytes} (h : Closed text) :
    ∃ v, jsonParse strtod text = some v := by
  obtain ⟨v, t, hv, -⟩ := jParseVal_inside strtod jMaxDepth text h
  unfold jsonParse
  rw [hv]
  exact ⟨v, rfl⟩

/-- A text that is no JSON, and ends in the middle of a string. -/
theorem cut_string_inside : ∃ v, jsonParse strtodWhole (ascii "[1,,\"a\\u12") = some v :=
  json_parse_inside strtodWhole (by decide +kernel)

/-- **Behind an opening brace it does**: the member loop steps over the NUL. -/
theorem open_brace_overread (strtod : Bytes → D × Nat) (before after : Ws) :
    jsonParse strtod (before.val ++ 123 :: after.val) = none := by
  have hend : jWs after.val = [] := List.dropWhile_eq_nil_iff.mpr fun b hb => ws_space (after.property b hb)
  have hval : ∀ val : ValueReader D, jValue strtod (some val) (before.val ++ 123 :: after.val) = none := fun val => by
    rw [jValue_brace before val hend]
    rfl
  exact congrArg (Option.map Prod.fst) (hval _)

end Value

end LlmEngine.Cfg
