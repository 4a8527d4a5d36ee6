/-
# LlmEngine.Bind.ScanToken — the tokens of a header, on JSON text (`src/io/k3_st.c`).

`Ahead m fin p t` says that the scanner at `p` has `t` before it, behind whitespace.  Each function of the
scanner has one lemma about what it makes of the text of a string, a number or a value, and one about a
text of another kind.  A string comes out with every escape outside ASCII as a question mark
(`JChar.scanned`).

* `ws_spec` and `lit_spec` for the characters between tokens; a text whose first byte is `Dark` ends whitespace.
* `str_spec` for a string that fits the buffer, by induction on its characters (`strFrom_spec`).
* `i64_spec` for an integer, digit by digit, modulo 2^64.
* `skipStr_spec` and `scalarFrom_spec` for what is skipped unread.

Skipping a nested value keeps a depth and nothing else.  `Passes` is that a text leaves the depth as it was, and it
composes (`Passes.append`); `json_passes` is the induction over the tree.
-/
import LlmEngine.Bind.Scan
import LlmEngine.Lib.JsonText

namespace LlmEngine.Bind.Scan

open LlmEngine.Lib
open LlmEngine.Lib.JsonText
open LlmEngine.Lib.LittleEndian

variable {m : Nat → UInt8} {fin p : Nat} {t : Bytes}

/-! ## Whitespace and single characters -/

/-- The scanner has `t` before it, behind whitespace. -/
def Ahead (m : Nat → UInt8) (fin p : Nat) (t : Bytes) : Prop := ∃ w : Bytes, (∀ b ∈ w, b ≤ 32) ∧ rest m fin p = w ++ t

/-- The first byte of a text, if there is one, is not taken for whitespace. -/
def Dark (t : Bytes) : Prop := ∀ b ∈ t.head?, ¬ b ≤ 32

theorem Ahead.of_rest (h : rest m fin p = t) : Ahead m fin p t := ⟨[], List.forall_mem_nil _, h⟩

theorem Ahead.ws {w : Bytes} (hw : ∀ b ∈ w, b ≤ 32) (h : Ahead m fin p (w ++ t)) : Ahead m fin p t := by
  obtain ⟨w', hw', hrest⟩ := h
  refine ⟨w' ++ w, fun b hb => ?_, by rw [hrest, List.append_assoc]⟩
  rcases List.mem_append.mp hb with h | h
  · exact hw' b h
  · exact hw b h

theorem ws_low (w : Ws) : ∀ b ∈ w.val, b ≤ 32 := by
  intro b hb
  rcases w.property b hb with rfl | rfl | rfl | rfl <;> decide

theorem wsFrom_spec (w : Bytes) : ∀ n p, rest m fin p = w ++ t → (∀ b ∈ w, b ≤ 32) → Dark t → w.length ≤ n →
    wsFrom m fin n p = p + w.length := by
  induction w with
  | nil =>
      intro n p h _ ht _
      cases n with
      | zero => rfl
      | succ n =>
          rw [wsFrom, if_neg]
          · rfl
          · rintro ⟨hlt, hle⟩
            rw [List.nil_append, rest_of_lt hlt] at h
            exact ht (m p) (by rw [← h]; rfl) hle
  | cons c w ih =>
      intro n p h hw ht hn
      cases n with
      | zero => cases hn
      | succ n =>
          obtain ⟨hlt, hc, hnext⟩ := step_of_rest (show rest m fin p = c :: (w ++ t) from h)
          rw [wsFrom, if_pos ⟨hlt, hc ▸ hw c List.mem_cons_self⟩,
            ih n (p + 1) hnext (fun b hb => hw b (List.mem_cons_of_mem c hb)) ht (Nat.le_of_succ_le_succ hn),
            List.length_cons]
          omega

/-- **`ws` passes over whitespace, and over no more.** -/
theorem ws_spec (h : Ahead m fin p t) (ht : Dark t) : rest m fin (ws m fin p) = t := by
  obtain ⟨w, hw, hrest⟩ := h
  have hlen := congrArg List.length hrest
  rw [rest_length, List.length_append] at hlen
  rw [ws, wsFrom_spec w _ p hrest hw ht (by omega)]
  exact rest_append hrest

theorem isAt_cons {c d : UInt8} (h : rest m fin p = c :: t) : isAt m fin d p = (c == d) := by
  obtain ⟨hlt, hc, -⟩ := step_of_rest h
  rw [isAt, decide_eq_true hlt, Bool.true_and, hc]
  rfl

theorem isAt_nil {d : UInt8} (h : rest m fin p = []) : isAt m fin d p = false := by
  have hend := end_of_rest h
  rw [isAt, decide_eq_false (by omega), Bool.false_and]

/-- **`lit` finds its character.** -/
theorem lit_spec {c : UInt8} (hc : ¬ c ≤ 32) (h : Ahead m fin p (c :: t)) :
    ∃ q, lit m fin c p = some q ∧ rest m fin q = t := by
  have hrest := ws_spec h (fun b hb => by cases hb; exact hc)
  refine ⟨ws m fin p + 1, ?_, (step_of_rest hrest).2.2⟩
  rw [lit, isAt_cons hrest, beq_self_eq_true, if_pos rfl]

/-- And no other. -/
theorem lit_none {c : UInt8} (ht : Dark t) (hc : t.head? ≠ some c) (h : Ahead m fin p t) : lit m fin c p = none := by
  have hrest := ws_spec h ht
  rw [lit, if_neg]
  cases t with
  | nil =>
      rw [isAt_nil hrest]
      decide
  | cons d t =>
      rw [isAt_cons hrest, beq_iff_eq]
      rintro rfl
      exact hc rfl

/-! ## Strings -/

/-- What `str_` makes of a character. -/
def scannedChar : JChar → UInt8
  | .raw b => b.val
  | .esc e => e.char
  | .unicode h3 h2 h1 h0 => if codeUnit h3 h2 h1 h0 < 128 then UInt8.ofNat (codeUnit h3 h2 h1 h0) else 63

/-- What `str_` makes of a string. -/
def scanned (s : JStr) : Bytes := s.map scannedChar

theorem scanned_length (s : JStr) : (scanned s).length = s.length := List.length_map ..

theorem hexDigit_byte (h : HexChar) : hexDigit h.byte = BitVec.ofNat 32 h.value.val := by
  obtain ⟨value, upper⟩ := h
  revert value upper
  decide +kernel

theorem escapedAscii_byte (h3 h2 h1 h0 : HexChar) :
    escapedAscii h3.byte h2.byte h1.byte h0.byte = scannedChar (.unicode h3 h2 h1 h0) := by
  have h3' := h3.value.isLt
  have h2' := h2.value.isLt
  have h1' := h1.value.isLt
  have h0' := h0.value.isLt
  have hcode : ([h3.byte, h2.byte, h1.byte, h0.byte].foldl (fun v h => v * 16 + hexDigit h) (0 : BitVec 32)).toNat =
      codeUnit h3 h2 h1 h0 := by
    simp only [List.foldl_cons, List.foldl_nil, hexDigit_byte, codeUnit, BitVec.toNat_add, BitVec.toNat_mul,
      BitVec.toNat_ofNat, BitVec.ofNat_eq_ofNat]
    omega
  unfold escapedAscii scannedChar
  simp only [hcode]

theorem escaped_byte (e : Escape) : escaped e.byte = e.char ∧ e.byte ≠ 117 := by
  cases e <;> decide

theorem store_of_lt {cap n : Nat} (h : n + 1 < cap) (out : Bytes) (c : UInt8) : store cap out n c = out ++ [c] :=
  if_pos h

theorem body_cons (c : JChar) (s : JStr) : JStr.body (c :: s) = c.render ++ JStr.body s := by
  rw [JStr.body, JStr.body, List.flatMap_cons, List.append_assoc]

/-- **What `str_` does with the characters of a string that fits**, `n` of them read. -/
theorem strFrom_spec (cap : Nat) (s : JStr) : ∀ k p out n, rest m fin p = JStr.body s ++ t →
    (JStr.body s).length ≤ k → n + s.length + 1 ≤ cap →
    strFrom m fin cap k p out n = some (out ++ scanned s, p + (JStr.body s).length) := by
  induction s with
  | nil =>
      intro k p out n h hk hcap
      obtain ⟨hlt, hc, -⟩ := step_of_rest (show rest m fin p = 34 :: t from h)
      cases k with
      | zero => exact absurd hk (by decide)
      | succ k =>
          rw [strFrom, if_neg (by omega), if_pos hc, if_neg (by rw [List.length_nil] at hcap; omega)]
          simp only [scanned, List.map_nil, List.append_nil]
          rfl
  | cons c s ih =>
      intro k p out n h hk hcap
      rw [body_cons, List.length_append] at hk
      rw [body_cons, List.append_assoc] at h
      rw [List.length_cons] at hcap
      have hnext := rest_append h
      -- one round stores the character; the others are the induction's
      have hgo : ∀ j, (JStr.body s).length ≤ j →
          strFrom m fin cap j (p + c.render.length) (store cap out n (scannedChar c)) (n + 1) =
            some (out ++ scanned (c :: s), p + (JStr.body (c :: s)).length) := by
        intro j hj
        rw [ih j _ _ _ hnext hj (by omega), store_of_lt (by omega), List.append_assoc, body_cons, List.length_append,
          Nat.add_assoc]
        rfl
      cases k with
      | zero => cases c <;> simp [JChar.render] at hk
      | succ k =>
          cases c with
          | raw b =>
              obtain ⟨hlt, hc, -⟩ := step_of_rest (show rest m fin p = b.val :: (JStr.body s ++ t) from h)
              rw [strFrom, if_neg (by omega), hc, if_neg b.property.2.1, if_neg b.property.2.2]
              exact hgo k (by simp only [JChar.render, List.length_singleton] at hk; omega)
          | esc e =>
              obtain ⟨hlt, hc, hstep⟩ := step_of_rest (show rest m fin p = 92 :: e.byte :: (JStr.body s ++ t) from h)
              obtain ⟨hlt1, hc1, -⟩ := step_of_rest hstep
              rw [strFrom, if_neg (by omega), if_neg (by rw [hc]; decide), if_pos hc, if_neg (by omega), hc1,
                if_neg (escaped_byte e).2, (escaped_byte e).1]
              exact hgo k (by simp only [JChar.render, List.length_cons, List.length_nil] at hk; omega)
          | unicode h3 h2 h1 h0 =>
              obtain ⟨hlt, hc, hstep⟩ := step_of_rest
                (show rest m fin p = 92 :: 117 :: h3.byte :: h2.byte :: h1.byte :: h0.byte :: (JStr.body s ++ t) from h)
              obtain ⟨hlt1, hc1, hstep1⟩ := step_of_rest hstep
              obtain ⟨hlt2, hc2, hstep2⟩ := step_of_rest hstep1
              obtain ⟨hlt3, hc3, hstep3⟩ := step_of_rest hstep2
              obtain ⟨hlt4, hc4, hstep4⟩ := step_of_rest hstep3
              obtain ⟨hlt5, hc5, -⟩ := step_of_rest hstep4
              rw [strFrom, if_neg (by omega), if_neg (by rw [hc]; decide), if_pos hc, if_neg (by omega), if_pos hc1,
                if_neg (by omega), hc2, hc3, hc4, hc5, escapedAscii_byte]
              exact hgo k (by simp only [JChar.render, List.length_cons, List.length_nil] at hk; omega)

/-- **`str_` reads a string** that fits its buffer. -/
theorem str_spec {cap : Nat} {s : JStr} (h : Ahead m fin p (JStr.render s ++ t)) (hcap : s.length < cap) :
    ∃ q, str m fin cap p = some (scanned s, q) ∧ rest m fin q = t := by
  have hrest := ws_spec h (fun b hb => by cases hb; decide)
  have hopen := isAt_cons (d := 34) hrest
  obtain ⟨hlt, -, hnext⟩ := step_of_rest (show rest m fin (ws m fin p) = 34 :: (JStr.body s ++ t) from hrest)
  have hlen := congrArg List.length hnext
  rw [rest_length, List.length_append] at hlen
  refine ⟨ws m fin p + 1 + (JStr.body s).length, ?_, rest_append hnext⟩
  rw [str, hopen, beq_self_eq_true, if_pos rfl, strFrom_spec cap s _ _ [] 0 hnext (by omega) (by omega),
    List.nil_append]

/-! ## Numbers -/

/-- The text does not go on with a digit. -/
def NoDigit (t : Bytes) : Prop := ∀ b ∈ t.head?, ¬ IsDigit b

theorem isDigit_iff (b : UInt8) : isDigit b = true ↔ IsDigit b := by
  rw [isDigit, Bool.and_eq_true, decide_eq_true_eq, decide_eq_true_eq, IsDigit]

theorem wrap64_digit (a c : Int) : wrap64 (wrap64 a * 10 + c) = wrap64 (a * 10 + c) := by
  have hmul : wrap64 (wrap64 a * 10) = wrap64 (a * 10) := wrap64_mul_left a 10
  have hadd : ∀ x : Int, wrap64 (wrap64 x + c) = wrap64 (x + c) := fun x => Int.bmod_add_bmod
  rw [← hadd (wrap64 a * 10), hmul, hadd]

theorem wrap64_neg (a : Int) : wrap64 (-wrap64 a) = wrap64 (-a) := by
  have h := wrap64_mul_left a (-1)
  rwa [Int.mul_neg, Int.mul_one, Int.mul_neg, Int.mul_one] at h

/-- The digits of a number, `a` read before them. -/
theorem digitsFrom_spec (ds : Bytes) (hds : ∀ d ∈ ds, IsDigit d) (ht : NoDigit t) :
    ∀ k p a, rest m fin p = ds ++ t → ds.length ≤ k →
      digitsFrom m fin k p (wrap64 a) =
        (wrap64 (ds.foldl (fun a d => a * 10 + (d.toNat - 48)) a), p + ds.length) := by
  induction ds with
  | nil =>
      intro k p a h _
      cases k with
      | zero => rfl
      | succ k =>
          rw [digitsFrom, if_neg]
          · rfl
          · rintro ⟨hlt, hd⟩
            rw [List.nil_append, rest_of_lt hlt] at h
            exact ht (m p) (by rw [← h]; rfl) ((isDigit_iff _).mp hd)
  | cons d ds ih =>
      intro k p a h hk
      obtain ⟨hlt, hd, hnext⟩ := step_of_rest (show rest m fin p = d :: (ds ++ t) from h)
      cases k with
      | zero => cases hk
      | succ k =>
          have hfirst := (isDigit_iff d).mpr (hds d List.mem_cons_self)
          rw [digitsFrom, hd, if_pos ⟨hlt, hfirst⟩, wrap64_digit,
            ih (fun x hx => hds x (List.mem_cons_of_mem d hx)) k (p + 1) _ hnext (Nat.le_of_succ_le_succ hk),
            List.length_cons, List.foldl_cons, Nat.add_assoc, Nat.add_comm 1]

/-- **`i64_` reads an integer**, as an `int64_t` holds it. -/
theorem i64_spec {n : Number} {v : Int} (h : Ahead m fin p (n.render ++ t)) (hv : n.int? = some v) (ht : NoDigit t) :
    ∃ q, i64 m fin p = some (wrap64 v, q) ∧ rest m fin q = t := by
  obtain ⟨hrender, rfl⟩ := Number.int?_some hv
  rw [hrender] at h
  obtain ⟨neg, ⟨ds, hne, hds⟩, tail⟩ := n
  obtain ⟨d, ds', rfl⟩ := List.exists_cons_of_ne_nil hne
  have hfirst := hds d List.mem_cons_self
  have hdigit := (isDigit_iff d).mpr hfirst
  have hlow : ¬ d ≤ 32 := fun hle => absurd (UInt8.le_trans hfirst.1 hle) (by decide)
  have hzero : wrap64 0 = 0 := by decide
  -- behind the sign
  have hgo : ∀ q, rest m fin q = d :: ds' ++ t →
      ¬ (fin ≤ q ∨ ¬ isDigit (m q) = true) ∧
        digitsFrom m fin (fin - q) q 0 = (wrap64 (digitsValue (d :: ds')), q + (d :: ds').length) ∧
        rest m fin (q + (d :: ds').length) = t := by
    intro q hq
    obtain ⟨hlt, hmq, -⟩ := step_of_rest (show rest m fin q = d :: (ds' ++ t) from hq)
    have hlen := congrArg List.length hq
    rw [rest_length, List.length_append] at hlen
    have hread := digitsFrom_spec (d :: ds') hds ht (fin - q) q 0 hq (by omega)
    rw [hzero] at hread
    exact ⟨fun hc => hc.elim (by omega) fun hn => hn (hmq ▸ hdigit), hread, rest_append hq⟩
  cases neg with
  | true =>
      have hrest := ws_spec (t := 45 :: (d :: ds' ++ t)) h (fun b hb => by cases hb; decide)
      obtain ⟨hok, hread, hend⟩ := hgo (ws m fin p + 1) (step_of_rest hrest).2.2
      have hneg : isAt m fin 45 (ws m fin p) = true := by rw [isAt_cons hrest, beq_self_eq_true]
      refine ⟨_, ?_, hend⟩
      unfold i64
      simp only [hneg, Bool.true_or, if_true, if_neg hok, hread]
      rw [wrap64_neg]
  | false =>
      have hrest := ws_spec (t := d :: ds' ++ t) h (fun b hb => by cases hb; exact hlow)
      obtain ⟨hok, hread, hend⟩ := hgo (ws m fin p) hrest
      have hsign : ∀ c, ¬ IsDigit c → isAt m fin c (ws m fin p) = false := by
        intro c hc
        rw [isAt_cons (show rest m fin (ws m fin p) = d :: (ds' ++ t) from hrest), beq_eq_false_iff_ne]
        rintro rfl
        exact hc hfirst
      refine ⟨_, ?_, hend⟩
      unfold i64
      simp only [hsign 45 (by unfold IsDigit; decide), hsign 43 (by unfold IsDigit; decide), Bool.or_self,
        Bool.false_eq_true, if_false, if_neg hok, hread]

/-! ## Skipping strings and scalars -/

theorem hex_plain (h : HexChar) : h.byte ≠ 34 ∧ h.byte ≠ 92 := by
  obtain ⟨value, upper⟩ := h
  revert value upper
  decide +kernel

theorem skipStr_plain {c : UInt8} (hc : c ≠ 34 ∧ c ≠ 92) (h : rest m fin p = c :: t) (k : Nat) :
    skipStr m fin (k + 1) p = skipStr m fin k (p + 1) ∧ rest m fin (p + 1) = t := by
  obtain ⟨hlt, hmp, hnext⟩ := step_of_rest h
  rw [skipStr, hmp, if_pos ⟨hlt, hc.1⟩, if_neg hc.2]
  exact ⟨rfl, hnext⟩

theorem skipStr_slash {c : UInt8} (h : rest m fin p = 92 :: c :: t) (k : Nat) :
    skipStr m fin (k + 1) p = skipStr m fin k (p + 2) ∧ rest m fin (p + 2) = t := by
  obtain ⟨hlt, hmp, hnext⟩ := step_of_rest h
  rw [skipStr, hmp, if_pos ⟨hlt, by decide⟩, if_pos rfl]
  exact ⟨rfl, (step_of_rest hnext).2.2⟩

/-- **Skipping a string stops at its closing quote**, whatever is escaped in it. -/
theorem skipStr_spec (s : JStr) : ∀ k p, rest m fin p = JStr.body s ++ t → (JStr.body s).length ≤ k + 1 →
    skipStr m fin k p + 1 = p + (JStr.body s).length := by
  induction s with
  | nil =>
      intro k p h _
      obtain ⟨-, hc, -⟩ := step_of_rest (show rest m fin p = 34 :: t from h)
      cases k with
      | zero => rfl
      | succ k =>
          rw [skipStr, if_neg fun hq => hq.2 hc]
          rfl
  | cons c s ih =>
      intro k p h hk
      rw [body_cons, List.length_append] at hk ⊢
      rw [body_cons, List.append_assoc] at h
      have hbody : 1 ≤ (JStr.body s).length := by
        rw [JStr.body, List.length_append]
        exact Nat.le_add_left 1 _
      cases c with
      | raw b =>
          simp only [JChar.render, List.length_singleton] at hk ⊢
          obtain ⟨j, rfl⟩ := Nat.exists_eq_add_of_le' (show 1 ≤ k by omega)
          obtain ⟨hstep, hnext⟩ := skipStr_plain b.property.2 h j
          rw [hstep, ih j _ hnext (by omega)]
          omega
      | esc e =>
          simp only [JChar.render, List.length_cons, List.length_nil] at hk ⊢
          obtain ⟨j, rfl⟩ := Nat.exists_eq_add_of_le' (show 1 ≤ k by omega)
          obtain ⟨hstep, hnext⟩ := skipStr_slash h j
          rw [hstep, ih j _ hnext (by omega)]
          omega
      | unicode h3 h2 h1 h0 =>
          simp only [JChar.render, List.length_cons, List.length_nil] at hk ⊢
          obtain ⟨j, rfl⟩ := Nat.exists_eq_add_of_le' (show 5 ≤ k by omega)
          -- the backslash takes the `u` with it, the digits go one by one
          obtain ⟨hstep, hnext⟩ := skipStr_slash h (j + 4)
          obtain ⟨hstep3, hnext3⟩ := skipStr_plain (hex_plain h3) hnext (j + 3)
          obtain ⟨hstep2, hnext2⟩ := skipStr_plain (hex_plain h2) hnext3 (j + 2)
          obtain ⟨hstep1, hnext1⟩ := skipStr_plain (hex_plain h1) hnext2 (j + 1)
          obtain ⟨hstep0, hnext0⟩ := skipStr_plain (hex_plain h0) hnext1 j
          rw [hstep, hstep3, hstep2, hstep1, hstep0, ih j _ hnext0 (by omega)]
          omega

/-- A byte that ends a scalar. -/
def IsStop (b : UInt8) : Prop := b = 44 ∨ b = 125 ∨ b = 93

instance (b : UInt8) : Decidable (IsStop b) := inferInstanceAs (Decidable (_ ∨ _ ∨ _))

/-- **A scalar is skipped up to the byte that ends it.** -/
theorem scalarFrom_spec {c : UInt8} (hc : IsStop c) (w : Bytes) (hw : ∀ b ∈ w, ¬ IsStop b) :
    ∀ k p, rest m fin p = w ++ c :: t → w.length ≤ k → scalarFrom m fin k p = p + w.length := by
  induction w with
  | nil =>
      intro k p h _
      obtain ⟨-, hmp, -⟩ := step_of_rest (show rest m fin p = c :: t from h)
      cases k with
      | zero => rfl
      | succ k =>
          rw [scalarFrom, hmp, if_neg]
          · rfl
          · rintro ⟨-, hcomma, hbrace, hbracket⟩
            rcases hc with h | h | h
            · exact hcomma h
            · exact hbrace h
            · exact hbracket h
  | cons b w ih =>
      intro k p h hk
      obtain ⟨hlt, hmp, hnext⟩ := step_of_rest (show rest m fin p = b :: (w ++ c :: t) from h)
      have hb := hw b List.mem_cons_self
      cases k with
      | zero => cases hk
      | succ k =>
          rw [scalarFrom, hmp, if_pos ⟨hlt, fun h => hb (.inl h), fun h => hb (.inr (.inl h)), fun h => hb (.inr (.inr h))⟩,
            ih (fun x hx => hw x (List.mem_cons_of_mem b hx)) k (p + 1) hnext (Nat.le_of_succ_le_succ hk),
            List.length_cons, Nat.add_assoc, Nat.add_comm 1]

/-! ## Skipping nested values -/

/-- Rounds beyond the bytes that are left change nothing. -/
theorem nestFrom_rounds (k : Nat) : ∀ j p d, fin - p ≤ k → fin - p ≤ j → nestFrom m fin k p d = nestFrom m fin j p d := by
  induction k with
  | zero =>
      intro j p d hk _
      cases j with
      | zero => rfl
      | succ j => rw [nestFrom, nestFrom, if_pos (by omega)]
  | succ k ih =>
      intro j p d hk hj
      cases j with
      | zero => rw [nestFrom, nestFrom, if_pos (by omega)]
      | succ j =>
          rw [nestFrom, nestFrom]
          by_cases hp : fin ≤ p
          · rw [if_pos hp, if_pos hp]
          · have hquote := skipStr_ge m fin (fin - (p + 1)) (p + 1)
            simp only [ih j (skipStr m fin (fin - (p + 1)) (p + 1) + 1) _ (by omega) (by omega),
              ih j (p + 1) _ (by omega) (by omega)]

/-- The `do` loop of `skip_value`, with all the rounds there are. -/
def nest (m : Nat → UInt8) (fin p : Nat) (d : Int) : Option Nat := nestFrom m fin (fin - p) p d

/-- `while (depth > 0)`, behind a byte or a string. -/
def nestGo (m : Nat → UInt8) (fin p : Nat) (d : Int) : Option Nat := if 0 < d then nest m fin p d else some p

/-- A round at a byte. -/
theorem nest_step {c : UInt8} (h : rest m fin p = c :: t) (d : Int) :
    nest m fin p d =
      if c = 34 then
        let q := skipStr m fin (fin - (p + 1)) (p + 1)
        if fin ≤ q then none else nestGo m fin (q + 1) d
      else if c = 123 ∨ c = 91 then nestGo m fin (p + 1) (wrap32 (d + 1))
      else if c = 125 ∨ c = 93 then nestGo m fin (p + 1) (wrap32 (d - 1))
      else nestGo m fin (p + 1) d := by
  obtain ⟨hlt, hmp, -⟩ := step_of_rest h
  obtain ⟨k, hk⟩ : ∃ k, fin - p = k + 1 := ⟨fin - p - 1, by omega⟩
  have hquote := skipStr_ge m fin (fin - (p + 1)) (p + 1)
  rw [nest, hk, nestFrom, if_neg (by omega), hmp]
  simp only [nestGo, nest, nestFrom_rounds k (fin - (skipStr m fin (fin - (p + 1)) (p + 1) + 1)) _ _ (by omega) (Nat.le_refl _),
    nestFrom_rounds k (fin - (p + 1)) (p + 1) _ (by omega) (Nat.le_refl _)]

theorem nestGo_pos {d : Int} (h : 0 < d) (m : Nat → UInt8) (fin p : Nat) : nestGo m fin p d = nest m fin p d := if_pos h

/-- A text that leaves the depth as it is. -/
def Passes (m : Nat → UInt8) (fin : Nat) (a : Bytes) (d : Int) : Prop :=
  ∀ p t, rest m fin p = a ++ t → nest m fin p d = nest m fin (p + a.length) d

section Passes

variable {a b : Bytes} {d : Int}

theorem Passes.nil : Passes m fin [] d := fun _ _ _ => rfl

theorem Passes.append (ha : Passes m fin a d) (hb : Passes m fin b d) : Passes m fin (a ++ b) d := by
  intro p t h
  rw [List.append_assoc] at h
  rw [ha p _ h, hb _ t (rest_append h), List.length_append, Nat.add_assoc]

/-- Bytes that neither open nor close anything. -/
theorem Passes.plain (hd : 0 < d) (ha : ∀ c ∈ a, c ≠ 34 ∧ c ≠ 123 ∧ c ≠ 91 ∧ c ≠ 125 ∧ c ≠ 93) : Passes m fin a d := by
  induction a with
  | nil => exact .nil
  | cons c a ih =>
      intro p t h
      have hnext := (step_of_rest (show rest m fin p = c :: (a ++ t) from h)).2.2
      obtain ⟨hquote, hbrace, hbracket, hbrace', hbracket'⟩ := ha c List.mem_cons_self
      rw [nest_step h, if_neg hquote, if_neg (fun h => h.elim hbrace hbracket),
        if_neg (fun h => h.elim hbrace' hbracket'), nestGo_pos hd,
        ih (fun x hx => ha x (List.mem_cons_of_mem c hx)) (p + 1) t hnext, List.length_cons, Nat.add_assoc, Nat.add_comm 1]

theorem Passes.str (hd : 0 < d) (s : JStr) : Passes m fin (JStr.render s) d := by
  intro p t h
  obtain ⟨hlt, -, hnext⟩ := step_of_rest (show rest m fin p = 34 :: (JStr.body s ++ t) from h)
  have hlen := congrArg List.length hnext
  rw [rest_length, List.length_append] at hlen
  have hskip := skipStr_spec s (fin - (p + 1)) (p + 1) hnext (by omega)
  have hbody : 1 ≤ (JStr.body s).length := by
    rw [JStr.body, List.length_append]
    exact Nat.le_add_left 1 _
  rw [nest_step (show rest m fin p = 34 :: (JStr.body s ++ t) from h), if_pos rfl]
  simp only
  rw [if_neg (by omega), nestGo_pos hd, hskip, JStr.render, List.length_cons, Nat.add_assoc, Nat.add_comm 1]

theorem nest_open {c : UInt8} (hc : c = 123 ∨ c = 91) (hd : 0 ≤ d) (hmax : d + 1 < 2 ^ 31) (h : rest m fin p = c :: t) :
    nest m fin p d = nest m fin (p + 1) (d + 1) ∧ rest m fin (p + 1) = t := by
  have hquote : c ≠ 34 := by
    rcases hc with rfl | rfl <;> decide
  rw [nest_step h, if_neg hquote, if_pos hc, wrap32_of_range (by omega) hmax, nestGo_pos (by omega)]
  exact ⟨rfl, (step_of_rest h).2.2⟩

theorem nest_close {c : UInt8} (hc : c = 125 ∨ c = 93) (hd : 0 ≤ d) (hmax : d < 2 ^ 31) (h : rest m fin p = c :: t) :
    nest m fin p (d + 1) = nestGo m fin (p + 1) d := by
  have hplain : c ≠ 34 ∧ ¬ (c = 123 ∨ c = 91) := by
    rcases hc with rfl | rfl <;> decide
  rw [nest_step h, if_neg hplain.1, if_neg hplain.2, if_pos hc, Int.add_sub_cancel, wrap32_of_range (by omega) hmax]

/-- Brackets around a text that passes one level down. -/
theorem Passes.nested {c c' : UInt8} (hc : c = 123 ∨ c = 91) (hc' : c' = 125 ∨ c' = 93) (hd : 0 < d)
    (hmax : d + 1 < 2 ^ 31) (ha : Passes m fin a (d + 1)) : Passes m fin (c :: (a ++ [c'])) d := by
  intro p t h
  rw [List.cons_append, List.append_assoc] at h
  obtain ⟨hopen, hnext⟩ := nest_open hc (by omega) hmax h
  have hclose := nest_close (d := d) hc' (by omega) (by omega) (rest_append hnext)
  rw [hopen, ha _ _ hnext, hclose, nestGo_pos hd, List.length_cons, List.length_append, List.length_singleton]
  congr 1
  omega

end Passes

/-- A byte of a number or of a word. -/
def IsScalar (b : UInt8) : Prop := 32 < b ∧ b ≠ 34 ∧ b ≠ 44 ∧ b ≠ 123 ∧ b ≠ 91 ∧ b ≠ 125 ∧ b ≠ 93

instance (b : UInt8) : Decidable (IsScalar b) := inferInstanceAs (Decidable (_ ∧ _))

theorem tail_scalar {b : UInt8} (h : IsTail b) : IsScalar b := by
  rcases h with ⟨hlo, hhi⟩ | rfl | rfl | rfl | rfl | rfl
  · have hne : ∀ c : UInt8, ¬ (48 ≤ c ∧ c ≤ 57) → b ≠ c := by
      rintro c hc rfl
      exact hc ⟨hlo, hhi⟩
    exact ⟨UInt8.lt_of_lt_of_le (by decide) hlo, hne _ (by decide), hne _ (by decide), hne _ (by decide),
      hne _ (by decide), hne _ (by decide), hne _ (by decide)⟩
  all_goals decide

theorem number_scalar (n : Number) : ∀ b ∈ n.render, IsScalar b := by
  obtain ⟨neg, ⟨ds, -, hds⟩, ⟨tail, ht, -⟩⟩ := n
  intro b hb
  rcases List.mem_append.mp hb with h | h
  · rcases List.mem_append.mp h with h | h
    · cases neg with
      | true =>
          rw [List.mem_singleton.mp h]
          decide
      | false => cases h
    · exact tail_scalar (.inl (hds b h))
  · exact tail_scalar (ht b h)

theorem number_ne_nil (n : Number) : n.render ≠ [] := by
  intro he
  unfold Number.render at he
  rw [List.append_eq_nil_iff, List.append_eq_nil_iff] at he
  exact n.digits.property.1 he.1.2

theorem word_scalar (w : Word) : ∀ b ∈ w.render, IsScalar b := by
  cases w <;> decide +kernel

theorem Passes.ws {d : Int} (hd : 0 < d) (w : Ws) : Passes m fin w.val d := by
  refine .plain hd fun c hc => ?_
  rcases w.property c hc with rfl | rfl | rfl | rfl <;> decide

theorem Passes.scalar {a : Bytes} {d : Int} (hd : 0 < d) (ha : ∀ b ∈ a, IsScalar b) : Passes m fin a d :=
  .plain hd fun c hc => ⟨(ha c hc).2.1, (ha c hc).2.2.2⟩

theorem Passes.comma {d : Int} (hd : 0 < d) (first : Bool) : Passes m fin (comma first) d := by
  cases first with
  | true => exact .nil
  | false => exact .plain hd (by unfold JsonText.comma; decide +kernel)

mutual

/-- **A value passes at every depth that leaves room for its own.** -/
theorem json_passes (v : Json) (d : Int) (hd : 0 < d) (hmax : d + v.depth < 2 ^ 31) : Passes m fin v.render d :=
  match v with
  | .str s => .str hd s
  | .num n => .scalar hd (number_scalar n)
  | .word w => .scalar hd (word_scalar w)
  | .arr pad items => by
      rw [Json.depth] at hmax
      rw [Json.render]
      exact .nested (.inr rfl) (.inr rfl) hd (by omega)
        ((Passes.ws (by omega) pad).append (items_passes items true (d + 1) (by omega) (by omega)))
  | .obj pad members => by
      rw [Json.depth] at hmax
      rw [Json.render]
      exact .nested (.inl rfl) (.inl rfl) hd (by omega)
        ((Passes.ws (by omega) pad).append (members_passes members true (d + 1) (by omega) (by omega)))

theorem items_passes (items : Items) (first : Bool) (d : Int) (hd : 0 < d) (hmax : d + Items.depth items < 2 ^ 31) :
    Passes m fin (Items.render first items) d :=
  match items with
  | .nil => .nil
  | .cons before v after rest => by
      rw [Items.depth] at hmax
      rw [Items.render]
      exact ((((Passes.comma hd first).append (.ws hd before)).append (json_passes v d hd (by omega))).append
        (.ws hd after)).append (items_passes rest false d hd (by omega))

theorem members_passes (members : Members) (first : Bool) (d : Int) (hd : 0 < d)
    (hmax : d + Members.depth members < 2 ^ 31) : Passes m fin (Members.render first members) d :=
  match members with
  | .nil => .nil
  | .cons before key colon0 colon1 v after rest => by
      rw [Members.depth] at hmax
      rw [Members.render]
      have hcolon : Passes m fin [58] d := .plain hd (by decide +kernel)
      exact ((((((((Passes.comma hd first).append (.ws hd before)).append (.str hd key)).append (.ws hd colon0)).append
        hcolon).append (.ws hd colon1)).append (json_passes v d hd (by omega))).append (.ws hd after)).append
          (members_passes rest false d hd (by omega))

end

/-- A nested value, from its bracket on. -/
theorem nested_spec {c c' : UInt8} {a : Bytes} (hc : c = 123 ∨ c = 91) (hc' : c' = 125 ∨ c' = 93)
    (ha : Passes m fin a 1) (h : rest m fin p = c :: (a ++ [c'] ++ t)) :
    ∃ q, nestFrom m fin (fin - p) p 0 = some q ∧ rest m fin q = t := by
  rw [List.append_assoc] at h
  obtain ⟨hopen, hnext⟩ := nest_open (d := 0) hc (by decide) (by decide) h
  have hclose := nest_close (d := 0) hc' (by decide) (by decide) (rest_append hnext)
  refine ⟨p + 1 + a.length + 1, ?_, (step_of_rest (rest_append hnext)).2.2⟩
  rw [show nestFrom m fin (fin - p) p 0 = nest m fin p 0 from rfl, hopen, Int.zero_add, ha _ _ hnext]
  exact hclose

/-- A scalar, up to the byte that ends it. -/
theorem scalar_spec {c : UInt8} {a : Bytes} {w : Ws} (hc : IsStop c) (hne : a ≠ []) (ha : ∀ b ∈ a, IsScalar b)
    (h : Ahead m fin p (a ++ (w.val ++ c :: t))) :
    ∃ q, skipValue m fin p = some q ∧ rest m fin q = c :: t := by
  obtain ⟨b, a, rfl⟩ := List.exists_cons_of_ne_nil hne
  obtain ⟨hlow, hquote, -, hbrace, hbracket, -⟩ := ha b List.mem_cons_self
  have hrest := ws_spec h (fun x hx => by cases hx; exact UInt8.not_le.mpr hlow)
  obtain ⟨hlt, hmp, -⟩ := step_of_rest (show rest m fin (ws m fin p) = b :: (a ++ (w.val ++ c :: t)) from hrest)
  rw [← List.append_assoc] at hrest
  have hstops : ∀ x ∈ (b :: a) ++ w.val, ¬ IsStop x := by
    intro x hx
    rcases List.mem_append.mp hx with h | h
    · obtain ⟨-, -, hcomma, -, -, hbrace', hbracket'⟩ := ha x h
      exact fun hs => hs.elim hcomma fun hs => hs.elim hbrace' hbracket'
    · rcases w.property x h with rfl | rfl | rfl | rfl <;> decide
  have hlen := congrArg List.length hrest
  rw [rest_length, List.length_append] at hlen
  have hscalar := scalarFrom_spec hc _ hstops (fin - ws m fin p) (ws m fin p) hrest (by omega)
  refine ⟨_, ?_, rest_append hrest⟩
  unfold skipValue
  simp only
  rw [if_neg (by omega), hmp, if_neg hquote, if_neg fun h => h.elim hbrace hbracket, hscalar]

/-- **`skip_value` passes over a value**, and leaves the scanner before what ends it. -/
theorem skipValue_spec {c : UInt8} {v : Json} {w : Ws} (hc : IsStop c) (hmax : v.depth < 2 ^ 31)
    (h : Ahead m fin p (v.render ++ (w.val ++ c :: t))) :
    ∃ q, skipValue m fin p = some q ∧ Ahead m fin q (c :: t) := by
  have hbracket : ∀ {b b' : UInt8} {a : Bytes}, b = 123 ∨ b = 91 → b' = 125 ∨ b' = 93 → Passes m fin a 1 →
      Ahead m fin p (b :: (a ++ [b']) ++ (w.val ++ c :: t)) →
      ∃ q, skipValue m fin p = some q ∧ Ahead m fin q (c :: t) := by
    intro b b' a hb hb' ha h
    have hrest := ws_spec h (fun x hx => by cases hx; rcases hb with rfl | rfl <;> decide)
    obtain ⟨hlt, hmp, -⟩ := step_of_rest
      (show rest m fin (ws m fin p) = b :: (a ++ [b'] ++ (w.val ++ c :: t)) from hrest)
    obtain ⟨q, hq, hend⟩ := nested_spec hb hb' ha hrest
    refine ⟨q, ?_, (Ahead.of_rest hend).ws (ws_low w)⟩
    have hquote : b ≠ 34 := by
      rcases hb with rfl | rfl <;> decide
    unfold skipValue
    simp only
    rw [if_neg (by omega), hmp, if_neg hquote, if_pos hb, hq]
  cases v with
  | str s =>
      have hrest := ws_spec h (fun x hx => by cases hx; decide)
      obtain ⟨hlt, hmp, hnext⟩ := step_of_rest
        (show rest m fin (ws m fin p) = 34 :: (JStr.body s ++ (w.val ++ c :: t)) from hrest)
      have hlen := congrArg List.length hnext
      rw [rest_length, List.length_append, List.length_append, List.length_cons] at hlen
      have hskip := skipStr_spec s (fin - (ws m fin p + 1)) (ws m fin p + 1) hnext (by omega)
      refine ⟨ws m fin p + 1 + (JStr.body s).length, ?_, (Ahead.of_rest (rest_append hnext)).ws (ws_low w)⟩
      unfold skipValue
      simp only
      rw [if_neg (by omega), if_pos hmp, if_pos (by omega), hskip]
  | num n =>
      obtain ⟨q, hq, hend⟩ := scalar_spec hc (number_ne_nil n) (number_scalar n) h
      exact ⟨q, hq, .of_rest hend⟩
  | word u =>
      obtain ⟨q, hq, hend⟩ := scalar_spec hc (by cases u <;> decide) (word_scalar u) h
      exact ⟨q, hq, .of_rest hend⟩
  | arr pad items =>
      rw [Json.depth] at hmax
      exact hbracket (.inr rfl) (.inr rfl)
        ((Passes.ws (by decide) pad).append (items_passes items true 1 (by decide) (by omega))) h
  | obj pad members =>
      rw [Json.depth] at hmax
      exact hbracket (.inl rfl) (.inl rfl)
        ((Passes.ws (by decide) pad).append (members_passes members true 1 (by decide) (by omega))) h

end LlmEngine.Bind.Scan
