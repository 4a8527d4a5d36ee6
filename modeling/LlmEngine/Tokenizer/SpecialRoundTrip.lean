/-
# LlmEngine.Tokenizer.SpecialRoundTrip — what becomes of special tokens in decoding.

`eng_bpe_decode_one` inverts the byte map on every token.  A special token is stored as it is written,
and the decoder copies a codepoint through only if it is not of the alphabet: one from `U+00A1` to
`U+0143`, `U+00AD` apart, comes out as the byte it would stand for.

* `Literal` says of a text that the decoder copies it through; of a text in UTF-8 it says that none of its characters is
  of the alphabet beyond ASCII (`literal_utf8`).
* `literal_char` is one character, by the length of its encoding; the arithmetic of the lead bytes is by
  evaluation over their ranges (`lead2_facts` and its like).
* `decode_occurs` follows the split of a text (`Tokenizer.Splitting`).
* `engBpeDecode_special_iff` is the exact condition, and `accent_lost` a token it leaves out.
-/
import LlmEngine.Tokenizer.Splitting

namespace LlmEngine.Tokenizer

open LlmEngine.Lib
open LlmEngine.Lib.LittleEndian

/-! ## The alphabet -/

theorem u2b_eq_some {n : Nat} {c : UInt8} : u2b n = some c ↔ cps c.toNat = n := by
  constructor
  · intro h
    unfold u2b at h
    split_ifs at h
    obtain ⟨d, hfind, rfl⟩ := Option.map_eq_some_iff.mp h
    have hd : d < 256 := by simpa using List.mem_of_find?_eq_some hfind
    rw [UInt8.toNat_ofNat_of_lt' hd]
    have hbeq := List.find?_some hfind
    exact beq_iff_eq.mp hbeq
  · rintro rfl
    exact u2b_cps c

/-- The alphabet beyond ASCII. -/
theorem u2b_eq_none {n : Nat} (hn : 0x80 ≤ n) : u2b n = none ↔ ¬ (0xA1 ≤ n ∧ n ≤ 0x143 ∧ n ≠ 0xAD) := by
  constructor
  · rintro hnone ⟨hlo, hhi, hne⟩
    -- the byte that stands there
    have hbyte : ∃ d < 256, cps d = n := by
      by_cases hself : n < 256
      · refine ⟨n, hself, ?_⟩
        rw [cps_eq n hself]
        split_ifs <;> omega
      · by_cases hlow : n < 289
        · refine ⟨n - 256, by omega, ?_⟩
          rw [cps_eq _ (by omega)]
          split_ifs <;> omega
        · by_cases hmid : n < 323
          · refine ⟨n - 162, by omega, ?_⟩
            rw [cps_eq _ (by omega)]
            split_ifs <;> omega
          · refine ⟨173, by omega, ?_⟩
            rw [cps_eq _ (by omega)]
            split_ifs <;> omega
    obtain ⟨d, hd, hcp⟩ := hbyte
    have hsome : u2b n = some (UInt8.ofNat d) := by
      rw [u2b_eq_some, UInt8.toNat_ofNat_of_lt' hd]
      exact hcp
    rw [hsome] at hnone
    exact absurd hnone (by simp)
  · intro hout
    cases hu : u2b n with
    | none => rfl
    | some c =>
        refine absurd ?_ hout
        rw [u2b_eq_some, cps_eq _ c.toNat_lt] at hu
        have := c.toNat_lt
        split_ifs at hu <;> omega

/-- A byte taken by itself is written as it is. -/
theorem u2b_byte (c : UInt8) : u2b c.toNat = none ∨ u2b c.toNat = some c := by
  cases hu : u2b c.toNat with
  | none => exact Or.inl rfl
  | some d =>
      right
      rw [u2b_eq_some, cps_eq _ d.toNat_lt] at hu
      have hd := d.toNat_lt
      have hc := c.toNat_lt
      congr 1
      apply UInt8.toNat_inj.mp
      split_ifs at hu <;> omega

/-! ## One token -/

/-- A text every codepoint of which is copied through. -/
inductive Literal : Bytes → Prop
  | nil : Literal []
  | step {c : UInt8} {rest : Bytes} : emitted c rest = (c :: rest).take (codepoint c rest).2 →
      Literal ((c :: rest).drop (codepoint c rest).2) → Literal (c :: rest)

theorem codepoint_advance (c : UInt8) (rest : Bytes) :
    1 ≤ (codepoint c rest).2 ∧ (codepoint c rest).2 ≤ (c :: rest).length ∧
      ((codepoint c rest).2 = 1 → (codepoint c rest).1 = c.toNat) := by
  unfold codepoint
  by_cases hc : c < 0x80
  · rw [if_pos hc]
    simp
  · rw [if_neg hc]
    match rest with
    | [] => simp
    | [d] =>
        simp only
        split_ifs <;> simp
    | d :: e :: es =>
        simp only
        split_ifs <;> simp

/-- What is written is not longer than what is taken, and as long only if it is the same. -/
theorem emitted_length (c : UInt8) (rest : Bytes) : (emitted c rest).length ≤ (codepoint c rest).2 ∧
    ((emitted c rest).length = (codepoint c rest).2 →
      emitted c rest = (c :: rest).take (codepoint c rest).2) := by
  obtain ⟨hone, hle, hself⟩ := codepoint_advance c rest
  unfold emitted
  cases hu : u2b (codepoint c rest).1 with
  | none =>
      refine ⟨?_, fun _ => rfl⟩
      simp only [List.length_take]
      omega
  | some byte =>
      refine ⟨hone, fun hlen => ?_⟩
      have hadv : (codepoint c rest).2 = 1 := hlen.symm
      rw [hself hadv] at hu
      rw [hadv, List.take_succ_cons, List.take_zero]
      obtain hnone | hsome := u2b_byte c
      · rw [hnone] at hu
        exact absurd hu (by simp)
      · rw [hsome] at hu
        rw [Option.some.inj hu]

/-- A literal text decodes to itself. -/
theorem Literal.decode {s : Bytes} (h : Literal s) : ∀ (n : Nat) (cap : Int) (out : Bytes), s.length ≤ n →
    (out.length + s.length : Int) ≤ cap → decodeLoop cap n s out = some (out ++ s) := by
  induction h with
  | nil =>
      intro n cap out _ _
      cases n <;> simp [decodeLoop]
  | @step c rest hemit _ ih =>
      intro n cap out hn hcap
      obtain ⟨hone, hle, -⟩ := codepoint_advance c rest
      cases n with
      | zero => simp at hn
      | succ n =>
          have hlen : (emitted c rest).length = (codepoint c rest).2 := by
            rw [hemit, List.length_take]
            omega
          have hdrop : ((c :: rest).drop (codepoint c rest).2).length =
              (c :: rest).length - (codepoint c rest).2 := List.length_drop
          rw [decodeLoop, if_neg]
          · rw [ih n cap _ (by omega), List.append_assoc, hemit, List.take_append_drop]
            rw [List.length_append, hdrop, hlen]
            omega
          · rw [List.length_append, hlen]
            omega

/-- No text decodes to a longer one, and only a literal one to one as long. -/
theorem decodeLoop_length : ∀ (n : Nat) {cap : Int} {s out r : Bytes}, s.length ≤ n →
    decodeLoop cap n s out = some r →
      r.length ≤ out.length + s.length ∧ (r.length = out.length + s.length → Literal s) := by
  intro n
  induction n with
  | zero =>
      intro cap s out r hs h
      obtain rfl := List.length_eq_zero_iff.mp (Nat.le_zero.mp hs)
      obtain rfl := Option.some.inj h
      exact ⟨Nat.le_refl _, fun _ => .nil⟩
  | succ n ih =>
      intro cap s out r hs h
      cases s with
      | nil =>
          obtain rfl := Option.some.inj h
          exact ⟨Nat.le_refl _, fun _ => .nil⟩
      | cons c rest =>
          obtain ⟨hone, hle, -⟩ := codepoint_advance c rest
          obtain ⟨hshort, hsame⟩ := emitted_length c rest
          have hdrop : ((c :: rest).drop (codepoint c rest).2).length =
              (c :: rest).length - (codepoint c rest).2 := List.length_drop
          rw [decodeLoop] at h
          split_ifs at h
          obtain ⟨hlen, hlit⟩ := ih (by omega) h
          rw [List.length_append, hdrop] at hlen hlit
          exact ⟨by omega, fun heq => .step (hsame (by omega)) (hlit (by omega))⟩

/-! ## Texts in UTF-8 -/

/-- The UTF-8 of some characters. -/
def utf8 (cs : List Char) : Bytes := cs.flatMap String.utf8EncodeChar

/-- A character beyond ASCII that the alphabet uses for a byte. -/
def InAlphabet (c : Char) : Prop := 0xA1 ≤ c.toNat ∧ c.toNat ≤ 0x143 ∧ c.toNat ≠ 0xAD

section Utf8

/-- A byte that stands for itself in the walk. -/
theorem literal_alone {c : UInt8} {rest : Bytes} (h : codepoint c rest = (c.toNat, 1)) :
    Literal (c :: rest) ↔ Literal rest := by
  have hemit : emitted c rest = [c] := by
    unfold emitted
    rw [h]
    obtain hnone | hsome := u2b_byte c
    · rw [hnone]
      rfl
    · rw [hsome]
  constructor
  · intro hlit
    cases hlit with
    | step _ hrest =>
        rw [h] at hrest
        exact hrest
  · intro hrest
    refine .step ?_ ?_
    · rw [hemit, h]
      rfl
    · rw [h]
      exact hrest

theorem codepoint_ascii {c : UInt8} (h : c < 0x80) (rest : Bytes) : codepoint c rest = (c.toNat, 1) :=
  if_pos h

/-- A trail byte, and the lead of four, start nothing the walk knows. -/
theorem codepoint_alone {c : UInt8} (h2 : (c &&& 0xE0 == 0xC0) = false) (h3 : (c &&& 0xF0 == 0xE0) = false)
    (rest : Bytes) : codepoint c rest = (c.toNat, 1) := by
  unfold codepoint
  by_cases hc : c < 0x80
  · rw [if_pos hc]
  · rw [if_neg hc]
    match rest with
    | [] => rfl
    | [d] => simp only [h2, Bool.false_eq_true, if_false]
    | d :: e :: es => simp only [h2, h3, Bool.false_eq_true, if_false]

theorem codepoint_two {c d : UInt8} (hc : ¬ c < 0x80) (h2 : (c &&& 0xE0 == 0xC0) = true) (rest : Bytes) :
    codepoint c (d :: rest) = (((c &&& 0x1F).toNat <<< 6) ||| (d &&& 0x3F).toNat, 2) := by
  unfold codepoint
  rw [if_neg hc]
  cases rest <;> simp only [h2, if_true]

theorem codepoint_three {c d e : UInt8} (hc : ¬ c < 0x80) (h2 : (c &&& 0xE0 == 0xC0) = false)
    (h3 : (c &&& 0xF0 == 0xE0) = true) (rest : Bytes) : codepoint c (d :: e :: rest) =
      (((c &&& 0x0F).toNat <<< 12) ||| ((d &&& 0x3F).toNat <<< 6) ||| (e &&& 0x3F).toNat, 3) := by
  unfold codepoint
  rw [if_neg hc]
  simp only [h2, h3, Bool.false_eq_true, if_false, if_true]

theorem trail_facts : ∀ a < 64, ((UInt8.ofNat (a + 0x80)) &&& 0x3F).toNat = a ∧
    ((UInt8.ofNat (a + 0x80)) &&& 0xE0 == 0xC0) = false ∧
    ((UInt8.ofNat (a + 0x80)) &&& 0xF0 == 0xE0) = false := by
  decide +kernel

theorem lead2_facts : ∀ a < 32, ¬ UInt8.ofNat (a + 0xC0) < 0x80 ∧
    ((UInt8.ofNat (a + 0xC0)) &&& 0xE0 == 0xC0) = true ∧ ((UInt8.ofNat (a + 0xC0)) &&& 0x1F).toNat = a := by
  decide +kernel

theorem lead3_facts : ∀ a < 16, ¬ UInt8.ofNat (a + 0xE0) < 0x80 ∧
    ((UInt8.ofNat (a + 0xE0)) &&& 0xE0 == 0xC0) = false ∧ ((UInt8.ofNat (a + 0xE0)) &&& 0xF0 == 0xE0) = true ∧
    ((UInt8.ofNat (a + 0xE0)) &&& 0x0F).toNat = a := by
  decide +kernel

theorem lead4_facts : ∀ a < 8, ((UInt8.ofNat (a + 0xF0)) &&& 0xE0 == 0xC0) = false ∧
    ((UInt8.ofNat (a + 0xF0)) &&& 0xF0 == 0xE0) = false := by
  decide +kernel

/-- A codepoint of two bytes or more is copied through if and only if it is not of the alphabet. -/
theorem literal_taken {c : UInt8} {rest : Bytes} {n adv : Nat} (h : codepoint c rest = (n, adv)) (hadv : 2 ≤ adv) :
    Literal (c :: rest) ↔ u2b n = none ∧ Literal ((c :: rest).drop adv) := by
  obtain ⟨-, hle, -⟩ := codepoint_advance c rest
  constructor
  · intro hlit
    cases hlit with
    | step hemit hrest =>
        rw [h] at hle hemit hrest
        refine ⟨?_, hrest⟩
        cases hu : u2b n with
        | none => rfl
        | some byte =>
            unfold emitted at hemit
            rw [h, hu] at hemit
            have hlen := congrArg List.length hemit
            rw [List.length_take] at hlen
            simp only [List.length_singleton] at hlen
            omega
  · rintro ⟨hnone, hrest⟩
    refine .step ?_ ?_
    · unfold emitted
      rw [h, hnone]
    · rw [h]
      exact hrest

/-- **One character**: the walk copies it through, unless the alphabet has it. -/
theorem literal_char (c : Char) (rest : Bytes) :
    Literal (String.utf8EncodeChar c ++ rest) ↔ ¬ InAlphabet c ∧ Literal rest := by
  have hlt : c.val.toNat < 0x110000 := by
    have := c.valid
    rcases this with h | h
    · have h' : c.val.toNat < 0xd800 := h
      omega
    · exact h.2
  have hv : c.toNat = c.val.toNat := rfl
  unfold InAlphabet
  rw [hv]
  unfold String.utf8EncodeChar
  generalize c.val.toNat = v at hlt
  simp only
  split_ifs with h1 h2 h3
  · -- ASCII
    have hbyte : (UInt8.ofNat v).toNat = v := UInt8.toNat_ofNat_of_lt' (show v < 256 by omega)
    have hsmall : UInt8.ofNat v < 0x80 := by
      rw [UInt8.lt_iff_toNat_lt, hbyte]
      exact Nat.lt_succ_of_le h1
    rw [List.singleton_append, literal_alone (codepoint_ascii hsmall rest)]
    exact ⟨fun h => ⟨by omega, h⟩, fun h => h.2⟩
  · -- two bytes
    obtain ⟨hbig, hlead, ha⟩ := lead2_facts (v / 64 % 32) (by omega)
    obtain ⟨hd, -, -⟩ := trail_facts (v % 64) (by omega)
    have hcp : codepoint (UInt8.ofNat (v / 64 % 32 + 0xc0)) (UInt8.ofNat (v % 64 + 0x80) :: rest) = (v, 2) := by
      rw [codepoint_two hbig hlead, ha, hd, shift_or (by omega)]
      congr 1
      omega
    show Literal (UInt8.ofNat (v / 64 % 32 + 0xc0) :: UInt8.ofNat (v % 64 + 0x80) :: rest) ↔ _
    rw [literal_taken hcp (Nat.le_refl 2), u2b_eq_none (by omega)]
    rfl
  · -- three bytes
    obtain ⟨hbig, htwo, hthree, ha⟩ := lead3_facts (v / 4096 % 16) (by omega)
    obtain ⟨hd, -, -⟩ := trail_facts (v / 64 % 64) (by omega)
    obtain ⟨he, -, -⟩ := trail_facts (v % 64) (by omega)
    have hcp : codepoint (UInt8.ofNat (v / 4096 % 16 + 0xe0))
        (UInt8.ofNat (v / 64 % 64 + 0x80) :: UInt8.ofNat (v % 64 + 0x80) :: rest) = (v, 3) := by
      rw [codepoint_three hbig htwo hthree, ha, hd, he, Nat.or_assoc, shift_or (show v % 64 < 2 ^ 6 by omega),
        shift_or (show v / 64 % 64 * 2 ^ 6 + v % 64 < 2 ^ 12 by omega)]
      congr 1
      omega
    show Literal (UInt8.ofNat (v / 4096 % 16 + 0xe0) :: UInt8.ofNat (v / 64 % 64 + 0x80) ::
      UInt8.ofNat (v % 64 + 0x80) :: rest) ↔ _
    rw [literal_taken hcp (by omega), u2b_eq_none (by omega)]
    rfl
  · -- four bytes, each by itself
    obtain ⟨hl2, hl3⟩ := lead4_facts (v / 262144 % 8) (by omega)
    obtain ⟨-, hd2, hd3⟩ := trail_facts (v / 4096 % 64) (by omega)
    obtain ⟨-, he2, he3⟩ := trail_facts (v / 64 % 64) (by omega)
    obtain ⟨-, hf2, hf3⟩ := trail_facts (v % 64) (by omega)
    show Literal (UInt8.ofNat (v / 262144 % 8 + 0xf0) :: UInt8.ofNat (v / 4096 % 64 + 0x80) ::
      UInt8.ofNat (v / 64 % 64 + 0x80) :: UInt8.ofNat (v % 64 + 0x80) :: rest) ↔ _
    rw [literal_alone (codepoint_alone hl2 hl3 _), literal_alone (codepoint_alone hd2 hd3 _),
      literal_alone (codepoint_alone he2 he3 _), literal_alone (codepoint_alone hf2 hf3 _)]
    exact ⟨fun h => ⟨by omega, h⟩, fun h => h.2⟩

/-- **A text in UTF-8 is copied through if and only if the alphabet has none of its characters** beyond
ASCII. -/
theorem literal_utf8 (cs : List Char) : Literal (utf8 cs) ↔ ∀ c ∈ cs, ¬ InAlphabet c := by
  induction cs with
  | nil => exact iff_of_true .nil fun _ h => absurd h List.not_mem_nil
  | cons c cs ih =>
      unfold utf8 at ih ⊢
      rw [List.flatMap_cons, literal_char, ih, List.forall_mem_cons]

end Utf8

/-! ## A text -/

section Decode

variable {g : Formats.Gguf} {b : EngBpe}

theorem engBpeDecodeOne_text {id : Nat} (hid : id < b.tok.length) (cap : Int) :
    engBpeDecodeOne b id cap = decodeLoop cap (b.text id).length (b.text id) [] := by
  have hget : b.tok[id]? = some (b.text id) := by
    rw [EngBpe.text, List.getD_eq_getElem?_getD, List.getElem?_eq_getElem hid]
    rfl
  unfold engBpeDecodeOne
  rw [hget]

/-- **Along the split of a text**: if every special token in it is literal, its ids decode to it, and to
nothing as long if one is not. -/
theorem decode_occurs (h : engBpeFromGguf g = some b) {s : Bytes} {cs : List (Bytes × Nat)} {fin : Bytes}
    (hocc : Occurs b s cs fin) : ∀ {ids : List Nat} {cap : Int}, concatenated (textIds b) cs fin = some ids →
      (s.length : Int) ≤ cap →
        ((∀ x ∈ cs, Literal (b.text x.2)) → engBpeDecode b ids cap = some s) ∧
          ∀ r, engBpeDecode b ids cap = some r →
            r.length ≤ s.length ∧ (r.length = s.length → ∀ x ∈ cs, Literal (b.text x.2)) := by
  induction hocc with
  | last hno =>
      intro ids cap hids hcap
      have hdec := decode_textIds h _ hids hcap
      refine ⟨fun _ => hdec, fun r hr => ?_⟩
      obtain rfl := Option.some.inj (hdec.symm.trans hr)
      exact ⟨Nat.le_refl _, fun _ x hx => absurd hx List.not_mem_nil⟩
  | @next t rest id cs fin hbefore hl _ ih =>
      intro ids cap hids hcap
      rw [List.length_append, List.length_append] at hcap
      push_cast at hcap
      rw [concatenated] at hids
      obtain ⟨xs, hxs, hrest⟩ := Option.bind_eq_some_iff.mp hids
      obtain ⟨ys, hys, rfl⟩ := Option.map_eq_some_iff.mp hrest
      have hone := engBpeDecodeOne_text hl.found.lt (cap - t.length)
      have hdec : engBpeDecode b (xs ++ id :: ys) cap = (engBpeDecode b (id :: ys) (cap - t.length)).map (t ++ ·) := by
        rw [engBpeDecode_append, decode_textIds h t hxs (by omega), Option.bind_some]
      rw [hdec, engBpeDecode, hone]
      constructor
      · intro hlit
        obtain ⟨hid, hcs⟩ := List.forall_mem_cons.mp hlit
        rw [hid.decode _ _ [] (Nat.le_refl _) (by simp only [List.length_nil]; push_cast; omega)]
        simp only [List.nil_append]
        rw [(ih hys (by omega)).1 hcs]
        rfl
      · intro r hr
        cases hlook : decodeLoop (cap - t.length) (b.text id).length (b.text id) [] with
        | none => simp [hlook] at hr
        | some u =>
            rw [hlook] at hr
            simp only [Option.map_map] at hr
            obtain ⟨v, hv, rfl⟩ := Option.map_eq_some_iff.mp hr
            obtain ⟨hulen, hulit⟩ := decodeLoop_length _ (Nat.le_refl _) hlook
            rw [List.length_nil, Nat.zero_add] at hulen hulit
            obtain ⟨hvlen, hvlit⟩ := (ih hys (by omega)).2 v hv
            simp only [Function.comp, List.length_append]
            refine ⟨by omega, fun heq => List.forall_mem_cons.mpr ⟨hulit (by omega), hvlit (by omega)⟩⟩

end Decode

/-- No special token that occurs in the text has a character of the alphabet beyond ASCII. -/
def SpecialsApart (b : EngBpe) (text : Bytes) : Prop :=
  ∀ cs fin, Occurs b text cs fin → ∀ x ∈ cs, ∀ chars, b.text x.2 = utf8 chars → ∀ c ∈ chars, ¬ InAlphabet c

/-- **Decoding undoes encoding with special tokens exactly on the texts in which none occurs that has a
character from `U+00A1` to `U+0143`, the soft hyphen apart.** -/
theorem engBpeDecode_special_iff {g : Formats.Gguf} {b : EngBpe} (h : engBpeFromGguf g = some b)
    (hutf8 : ∀ id, b.Findable id → ∃ chars, b.text id = utf8 chars) {text : Bytes} {cap : Int} {ids : List Nat}
    (hids : engBpeEncode b text cap true = some ids) {cap' : Int} (hcap : (text.length : Int) ≤ cap') :
    engBpeDecode b ids cap' = some text ↔ SpecialsApart b text := by
  obtain ⟨cs, fin, hocc⟩ := exists_occurs h text.length text (Nat.le_refl _)
  have hwhole : engBpeEncode b text cap true = appendFitting cap [] (cutIds b cs fin) :=
    encodeLoop_cut (hocc.cut h) text.length [] (Nat.le_refl _)
  rw [hwhole, cutIds_eq, appendFitting_nil] at hids
  obtain ⟨hdec, hlen⟩ := decode_occurs h hocc hids.1 hcap
  have hlit : SpecialsApart b text ↔ ∀ x ∈ cs, Literal (b.text x.2) := by
    constructor
    · intro hapart x hx
      obtain ⟨chars, hchars⟩ := hutf8 x.2 (hocc.findable x hx)
      rw [hchars, literal_utf8]
      exact hapart cs fin hocc x hx chars hchars
    · intro hall cs' fin' hocc' x hx chars hchars
      obtain ⟨rfl, rfl⟩ := (hocc.cut h).unique (hocc'.cut h)
      have := hall x hx
      rwa [hchars, literal_utf8] at this
  rw [hlit]
  exact ⟨fun hsame => (hlen text hsame).2 rfl, hdec⟩

/-- The marks decode to themselves. -/
theorem markBpe_decodes : SpecialsApart markBpe (ascii "!<<a>a") ∧
    engBpeDecode markBpe [3, 1, 5, 0] 6 = some (ascii "!<<a>a") := by
  have hload : engBpeFromGguf markContainer = some markBpe := (Option.some_get _).symm
  have hfacts : markBpe.spec = [4, 5] ∧ markBpe.text 4 = utf8 "<a".toList ∧ markBpe.text 5 = utf8 "<a>".toList ∧
      engBpeEncode markBpe (ascii "!<<a>a") 4 true = some [3, 1, 5, 0] ∧
      engBpeDecode markBpe [3, 1, 5, 0] 6 = some (ascii "!<<a>a") := by
    decide +kernel
  obtain ⟨hspec, h4, h5, henc, hdec⟩ := hfacts
  have hutf8 : ∀ id, markBpe.Findable id → ∃ chars, markBpe.text id = utf8 chars := by
    intro id hid
    have hmem := (mem_spec hload).mpr hid
    rw [hspec] at hmem
    obtain rfl | hmem := List.mem_cons.mp hmem
    · exact ⟨_, h4⟩
    · obtain rfl := List.mem_singleton.mp hmem
      exact ⟨_, h5⟩
  exact ⟨(engBpeDecode_special_iff hload hutf8 henc (by decide)).mp hdec, hdec⟩

/-- A special token `"é"`, which the alphabet uses for the byte `0xE9`. -/
def accentContainer : Formats.Gguf := tableContainer [ascii "a", utf8 ['é']] [1, 3] [] []

def accentBpe : EngBpe := (engBpeFromGguf accentContainer).get (by decide +kernel)

/-- `"é"` is encoded as the special token, and that decodes to one byte, not to the two of its text. -/
theorem accent_lost : engBpeFromGguf accentContainer = some accentBpe ∧
    (∀ id, accentBpe.Findable id → accentBpe.text id = utf8 ['é']) ∧
    engBpeEncode accentBpe (utf8 ['é']) 1 true = some [1] ∧
    engBpeDecode accentBpe [1] 8 = some [0xE9] ∧ engBpeDecode accentBpe [1] 8 ≠ some (utf8 ['é']) := by
  have hload : engBpeFromGguf accentContainer = some accentBpe := (Option.some_get _).symm
  have hfacts : accentBpe.spec = [1] ∧ accentBpe.text 1 = utf8 ['é'] ∧
      engBpeEncode accentBpe (utf8 ['é']) 1 true = some [1] ∧
      engBpeDecode accentBpe [1] 8 = some [0xE9] ∧ engBpeDecode accentBpe [1] 8 ≠ some (utf8 ['é']) := by
    decide +kernel
  obtain ⟨hspec, htext, hrest⟩ := hfacts
  refine ⟨hload, fun id hid => ?_, hrest⟩
  have hmem := (mem_spec hload).mpr hid
  rw [hspec] at hmem
  obtain rfl := List.mem_singleton.mp hmem
  exact htext

end LlmEngine.Tokenizer
