/-
# LlmEngine.Tokenizer.Tables — the tables of a tokenizer against the arrays of its container.

`eng_bpe_from_gguf` takes the tokens and the merges as the strings they are, with room in its pool for
all of them.  `tokenizer.ggml.token_type` it takes for 32-bit integers, whatever element type the array
declares: of narrower elements the loop reads past the array, and of wider ones the halves.

What an array declares is its elements in the order of their type; a float or a string is no integer,
as for `kv_is_int`.

* `intAt` is an element as the array declares it, `typeWord` the word the loop reads in its place.
* `fitsInt_iff`: which arrays are read as they are declared, by the element type and, for 64-bit elements, by what
  they hold (`halves_match`).
* `reads_declared` and `size_of_reads`: four bytes or more keep the reads inside the array, and nothing less does.
* `tables_declared_iff` adds tokens and merges, for which nothing has to be asked.

`wideTypes` and `byteTypes` are arrays of either kind.
-/
import LlmEngine.Tokenizer.Reference

namespace LlmEngine.Tokenizer

open LlmEngine.Lib
open LlmEngine.Lib.LittleEndian
open LlmEngine.Formats

/-! ## What the arrays declare -/

/-- Where the payload of an array ends. -/
def declaredEnd (blob : Bytes) (k : GgufKV) : Nat :=
  if k.arrType = .string then k.arrData + ((k.strings blob).map fun t => 8 + t.length).sum
  else k.arrData + scalarSize k.arrType * k.arrLen.toNat

/-- The byte at `p` is of the array. -/
def Declares (blob : Bytes) (k : GgufKV) (p : Nat) : Prop := k.arrData ≤ p ∧ p < declaredEnd blob k

/-- Element `i` of an array, if its type is one of the integer types. -/
def intAt (blob : Bytes) (k : GgufKV) (i : Nat) : Option Int :=
  let bs := blob.drop (k.arrData + scalarSize k.arrType * i)
  match k.arrType with
  | .uint8 => some (word 8 1 bs).toNat
  | .int8 => some (word 8 1 bs).toInt
  | .uint16 => some (word 16 2 bs).toNat
  | .int16 => some (word 16 2 bs).toInt
  | .uint32 => some (word 32 4 bs).toNat
  | .int32 => some (word 32 4 bs).toInt
  | .uint64 => some (word 64 8 bs).toNat
  | .int64 => some (word 64 8 bs).toInt
  | .bool => some (if word 8 1 bs ≠ 0 then 1 else 0)
  | .float32 | .float64 | .string | .array => none

/-- `token_type`, where it is an array of as many elements as there are tokens. -/
def typeArray (g : Gguf) (ktok : GgufKV) : Option GgufKV :=
  (ggufFind g (ascii "tokenizer.ggml.token_type")).filter fun k => k.type = .array ∧ k.arrLen = ktok.arrLen

/-- The type of token `i`; 0 where the container has none. -/
def declaredType (g : Gguf) (ktok : GgufKV) (i : Nat) : Option Int :=
  match typeArray g ktok with
  | none => some 0
  | some k => intAt g.blob k i

/-- The strings of the merges, where they are strings. -/
def mergeStrings (g : Gguf) : List Bytes :=
  match ggufFind g (ascii "tokenizer.ggml.merges") with
  | none => []
  | some k => if k.type = .array ∧ k.arrType = .string then k.strings g.blob else []

/-- What `eng_bpe_from_gguf` reads of the arrays: the strings that `gguf_arr_str` hands out, with their
lengths in front, and four bytes for each type. -/
inductive Reads (g : Gguf) (ktok : GgufKV) : GgufKV → Nat → Prop
  | token {i p : Nat} {sp : Span} : i < ktok.arrLen.toNat → arrWalk g i ⟨ktok.arrData, false⟩ = some sp →
      sp.off ≤ p + 8 → p < sp.off + sp.len → Reads g ktok ktok p
  | merge {k : GgufKV} {i p : Nat} {sp : Span} : ggufFind g (ascii "tokenizer.ggml.merges") = some k →
      k.IsStrings → i < k.arrLen.toNat → arrWalk g i ⟨k.arrData, false⟩ = some sp →
      sp.off ≤ p + 8 → p < sp.off + sp.len → Reads g ktok k p
  | type {k : GgufKV} {i p : Nat} : typeArray g ktok = some k → i < ktok.arrLen.toNat →
      k.arrData + 4 * i ≤ p → p < k.arrData + 4 * i + 4 → Reads g ktok k p

/-- **The tables are those of the container.** -/
structure TablesDeclared (g : Gguf) (b : EngBpe) (ktok : GgufKV) : Prop where
  texts : b.tok = ktok.strings g.blob
  types : b.tokType.length = b.tok.length ∧
    ∀ i < b.tok.length, declaredType g ktok i = some (b.tokType.getD i 0)
  reads : ∀ k p, Reads g ktok k p → Declares g.blob k p
  merges : ∀ s, mapGet b.merge s = (mergeStrings g).findIdx? fun t => mergeText t == some s
  pool : (b.tok.map (·.length + 1)).sum + (((mergeStrings g).filterMap mergeText).map (·.length + 1)).sum ≤
    g.blob.length + b.tok.length + 8
  find : ∀ s, engBpeFind b s = b.tok.findIdx? (· == s)

/-! ## The condition -/

/-- The upper half of a number of 64 bits that fits 32. -/
def signOf (v : Int) : Int := if v < 0 then -1 else 0

/-- The elements are the 32-bit integers from the start of the array on. -/
def FitsInt (blob : Bytes) (k : GgufKV) : Prop :=
  match k.arrType with
  | .int32 => True
  | .uint32 => ∀ i < k.arrLen.toNat, ∃ v < 2 ^ 31, intAt blob k i = some v
  | .int64 | .uint64 =>
      ∃ v, -2 ^ 31 ≤ v ∧ v < 2 ^ 31 ∧ intAt blob k 0 = some v ∧
        ∀ i, 0 < i → i < k.arrLen.toNat → intAt blob k i = some (signOf v)
  | _ => False

/-- There are no types, or they are taken for what they are. -/
def TypesFit (g : Gguf) (ktok : GgufKV) : Prop := ∀ k, typeArray g ktok = some k → FitsInt g.blob k

/-! ## Elements of 64 bits -/

section Halves

/-- A signed number that fits 32 bits, in halves. -/
theorem signed_halves (hi lo : BitVec 32) {x : Int} (hmin : -2 ^ 31 ≤ x) (hmax : x < 2 ^ 31) :
    (hi ++ lo).toInt = x ↔ lo.toInt = x ∧ hi.toInt = signOf x := by
  have hnat : (hi ++ lo).toNat = hi.toNat * 2 ^ 32 + lo.toNat := by
    rw [BitVec.toNat_append, shift_or lo.isLt]
  have hwhole := BitVec.toInt_eq_toNat_cond (hi ++ lo)
  have hlow := BitVec.toInt_eq_toNat_cond lo
  have hhigh := BitVec.toInt_eq_toNat_cond hi
  have hlo := lo.isLt
  have hhi := hi.isLt
  rw [hnat] at hwhole
  unfold signOf
  split_ifs at hwhole hlow hhigh ⊢ <;> omega

/-- An unsigned one. -/
theorem unsigned_halves (hi lo : BitVec 32) {x : Int} (hmin : 0 ≤ x) (hmax : x < 2 ^ 31) :
    ((hi ++ lo).toNat : Int) = x ↔ lo.toInt = x ∧ hi.toInt = signOf x := by
  have hnat : (hi ++ lo).toNat = hi.toNat * 2 ^ 32 + lo.toNat := by
    rw [BitVec.toNat_append, shift_or lo.isLt]
  have hlow := BitVec.toInt_eq_toNat_cond lo
  have hhigh := BitVec.toInt_eq_toNat_cond hi
  have hlo := lo.isLt
  have hhi := hi.isLt
  rw [hnat]
  unfold signOf
  split_ifs at hlow hhigh ⊢ <;> omega

/-- **Numbers that are the halves they are made of**: the first fits, and the others are its sign.  `v` are
the numbers, `w` the halves, `m` the least number. -/
theorem halves_match {n : Nat} (hn : 0 < n) {m : Int} (hzero : m ≤ -1 ∨ m = 0) {v w : Nat → Int}
    (hw : ∀ i, -2 ^ 31 ≤ w i ∧ w i < 2 ^ 31) (hm : ∀ i, -2 ^ 31 ≤ v i → m ≤ v i)
    (hsplit : ∀ j x, m ≤ x → -2 ^ 31 ≤ x → x < 2 ^ 31 → (v j = x ↔ w (2 * j) = x ∧ w (2 * j + 1) = signOf x)) :
    (∃ x, -2 ^ 31 ≤ x ∧ x < 2 ^ 31 ∧ v 0 = x ∧ ∀ i, 0 < i → i < n → v i = signOf x) ↔
      ∀ i < n, v i = w i := by
  have hidem : ∀ x, signOf (signOf x) = signOf x := by
    intro x
    unfold signOf
    split_ifs <;> omega
  have hrange : ∀ x, -2 ^ 31 ≤ signOf x ∧ signOf x < 2 ^ 31 ∧ (m ≤ x → m ≤ signOf x) := by
    intro x
    unfold signOf
    split_ifs <;> omega
  constructor
  · rintro ⟨_, hmin, hmax, rfl, h⟩ i hi
    obtain ⟨hlo, hhi⟩ := (hsplit 0 (v 0) (hm 0 hmin) hmin hmax).mp rfl
    have hsign : ∀ j, 0 < j → j < n → w (2 * j) = signOf (v 0) ∧ w (2 * j + 1) = signOf (v 0) := by
      intro j hj hjn
      obtain ⟨hr, hr', hrm⟩ := hrange (v 0)
      have hhalves := (hsplit j (signOf (v 0)) (hrm (hm 0 hmin)) hr hr').mp (h j hj hjn)
      rwa [hidem] at hhalves
    obtain ⟨j, rfl | rfl⟩ : ∃ j, i = 2 * j ∨ i = 2 * j + 1 := ⟨i / 2, by omega⟩
    · by_cases hj : j = 0
      · rw [hj]
        exact hlo.symm
      · rw [h _ (by omega) hi, (hsign j (by omega) (by omega)).1]
    · by_cases hj : j = 0
      · rw [hj, h 1 (by omega) (by omega)]
        exact hhi.symm
      · rw [h _ (by omega) hi, (hsign j (by omega) (by omega)).2]
  · intro h
    have hfit : ∀ i < n, m ≤ v i ∧ -2 ^ 31 ≤ v i ∧ v i < 2 ^ 31 := by
      intro i hi
      have hlo : -2 ^ 31 ≤ v i := (h i hi).symm ▸ (hw i).1
      exact ⟨hm i hlo, hlo, (h i hi).symm ▸ (hw i).2⟩
    obtain ⟨-, hmin, hmax⟩ := hfit 0 hn
    refine ⟨v 0, hmin, hmax, rfl, fun i => ?_⟩
    -- the half at `i` is of the number at `i / 2`, which is known by then
    induction i using Nat.strong_induction_on with
    | _ i ih =>
        intro hpos hi
        obtain ⟨j, rfl | rfl⟩ : ∃ j, i = 2 * j ∨ i = 2 * j + 1 := ⟨i / 2, by omega⟩
        · obtain ⟨hfm, hf, hf'⟩ := hfit j (by omega)
          rw [h _ hi, ((hsplit j (v j) hfm hf hf').mp rfl).1]
          exact ih j (by omega) (by omega) (by omega)
        · obtain ⟨hfm, hf, hf'⟩ := hfit j (by omega)
          rw [h _ hi, ((hsplit j (v j) hfm hf hf').mp rfl).2]
          by_cases hj : j = 0
          · rw [hj]
          · rw [ih j (by omega) (by omega) (by omega), hidem]

end Halves

/-! ## The types -/

section Types

variable {blob : Bytes} {k : GgufKV}

/-- The 32-bit integer at `i`, as the loop over the types takes it. -/
def typeWord (blob : Bytes) (k : GgufKV) (i : Nat) : Int := (word 32 4 (blob.drop (k.arrData + 4 * i))).toInt

theorem typeWord_range (i : Nat) : -2 ^ 31 ≤ typeWord blob k i ∧ typeWord blob k i < 2 ^ 31 :=
  ⟨BitVec.le_toInt _, BitVec.toInt_lt⟩

/-- The halves of element `j` of 64 bits. -/
theorem halves_at (j : Nat) : word 64 8 (blob.drop (k.arrData + 8 * j)) =
    word 32 4 (blob.drop (k.arrData + 4 * (2 * j + 1))) ++ word 32 4 (blob.drop (k.arrData + 4 * (2 * j))) := by
  rw [word64_halves, List.drop_drop, show k.arrData + 8 * j + 4 = k.arrData + 4 * (2 * j + 1) by ring,
    show k.arrData + 8 * j = k.arrData + 4 * (2 * j) by ring]

/-- **Which arrays the loop reads as they are declared**: those of integers of four bytes or more whose elements
are the words. -/
theorem fitsInt_iff (hn : 0 < k.arrLen.toNat) : FitsInt blob k ↔
    4 ≤ scalarSize k.arrType ∧ ∀ i < k.arrLen.toNat, intAt blob k i = some (typeWord blob k i) := by
  unfold FitsInt intAt typeWord
  cases hty : k.arrType with
  | int32 => exact iff_of_true trivial ⟨by decide, fun i _ => rfl⟩
  | uint8 | int8 | uint16 | int16 | bool => exact iff_of_false id fun h => absurd h.1 (by decide)
  | float32 | float64 => exact iff_of_false id fun h => absurd (h.2 0 hn) (by simp)
  | string | array => exact iff_of_false id fun h => absurd h.1 (by decide)
  | uint32 =>
      simp only [scalarSize, Option.some.injEq]
      have hword : ∀ x : BitVec 32, (∃ v < 2 ^ 31, (x.toNat : Int) = v) ↔ (x.toNat : Int) = x.toInt := by
        intro x
        have hcond := BitVec.toInt_eq_toNat_cond x
        have hlt := x.isLt
        constructor
        · rintro ⟨v, hv, hx⟩
          split_ifs at hcond <;> omega
        · intro hx
          exact ⟨_, by have := BitVec.toInt_lt (x := x); omega, rfl⟩
      constructor
      · exact fun h => ⟨by decide, fun i hi => (hword _).mp (h i hi)⟩
      · exact fun h i hi => (hword _).mpr (h.2 i hi)
  | int64 =>
      simp only [scalarSize, Option.some.injEq]
      have hsplit : ∀ (j : Nat) (x : Int), -2 ^ 31 ≤ x → -2 ^ 31 ≤ x → x < 2 ^ 31 →
          ((word 64 8 (blob.drop (k.arrData + 8 * j))).toInt = x ↔
            typeWord blob k (2 * j) = x ∧ typeWord blob k (2 * j + 1) = signOf x) := by
        intro j x _ hmin hmax
        rw [halves_at]
        exact signed_halves _ _ hmin hmax
      have hmatch := halves_match hn (.inl (by decide)) typeWord_range (fun i h => h) hsplit
      exact ⟨fun h => ⟨by decide, hmatch.mp h⟩, fun h => hmatch.mpr h.2⟩
  | uint64 =>
      simp only [scalarSize, Option.some.injEq]
      have hsplit : ∀ (j : Nat) (x : Int), 0 ≤ x → -2 ^ 31 ≤ x → x < 2 ^ 31 →
          (((word 64 8 (blob.drop (k.arrData + 8 * j))).toNat : Int) = x ↔
            typeWord blob k (2 * j) = x ∧ typeWord blob k (2 * j + 1) = signOf x) := by
        intro j x hzero _ hmax
        rw [halves_at]
        exact unsigned_halves _ _ hzero hmax
      have hmatch := halves_match hn (.inr rfl) typeWord_range (fun i _ => Int.natCast_nonneg _) hsplit
      exact ⟨fun h => ⟨by decide, hmatch.mp h⟩, fun h => hmatch.mpr h.2⟩

end Types

/-! ## The tables -/

section Loaded

variable {g₀ g : Gguf} {b : EngBpe} {ktok : GgufKV}

theorem tokType_eq (hb : LoadedFrom g b ktok) : b.tokType = match typeArray g ktok with
    | none => List.replicate b.tok.length 0
    | some k => loadTypes g k b.tok.length := by
  rw [hb.types]
  unfold typeArray
  cases ggufFind g (ascii "tokenizer.ggml.token_type") with
  | none => rfl
  | some k =>
      simp only [Option.filter_some]
      by_cases hk : k.type = .array ∧ k.arrLen = ktok.arrLen
      · rw [if_pos hk, if_pos (decide_eq_true hk)]
      · rw [if_neg hk, if_neg (by simpa using hk)]

theorem typeArray_len {k : GgufKV} (h : typeArray g ktok = some k) : k.arrLen = ktok.arrLen := by
  have hk := (Option.filter_eq_some_iff.mp h).2
  exact (of_decide_eq_true hk).2

/-- **The types are those declared** exactly if the words of the array are its elements. -/
theorem types_iff (hb : LoadedFrom g b ktok) (hlen : b.tok.length = ktok.arrLen.toNat) :
    (b.tokType.length = b.tok.length ∧
      ∀ i < b.tok.length, declaredType g ktok i = some (b.tokType.getD i 0)) ↔
    ∀ k, typeArray g ktok = some k →
      ∀ i < k.arrLen.toNat, intAt g.blob k i = some (typeWord g.blob k i) := by
  rw [tokType_eq hb]
  unfold declaredType
  cases hk : typeArray g ktok with
  | none =>
      refine iff_of_true ⟨by simp, fun i hi => ?_⟩ fun k h => absurd h (by simp)
      simp [hi]
  | some k =>
      have hn : b.tok.length = k.arrLen.toNat := by rw [typeArray_len hk, hlen]
      have hget : ∀ i < k.arrLen.toNat, (loadTypes g k k.arrLen.toNat).getD i 0 = typeWord g.blob k i := by
        intro i hi
        simp [loadTypes, hi, typeWord]
      simp only [hn]
      constructor
      · rintro ⟨-, h⟩ k' hk' i hi
        obtain rfl := Option.some.inj hk'
        rw [← hget i hi]
        exact h i hi
      · intro h
        refine ⟨by simp [loadTypes], fun i hi => ?_⟩
        rw [hget i hi]
        exact h k rfl i hi

/-! ## What is read -/

/-- A string that is handed out lies in its array, its length in front of it. -/
theorem string_declared (hparse : parseHeader g₀ = (.ok, g)) {key : Bytes} {k : GgufKV}
    (hk : ggufFind g key = some k) (hstr : k.IsStrings) {i p : Nat} {sp : Span} (hi : i < k.arrLen.toNat)
    (hwalk : arrWalk g i ⟨k.arrData, false⟩ = some sp) (hlo : sp.off ≤ p + 8) (hhi : p < sp.off + sp.len) :
    Declares g.blob k p := by
  obtain ⟨-, ⟨fin, -, hend, hsum⟩, -⟩ := parseHeader_strings hparse hk hstr
  obtain ⟨q, q', hq, hone, hrest⟩ := skipStrs_at hend hi
  rw [arrWalk_eq, hq, Option.bind_some, hone] at hwalk
  obtain rfl := Option.some.inj hwalk
  obtain ⟨hq', -⟩ := skipStr_some hone
  have hbefore := (skipStrs_texts g i hq).1
  have hafter := (skipStrs_texts g _ hrest).1
  unfold Declares declaredEnd
  rw [if_pos hstr.2, ← hsum]
  simp only at hlo hhi
  omega

/-- **Elements of four bytes or more** are all that keeps the reads within the arrays. -/
theorem reads_declared (hparse : parseHeader g₀ = (.ok, g)) (htok : ggufFind g (ascii "tokenizer.ggml.tokens") = some ktok)
    (hstr : ktok.IsStrings) (hwide : ∀ k, typeArray g ktok = some k → 4 ≤ scalarSize k.arrType)
    {k : GgufKV} {p : Nat} (h : Reads g ktok k p) : Declares g.blob k p := by
  cases h with
  | token hi hwalk hlo hhi => exact string_declared hparse htok hstr hi hwalk hlo hhi
  | merge hk hstr hi hwalk hlo hhi => exact string_declared hparse hk hstr hi hwalk hlo hhi
  | @type _ i _ hk hi hlo hhi =>
      have hsize := hwide k hk
      have hmul : 4 * (i + 1) ≤ scalarSize k.arrType * k.arrLen.toNat :=
        Nat.mul_le_mul hsize (by rw [typeArray_len hk]; omega)
      unfold Declares declaredEnd
      rw [if_neg fun hs => by simp [hs, scalarSize] at hsize]
      omega

/-- The last byte of the types is of the array only if its elements take four bytes. -/
theorem size_of_reads (hne : 0 < ktok.arrLen) (h : ∀ k p, Reads g ktok k p → Declares g.blob k p)
    {k : GgufKV} (hk : typeArray g ktok = some k) (hty : k.arrType ≠ .string) :
    4 ≤ scalarSize k.arrType := by
  have hlast : Reads g ktok k (k.arrData + 4 * (ktok.arrLen.toNat - 1) + 3) :=
    .type (i := ktok.arrLen.toNat - 1) hk (by omega) (by omega) (by omega)
  have hend := (h k _ hlast).2
  unfold declaredEnd at hend
  rw [if_neg hty, typeArray_len hk] at hend
  by_contra hsmall
  have hmul : scalarSize k.arrType * ktok.arrLen.toNat ≤ 3 * ktok.arrLen.toNat :=
    Nat.mul_le_mul_right _ (by omega)
  omega

/-! ## The merges -/

/-- The rank of a text is the index of the first string that makes it up. -/
theorem textRank_strings (hparse : parseHeader g₀ = (.ok, g)) (s : Bytes) :
    textRank (mergeList g) s = (mergeStrings g).findIdx? fun t => mergeText t == some s := by
  unfold textRank mergeList mergeStrings mergeCount mergeEntry
  cases hk : ggufFind g (ascii "tokenizer.ggml.merges") with
  | none => rfl
  | some k =>
      simp only [Option.bind_some]
      by_cases hstr : k.IsStrings
      · obtain ⟨hlen, -, hat⟩ := parseHeader_strings hparse hk hstr
        have hlist : (List.range k.arrLen.toNat).map (fun i => (ggufArrStr g k i).bind mergePair) =
            (k.strings g.blob).map mergePair := by
          apply List.ext_getElem (by simp [hlen])
          intro i hi hi'
          have hlt : i < k.arrLen.toNat := by simpa using hi
          simp [hat i hlt, hlen, hlt]
        rw [if_pos (by exact hstr), hlist, List.findIdx?_map]
        congr 1
        funext t
        rw [mergeText_eq]
        rfl
      · rw [if_neg (by exact hstr)]
        simp [ggufArrStr_none hstr]

/-- Without an array of merges there is nothing to enter. -/
theorem pool_bound (hparse : parseHeader g₀ = (.ok, g)) (hmax : g₀.blob.length ≤ hdrMax)
    (hb : LoadedFrom g b ktok) :
    (b.tok.map (·.length + 1)).sum + (((mergeStrings g).filterMap mergeText).map (·.length + 1)).sum ≤
      g.blob.length + b.tok.length + 8 := by
  have hnone : (b.tok.map (·.length + 1)).sum ≤ g.blob.length := by
    obtain ⟨-, ⟨fin, hfin, -, hsum⟩, -⟩ := parseHeader_strings hparse hb.find hb.strings
    have htexts := texts_sum_le (ktok.strings g.blob)
    rw [tok_strings hparse hmax hb]
    omega
  unfold mergeStrings
  cases hk : ggufFind g (ascii "tokenizer.ggml.merges") with
  | none =>
      simp only [List.filterMap_nil, List.map_nil, List.sum_nil]
      omega
  | some k =>
      by_cases hstr : k.IsStrings
      · have hroom := pool_room hparse hmax hb hk hstr
        simp only [if_pos (show k.type = .array ∧ k.arrType = .string from hstr)]
        omega
      · simp only [if_neg (show ¬(k.type = .array ∧ k.arrType = .string) from hstr), List.filterMap_nil,
          List.map_nil, List.sum_nil]
        omega

end Loaded

/-- **When the tables are those of the container.**  For every header that `parse_header` accepts and every
tokenizer that is loaded from it: exactly when the types are 32-bit integers, or cannot be told from them.
Everything else holds of every container. -/
theorem tables_declared_iff {g₀ g : Gguf} {b : EngBpe} {ktok : GgufKV} (hparse : parseHeader g₀ = (.ok, g))
    (hmax : g₀.blob.length ≤ hdrMax) (htok : ggufFind g (ascii "tokenizer.ggml.tokens") = some ktok)
    (hne : 0 < ktok.arrLen) (hload : engBpeFromGguf g = some b) :
    TablesDeclared g b ktok ↔ TypesFit g ktok := by
  obtain ⟨ktok', hb⟩ := loadedFrom hload
  obtain rfl : ktok' = ktok := Option.some.inj (hb.find.symm.trans htok)
  have htexts := tok_strings hparse hmax hb
  have hlen : b.tok.length = ktok'.arrLen.toNat := by
    rw [htexts]
    exact (parseHeader_strings hparse hb.find hb.strings).1
  have hcount : ∀ k, typeArray g ktok' = some k → 0 < k.arrLen.toNat := by
    intro k hk
    rw [typeArray_len hk]
    omega
  constructor
  · intro h k hk
    have hwords := (types_iff hb hlen).mp h.types k hk
    have hty : k.arrType ≠ .string := by
      intro hstr
      have hzero := hwords 0 (hcount k hk)
      unfold intAt at hzero
      rw [hstr] at hzero
      exact absurd hzero (by simp)
    exact (fitsInt_iff (hcount k hk)).mpr ⟨size_of_reads hne h.reads hk hty, hwords⟩
  · intro h
    have hfit : ∀ k, typeArray g ktok' = some k → 4 ≤ scalarSize k.arrType ∧
        ∀ i < k.arrLen.toNat, intAt g.blob k i = some (typeWord g.blob k i) := fun k hk =>
      (fitsInt_iff (hcount k hk)).mp (h k hk)
    exact {
      texts := htexts
      types := (types_iff hb hlen).mpr fun k hk => (hfit k hk).2
      reads := fun k p hr => reads_declared hparse hb.find hb.strings (fun k hk => (hfit k hk).1) hr
      merges := fun s => (merge_get hparse hmax hload s).trans (textRank_strings hparse s)
      pool := pool_bound hparse hmax hb
      find := fun s => vocab_get hload s }

/-- Three tokens, a merge, and the types as they are given. -/
def typedHeader (types : Value) : Header where
  version := 3
  kv := [
    ⟨ascii "tokenizer.ggml.tokens", .strings (["a", "b", "ab"].map ascii), tokens_noNul⟩,
    ⟨ascii "tokenizer.ggml.merges", .strings (["a b"].map ascii), merges_noNul⟩,
    ⟨ascii "tokenizer.ggml.token_type", types, by decide⟩]
  tensors := []
  version_ok := version_three
  kv_le := by simp
  tensors_le := by simp
  pow2 := ⟨5, by decide, rfl⟩

def typedBlob (types : Value) : Gguf := { Gguf.zero 0 with blob := (typedHeader types).enc }

def typedGguf (types : Value) : Gguf := (parseHeader (typedBlob types)).2

/-- The first token is a control token. -/
def wideTypes : Value := .array .int32 (by decide) [⟨.int32 3, rfl⟩, ⟨.int32 1, rfl⟩, ⟨.int32 1, rfl⟩]

/-- The same, a byte each. -/
def byteTypes : Value := .array .uint8 (by decide) [⟨.uint8 3, rfl⟩, ⟨.uint8 1, rfl⟩, ⟨.uint8 1, rfl⟩]

theorem typed_parses (types : Value) (h : (parseHeader (typedBlob types)).1 = .ok) :
    parseHeader (typedBlob types) = (.ok, typedGguf types) := Prod.ext h rfl

def wideTokens : GgufKV :=
  (ggufFind (typedGguf wideTypes) (ascii "tokenizer.ggml.tokens")).get (by decide +kernel)

def wideBpe : EngBpe := (engBpeFromGguf (typedGguf wideTypes)).get (by decide +kernel)

/-- Types of four bytes each are taken as they are. -/
theorem wideBpe_declared : TablesDeclared (typedGguf wideTypes) wideBpe wideTokens := by
  have htok : ggufFind (typedGguf wideTypes) (ascii "tokenizer.ggml.tokens") = some wideTokens :=
    (Option.some_get _).symm
  have hload : engBpeFromGguf (typedGguf wideTypes) = some wideBpe := (Option.some_get _).symm
  refine (tables_declared_iff (typed_parses wideTypes (by decide +kernel)) (by decide +kernel) htok
    (by decide +kernel) hload).mpr fun k hk => ?_
  have hty : (typeArray (typedGguf wideTypes) wideTokens).map (·.arrType) = some .int32 := by decide +kernel
  rw [hk, Option.map_some, Option.some.injEq] at hty
  unfold FitsInt
  rw [hty]
  trivial

def byteTokens : GgufKV :=
  (ggufFind (typedGguf byteTypes) (ascii "tokenizer.ggml.tokens")).get (by decide +kernel)

def byteBpe : EngBpe := (engBpeFromGguf (typedGguf byteTypes)).get (by decide +kernel)

/-- Of a byte each, the control token is none, and the last type is read behind the header. -/
theorem byteBpe_misread : parseHeader (typedBlob byteTypes) = (.ok, typedGguf byteTypes) ∧
    engBpeFromGguf (typedGguf byteTypes) = some byteBpe ∧
    declaredType (typedGguf byteTypes) byteTokens 0 = some 3 ∧ byteBpe.tokType.getD 0 0 = 0x010103 ∧
    (∃ k p, Reads (typedGguf byteTypes) byteTokens k p ∧ (typedGguf byteTypes).blob.length ≤ p) ∧
    ¬ TablesDeclared (typedGguf byteTypes) byteBpe byteTokens := by
  have hthree : declaredType (typedGguf byteTypes) byteTokens 0 = some 3 := by decide +kernel
  have hword : byteBpe.tokType.getD 0 0 = 0x010103 := by decide +kernel
  have hlast : (typeArray (typedGguf byteTypes) byteTokens).map (fun k => k.arrData + 3) =
      some (typedGguf byteTypes).blob.length := by decide +kernel
  obtain ⟨k, hk, hend⟩ := Option.map_eq_some_iff.mp hlast
  refine ⟨typed_parses byteTypes (by decide +kernel), (Option.some_get _).symm, hthree, hword,
    ⟨k, k.arrData + 11, .type (i := 2) hk (by decide +kernel) (by omega) (by omega), by omega⟩, fun h => ?_⟩
  have hzero := h.types.2 0 (by decide +kernel)
  rw [hthree, hword] at hzero
  exact absurd hzero (by decide)

end LlmEngine.Tokenizer
