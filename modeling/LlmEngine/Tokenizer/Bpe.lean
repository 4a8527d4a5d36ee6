/-
# LlmEngine.Tokenizer.Bpe — byte-level BPE: the tables, their loading, and decoding
(`src/tokenizer/bpe.c`).

The vocabulary is stored in the GPT-2 alphabet: every byte stands for a codepoint below `U+0200`, and
a token's stored text is the UTF-8 of those codepoints.  Two hash tables map stored texts to ids and
the concatenations of merge entries to ranks; in both the first of equal texts wins.

A C `int` that holds a length or an index is a natural number here: the header blob it comes from is
at most 256 MB.

* The tables are `Probe.Cells`; `mapGet_fill` is what a filled one answers, for texts of any number up to its room.
* `loadTokens_some` and `loadMerges_fill` are the two loading loops, by induction on what is left.
* `LoadedFrom` collects what a loaded tokenizer has from its container (`loadedFrom`), and `vocab_get` and `merge_eq`
  say what its tables answer.
* Decoding is `decodeLoop`: codepoint after codepoint, each as the byte it stands for or as it is written.

`tableContainer` builds a container from its tables, for the instances of later modules.
-/
import LlmEngine.Lib.Probe
import LlmEngine.Formats.Gguf

namespace LlmEngine.Tokenizer

open LlmEngine.Lib
open LlmEngine.Lib.LittleEndian
open LlmEngine.Formats

/-- The bytes of an ASCII literal. -/
def ascii (s : String) : Bytes := s.toList.map fun c => UInt8.ofNat c.toNat

/-! ## Hashing -/

/-- `hash_bytes`: FNV-1a. -/
def hashBytes (s : Bytes) : BitVec 64 :=
  s.foldl (fun h c => (h ^^^ c.toBitVec.setWidth 64) * 1099511628211) 1469598103934665603

/-- `Map`.  A table that was never set up has no cells. -/
abbrev Map := Probe.Cells Bytes Nat

/-- Where a text is sought first; reducing it by the capacity, a power of two, is `& (cap - 1)`. -/
def slotOf (s : Bytes) : Nat := (hashBytes s).toNat

/-- `while (cap < want * 2) cap <<= 1`, with `want` rounds to spare. -/
def mapCap (want : Nat) : Nat → Nat → Nat
  | 0, cap => cap
  | n + 1, cap => if cap < want * 2 then mapCap want n (cap * 2) else cap

/-- `map_init`. -/
def mapInit (want : Nat) : Map := List.replicate (mapCap want want 16) none

/-- `map_put`. -/
def mapPut (m : Map) (s : Bytes) (val : Nat) : Map := Probe.put slotOf m s val

/-- `map_get`; `none` is -1. -/
def mapGet (m : Map) (s : Bytes) : Option Nat := Probe.get slotOf m s

/-! ## The byte map -/

/-- The bytes that stand for themselves. -/
def standsForItself (c : Nat) : Bool :=
  (33 ≤ c && c ≤ 126) || (0xA1 ≤ c && c ≤ 0xAC) || (0xAE ≤ c && c ≤ 0xFF)

/-- `cps`: the others are numbered from `U+0100` on, in order. -/
def cps (c : Nat) : Nat :=
  if standsForItself c then c
  else 0x100 + ((List.range c).filter fun d => !standsForItself d).length

/-- `b2u`: the UTF-8 of a byte's codepoint, one byte or two. -/
def b2u (c : UInt8) : Bytes :=
  let cp := cps c.toNat
  if cp < 0x80 then [UInt8.ofNat cp]
  else [UInt8.ofNat (0xC0 ||| (cp >>> 6)), UInt8.ofNat (0x80 ||| (cp &&& 0x3F))]

/-- `u2b`: the last byte written to the codepoint's place, `none` where -1 was left. -/
def u2b (cp : Nat) : Option UInt8 :=
  if cp < 0x200 then
    ((List.range 256).reverse.find? fun c => cps c == cp).map UInt8.ofNat
  else none

/-! ## State -/

/-- `EngBpe`.  `tok` is indexed by id; `spec` lists the special tokens, `specFirst` their leading
bytes. -/
structure EngBpe where
  tok : List Bytes
  tokType : List Int
  vocab : Map
  merge : Map
  bos : Int
  eos : Int
  addBos : Int
  spec : List Nat
  specFirst : UInt8 → Bool

/-- `eng_bpe_is_special`: CONTROL or USER_DEFINED. -/
def isSpecialType (t : Int) : Bool := t == 3 || t == 4

def engBpeIsSpecial (b : EngBpe) (id : Nat) : Bool := isSpecialType (b.tokType.getD id 0)

/-- `eng_bpe_find`. -/
def engBpeFind (b : EngBpe) (text : Bytes) : Option Nat := mapGet b.vocab text

/-! ## Loading -/

/-- `used + len + 1 > pool_cap`. -/
def poolFull (poolCap used len : Nat) : Bool := used + len + 1 > poolCap

/-- The loop over the tokens: each is read, copied into the pool and entered under its index `i`. -/
def loadTokens (g : Gguf) (k : GgufKV) (poolCap : Nat) :
    Nat → Nat → Nat → List Bytes → Map → Option (List Bytes × Map × Nat)
  | 0, _, used, tok, m => some (tok, m, used)
  | n + 1, i, used, tok, m =>
      match ggufArrStr g k i with
      | none => none
      | some s =>
          if poolFull poolCap used s.length then none
          else loadTokens g k poolCap n (i + 1) (used + s.length + 1) (tok ++ [s]) (mapPut m s i)

/-- The text of a merge entry with its first space taken out; `none` where there is no space. -/
def mergeText (s : Bytes) : Option Bytes :=
  match s.span (· ≠ 32) with
  | (_, []) => none
  | (a, _ :: b) => some (a ++ b)

/-- The loop over the merges.  An unreadable entry and one without a space are passed over; a full
pool ends the loop. -/
def loadMerges (g : Gguf) (k : GgufKV) (poolCap : Nat) : Nat → Nat → Nat → Map → Map
  | 0, _, _, m => m
  | n + 1, i, used, m =>
      match (ggufArrStr g k i).bind mergeText with
      | none => loadMerges g k poolCap n (i + 1) used m
      | some ab =>
          if poolFull poolCap used ab.length then m
          else loadMerges g k poolCap n (i + 1) (used + ab.length + 1) (mapPut m ab i)

/-- `token_type`, a 32-bit integer for each token, wherever the array lies. -/
def loadTypes (g : Gguf) (k : GgufKV) (n : Nat) : List Int :=
  (List.range n).map fun i => (word 32 4 (g.blob.drop (k.arrData + 4 * i))).toInt

/-- An integer of the metadata as a C `int`. -/
def intOr (g : Gguf) (key : Bytes) (default : Int) : Int :=
  match ggufI64 g key with
  | none => default
  | some v => (BitVec.ofInt 32 v).toInt

/-- `eng_bpe_from_gguf`.  A negative count does not survive its `calloc`. -/
def engBpeFromGguf (g : Gguf) : Option EngBpe :=
  match ggufFind g (ascii "tokenizer.ggml.tokens") with
  | none => none
  | some ktok =>
      if ktok.type ≠ .array ∨ ktok.arrType ≠ .string then none
      else
        let nVocab := (BitVec.ofInt 32 ktok.arrLen).toInt
        if nVocab < 0 then none
        else
          let poolCap := g.blob.length + nVocab.toNat + 8
          match loadTokens g ktok poolCap nVocab.toNat 0 0 [] (mapInit nVocab.toNat) with
          | none => none
          | some (tok, vocab, used) =>
              let tokType :=
                match ggufFind g (ascii "tokenizer.ggml.token_type") with
                | none => List.replicate nVocab.toNat 0
                | some ktyp =>
                    if ktyp.type = .array ∧ ktyp.arrLen = ktok.arrLen then
                      loadTypes g ktyp nVocab.toNat
                    else List.replicate nVocab.toNat 0
              let merge :=
                match ggufFind g (ascii "tokenizer.ggml.merges") with
                | none => []
                | some kmrg =>
                    if kmrg.type = .array ∧ kmrg.arrType = .string then
                      loadMerges g kmrg poolCap kmrg.arrLen.toNat 0 used
                        (mapInit (BitVec.ofInt 32 kmrg.arrLen).toInt.toNat)
                    else []
              let spec := (List.range nVocab.toNat).filter fun i =>
                isSpecialType (tokType.getD i 0) && tok.getD i [] ≠ []
              some {
                tok := tok, tokType := tokType, vocab := vocab, merge := merge
                bos := intOr g (ascii "tokenizer.ggml.bos_token_id") (-1)
                eos := intOr g (ascii "tokenizer.ggml.eos_token_id") (-1)
                addBos := intOr g (ascii "tokenizer.ggml.add_bos_token") 0
                spec := spec
                specFirst := fun c => spec.any fun i => (tok.getD i []).head? == some c }

section Tables

/-- A table that is set up for `want` texts has room for them, and a cell to spare. -/
theorem mapCap_ge (want : Nat) : ∀ (n cap : Nat), 0 < cap → want * 2 ≤ cap * 2 ^ n →
    want * 2 ≤ mapCap want n cap ∧ 0 < mapCap want n cap := by
  intro n
  induction n with
  | zero =>
      intro cap hpos hle
      rw [Nat.pow_zero, Nat.mul_one] at hle
      exact ⟨hle, hpos⟩
  | succ n ih =>
      intro cap hpos hle
      rw [mapCap]
      split_ifs with hlt
      · apply ih (cap * 2) (by omega)
        rw [Nat.pow_succ] at hle
        rw [Nat.mul_assoc, Nat.mul_comm 2]
        exact hle
      · exact ⟨Nat.le_of_not_lt hlt, hpos⟩

/-- A capacity is a power of two. -/
theorem mapCap_pow (want n e : Nat) : ∃ e', mapCap want n (2 ^ e) = 2 ^ e' := by
  induction n generalizing e with
  | zero => exact ⟨e, rfl⟩
  | succ n ih =>
      rw [mapCap]
      split_ifs with hlt
      · rw [← Nat.pow_succ]
        exact ih (e + 1)
      · exact ⟨e, rfl⟩

theorem lt_mapCap (want : Nat) : want < mapCap want want 16 := by
  have hpow : want < 2 ^ want := Nat.lt_two_pow_self
  obtain ⟨hle, hpos⟩ := mapCap_ge want want 16 (by decide) (by omega)
  omega

/-- **A loaded table gives the first of equal texts.** -/
theorem mapGet_fill {want : Nat} (l : List (Bytes × Nat)) (hl : l.length ≤ want) (s : Bytes) :
    mapGet (Probe.fill slotOf (mapInit want) l) s = Probe.first l s :=
  Probe.get_fill slotOf l (Nat.lt_of_le_of_lt hl (lt_mapCap want)) s

end Tables

/-- **What the token loop leaves**: the strings in order, each entered under its index. -/
theorem loadTokens_some {g : Gguf} {k : GgufKV} {poolCap : Nat} (n : Nat) :
    ∀ {i used : Nat} {tok tok' : List Bytes} {m m' : Map} {used' : Nat},
      loadTokens g k poolCap n i used tok m = some (tok', m', used') →
      ∃ ts, tok' = tok ++ ts ∧ ts.length = n ∧ m' = Probe.fill slotOf m (ts.zipIdx i) ∧
        (∀ j < n, ggufArrStr g k (i + j) = ts[j]?) ∧
        used' = used + (ts.map (·.length + 1)).sum := by
  induction n with
  | zero =>
      intro i used tok tok' m m' used' h
      rw [loadTokens] at h
      simp only [Option.some.injEq, Prod.mk.injEq] at h
      obtain ⟨rfl, rfl, rfl⟩ := h
      exact ⟨[], by simp, rfl, rfl, fun j hj => absurd hj (Nat.not_lt_zero j), by simp⟩
  | succ n ih =>
      intro i used tok tok' m m' used' h
      rw [loadTokens] at h
      cases hs : ggufArrStr g k i with
      | none => simp [hs] at h
      | some s =>
          simp only [hs] at h
          split_ifs at h with hfull
          obtain ⟨ts, rfl, hlen, rfl, hat, rfl⟩ := ih h
          refine ⟨s :: ts, by simp, by simp [hlen], ?_, fun j hj => ?_, ?_⟩
          · rw [List.zipIdx_cons]
            rfl
          · cases j with
            | zero => exact hs
            | succ j =>
                rw [show i + (j + 1) = i + 1 + j by omega, hat j (by omega)]
                rfl
          · simp
            omega

/-- What a loaded tokenizer was loaded from. -/
structure LoadedFrom (g : Gguf) (b : EngBpe) (ktok : GgufKV) : Prop where
  find : ggufFind g (ascii "tokenizer.ggml.tokens") = some ktok
  strings : ktok.type = .array ∧ ktok.arrType = .string
  length : (b.tok.length : Int) = (BitVec.ofInt 32 ktok.arrLen).toInt
  texts : ∀ j < b.tok.length, ggufArrStr g ktok j = b.tok[j]?
  vocab : b.vocab = Probe.fill slotOf (mapInit b.tok.length) b.tok.zipIdx
  types : b.tokType = match ggufFind g (ascii "tokenizer.ggml.token_type") with
    | none => List.replicate b.tok.length 0
    | some ktyp =>
        if ktyp.type = .array ∧ ktyp.arrLen = ktok.arrLen then loadTypes g ktyp b.tok.length
        else List.replicate b.tok.length 0
  merge : b.merge = match ggufFind g (ascii "tokenizer.ggml.merges") with
    | none => []
    | some k =>
        if k.type = .array ∧ k.arrType = .string then
          loadMerges g k (g.blob.length + b.tok.length + 8) k.arrLen.toNat 0 (b.tok.map (·.length + 1)).sum
            (mapInit (BitVec.ofInt 32 k.arrLen).toInt.toNat)
        else []
  spec : b.spec = (List.range b.tok.length).filter fun i =>
    isSpecialType (b.tokType.getD i 0) && b.tok.getD i [] ≠ []
  specFirst : b.specFirst = fun c => b.spec.any fun i => (b.tok.getD i []).head? == some c

/-- **What `eng_bpe_from_gguf` does**, if it succeeds. -/
theorem loadedFrom {g : Gguf} {b : EngBpe} (h : engBpeFromGguf g = some b) : ∃ ktok, LoadedFrom g b ktok := by
  unfold engBpeFromGguf at h
  split at h
  · exact absurd h (by simp)
  · next ktok hktok =>
      simp only at h
      split_ifs at h with hty hneg
      split at h
      · exact absurd h (by simp)
      · next tok vocab used hload =>
          obtain ⟨ts, htok, hlen, hvocab, hat, hused⟩ := loadTokens_some _ hload
          rw [List.nil_append] at htok
          subst htok
          simp only [Nat.zero_add] at hat hused
          obtain rfl := Option.some.inj h
          refine ⟨ktok, hktok, by simpa [not_or] using hty, ?_, ?_, ?_, ?_, ?_, ?_, rfl⟩
          · show (tok.length : Int) = _
            omega
          · rw [← hlen] at hat
            exact hat
          · rw [← hlen] at hvocab
            exact hvocab
          · simp only [hlen]
          · simp only [hlen, hused]
          · simp only [hlen]

/-- **The vocabulary of a loaded tokenizer** gives the first id with a text. -/
theorem vocab_get {g : Gguf} {b : EngBpe} (h : engBpeFromGguf g = some b) (s : Bytes) :
    mapGet b.vocab s = b.tok.findIdx? (· == s) := by
  obtain ⟨ktok, hb⟩ := loadedFrom h
  rw [hb.vocab, mapGet_fill _ (by simp), Probe.first_zipIdx]
  simp [beq_eq_decide]

/-! ## The merge table -/

/-- The text of the merge entry at `i`, as it is stored. -/
def mergeEntry (g : Gguf) (i : Nat) : Option Bytes :=
  (ggufFind g (ascii "tokenizer.ggml.merges")).bind fun k => ggufArrStr g k i

/-- What an entry puts into the table: its text without the space, under its index. -/
def mergeRow (g : Gguf) (k : GgufKV) (i : Nat) : Option (Bytes × Nat) :=
  ((ggufArrStr g k i).bind mergeText).map (·, i)

/-- **What the merge loop leaves**: the rows in order, up to where the pool is full. -/
theorem loadMerges_fill (g : Gguf) (k : GgufKV) (poolCap n : Nat) :
    ∀ (i used : Nat) (m : Map), ∃ rows, rows <+: (List.range' i n).filterMap (mergeRow g k) ∧
      loadMerges g k poolCap n i used m = Probe.fill slotOf m rows := by
  induction n with
  | zero => intro i used m; exact ⟨[], List.nil_prefix, rfl⟩
  | succ n ih =>
      intro i used m
      rw [loadMerges, List.range'_succ]
      cases hrow : (ggufArrStr g k i).bind mergeText with
      | none =>
          have hno : mergeRow g k i = none := by simp [mergeRow, hrow]
          rw [List.filterMap_cons_none hno]
          exact ih (i + 1) used m
      | some ab =>
          have hyes : mergeRow g k i = some (ab, i) := by simp [mergeRow, hrow]
          rw [List.filterMap_cons_some hyes]
          simp only
          split_ifs with hfull
          · exact ⟨[], List.nil_prefix, rfl⟩
          · obtain ⟨rows, hpre, hfill⟩ := ih (i + 1) (used + ab.length + 1) (mapPut m ab i)
            exact ⟨(ab, i) :: rows, List.cons_prefix_cons.mpr ⟨rfl, hpre⟩, hfill⟩

/-- With room in the pool the loop takes every row. -/
theorem loadMerges_all (g : Gguf) (k : GgufKV) (poolCap n : Nat) : ∀ (i used : Nat) (m : Map),
    used + (((List.range' i n).filterMap (mergeRow g k)).map (·.1.length + 1)).sum ≤ poolCap →
      loadMerges g k poolCap n i used m =
        Probe.fill slotOf m ((List.range' i n).filterMap (mergeRow g k)) := by
  induction n with
  | zero => intro i used m _; rfl
  | succ n ih =>
      intro i used m hroom
      rw [List.range'_succ] at hroom ⊢
      rw [loadMerges]
      cases hrow : (ggufArrStr g k i).bind mergeText with
      | none =>
          have hno : mergeRow g k i = none := by simp [mergeRow, hrow]
          rw [List.filterMap_cons_none hno] at hroom ⊢
          exact ih (i + 1) used m hroom
      | some ab =>
          have hyes : mergeRow g k i = some (ab, i) := by simp [mergeRow, hrow]
          rw [List.filterMap_cons_some hyes, List.map_cons, List.sum_cons] at hroom
          rw [List.filterMap_cons_some hyes]
          simp only at hroom
          have hnot : poolFull poolCap used ab.length = false := by
            simp only [poolFull, decide_eq_false_iff_not]
            omega
          simp only [hnot, Bool.false_eq_true, if_false]
          exact ih (i + 1) (used + ab.length + 1) (mapPut m ab i) (by omega)

/-- Merges only come from the container's entry. -/
theorem merge_eq {g : Gguf} {b : EngBpe} (h : engBpeFromGguf g = some b) :
    b.merge = [] ∨ ∃ k poolCap used, ggufFind g (ascii "tokenizer.ggml.merges") = some k ∧
      b.merge = loadMerges g k poolCap k.arrLen.toNat 0 used
        (mapInit (BitVec.ofInt 32 k.arrLen).toInt.toNat) := by
  obtain ⟨ktok, hb⟩ := loadedFrom h
  rw [hb.merge]
  split
  · exact .inl rfl
  · next k hk =>
      split_ifs
      · exact .inr ⟨k, _, _, hk, rfl⟩
      · exact .inl rfl

/-- **A rank is the index of an entry with that text.** -/
theorem mergeEntry_of_get {g : Gguf} {b : EngBpe} (h : engBpeFromGguf g = some b) {s : Bytes}
    {r : Nat} (hget : mapGet b.merge s = some r) : (mergeEntry g r).bind mergeText = some s := by
  rcases merge_eq h with hnil | ⟨k, poolCap, used, hk, hload⟩
  · rw [hnil] at hget
    exact absurd hget (by simp [mapGet, Probe.get, Probe.seek])
  · obtain ⟨rows, hpre, hfill⟩ := loadMerges_fill g k poolCap k.arrLen.toNat 0 used
      (mapInit (BitVec.ofInt 32 k.arrLen).toInt.toNat)
    rw [hload, hfill] at hget
    have hmem := hpre.subset (Probe.mem_of_get_fill slotOf hget)
    obtain ⟨i, -, hrow⟩ := List.mem_filterMap.mp hmem
    obtain ⟨ab, hab, heq⟩ := Option.map_eq_some_iff.mp hrow
    obtain ⟨rfl, rfl⟩ := Prod.mk.inj heq
    unfold mergeEntry
    rw [hk, Option.bind_some]
    exact hab

/-- A container of nothing but a tokenizer: its tokens and their types, its merges, its template. -/
def tableContainer (tokens : List Bytes) (types : List Nat) (merges : List Bytes) (tpl : Bytes) :
    Gguf :=
  let tokenBytes := tokens.flatMap fun s => put 8 s.length ++ s
  let mergeBytes := merges.flatMap fun s => put 8 s.length ++ s
  let typeBytes := types.flatMap (put 4)
  { Gguf.zero 0 with
    blob := tokenBytes ++ mergeBytes ++ typeBytes ++ tpl
    kv := [
      { GgufKV.blank (ascii "tokenizer.ggml.tokens") .array with
        arrType := .string, arrLen := tokens.length, arrData := 0 },
      { GgufKV.blank (ascii "tokenizer.ggml.merges") .array with
        arrType := .string, arrLen := merges.length, arrData := tokenBytes.length },
      { GgufKV.blank (ascii "tokenizer.ggml.token_type") .array with
        arrType := .int32, arrLen := types.length
        arrData := tokenBytes.length + mergeBytes.length },
      { GgufKV.blank (ascii "tokenizer.chat_template") .string with
        str := some ⟨tokenBytes.length + mergeBytes.length + typeBytes.length, tpl.length⟩ }] }

/-! ## Decoding -/

/-- The codepoint at the front, and how many bytes it takes.  A byte that starts nothing stands for
itself. -/
def codepoint (c : UInt8) (rest : Bytes) : Nat × Nat :=
  if c < 0x80 then (c.toNat, 1)
  else
    match rest with
    | d :: e :: _ =>
        if c &&& 0xE0 == 0xC0 then (((c &&& 0x1F).toNat <<< 6) ||| (d &&& 0x3F).toNat, 2)
        else if c &&& 0xF0 == 0xE0 then
          (((c &&& 0x0F).toNat <<< 12) ||| ((d &&& 0x3F).toNat <<< 6) ||| (e &&& 0x3F).toNat, 3)
        else (c.toNat, 1)
    | [d] =>
        if c &&& 0xE0 == 0xC0 then (((c &&& 0x1F).toNat <<< 6) ||| (d &&& 0x3F).toNat, 2)
        else (c.toNat, 1)
    | [] => (c.toNat, 1)

/-- What a codepoint is written as: its byte, or itself unchanged if it is not of the alphabet. -/
def emitted (c : UInt8) (rest : Bytes) : Bytes :=
  match u2b (codepoint c rest).1 with
  | some byte => [byte]
  | none => (c :: rest).take (codepoint c rest).2

/-- The walk of `eng_bpe_decode_one` over a stored text, at most `n` codepoints. -/
def decodeLoop (cap : Int) : Nat → Bytes → Bytes → Option Bytes
  | n + 1, c :: rest, out =>
      if (out ++ emitted c rest).length > cap then none
      else decodeLoop cap n ((c :: rest).drop (codepoint c rest).2) (out ++ emitted c rest)
  | _, _, out => some out

/-- `eng_bpe_decode_one`; `none` is -1. -/
def engBpeDecodeOne (b : EngBpe) (id : Nat) (cap : Int) : Option Bytes :=
  match b.tok[id]? with
  | none => none
  | some s => decodeLoop cap s.length s []

/-- `eng_bpe_decode`. -/
def engBpeDecode (b : EngBpe) : List Nat → Int → Option Bytes
  | [], _ => some []
  | id :: ids, cap =>
      match engBpeDecodeOne b id cap with
      | none => none
      | some s => (engBpeDecode b ids (cap - s.length)).map (s ++ ·)

end LlmEngine.Tokenizer
