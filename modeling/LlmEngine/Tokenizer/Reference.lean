/-
# LlmEngine.Tokenizer.Reference — merging by concatenation against merging by pair.

Reference BPE joins the leftmost adjacent pair that is listed with the lowest rank.  `merge_fragment`
looks a pair up by the text it concatenates to, so it also joins a pair that is not listed where
another split of the same text is, and gives a listed pair the rank of an earlier entry with its text.
The loaded table is the merge list read by text (`merge_get`, whatever the container: its pool never
fills up); where reading by text and reading by pair choose alike along the reference's run, the
pieces are the reference's (`mergeFragment_reference`).

* `mergeFragment_reference` is the comparison: `ReadsAlike` asks for nothing outside the reference's own run, and
  the run is that of `Lib.PairMerge`, with the two ways of ranking a pair.
* `strings_count` and `tok_strings`: the tokens are the strings of their array, all of them.
* `pool_room`: tokens and merges together take no more than the pool, since both arrays lie in the header, apart
  (`Formats.GgufApart`).
* `merge_get`: so no entry of the merge list is left out.

`splitFile` is a container in which the two part for one fragment and agree on another.
-/
import LlmEngine.Formats.GgufApart
import LlmEngine.Formats.GgufEncode
import LlmEngine.Tokenizer.Pieces
import Mathlib.Algebra.Order.BigOperators.Group.List

namespace LlmEngine.Tokenizer

open LlmEngine.Lib
open LlmEngine.Lib.LittleEndian
open LlmEngine.Formats

/-! ## Merge lists -/

/-- A merge list: the pair of each entry, by rank.  An entry without a space takes up a rank and
joins nothing. -/
abbrev Merges := List (Option (Bytes × Bytes))

/-- The text that a pair makes up. -/
def catPair (p : Bytes × Bytes) : Bytes := p.1 ++ p.2

/-- The rank of a pair: the first entry that lists it. -/
def pairRank (ms : Merges) (x y : Bytes) : Option Nat := ms.findIdx? (· == some (x, y))

/-- The rank of a text: the first entry that makes it up, however it is split. -/
def textRank (ms : Merges) (s : Bytes) : Option Nat :=
  ms.findIdx? fun e => e.map catPair == some s

/-- Reading by text and reading by pair choose alike, in every state that reference BPE goes through
on the fragment. -/
def ReadsAlike (ms : Merges) (frag : Bytes) : Prop :=
  ∀ l, PairMerge.Visits (· ++ ·) (pairRank ms) (frag.map b2u) l →
    PairMerge.choose (fun x y => textRank ms (x ++ y)) l = PairMerge.choose (pairRank ms) l

/-- The two sides of an entry, at its first space. -/
def mergePair (s : Bytes) : Option (Bytes × Bytes) :=
  match s.span (· ≠ 32) with
  | (_, []) => none
  | (a, _ :: b) => some (a, b)

theorem mergeText_eq (s : Bytes) : mergeText s = (mergePair s).map catPair := by
  unfold mergeText mergePair
  generalize s.span (· ≠ 32) = sp
  rcases sp with ⟨a, _ | ⟨c, b⟩⟩ <;> rfl

/-- The space is the only byte that is lost. -/
theorem mergeText_length {s ab : Bytes} (h : mergeText s = some ab) : ab.length + 1 = s.length := by
  unfold mergeText at h
  split at h
  · exact absurd h (by simp)
  · next a c b hspan =>
      obtain rfl := Option.some.inj h
      have hs : a ++ c :: b = s := by
        have := List.span_eq_takeWhile_dropWhile (p := fun x : UInt8 => decide (x ≠ 32)) (l := s)
        rw [hspan] at this
        obtain ⟨rfl, hb⟩ := Prod.mk.inj this
        rw [hb, List.takeWhile_append_dropWhile]
      rw [← hs]
      simp
      omega

/-- How many entries the container's merge list has. -/
def mergeCount (g : Gguf) : Nat :=
  match ggufFind g (ascii "tokenizer.ggml.merges") with
  | none => 0
  | some k => k.arrLen.toNat

/-- The merge list of a container. -/
def mergeList (g : Gguf) : Merges :=
  (List.range (mergeCount g)).map fun i => (mergeEntry g i).bind mergePair

/-! ## What the arrays hold -/

section Arrays

variable {g₀ g : Gguf} {b : EngBpe} {k ktok : GgufKV}

theorem ggufArrStr_lt {i : Nat} {s : Bytes} (h : ggufArrStr g k i = some s) : i < k.arrLen.toNat := by
  unfold ggufArrStr at h
  split_ifs at h
  omega

/-- Only an array of strings has any. -/
theorem ggufArrStr_none (hstr : ¬ k.IsStrings) (i : Nat) : ggufArrStr g k i = none := by
  unfold ggufArrStr
  rw [if_pos]
  by_contra hno
  rw [not_or, not_ne_iff, not_ne_iff] at hno
  exact hstr hno

/-- A count of strings that a header holds survives its cast to `int`. -/
theorem strings_count (hparse : parseHeader g₀ = (.ok, g)) (hmax : g₀.blob.length ≤ hdrMax) {key : Bytes}
    (hk : ggufFind g key = some k) (hstr : k.IsStrings) (hpos : 0 ≤ k.arrLen) :
    (BitVec.ofInt 32 k.arrLen).toInt = k.arrLen := by
  obtain ⟨hlen, ⟨fin, hfin, -, hsum⟩, -⟩ := parseHeader_strings hparse hk hstr
  have height : (k.strings g.blob).length * 8 ≤ ((k.strings g.blob).map fun t => 8 + t.length).sum := by
    simp
  rw [← (parseHeader_laid hparse).1] at hmax
  unfold hdrMax at hmax
  rw [BitVec.toInt_ofInt, Int.bmod_eq_of_le (by omega) (by omega)]

/-- **The tokens are the strings of their array.** -/
theorem tok_strings (hparse : parseHeader g₀ = (.ok, g)) (hmax : g₀.blob.length ≤ hdrMax)
    (hb : LoadedFrom g b ktok) : b.tok = ktok.strings g.blob := by
  obtain ⟨hlen, -, hat⟩ := parseHeader_strings hparse hb.find hb.strings
  have hlt : ∀ j < b.tok.length, j < ktok.arrLen.toNat := fun j hj =>
    ggufArrStr_lt ((hb.texts j hj).trans (List.getElem?_eq_getElem hj))
  have hge : ktok.arrLen.toNat ≤ b.tok.length := by
    by_cases hpos : 0 ≤ ktok.arrLen
    · have hlength := hb.length
      rw [strings_count hparse hmax hb.find hb.strings hpos] at hlength
      omega
    · omega
  apply List.ext_getElem?
  intro j
  by_cases hj : j < b.tok.length
  · rw [← hb.texts j hj, hat j (hlt j hj)]
  · rw [List.getElem?_eq_none (by omega), List.getElem?_eq_none (by omega)]

/-! ## The pool -/

/-- What the merges take up of the pool, they take up of the header. -/
theorem mergeTexts_sum_le (ts : List Bytes) :
    ((ts.filterMap mergeText).map (·.length + 1)).sum ≤ (ts.map fun t => 8 + t.length).sum := by
  induction ts with
  | nil => simp
  | cons t ts ih =>
      rw [List.map_cons, List.sum_cons]
      cases ht : mergeText t with
      | none =>
          rw [List.filterMap_cons_none ht]
          omega
      | some ab =>
          have hab := mergeText_length ht
          rw [List.filterMap_cons_some ht, List.map_cons, List.sum_cons]
          omega

/-- And the tokens. -/
theorem texts_sum_le (ts : List Bytes) : (ts.map (·.length + 1)).sum ≤ (ts.map fun t => 8 + t.length).sum :=
  List.sum_le_sum fun t _ => by omega

/-- **The pool has room** for the tokens and the merges, whatever the container. -/
theorem pool_room (hparse : parseHeader g₀ = (.ok, g)) (hmax : g₀.blob.length ≤ hdrMax)
    (hb : LoadedFrom g b ktok) (hk : ggufFind g (ascii "tokenizer.ggml.merges") = some k) (hstr : k.IsStrings) :
    (b.tok.map (·.length + 1)).sum + (((k.strings g.blob).filterMap mergeText).map (·.length + 1)).sum ≤
      g.blob.length := by
  have hsum := strings_apart hparse (by decide) hb.find hk hb.strings hstr
  have htok := texts_sum_le (ktok.strings g.blob)
  have hmrg := mergeTexts_sum_le (k.strings g.blob)
  rw [tok_strings hparse hmax hb]
  omega

/-- The texts of the rows, where the array holds `ts`. -/
theorem rows_texts {ts : List Bytes} (hat : ∀ i < ts.length, ggufArrStr g k i = ts[i]?) :
    ((List.range' 0 ts.length).filterMap (mergeRow g k)).map (·.1) = ts.filterMap mergeText := by
  have hts : ts = (List.range ts.length).map fun i => ts.getD i [] := by
    apply List.ext_getElem (by simp)
    intro i hi _
    simp [hi]
  rw [List.map_filterMap, ← List.range_eq_range']
  conv_rhs => rw [hts, List.filterMap_map]
  apply List.filterMap_congr
  intro i hi
  have hlt := List.mem_range.mp hi
  have hdrop : ((fun row : Bytes × Nat => row.1) ∘ fun x => (x, i)) = id := rfl
  simp [mergeRow, hat i hlt, hlt, hdrop]

end Arrays

/-! ## The table -/

/-- The first row of a text, and the first entry that makes it up. -/
theorem first_rows (t : Nat → Option Bytes) (s : Bytes) : ∀ n i : Nat,
    Probe.first ((List.range' i n).filterMap fun j => (t j).map (·, j)) s =
      (((List.range' i n).map t).findIdx? (· == some s)).map (i + ·) := by
  intro n
  induction n with
  | zero => intro i; rfl
  | succ n ih =>
      intro i
      rw [List.range'_succ, List.map_cons, List.findIdx?_cons]
      cases ht : t i with
      | none =>
          simp only [List.filterMap_cons, ht, Option.map_none]
          rw [ih (i + 1)]
          cases ((List.range' (i + 1) n).map t).findIdx? (· == some s) with
          | none => simp
          | some j =>
              simp
              omega
      | some x =>
          simp only [List.filterMap_cons, ht, Option.map_some]
          by_cases hx : x = s
          · simp [Probe.first, hx]
          · have hskip : Probe.first ((x, i) :: (List.range' (i + 1) n).filterMap
                fun j => (t j).map (·, j)) s =
                Probe.first ((List.range' (i + 1) n).filterMap fun j => (t j).map (·, j)) s := by
              simp [Probe.first, hx]
            rw [hskip, ih (i + 1)]
            cases ((List.range' (i + 1) n).map t).findIdx? (· == some s) with
            | none => simp [hx]
            | some j =>
                simp [hx]
                omega

/-- **The merge table of an accepted header is its merge list, read by text.** -/
theorem merge_get {g₀ g : Gguf} {b : EngBpe} (hparse : parseHeader g₀ = (.ok, g))
    (hmax : g₀.blob.length ≤ hdrMax) (hb : engBpeFromGguf g = some b) (s : Bytes) :
    mapGet b.merge s = textRank (mergeList g) s := by
  obtain ⟨ktok, hfrom⟩ := loadedFrom hb
  have hlist : textRank (mergeList g) s =
      ((List.range (mergeCount g)).map fun i => (mergeEntry g i).bind mergeText).findIdx?
        (· == some s) := by
    unfold textRank mergeList
    rw [List.findIdx?_map, List.findIdx?_map]
    congr 1
    funext i
    simp only [Function.comp]
    rw [show mergeText = fun s => (mergePair s).map catPair from funext mergeText_eq,
      Option.map_bind]
    rfl
  rw [hlist, hfrom.merge]
  unfold mergeCount mergeEntry
  cases hk : ggufFind g (ascii "tokenizer.ggml.merges") with
  | none => rfl
  | some k =>
      simp only [Option.bind_some]
      by_cases hstr : k.IsStrings
      · rw [if_pos (by exact hstr)]
        obtain ⟨hms, -, hat⟩ := parseHeader_strings hparse hk hstr
        rw [← hms] at hat
        have htexts := rows_texts hat
        have hroom := pool_room hparse hmax hfrom hk hstr
        rw [← htexts, hms, List.map_map] at hroom
        rw [loadMerges_all _ _ _ _ _ _ _ (by exact Nat.le_trans hroom (by omega)), mapGet_fill,
          List.range_eq_range']
        · have hfirst := first_rows (fun i => (ggufArrStr g k i).bind mergeText) s k.arrLen.toNat 0
          simp only [Nat.zero_add, Option.map_id'] at hfirst
          exact hfirst
        · -- the table was set up for as many texts as there are entries
          have hle := List.length_filterMap_le (mergeRow g k) (List.range' 0 k.arrLen.toNat)
          rw [List.length_range'] at hle
          by_cases hpos : 0 ≤ k.arrLen
          · rw [strings_count hparse hmax hk hstr hpos]
            exact hle
          · omega
      · -- nothing can be read from it
        rw [if_neg (by exact hstr)]
        simp only [ggufArrStr_none hstr, Option.bind_none]
        simp [mapGet, Probe.get, Probe.seek]

/-! ## The pieces -/

/-- **When merging is reference BPE.**  `merge_fragment` joins the places that reference BPE over the
container's merge list joins, in the same order, exactly when reading the list by text and by pair
choose alike along the reference's run; the pieces it ends with are then the reference's. -/
theorem mergeFragment_reference (f : File) (g : Gguf) (b : EngBpe) (hopen : ggufOpen f = some g)
    (hb : engBpeFromGguf g = some b) (frag : Bytes) :
    (PairMerge.joined Sym.join (symRank b (frag.flatMap b2u)) (symsOf 0 frag) =
        PairMerge.joined (· ++ ·) (pairRank (mergeList g)) (frag.map b2u) ↔
      ReadsAlike (mergeList g) frag) ∧
    (ReadsAlike (mergeList g) frag →
      PairMerge.Reduces (· ++ ·) (pairRank (mergeList g)) (frag.map b2u)
        ((PairMerge.run Sym.join (symRank b (frag.flatMap b2u)) (symsOf 0 frag)).map
          (Sym.text (frag.flatMap b2u)))) := by
  have hrank : catRank b = fun x y => textRank (mergeList g) (x ++ y) := by
    funext x y
    obtain ⟨g₀, w, -, hw, hok⟩ := ggufOpen_attempt hopen
    refine merge_get hok ?_ hb (x ++ y)
    rw [List.length_take]
    omega
  rw [mergeFragment_joined, mergeFragment_pieces, pieces, hrank]
  refine ⟨PairMerge.joined_eq_iff, fun hread => ?_⟩
  rw [PairMerge.run_congr hread]
  exact PairMerge.reduces_iff.mpr rfl

theorem tokens_noNul : 0 ∉ ascii "tokenizer.ggml.tokens" := by decide

theorem merges_noNul : 0 ∉ ascii "tokenizer.ggml.merges" := by decide

/-- Five tokens, and the merges `"b c"` and `"ab c"`. -/
def splitHeader : Header where
  version := 3
  kv := [
    ⟨ascii "tokenizer.ggml.tokens", .strings (["a", "b", "c", "bc", "abc"].map ascii), tokens_noNul⟩,
    ⟨ascii "tokenizer.ggml.merges", .strings (["b c", "ab c"].map ascii), merges_noNul⟩]
  tensors := []
  version_ok := version_three
  kv_le := by decide
  tensors_le := by decide
  pow2 := ⟨5, by decide, by decide⟩

def splitFile : File where
  bytes := splitHeader.enc
  len_lt := by decide +kernel

def splitGguf : Gguf := (attempt splitFile (Gguf.zero 185) 185).2

def splitBpe : EngBpe := (engBpeFromGguf splitGguf).get (by decide +kernel)

theorem splitFile_opens : ggufOpen splitFile = some splitGguf :=
  ggufOpen_small (by decide +kernel) (by decide +kernel) (by decide +kernel)

theorem splitBpe_loads : engBpeFromGguf splitGguf = some splitBpe := (Option.some_get _).symm

/-- On `"bc"` the pair that is listed is the one that is looked up. -/
theorem splitBpe_reads_alike : ReadsAlike (mergeList splitGguf) [98, 99] := by
  intro l hvisit
  cases hvisit with
  | here => decide +kernel
  | @next _ _ i hlow hrest =>
      have hfirst : PairMerge.choose (pairRank (mergeList splitGguf)) ([98, 99].map b2u) = some 0 := by
        decide +kernel
      obtain rfl : i = 0 := Option.some.inj ((PairMerge.choose_iff.mpr hlow).symm.trans hfirst)
      cases hrest with
      | here => decide +kernel
      | next hlow' _ =>
          have hlt := hlow'.lt
          exact absurd hlt (by simp [PairMerge.joinAt])

/-- `"bc"` is joined as the reference joins it. -/
theorem splitBpe_reference : ggufOpen splitFile = some splitGguf ∧
    engBpeFromGguf splitGguf = some splitBpe ∧
    PairMerge.Reduces (· ++ ·) (pairRank (mergeList splitGguf)) [[98], [99]]
      ((PairMerge.run Sym.join (symRank splitBpe [98, 99]) (symsOf 0 [98, 99])).map
        (Sym.text [98, 99])) :=
  ⟨splitFile_opens, splitBpe_loads,
    (mergeFragment_reference splitFile splitGguf splitBpe splitFile_opens splitBpe_loads
      [98, 99]).2 splitBpe_reads_alike⟩

/-- On `"abc"` both join `"b c"` first.  The reference then stops, since `"a bc"` is not listed; the
code finds its text under `"ab c"` and joins it. -/
theorem splitBpe_not_reference : ggufOpen splitFile = some splitGguf ∧
    engBpeFromGguf splitGguf = some splitBpe ∧
    (PairMerge.run Sym.join (symRank splitBpe [97, 98, 99]) (symsOf 0 [97, 98, 99])).map
      (Sym.text [97, 98, 99]) = [[97, 98, 99]] ∧
    PairMerge.Reduces (· ++ ·) (pairRank (mergeList splitGguf)) [[97], [98], [99]] [[97], [98, 99]] ∧
    ¬ PairMerge.Reduces (· ++ ·) (pairRank (mergeList splitGguf)) [[97], [98], [99]]
      ((PairMerge.run Sym.join (symRank splitBpe [97, 98, 99]) (symsOf 0 [97, 98, 99])).map
        (Sym.text [97, 98, 99])) := by
  refine ⟨splitFile_opens, splitBpe_loads, by decide +kernel, ?_, ?_⟩
  · rw [PairMerge.reduces_iff]
    decide +kernel
  · rw [PairMerge.reduces_iff]
    decide +kernel

end LlmEngine.Tokenizer
