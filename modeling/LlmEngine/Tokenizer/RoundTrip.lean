/-
# LlmEngine.Tokenizer.RoundTrip — decoding undoes encoding of ordinary text.

The byte map is inverted codepoint by codepoint, a piece is the byte-mapped text of consecutive bytes
whatever was merged, and an id's stored text is the piece it was looked up by.

* `u2b_cps` and `codepoint_b2u`: a mapped byte is read back, whatever follows it; `decodeLoop_mapped` is a whole stored
  text.
* `pieces_grouped`: merging neither drops, duplicates nor moves a byte, so a fragment's pieces are its bytes in
  groups.
* `tok_of_get`: an id's stored text is the text it was found by.
* `decode_textIds` puts them together for the ids of a text, and `engBpeDecode_encode` with the capacities of the calls.
-/
import LlmEngine.Tokenizer.Pieces

namespace LlmEngine.Tokenizer

open LlmEngine.Lib
open LlmEngine.Lib.LittleEndian

/-! ## The byte map -/

/-- The codepoints in closed form. -/
theorem cps_eq : ∀ c < 256, cps c =
    if c < 33 then 256 + c
    else if c ≤ 126 then c
    else if c ≤ 160 then 162 + c
    else if c = 173 then 323
    else c := by
  decide +kernel

theorem cps_inj {c d : Nat} (hc : c < 256) (hd : d < 256) (h : cps c = cps d) : c = d := by
  rw [cps_eq c hc, cps_eq d hd] at h
  split_ifs at h <;> omega

/-- **The inverse is right on every byte.** -/
theorem u2b_cps (c : UInt8) : u2b (cps c.toNat) = some c := by
  have hc : c.toNat < 256 := c.toNat_lt
  have hlt : cps c.toNat < 0x200 := by
    rw [cps_eq _ hc]
    split_ifs <;> omega
  unfold u2b
  rw [if_pos hlt]
  cases hfind : (List.range 256).reverse.find? fun d => cps d == cps c.toNat with
  | none =>
      have hno := List.find?_eq_none.mp hfind c.toNat (by simpa using hc)
      exact absurd (beq_self_eq_true _) hno
  | some d =>
      have hd : d < 256 := by simpa using List.mem_of_find?_eq_some hfind
      have hbeq := List.find?_some hfind
      rw [cps_inj hd hc (beq_iff_eq.mp hbeq), Option.map_some, UInt8.ofNat_toNat]

/-- How a byte is written: one byte below 0x80, or a lead and a trail that spell its codepoint. -/
def spells (bs : Bytes) (cp : Nat) : Bool :=
  match bs with
  | [x] => x < 0x80 && x.toNat == cp
  | [x, d] => !(x < 0x80) && x &&& 0xE0 == 0xC0 &&
      (((x &&& 0x1F).toNat <<< 6) ||| (d &&& 0x3F).toNat) == cp
  | _ => false

theorem b2u_spells (c : UInt8) : spells (b2u c) (cps c.toNat) = true := by
  apply forall_byte (P := fun c => spells (b2u c) (cps c.toNat) = true)
  decide +kernel

/-- **The decoder's UTF-8 step reads a mapped byte back**, whatever follows it. -/
theorem codepoint_b2u (c : UInt8) (rest : Bytes) : ∃ x xs, b2u c ++ rest = x :: xs ∧
    codepoint x xs = (cps c.toNat, (b2u c).length) := by
  have h := b2u_spells c
  generalize b2u c = bs at h ⊢
  match bs, h with
  | [x], h =>
      simp only [spells, Bool.and_eq_true, decide_eq_true_eq, beq_iff_eq] at h
      refine ⟨x, rest, rfl, ?_⟩
      unfold codepoint
      rw [if_pos h.1, h.2]
      rfl
  | [x, d], h =>
      simp only [spells, Bool.and_eq_true, Bool.not_eq_true', decide_eq_false_iff_not] at h
      obtain ⟨⟨hbig, hlead⟩, hcp⟩ := h
      refine ⟨x, d :: rest, rfl, ?_⟩
      -- the two-byte branch is taken, with or without a byte behind it
      cases rest with
      | nil =>
          rw [codepoint, if_neg hbig]
          simp only [hlead, if_true, beq_iff_eq.mp hcp]
          rfl
      | cons e es =>
          rw [codepoint, if_neg hbig]
          simp only [hlead, if_true, beq_iff_eq.mp hcp]
          rfl

theorem length_le_mapped (bs : Bytes) : bs.length ≤ (bs.flatMap b2u).length := by
  induction bs with
  | nil => simp
  | cons c cs ih =>
      have hpos : 1 ≤ (b2u c).length := by
        unfold b2u
        simp only
        split_ifs <;> simp
      rw [List.flatMap_cons, List.length_append, List.length_cons]
      omega

/-- **A stored text decodes to the bytes it stands for.** -/
theorem decodeLoop_mapped (bs : Bytes) : ∀ (n : Nat) (cap : Int) (out : Bytes), bs.length ≤ n →
    (out.length + bs.length : Int) ≤ cap →
    decodeLoop cap n (bs.flatMap b2u) out = some (out ++ bs) := by
  induction bs with
  | nil =>
      intro n cap out _ _
      cases n <;> simp [decodeLoop]
  | cons c cs ih =>
      intro n cap out hn hcap
      rw [List.length_cons] at hn hcap
      cases n with
      | zero => omega
      | succ n =>
          obtain ⟨x, xs, hx, hcp⟩ := codepoint_b2u c (cs.flatMap b2u)
          have hemit : emitted x xs = [c] := by
            unfold emitted
            rw [hcp, u2b_cps]
          have hdrop : (x :: xs).drop (codepoint x xs).2 = cs.flatMap b2u := by
            rw [hcp, ← hx]
            exact List.drop_left' rfl
          rw [List.flatMap_cons, hx, decodeLoop, hemit, hdrop, if_neg]
          · rw [ih n cap (out ++ [c]) (by omega)]
            · rw [List.append_assoc]
              rfl
            · simp only [List.length_append, List.length_cons, List.length_nil]
              push_cast at hcap ⊢
              omega
          · simp only [List.length_append, List.length_cons, List.length_nil]
            push_cast at hcap ⊢
            omega

/-! ## Pieces -/

/-- The pieces of a fragment are the mapped texts of consecutive groups of its bytes. -/
def Grouped (frag : Bytes) (ps : List Bytes) : Prop :=
  ∃ gs : List Bytes, ps = gs.map (·.flatMap b2u) ∧ gs.flatten = frag

theorem joinAt_groups (gs : List Bytes) : ∀ i : Nat,
    PairMerge.joinAt (· ++ ·) i (gs.map (·.flatMap b2u)) =
        (PairMerge.joinAt (· ++ ·) i gs).map (·.flatMap b2u) ∧
      (PairMerge.joinAt (· ++ ·) i gs).flatten = gs.flatten := by
  induction gs with
  | nil =>
      intro i
      cases i <;> exact ⟨rfl, rfl⟩
  | cons x xs ih =>
      intro i
      cases i with
      | succ i =>
          obtain ⟨hmap, hflat⟩ := ih i
          constructor
          · show _ :: _ = _ :: _
            rw [hmap]
          · show x ++ (PairMerge.joinAt (· ++ ·) i xs).flatten = x ++ xs.flatten
            rw [hflat]
      | zero =>
          cases xs with
          | nil => exact ⟨rfl, rfl⟩
          | cons y rest =>
              constructor
              · show (x.flatMap b2u ++ y.flatMap b2u) :: _ = ((x ++ y).flatMap b2u) :: _
                rw [List.flatMap_append]
              · show (x ++ y) ++ rest.flatten = x ++ (y ++ rest.flatten)
                rw [List.append_assoc]

/-- **Merging neither drops, duplicates nor moves a byte.** -/
theorem pieces_grouped (b : EngBpe) (frag : Bytes) : Grouped frag (pieces b frag) := by
  apply PairMerge.run_keeps (I := Grouped frag)
  · rintro ps i ⟨gs, rfl, hflat⟩ -
    obtain ⟨hmap, hflat'⟩ := joinAt_groups gs i
    exact ⟨PairMerge.joinAt (· ++ ·) i gs, hmap, hflat'.trans hflat⟩
  · refine ⟨frag.map fun c => [c], ?_, ?_⟩
    · rw [List.map_map]
      apply List.map_congr_left
      intro c _
      simp
    · induction frag with
      | nil => rfl
      | cons c cs ih =>
          rw [List.map_cons, List.flatten_cons, ih]
          rfl

/-! ## Ids -/

section Ids

variable {g : Formats.Gguf} {b : EngBpe}

/-- **An id's stored text is the text it was found by.** -/
theorem tok_of_get (h : engBpeFromGguf g = some b) {s : Bytes} {id : Nat}
    (hget : mapGet b.vocab s = some id) : b.tok[id]? = some s := by
  rw [vocab_get h] at hget
  obtain ⟨hlt, hs, -⟩ := List.findIdx?_eq_some_iff_getElem.mp hget
  rw [List.getElem?_eq_getElem hlt, beq_iff_eq.mp hs]

theorem engBpeDecode_append (xs ys : List Nat) : ∀ cap : Int,
    engBpeDecode b (xs ++ ys) cap =
      (engBpeDecode b xs cap).bind fun s => (engBpeDecode b ys (cap - s.length)).map (s ++ ·) := by
  induction xs with
  | nil =>
      intro cap
      simp [engBpeDecode]
  | cons x xs ih =>
      intro cap
      simp only [List.cons_append, engBpeDecode]
      cases engBpeDecodeOne b x cap with
      | none => rfl
      | some s =>
          simp only [ih]
          cases engBpeDecode b xs (cap - s.length) with
          | none => rfl
          | some t =>
              simp only [Option.bind_some, Option.map_some, Option.map_map, List.length_append]
              have hcap : cap - (s.length : Int) - t.length = cap - ((s.length + t.length : Nat) : Int) := by
                push_cast
                omega
              rw [hcap]
              congr 1
              funext u
              simp

theorem decode_groups (h : engBpeFromGguf g = some b) (gs : List Bytes) :
    ∀ {ids : List Nat} {cap : Int}, (gs.map (·.flatMap b2u)).mapM (mapGet b.vocab) = some ids →
      (gs.flatten.length : Int) ≤ cap → engBpeDecode b ids cap = some gs.flatten := by
  induction gs with
  | nil =>
      intro ids cap hids _
      obtain rfl := Option.some.inj hids
      rfl
  | cons x xs ih =>
      intro ids cap hids hcap
      rw [List.map_cons, List.mapM_cons] at hids
      cases hx : mapGet b.vocab (x.flatMap b2u) with
      | none => simp [hx] at hids
      | some id =>
          cases hxs : (xs.map (·.flatMap b2u)).mapM (mapGet b.vocab) with
          | none => simp [hx, hxs] at hids
          | some rest =>
              simp only [hx, hxs, Option.bind_eq_bind, Option.bind_some, Option.pure_def,
                Option.some.injEq] at hids
              obtain rfl := hids
              rw [List.flatten_cons, List.length_append] at hcap
              push_cast at hcap
              have hone : engBpeDecodeOne b id cap = some x := by
                unfold engBpeDecodeOne
                rw [tok_of_get h hx]
                simp only
                rw [decodeLoop_mapped x _ cap [] (length_le_mapped x) (by simp; omega)]
                rfl
              rw [engBpeDecode, hone]
              simp only [ih hxs (show (xs.flatten.length : Int) ≤ cap - x.length by omega)]
              rfl

theorem decode_fragIds (h : engBpeFromGguf g = some b) {frag : Bytes} {ids : List Nat} {cap : Int}
    (hids : fragIds b frag = some ids) (hcap : (frag.length : Int) ≤ cap) :
    engBpeDecode b ids cap = some frag := by
  unfold fragIds at hids
  split_ifs at hids
  obtain ⟨gs, hps, rfl⟩ := pieces_grouped b frag
  rw [hps] at hids
  exact decode_groups h gs hids hcap

/-- Fragment by fragment, along the text. -/
theorem decode_textIds (h : engBpeFromGguf g = some b) (s : Bytes) :
    ∀ {ids : List Nat} {cap : Int}, textIds b s = some ids → (s.length : Int) ≤ cap →
      engBpeDecode b ids cap = some s := by
  induction s using Tiling.tiling_induction nextFragment_advances with
  | nil =>
      intro ids cap hids _
      obtain rfl := Option.some.inj hids
      rfl
  | step s hs ih =>
      intro ids cap hids hcap
      obtain ⟨hpos, hle⟩ := nextFragment_advances s hs
      rw [textIds_step hs] at hids
      obtain ⟨xs, hxs, hrest⟩ := Option.bind_eq_some_iff.mp hids
      obtain ⟨ys, hys, rfl⟩ := Option.map_eq_some_iff.mp hrest
      have hfirst : engBpeDecode b xs cap = some (s.take (nextFragment s)) :=
        decode_fragIds h hxs (by rw [List.length_take]; omega)
      rw [engBpeDecode_append, hfirst, Option.bind_some, ih hys, Option.map_some,
        List.take_append_drop]
      rw [List.length_drop, List.length_take]
      omega

end Ids

/-- **Decoding undoes encoding.**  The loop ends, since every round takes at least one byte; the
fragments are not empty and tile the text; the pieces of a fragment are the mapped texts of
consecutive groups of its bytes; and the ids decode to the text. -/
theorem engBpeDecode_encode (g : Formats.Gguf) (b : EngBpe) (h : engBpeFromGguf g = some b)
    (text : Bytes) (cap : Int) :
    (∀ s, s ≠ [] → 0 < nextFragment s ∧ nextFragment s ≤ s.length) ∧
    (∀ n, text.length ≤ n → encodeLoop b cap false n text [] = engBpeEncode b text cap false) ∧
    (fragments text).flatten = text ∧
    (∀ f ∈ fragments text, f ≠ [] ∧ Grouped f (pieces b f)) ∧
    ∀ ids, engBpeEncode b text cap false = some ids → ∀ cap' : Int, (text.length : Int) ≤ cap' →
      engBpeDecode b ids cap' = some text := by
  refine ⟨nextFragment_advances, fun n hn => ?_, fragments_flatten text, fun f hf => ?_,
    fun ids hids cap' hcap => ?_⟩
  · rw [encodeLoop_plain n text [] hn, engBpeEncode_eq]
  · exact ⟨Tiling.tiling_ne_nil nextFragment_advances text f hf, pieces_grouped b f⟩
  · rw [engBpeEncode_eq] at hids
    obtain ⟨ids', htext, hfit⟩ := Option.bind_eq_some_iff.mp hids
    split_ifs at hfit
    obtain rfl := Option.some.inj hfit
    exact decode_textIds h text htext hcap

/-- Three tokens, `"a"`, `"b"` and `"ab"`, and the merge of the first two. -/
def tinyContainer : Formats.Gguf :=
  { Formats.Gguf.zero 0 with
    blob := [1, 0, 0, 0, 0, 0, 0, 0, 97, 1, 0, 0, 0, 0, 0, 0, 0, 98,
      2, 0, 0, 0, 0, 0, 0, 0, 97, 98, 3, 0, 0, 0, 0, 0, 0, 0, 97, 32, 98]
    kv := [
      { Formats.GgufKV.blank (ascii "tokenizer.ggml.tokens") .array with
        arrType := .string, arrLen := 3, arrData := 0 },
      { Formats.GgufKV.blank (ascii "tokenizer.ggml.merges") .array with
        arrType := .string, arrLen := 1, arrData := 28 }] }

def tinyBpe : EngBpe := (engBpeFromGguf tinyContainer).get (by decide +kernel)

/-- `"aba"` is the ids 2 and 0, and these decode to it. -/
theorem tinyBpe_round_trip : engBpeFromGguf tinyContainer = some tinyBpe ∧
    engBpeEncode tinyBpe [97, 98, 97] 2 false = some [2, 0] ∧
    engBpeDecode tinyBpe [2, 0] 3 = some [97, 98, 97] := by
  have hload : engBpeFromGguf tinyContainer = some tinyBpe := (Option.some_get _).symm
  have henc : engBpeEncode tinyBpe [97, 98, 97] 2 false = some [2, 0] := by decide +kernel
  exact ⟨hload, henc, (engBpeDecode_encode tinyContainer tinyBpe hload [97, 98, 97] 2).2.2.2.2 [2, 0]
    henc 3 (by decide)⟩

end LlmEngine.Tokenizer
