/-
# LlmEngine.Formats.GgufApart — the string arrays of an accepted header lie apart.

The cursor never moves back, so what one entry's payload takes up, no other's does.  Two string
arrays of a container therefore hold fewer bytes together than its header (`strings_apart`), which is
what a pool sized from the header relies on.

* `Past` is that the cursor has not moved back since; every reader keeps it (`rd_past` to `readTensor_past`).
* `Laid` says of the entries so far that each string array ends before the next begins; `Laid.snoc` adds one,
  and `readKv_laid` is the invariant of the metadata loop.
* `stringsAt` reads the strings of an array where it lies, and `EndsAt.texts` relates their lengths to the room it
  takes.

The two facts of an accepted header are `parseHeader_laid` and, by key, `parseHeader_strings`.
-/
import LlmEngine.Formats.GgufHostile

namespace LlmEngine.Formats

open LlmEngine.Lib
open LlmEngine.Lib.LittleEndian
open LlmEngine.Lib.Walk

/-! ## The cursor -/

/-- The walk is at `p` or past it, with the entries `kv` read. -/
structure Past (p : Nat) (kv : List GgufKV) (s : Walk) : Prop where
  le : p ≤ s.c.pos
  kv_eq : s.g.kv = kv

section Past

variable {p : Nat} {kv : List GgufKV}

theorem rd_past (n : Nat) : Ensures (Past p kv) (rd n) fun _ s => Past p kv s := by
  intro s hs v t h
  unfold rd at h
  split_ifs at h with hhas
  · obtain ⟨-, rfl⟩ := EStateM.Result.ok.inj h
    exact ⟨Nat.le_add_right_of_le hs.le, hs.kv_eq⟩
  · obtain ⟨-, rfl⟩ := EStateM.Result.ok.inj h
    exact ⟨hs.le, hs.kv_eq⟩

theorem rdU32_past : Ensures (Past p kv) rdU32 fun _ s => Past p kv s :=
  (rd_past 4).bind fun _ => Ensures.pure fun _ h => h

theorem rdStr_past : Ensures (Past p kv) rdStr fun _ s => Past p kv s := by
  refine (rd_past 8).bind fun n => ?_
  intro s hs sp t h
  unfold takeSpan at h
  split_ifs at h with hhas
  · obtain ⟨-, rfl⟩ := EStateM.Result.ok.inj h
    exact ⟨Nat.le_add_right_of_le hs.le, hs.kv_eq⟩
  · obtain ⟨-, rfl⟩ := EStateM.Result.ok.inj h
    exact ⟨hs.le, hs.kv_eq⟩

/-- A check changes nothing. -/
theorem checkBad_past : Ensures (Past p kv) checkBad fun _ s => Past p kv s :=
  checkBad_ensures.weaken (fun _ h => h) fun _ _ h => h.1

theorem readName_past : Ensures (Past p kv) readName fun _ s => Past p kv s := by
  refine rdStr_past.bind fun sp => checkBad_past.bind fun _ => ?_
  intro s hs _ t h
  unfold poolAdd at h
  split_ifs at h
  obtain ⟨-, rfl⟩ := EStateM.Result.ok.inj h
  exact ⟨hs.le, hs.kv_eq⟩

theorem skipPayload_past (ty : GgufType) (n : BitVec 64) :
    Ensures (Past p kv) (skipPayload ty n) fun _ s => Past p kv s := by
  unfold skipPayload
  split_ifs
  · intro s hs _ t h
    unfold skipBytes at h
    split_ifs at h
    obtain ⟨-, rfl⟩ := EStateM.Result.ok.inj h
    exact ⟨Nat.le_add_right_of_le hs.le, hs.kv_eq⟩
  · have hstep : Ensures (Past p kv) (do let _ ← rdStr; checkBad) fun _ s => Past p kv s :=
      rdStr_past.bind fun _ => checkBad_past
    exact (Ensures.times (I := fun _ => Past p kv) (fun _ => hstep) _).bind fun _ =>
      Ensures.pure fun _ h => h
  · exact Ensures.throw

theorem readTensor_past : Ensures (Past p kv) readTensor fun _ s => Past p kv s := by
  unfold readTensor
  refine readName_past.bind fun name => rdU32_past.bind fun nDims => checkBad_past.bind fun _ =>
    (refuseIf_ensures.weaken (fun _ h => h) fun _ _ h => h.1).bind fun _ =>
    (Ensures.times (I := fun _ => Past p kv) (fun _ => rd_past 8) _).bind fun shape =>
    rdU32_past.bind fun ty => (rd_past 8).bind fun off => checkBad_past.bind fun _ => ?_
  cases ggufDtype ty with
  | none => exact Ensures.throw
  | some dt =>
      exact (refuseIf_ensures.weaken (fun _ h => h) fun _ _ h => h.1).bind fun _ =>
        onG_ensures fun s hs => ⟨hs.le, hs.kv_eq⟩

end Past

/-! ## String arrays -/

/-- The array of strings an entry holds. -/
def GgufKV.IsStrings (k : GgufKV) : Prop := k.type = .array ∧ k.arrType = .string

/-- Where its payload ends. -/
def GgufKV.EndsAt (k : GgufKV) (blob : Bytes) (fin : Nat) : Prop :=
  skipStrs blob k.arrLen.toNat k.arrData = some fin

/-- The string arrays read so far end before `pos`, each before the next starts. -/
structure Laid (blob : Bytes) (kv : List GgufKV) (pos : Nat) : Prop where
  before : ∀ k ∈ kv, k.IsStrings → ∃ fin, k.EndsAt blob fin ∧ fin ≤ pos
  apart : kv.Pairwise fun k k' => k.IsStrings → k'.IsStrings →
    ∃ fin, k.EndsAt blob fin ∧ fin ≤ k'.arrData

section Laid

variable {g₀ : Gguf}

theorem Laid.later {blob : Bytes} {kv : List GgufKV} {p q : Nat} (h : Laid blob kv p) (hpq : p ≤ q) :
    Laid blob kv q := by
  refine ⟨fun k hk hstr => ?_, h.apart⟩
  obtain ⟨fin, hfin, hle⟩ := h.before k hk hstr
  exact ⟨fin, hfin, Nat.le_trans hle hpq⟩

/-- **One more entry**, read from `p` on. -/
theorem Laid.snoc {blob : Bytes} {kv : List GgufKV} {p q : Nat} {k : GgufKV} (h : Laid blob kv p)
    (hpq : p ≤ q) (hk : k.IsStrings → p ≤ k.arrData ∧ k.EndsAt blob q) : Laid blob (kv ++ [k]) q := by
  constructor
  · intro k' hk' hstr
    rcases List.mem_append.mp hk' with hold | hnew
    · exact (h.later hpq).before k' hold hstr
    · rw [List.mem_singleton.mp hnew] at hstr ⊢
      exact ⟨q, (hk hstr).2, Nat.le_refl q⟩
  · rw [List.pairwise_append]
    refine ⟨h.apart, List.pairwise_singleton _ _, fun k₁ hk₁ k₂ hk₂ hstr₁ hstr₂ => ?_⟩
    rw [List.mem_singleton.mp hk₂] at hstr₂ ⊢
    obtain ⟨fin, hfin, hle⟩ := h.before k₁ hk₁ hstr₁
    exact ⟨fin, hfin, Nat.le_trans hle (hk hstr₂).1⟩

/-- The payload of a string array ends where the walk stands behind it. -/
theorem skipPayload_ends (ty : GgufType) (n : BitVec 64) (pos : Nat) :
    Ensures (fun s => Inside g₀ s ∧ s.c.bad = false ∧ s.c.pos = pos) (skipPayload ty n)
      fun _ s => ty = .string → skipStrs g₀.blob n.toInt.toNat pos = some s.c.pos := by
  by_cases hty : ty = .string
  · subst hty
    show Ensures _ (do let _ ← times (do let _ ← rdStr; checkBad) n.toInt.toNat) _
    exact (stepStrs_ensures _ pos).bind fun _ => Ensures.pure fun s hs _ => hs.2.2
  · exact fun s _ _ t _ h => absurd h hty

theorem readArray_ends (k : GgufKV) {p : Nat} {kv : List GgufKV} :
    Ensures (fun s => Inside g₀ s ∧ Past p kv s) (readArray k) fun k' s =>
      Past p kv s ∧ (k'.IsStrings → p ≤ k'.arrData ∧ k'.EndsAt g₀.blob s.c.pos) := by
  unfold readArray
  refine (rdU32_inside.and rdU32_past).bind fun ty => (rdU64_inside.and (rd_past 8)).bind fun n =>
    checkBad_ensures.bind fun _ => getPos_ensures.bind fun pos => ?_
  cases GgufType.ofU32 ty with
  | none => exact Ensures.throw
  | some ty =>
      intro s hs
      obtain ⟨⟨⟨hin, hpast⟩, hlive⟩, hpos⟩ := hs
      refine (((skipPayload_ends ty n pos).and (skipPayload_past ty n)).bind fun _ =>
        Ensures.pure fun u hu => ⟨hu.2, fun hstr => ⟨?_, hu.1 hstr.2⟩⟩) s
        ⟨⟨hin, hlive, hpos.symm⟩, hpast⟩
      show p ≤ pos
      rw [hpos]
      exact hpast.le

theorem readValue_ends (key : Bytes) (ty : GgufType) {p : Nat} {kv : List GgufKV} :
    Ensures (fun s => Inside g₀ s ∧ Past p kv s) (readValue (.blank key ty)) fun k s =>
      Past p kv s ∧ (k.IsStrings → p ≤ k.arrData ∧ k.EndsAt g₀.blob s.c.pos) := by
  by_cases hty : ty = .array
  · subst hty
    exact readArray_ends _
  · -- a scalar or a string is no array
    have hno : ∀ {k : GgufKV}, k.type = ty → k.IsStrings → False := fun hk h => hty (hk ▸ h.1)
    have hpast : Ensures (Past p kv) (readValue (.blank key ty)) fun k s =>
        Past p kv s ∧ k.type = ty := by
      cases ty with
      | array => exact absurd rfl hty
      | string => exact rdStr_past.bind fun _ => Ensures.pure fun _ h => ⟨h, rfl⟩
      | uint8 | int8 | bool | uint16 | int16 | uint32 | int32 | float32 =>
          exact Ensures.bind (Q := fun _ s => Past p kv s)
            ((rd_past _).bind fun _ => Ensures.pure fun _ h => h) fun _ =>
              Ensures.pure fun _ h => ⟨h, rfl⟩
      | uint64 | int64 | float64 => exact (rd_past 8).bind fun _ => Ensures.pure fun _ h => ⟨h, rfl⟩
    exact hpast.weaken (fun _ h => h.2) fun _ _ h => ⟨h.1, fun hstr => (hno h.2 hstr).elim⟩

/-- **The invariant of the metadata loop.** -/
theorem readKv_laid : Ensures (fun s => Inside g₀ s ∧ Laid g₀.blob s.g.kv s.c.pos) readKv
    fun _ s => Inside g₀ s ∧ Laid g₀.blob s.g.kv s.c.pos := by
  rintro s ⟨hin, hlaid⟩
  have hpast : Ensures (fun u => Inside g₀ u ∧ Past s.c.pos s.g.kv u) readKv
      fun _ u => Laid g₀.blob u.g.kv u.c.pos := by
    unfold readKv
    refine (readName_inside.and readName_past).bind fun key =>
      (rdU32_inside.and rdU32_past).bind fun ty => ?_
    cases GgufType.ofU32 ty with
    | none => exact Ensures.throw
    | some ty =>
        refine (readValue_ends key ty).bind fun k => checkBad_ensures.bind fun _ =>
          onG_ensures fun u hu => ?_
        obtain ⟨⟨hu, hk⟩, -⟩ := hu
        show Laid g₀.blob (u.g.kv ++ [k]) u.c.pos
        rw [hu.kv_eq]
        exact hlaid.snoc hu.le hk
  exact fun _ t h => ⟨readKv_inside s hin _ t h, hpast s ⟨hin, Nat.le_refl _, rfl⟩ _ t h⟩

end Laid

/-- **An accepted header keeps its string arrays apart.** -/
theorem parseHeader_laid {g g' : Gguf} (h : parseHeader g = (.ok, g')) :
    g'.blob = g.blob ∧ ∃ pos ≤ g.blob.length, Laid g.blob g'.kv pos := by
  unfold parseHeader at h
  split at h
  · next w hw =>
      obtain rfl := (Prod.mk.inj h).2
      unfold parseBody at hw
      obtain ⟨counts, s₀, hcounts, hw⟩ := bind_ok hw
      have hs₀ : Inside g s₀ ∧ Laid g.blob s₀.g.kv s₀.c.pos := by
        rw [readCounts_eq] at hcounts
        split_ifs at hcounts with hlen
        obtain ⟨-, rfl⟩ := EStateM.Result.ok.inj hcounts
        exact ⟨g.begun_inside (not_lt.mp hlen), fun _ h => absurd h List.not_mem_nil,
          List.Pairwise.nil⟩
      obtain ⟨_, s₁, hkvs, hw⟩ := bind_ok hw
      have hs₁ := (times_length readKv_laid counts.1 s₀ hs₀ _ s₁ hkvs).1
      obtain ⟨_, s₂, hts, hw⟩ := bind_ok hw
      -- the tensor table and the placing of the data leave the entries alone
      have hs₂ : Inside g s₂ := (times_length readTensor_inside counts.2 s₁ hs₁.1 _ s₂ hts).1
      have hkv := (times_length readTensor_past counts.2 s₁ ⟨Nat.zero_le _, rfl⟩ _ s₂ hts).1.kv_eq
      rcases placeData_cases s₂ with ⟨-, hok⟩ | ⟨-, u, herr⟩
      · rw [hok] at hw
        obtain ⟨-, rfl⟩ := EStateM.Result.ok.inj hw
        refine ⟨hs₂.blob_eq, s₁.c.pos, hs₁.1.pos, ?_⟩
        show Laid g.blob s₂.g.kv s₁.c.pos
        rw [hkv]
        exact hs₁.2
      · rw [herr] at hw
        exact absurd hw (by simp)
  · exact absurd (Prod.mk.inj h).1 (by decide)
  · exact absurd (Prod.mk.inj h).1 (by decide)

/-! ## The strings themselves -/

/-- The `n` strings from `pos` on. -/
def stringsAt (blob : Bytes) : Nat → Nat → List Bytes
  | 0, _ => []
  | n + 1, pos =>
      (blob.drop (pos + 8)).take (strLenAt blob pos) :: stringsAt blob n (pos + 8 + strLenAt blob pos)

theorem stringsAt_length (blob : Bytes) (n : Nat) : ∀ pos : Nat, (stringsAt blob n pos).length = n := by
  induction n with
  | zero => intro pos; rfl
  | succ n ih =>
      intro pos
      rw [stringsAt, List.length_cons, ih]

/-- The strings that a walk passes, and what they take up. -/
theorem skipStrs_texts (g : Gguf) (n : Nat) : ∀ {pos fin : Nat}, skipStrs g.blob n pos = some fin →
    fin = pos + ((stringsAt g.blob n pos).map fun t => 8 + t.length).sum ∧
      ∀ j < n, (arrWalk g j ⟨pos, false⟩).map g.text = (stringsAt g.blob n pos)[j]? := by
  induction n with
  | zero =>
      intro pos fin h
      obtain rfl := Option.some.inj h
      exact ⟨by simp [stringsAt], fun j hj => absurd hj (Nat.not_lt_zero j)⟩
  | succ n ih =>
      intro pos fin h
      obtain ⟨q, hq, hrest⟩ := Option.bind_eq_some_iff.mp h
      obtain ⟨rfl, hqle⟩ := skipStr_some hq
      obtain ⟨hfin, hat⟩ := ih hrest
      have hlength : ((g.blob.drop (pos + 8)).take (strLenAt g.blob pos)).length = strLenAt g.blob pos := by
        rw [List.length_take, List.length_drop]
        omega
      refine ⟨?_, fun j hj => ?_⟩
      · rw [stringsAt, List.map_cons, List.sum_cons, hlength]
        omega
      · cases j with
        | zero =>
            rw [arrWalk_eq, skipStrs, Option.bind_some, hq]
            rfl
        | succ j =>
            rw [arrWalk_eq, skipStrs, hq, Option.bind_some, ← arrWalk_eq, hat j (by omega)]
            rfl

/-- The strings of an array, as it is declared. -/
def GgufKV.strings (k : GgufKV) (blob : Bytes) : List Bytes := stringsAt blob k.arrLen.toNat k.arrData

theorem EndsAt.texts {g : Gguf} {k : GgufKV} {fin : Nat} (hk : k.IsStrings)
    (h : k.EndsAt g.blob fin) :
    (k.strings g.blob).length = k.arrLen.toNat ∧
      fin = k.arrData + ((k.strings g.blob).map fun t => 8 + t.length).sum ∧
      ∀ j < k.arrLen.toNat, ggufArrStr g k j = (k.strings g.blob)[j]? := by
  obtain ⟨hfin, hat⟩ := skipStrs_texts g _ h
  refine ⟨stringsAt_length _ _ _, hfin, fun j hj => ?_⟩
  unfold ggufArrStr
  rw [if_neg (by simp [hk.1, hk.2]), if_neg (by omega)]
  exact hat j hj

/-- What is known of a string array of an accepted header. -/
theorem parseHeader_strings {g₀ g : Gguf} (h : parseHeader g₀ = (.ok, g)) {key : Bytes} {k : GgufKV}
    (hk : ggufFind g key = some k) (hstr : k.IsStrings) :
    (k.strings g.blob).length = k.arrLen.toNat ∧
      (∃ fin ≤ g.blob.length, k.EndsAt g.blob fin ∧
        fin = k.arrData + ((k.strings g.blob).map fun t => 8 + t.length).sum) ∧
      ∀ j < k.arrLen.toNat, ggufArrStr g k j = (k.strings g.blob)[j]? := by
  obtain ⟨hblob, pos, hpos, hlaid⟩ := parseHeader_laid h
  rw [← hblob] at hpos hlaid
  obtain ⟨fin, hfin, hle⟩ := hlaid.before k (List.mem_of_find?_eq_some hk) hstr
  obtain ⟨hlen, hsum, hat⟩ := EndsAt.texts hstr hfin
  exact ⟨hlen, ⟨fin, Nat.le_trans hle hpos, hfin, hsum⟩, hat⟩

/-- **Two string arrays of an accepted header** hold, with their length fields, no more than it. -/
theorem strings_apart {g₀ g : Gguf} (h : parseHeader g₀ = (.ok, g)) {i j : Bytes}
    (hij : i ≠ j) {k k' : GgufKV} (hk : ggufFind g i = some k) (hk' : ggufFind g j = some k')
    (hstr : k.IsStrings) (hstr' : k'.IsStrings) :
    ((k.strings g.blob).map fun t => 8 + t.length).sum + ((k'.strings g.blob).map fun t => 8 + t.length).sum ≤
      g.blob.length := by
  obtain ⟨hblob, pos, hpos, hlaid⟩ := parseHeader_laid h
  rw [← hblob] at hpos hlaid
  have hmem : k ∈ g.kv := List.mem_of_find?_eq_some hk
  have hmem' : k' ∈ g.kv := List.mem_of_find?_eq_some hk'
  have hne : k ≠ k' := by
    rintro rfl
    have hi := List.find?_some (p := fun k : GgufKV => strEq k.key i) hk
    have hj := List.find?_some (p := fun k : GgufKV => strEq k.key j) hk'
    exact hij ((beq_iff_eq.mp hi).symm.trans (beq_iff_eq.mp hj))
  obtain ⟨fin, hfin, hle⟩ := hlaid.before k hmem hstr
  obtain ⟨fin', hfin', hle'⟩ := hlaid.before k' hmem' hstr'
  obtain ⟨-, hsum, -⟩ := EndsAt.texts hstr hfin
  obtain ⟨-, hsum', -⟩ := EndsAt.texts hstr' hfin'
  -- one of the two comes first
  have horder : fin ≤ k'.arrData ∨ fin' ≤ k.arrData := by
    obtain ⟨a, ha, rfl⟩ := List.mem_iff_getElem.mp hmem
    obtain ⟨b, hb, rfl⟩ := List.mem_iff_getElem.mp hmem'
    have hpair := List.pairwise_iff_getElem.mp hlaid.apart
    rcases Nat.lt_trichotomy a b with hlt | heq | hgt
    · obtain ⟨e, he, hle⟩ := hpair a b ha hb hlt hstr hstr'
      obtain rfl := Option.some.inj (hfin.symm.trans he)
      exact .inl hle
    · subst heq
      exact absurd rfl hne
    · obtain ⟨e, he, hle⟩ := hpair b a hb ha hgt hstr' hstr
      obtain rfl := Option.some.inj (hfin'.symm.trans he)
      exact .inr hle
  rcases horder with h | h <;> omega

end LlmEngine.Formats
