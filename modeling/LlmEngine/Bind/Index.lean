/-
# LlmEngine.Bind.Index — the index over tensor names (`k3_st_open`, `k3_st_find` of `src/io/k3_st.c`).

The buckets hold indices into the tensors, -1 where free, and are probed one after the other from the
one the name hashes to.  Read through the names, they are the cells of `Lib.Probe`.  A probe here is
given as many rounds as there are buckets: one that has not ended by then meets the same buckets over
again, and never ends.

An `int` that counts tensors or buckets is a natural number here.

* `probeBucket_eq`: a probe is a search of the cells, so what is known of searches (`Lib.Probe`) applies.
* `IndexOf` is what the loop keeps of the buckets (`IndexOf.set`); `indexFrom_eq` runs it over all names.
* `k3StIndex_eq`, `k3StFind_eq`: opening refuses a name that occurs twice, and otherwise a find answers with the
  tensor of that name or with none.

Two names are one when they agree up to the first zero byte, and the hash reads no further either (`fnv1a_cStr`).
`indexes_exact` says all of this of the vocabulary's map as well (`Tokenizer.Bpe`), which differs in its hash,
its room and in what becomes of a second entry.
-/
import LlmEngine.Lib.Probe
import LlmEngine.Tokenizer.Bpe

namespace LlmEngine.Bind

open LlmEngine.Lib
open LlmEngine.Lib.LittleEndian
open LlmEngine.Tokenizer

/-! ## The code -/

/-- What a `char *` stands for: the bytes up to the first NUL. -/
def cStr (s : Bytes) : Bytes := s.takeWhile (· ≠ 0)

/-- `!strcmp(a, b)`. -/
def strcmpEq (a b : Bytes) : Bool := cStr a == cStr b

/-- The loop of `fnv1a`: `while (*s) { h ^= (unsigned char)*s++; h *= 1099511628211; }`. -/
def fnv1aFrom (h : BitVec 64) : Bytes → BitVec 64
  | [] => h
  | c :: s => if c = 0 then h else fnv1aFrom ((h ^^^ c.toBitVec.setWidth 64) * 1099511628211) s

/-- `fnv1a`. -/
def fnv1a (s : Bytes) : BitVec 64 := fnv1aFrom 1469598103934665603 s

/-- `int nb = 1024; while (nb < s->nt * 2) nb <<= 1;`, the loop that `map_init` has as well. -/
def bucketCount (nt : Nat) : Nat := mapCap nt nt 1024

/-- `while (s->bucket[j] >= 0) { ..; j = (j + 1) & (nb - 1); }`: the bucket the loop ends on and the
tensor it holds, if any. -/
def probeBucket (t : List Bytes) (bucket : List (Option Nat)) (name : Bytes) :
    Nat → Nat → Option (Nat × Option Nat)
  | 0, _ => none
  | n + 1, j =>
      match (bucket[j]?).join with
      | none => some (j, none)
      | some i =>
          if strcmpEq (t.getD i []) name then some (j, some i)
          else probeBucket t bucket name n ((j + 1) % bucket.length)

/-- The bucket a name hashes to; reducing by a power of two is `h & (nb - 1)`. -/
def homeBucket (bucket : List (Option Nat)) (name : Bytes) : Nat :=
  (fnv1a name).toNat % bucket.length

/-- How building the index ends. -/
inductive Indexed where
  | index (bucket : List (Option Nat))
  /-- `duplicate tensor name` -/
  | refused
  /-- a probe that goes round and round -/
  | hung
  deriving DecidableEq

/-- `for (int i = 0; i < s->nt; i++)`, from tensor `i` on with `n` to go. -/
def indexFrom (t : List Bytes) : Nat → Nat → List (Option Nat) → Indexed
  | 0, _, bucket => .index bucket
  | n + 1, i, bucket =>
      let name := t.getD i []
      match probeBucket t bucket name bucket.length (homeBucket bucket name) with
      | none => .hung
      | some (_, some _) => .refused
      | some (j, none) => indexFrom t n (i + 1) (bucket.set j (some i))

/-- The index that `k3_st_open` builds over the names it has scanned. -/
def k3StIndex (t : List Bytes) : Indexed :=
  indexFrom t t.length 0 (List.replicate (bucketCount t.length) none)

/-- `k3_st_find`, as the index of the tensor, `some none` for `NULL` and `none` for a probe that does
not end. -/
def k3StFind (t : List Bytes) (bucket : List (Option Nat)) (name : Bytes) : Option (Option Nat) :=
  if bucket = [] then some none
  else (probeBucket t bucket name bucket.length (homeBucket bucket name)).map Prod.snd

/-! ## Names -/

theorem fnv1aFrom_cStr (s : Bytes) : ∀ h : BitVec 64, fnv1aFrom h (cStr s) = fnv1aFrom h s := by
  induction s with
  | nil => intro h; rfl
  | cons c s ih =>
      intro h
      by_cases hc : c = 0
      · simp [cStr, fnv1aFrom, hc]
      · have hstep : cStr (c :: s) = c :: cStr s := by simp [cStr, hc]
        rw [hstep, fnv1aFrom, fnv1aFrom, if_neg hc, if_neg hc, ih]

/-- A name hashes as the bytes before its first NUL. -/
theorem fnv1a_cStr (s : Bytes) : fnv1a (cStr s) = fnv1a s := fnv1aFrom_cStr s _

/-- The hash of a name, for `Lib.Probe`. -/
def nameSlot (s : Bytes) : Nat := (fnv1a s).toNat

/-- The buckets, each with the name it stands for. -/
def bucketCells (t : List Bytes) (bucket : List (Option Nat)) : Probe.Cells Bytes Nat :=
  bucket.map fun b => b.map fun i => (cStr (t.getD i []), i)

@[simp] theorem bucketCells_length (t : List Bytes) (bucket : List (Option Nat)) :
    (bucketCells t bucket).length = bucket.length := List.length_map ..

theorem bucketCells_set (t : List Bytes) (bucket : List (Option Nat)) (j i : Nat) :
    bucketCells t (bucket.set j (some i)) =
      (bucketCells t bucket).set j (some (cStr (t.getD i []), i)) := by
  unfold bucketCells
  rw [List.map_set]
  rfl

theorem bucketCells_cell (t : List Bytes) (bucket : List (Option Nat)) {j : Nat} (hj : j < bucket.length) :
    Probe.cell (bucketCells t bucket) j =
      (bucket[j]?).join.map fun i => (cStr (t.getD i []), i) := by
  unfold Probe.cell
  rw [bucketCells_length, Nat.mod_eq_of_lt hj, bucketCells, List.getElem?_map,
    List.getElem?_eq_getElem hj]
  rfl

/-- **A probe of the buckets is a search of the cells.** -/
theorem probeBucket_eq (t : List Bytes) (bucket : List (Option Nat)) (name : Bytes) (n : Nat) :
    ∀ {j h : Nat}, j < bucket.length → j = h % bucket.length →
      probeBucket t bucket name n j = Probe.seek (bucketCells t bucket) (cStr name) n h := by
  induction n with
  | zero => intro j h _ _; rfl
  | succ n ih =>
      intro j h hlt hj
      have hcell : Probe.cell (bucketCells t bucket) h =
          (bucket[j]?).join.map fun i => (cStr (t.getD i []), i) := by
        rw [← Probe.cell_mod, bucketCells_length, ← hj, bucketCells_cell t bucket hlt]
      rw [probeBucket, Probe.seek, hcell, bucketCells_length, ← hj]
      cases hb : (bucket[j]?).join with
      | none => rfl
      | some i =>
          have hnext := ih (j := (j + 1) % bucket.length) (h := h + 1) (Nat.mod_lt _ (by omega))
            (by rw [hj, Nat.mod_add_mod])
          simp only [Option.map_some, strcmpEq, beq_iff_eq]
          split_ifs with hname
          · rfl
          · exact hnext

/-- From the bucket a name hashes to. -/
theorem probeBucket_home (t : List Bytes) (bucket : List (Option Nat)) (name : Bytes)
    (hpos : 0 < bucket.length) :
    probeBucket t bucket name bucket.length (homeBucket bucket name) =
      Probe.seek (bucketCells t bucket) (cStr name) (bucketCells t bucket).length
        (nameSlot (cStr name)) := by
  rw [bucketCells_length]
  apply probeBucket_eq t bucket name bucket.length (Nat.mod_lt _ hpos)
  unfold nameSlot
  rw [fnv1a_cStr]

/-! ## The index -/

theorem name_at {t : List Bytes} {i : Nat} (hi : i < t.length) : t.getD i [] = t[i] := by
  rw [List.getD_eq_getElem?_getD, List.getElem?_eq_getElem hi, Option.getD_some]

/-- The names that have been entered, each with its index. -/
def entered (t : List Bytes) (i : Nat) : List (Bytes × Nat) := ((t.take i).map cStr).zipIdx

theorem entered_length {t : List Bytes} {i : Nat} (hi : i ≤ t.length) : (entered t i).length = i := by
  unfold entered
  rw [List.length_zipIdx, List.length_map, List.length_take, Nat.min_eq_left hi]

theorem entered_succ {t : List Bytes} {i : Nat} (hi : i < t.length) :
    entered t (i + 1) = entered t i ++ [(cStr (t.getD i []), i)] := by
  unfold entered
  rw [List.take_add_one, List.getElem?_eq_getElem hi, Option.toList_some, List.map_append,
    List.zipIdx_append, List.map_singleton, name_at hi]
  simp [Nat.min_eq_left hi.le]

/-- Whether a name has been entered. -/
theorem first_entered (t : List Bytes) (i : Nat) (name : Bytes) :
    Probe.first (entered t i) name = ((t.take i).map cStr).findIdx? (· = name) := by
  unfold entered
  rw [Probe.first_zipIdx]
  simp

/-- `bucket` is the index over the first `i` names, which are distinct. -/
structure IndexOf (t : List Bytes) (i : Nat) (bucket : List (Option Nat)) : Prop where
  models : Probe.Models nameSlot (bucketCells t bucket) (entered t i)
  distinct : ((t.take i).map cStr).Nodup

section Run

variable {t : List Bytes} {i : Nat} {bucket : List (Option Nat)}

/-- **Where a probe of an index ends.** -/
theorem IndexOf.probe (h : IndexOf t i bucket) (hi : i ≤ t.length) (hroom : i < bucket.length)
    (name : Bytes) :
    ∃ j, probeBucket t bucket name bucket.length (homeBucket bucket name) =
      some (j, ((t.take i).map cStr).findIdx? (· = cStr name)) := by
  obtain ⟨j, hj⟩ := h.models.seek_eq (by rw [entered_length hi, bucketCells_length]; exact hroom)
    (cStr name)
  refine ⟨j, ?_⟩
  rw [probeBucket_home t bucket name (by omega), hj, first_entered]

/-- One more name, which was not there. -/
theorem IndexOf.set (h : IndexOf t i bucket) (hi : i < t.length) (hroom : i < bucket.length) {j : Nat}
    (hprobe : probeBucket t bucket (t.getD i []) bucket.length (homeBucket bucket (t.getD i [])) =
      some (j, none)) :
    IndexOf t (i + 1) (bucket.set j (some i)) := by
  have hput : Probe.put nameSlot (bucketCells t bucket) (cStr (t.getD i [])) i =
      bucketCells t (bucket.set j (some i)) := by
    rw [bucketCells_set, Probe.put, ← probeBucket_home t bucket _ (by omega), hprobe]
  obtain ⟨j', hj'⟩ := h.probe hi.le hroom (t.getD i [])
  have hnew : ((t.take i).map cStr).findIdx? (· = cStr (t.getD i [])) = none := by
    rw [hprobe] at hj'
    exact (Prod.mk.inj (Option.some.inj hj')).2.symm
  refine ⟨?_, ?_⟩
  · rw [← hput, entered_succ hi]
    exact (h.models.put (by rw [entered_length hi.le, bucketCells_length]; exact hroom) _ _).1
  · rw [List.take_add_one, List.getElem?_eq_getElem hi, Option.toList_some, List.map_append,
      List.map_singleton, List.nodup_append]
    refine ⟨h.distinct, List.pairwise_singleton .., fun a ha b hb => ?_⟩
    rw [List.mem_singleton] at hb
    have hne := List.findIdx?_eq_none_iff.mp hnew a ha
    rw [name_at hi] at hne
    rintro rfl
    exact absurd hb (by simpa using hne)

/-- **The loop over the names.** -/
theorem indexFrom_eq (n : Nat) : ∀ {i : Nat} {bucket : List (Option Nat)}, i + n = t.length →
    t.length < bucket.length → IndexOf t i bucket →
    (∃ bucket', indexFrom t n i bucket = .index bucket' ∧ IndexOf t t.length bucket' ∧
        bucket'.length = bucket.length) ∨
      (indexFrom t n i bucket = .refused ∧ ¬ (t.map cStr).Nodup) := by
  induction n with
  | zero =>
      intro i bucket hn _ h
      obtain rfl : i = t.length := by omega
      exact .inl ⟨bucket, rfl, h, rfl⟩
  | succ n ih =>
      intro i bucket hn hroom h
      have hi : i < t.length := by omega
      obtain ⟨j, hj⟩ := h.probe hi.le (by omega) (t.getD i [])
      rw [indexFrom, hj]
      cases hf : ((t.take i).map cStr).findIdx? (· = cStr (t.getD i [])) with
      | none =>
          rw [hf] at hj
          have hstep := ih (by omega : i + 1 + n = t.length) (by rw [List.length_set]; exact hroom)
            (h.set hi (by omega) hj)
          rw [List.length_set] at hstep
          exact hstep
      | some p =>
          refine .inr ⟨rfl, fun hnodup => ?_⟩
          -- the name is among the ones before it
          have hmem : cStr t[i] ∈ (t.take i).map cStr := by
            obtain ⟨hp, heq, -⟩ := List.findIdx?_eq_some_iff_getElem.mp hf
            rw [name_at hi, decide_eq_true_eq] at heq
            rw [← heq]
            exact List.getElem_mem hp
          have hsplit : t = t.take i ++ t[i] :: t.drop (i + 1) := by
            rw [List.getElem_cons_drop, List.take_append_drop]
          rw [hsplit, List.map_append, List.map_cons] at hnodup
          exact (List.nodup_append.mp hnodup).2.2 _ hmem _ List.mem_cons_self rfl

end Run

theorem indexOf_empty (t : List Bytes) (nb : Nat) : IndexOf t 0 (List.replicate nb none) := by
  refine ⟨?_, List.nodup_nil⟩
  have hcells : bucketCells t (List.replicate nb none) = List.replicate nb none := by
    unfold bucketCells
    rw [List.map_replicate]
    rfl
  rw [hcells]
  exact Probe.models_empty nameSlot nb

/-! ## What opening and finding do -/

theorem bucketCount_ge (nt : Nat) : 2 * nt ≤ bucketCount nt ∧ nt < bucketCount nt := by
  have hpow : nt < 2 ^ nt := Nat.lt_two_pow_self
  obtain ⟨hle, hpos⟩ := mapCap_ge nt nt 1024 (by decide) (by omega)
  unfold bucketCount
  omega

/-- **The index over the names of a checkpoint**, or the refusal of one that repeats a name. -/
theorem k3StIndex_eq (t : List Bytes) :
    (∃ bucket, k3StIndex t = .index bucket ∧ IndexOf t t.length bucket ∧
        bucket.length = bucketCount t.length) ∨
      (k3StIndex t = .refused ∧ ¬ (t.map cStr).Nodup) := by
  have hrun := indexFrom_eq (t := t) t.length (Nat.zero_add _)
    (by rw [List.length_replicate]; exact (bucketCount_ge _).2) (indexOf_empty t (bucketCount t.length))
  rw [List.length_replicate] at hrun
  exact hrun

/-- What is found is the position of the name. -/
theorem k3StFind_eq {t : List Bytes} {bucket : List (Option Nat)} (h : IndexOf t t.length bucket)
    (hroom : t.length < bucket.length) (name : Bytes) :
    k3StFind t bucket name = some ((t.map cStr).findIdx? (· = cStr name)) := by
  obtain ⟨j, hj⟩ := h.probe (le_refl _) hroom name
  rw [List.take_length] at hj
  have hne : bucket ≠ [] := List.ne_nil_of_length_pos (by omega)
  rw [k3StFind, if_neg hne, hj]
  rfl

/-- **Both indexes are exact maps.**  Opening builds an index of a power of two of buckets, at least
twice as many as there are names, unless two names are equal, which it refuses; no probe goes on for
ever, a tensor is found under its name, and no other name finds one.  In a `Map` set up for `want`
entries, no probe of the insertions goes on for ever, and a key has the value of its first entry. -/
theorem indexes_exact :
    (∀ t : List Bytes,
      (∃ e, bucketCount t.length = 2 ^ e) ∧ 2 * t.length ≤ bucketCount t.length ∧
      k3StIndex t ≠ .hung ∧ (k3StIndex t = .refused ↔ ¬ (t.map cStr).Nodup) ∧
      ∀ bucket, k3StIndex t = .index bucket →
        bucket.length = bucketCount t.length ∧
        (∀ name, (k3StFind t bucket name).isSome) ∧
        (∀ i (hi : i < t.length), k3StFind t bucket t[i] = some (some i)) ∧
        ∀ name, (∀ s ∈ t, cStr s ≠ cStr name) → k3StFind t bucket name = some none) ∧
    ∀ (want : Nat) (l : List (Bytes × Nat)), l.length ≤ want →
      (∃ e, (mapInit want).length = 2 ^ e) ∧
      (∀ before, before <+: l → ∀ s,
        let m := before.foldl (fun m e => mapPut m e.1 e.2) (mapInit want)
        (Probe.seek m s m.length (slotOf s)).isSome) ∧
      ∀ s, mapGet (l.foldl (fun m e => mapPut m e.1 e.2) (mapInit want)) s =
        (l.find? fun e => e.1 = s).map Prod.snd := by
  refine ⟨fun t => ?_, fun want l hl => ?_⟩
  · obtain ⟨hge, hroom⟩ := bucketCount_ge t.length
    refine ⟨mapCap_pow t.length t.length 10, hge, ?_⟩
    rcases k3StIndex_eq t with ⟨bucket, hopen, hindex, hlen⟩ | ⟨hopen, hdup⟩
    · have hnodup : (t.map cStr).Nodup := by
        have := hindex.distinct
        rwa [List.take_length] at this
      rw [hopen]
      refine ⟨by simp, iff_of_false (by simp) (not_not.mpr hnodup), ?_⟩
      rintro _ ⟨⟩
      have hfind := k3StFind_eq hindex (by omega)
      refine ⟨hlen, fun name => by rw [hfind]; rfl, fun i hi => ?_, fun name hname => ?_⟩
      · rw [hfind]
        congr 1
        rw [List.findIdx?_eq_some_iff_getElem]
        refine ⟨by rw [List.length_map]; exact hi, by simp, fun j hj => ?_⟩
        -- an earlier name is another one
        have hne := List.pairwise_iff_getElem.mp hnodup j i (by rw [List.length_map]; omega)
          (by rw [List.length_map]; exact hi) hj
        simpa using hne
      · rw [hfind]
        congr 1
        rw [List.findIdx?_eq_none_iff]
        intro s hs
        obtain ⟨s', hs', rfl⟩ := List.mem_map.mp hs
        simpa using hname s' hs'
    · rw [hopen]
      exact ⟨by simp, iff_of_true rfl hdup, fun _ h => absurd h (by simp)⟩
  · have hlen : (mapInit want).length = mapCap want want 16 := List.length_replicate
    refine ⟨by rw [hlen]; exact mapCap_pow want want 4, fun before hpre s => ?_,
      fun s => mapGet_fill l hl s⟩
    have hroom : before.length < (mapInit want).length := by
      have := hpre.length_le
      have := lt_mapCap want
      omega
    obtain ⟨hmodels, hsame⟩ := (Probe.models_empty slotOf _).fill before (by
      rw [List.nil_append]
      exact hroom)
    obtain ⟨j, hj⟩ := hmodels.seek_eq (by rw [hsame]; exact hroom) s
    exact Option.isSome_iff_exists.mpr ⟨_, hj⟩

/-- Two tensors, and a `Map` with an empty key and one with a NUL in it. -/
theorem indexes_exact_two :
    (∃ bucket, k3StIndex [[97], [98]] = .index bucket ∧
      k3StFind [[97], [98]] bucket [98] = some (some 1) ∧
      k3StFind [[97], [98]] bucket [99] = some none) ∧
    mapGet ([([], 3), ([0, 65], 4), ([], 5)].foldl (fun m e => mapPut m e.1 e.2) (mapInit 3)) [] =
      some 3 := by
  obtain ⟨hst, hmap⟩ := indexes_exact
  refine ⟨?_, ?_⟩
  · obtain ⟨-, -, hends, hrefused, hfinds⟩ := hst [[97], [98]]
    cases hopen : k3StIndex [[97], [98]] with
    | index bucket =>
        obtain ⟨-, -, hfound, hother⟩ := hfinds bucket hopen
        exact ⟨bucket, rfl, hfound 1 (by decide), hother [99] (by decide)⟩
    | refused => exact absurd (hrefused.mp hopen) (by decide)
    | hung => exact absurd hopen hends
  · rw [(hmap 3 [([], 3), ([0, 65], 4), ([], 5)] (by decide)).2.2]
    decide

end LlmEngine.Bind
