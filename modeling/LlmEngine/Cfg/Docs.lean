/-
# LlmEngine.Cfg.Docs — the documents of a configuration (`include/k3/k3_cfg.h`).

An assignment of values to the fields can be written flat, under the fixture's names, or nested, with the
language model's fields in `text_config` and the KDA fields in its `linear_attn_config`.  Either document
may have other members anywhere.

No two lookups share a name, so documents of both shapes can be written for every assignment.

* `FlatDoc` and `NestedDoc` say what the lookups of a document find; nothing is said of the other members.
* `names_nodup`: no two lookups share a name, over the released names and the fixture's together.
* `flatOf` and `nestedOf` write documents for an assignment, with further members beside; `flatOf_doc` and its like
  say that these are the documents they look like.

So every assignment has documents of both shapes, and statements about them are not about nothing.
-/
import LlmEngine.Cfg.Load
import Mathlib.Data.List.Nodup

namespace LlmEngine.Cfg

open LlmEngine.Lib.LittleEndian
open LlmEngine.Tokenizer (ascii)

variable {D : Type}

/-! ## Documents -/

/-- What is assigned to the fields. -/
abbrev Assignment (D : Type) := Key → Option (JVal D)

/-- The name in the fixture. -/
def Key.flatName (k : Key) : Bytes := k.alias.getD k.primary

/-- The fields of `linear_attn_config`. -/
def Key.inLin : Key → Bool
  | .int .kdaHeads | .int .kdaHeadDim | .int .convK | .float .gateLb | .fullAttn => true
  | _ => false

/-- The document has the assigned values at top level, under the fixture's names. -/
def FlatDoc (a : Assignment D) (root : JVal D) : Prop := ∀ k, jsonGet (some root) k.flatName = a k

/-- The document has them under the released names, the KDA fields one level further down. -/
structure NestedDoc (a : Assignment D) (root txt lin : JVal D) : Prop where
  text_config : jsonGet (some root) (ascii "text_config") = some txt
  linear_attn_config : jsonGet (some txt) (ascii "linear_attn_config") = some lin
  values : ∀ k, jsonGet (some (if k.inLin then lin else txt)) k.primary = a k

/-! ## Plain documents -/

/-- The keys, all of them. -/
def keys : List Key := numberKeys ++ [.flag .mlaOutGate, .flag .moeRenorm, .flag .latentNorm, .fullAttn]

theorem mem_keys (k : Key) : k ∈ keys := by
  cases k with
  | int f => cases f <;> decide
  | float f => cases f <;> decide
  | flag f => cases f <;> decide
  | fullAttn => decide

/-- Every name a member is looked up by. -/
def names : List Bytes :=
  [ascii "text_config", ascii "linear_attn_config"] ++ keys.filterMap Key.alias ++ keys.map Key.primary

/-- **No two lookups share a name.** -/
theorem names_nodup : names.Nodup := by decide +kernel

theorem primary_injective : Function.Injective Key.primary := fun k k' h =>
  List.inj_on_of_nodup_map names_nodup.of_append_right (mem_keys k) (mem_keys k') h

theorem flatName_injective : Function.Injective Key.flatName := fun k k' h =>
  List.inj_on_of_nodup_map (f := Key.flatName) (by decide +kernel) (mem_keys k) (mem_keys k') h

/-- The members of some of the fields, as far as they are assigned. -/
def membersOf (name : Key → Bytes) (ks : List Key) (a : Assignment D) : List (Bytes × JVal D) :=
  ks.filterMap fun k => (a k).map fun v => (name k, v)

/-- A flat document, with other members. -/
def flatOf (extra : List (Bytes × JVal D)) (a : Assignment D) : JVal D :=
  .obj (membersOf Key.flatName keys a ++ extra)

def linOf (extra : List (Bytes × JVal D)) (a : Assignment D) : JVal D :=
  .obj (membersOf Key.primary (keys.filter fun k => k.inLin) a ++ extra)

def textOf (extra inLin : List (Bytes × JVal D)) (a : Assignment D) : JVal D :=
  .obj ((ascii "linear_attn_config", linOf inLin a) :: (membersOf Key.primary (keys.filter fun k => !k.inLin) a ++ extra))

/-- A nested document, with other members at its three levels. -/
def nestedOf (extra inText inLin : List (Bytes × JVal D)) (a : Assignment D) : JVal D :=
  .obj ((ascii "text_config", textOf inText inLin a) :: extra)

theorem jsonGet_obj (l : List (Bytes × JVal D)) (n : Bytes) :
    jsonGet (some (.obj l)) n = (l.find? fun e => e.1 = n).map Prod.snd := rfl

theorem jsonGet_append (l l' : List (Bytes × JVal D)) (n : Bytes) :
    jsonGet (some (.obj (l ++ l'))) n = (jsonGet (some (.obj l)) n).or (jsonGet (some (.obj l')) n) := by
  simp only [jsonGet_obj, List.find?_append, Option.map_or]

theorem jsonGet_cons_ne {e : Bytes × JVal D} {l : List (Bytes × JVal D)} {n : Bytes} (h : e.1 ≠ n) :
    jsonGet (some (.obj (e :: l))) n = jsonGet (some (.obj l)) n := by
  rw [jsonGet_obj, List.find?_cons_of_neg (by simpa using h), jsonGet_obj]

theorem jsonGet_none {l : List (Bytes × JVal D)} {n : Bytes} (h : ∀ e ∈ l, e.1 ≠ n) :
    jsonGet (some (.obj l)) n = none := by
  rw [jsonGet_obj, List.find?_eq_none.mpr (by simpa using h), Option.map_none]

theorem mem_membersOf {name : Key → Bytes} {ks : List Key} {a : Assignment D} {e : Bytes × JVal D}
    (h : e ∈ membersOf name ks a) : ∃ k ∈ ks, e.1 = name k := by
  obtain ⟨k, hk, he⟩ := List.mem_filterMap.mp h
  obtain ⟨v, -, rfl⟩ := Option.map_eq_some_iff.mp he
  exact ⟨k, hk, rfl⟩

/-- A field is found among the members under its own name. -/
theorem jsonGet_membersOf {name : Key → Bytes} (hinj : Function.Injective name) (a : Assignment D) (k : Key)
    (ks : List Key) : jsonGet (some (.obj (membersOf name ks a))) (name k) = if k ∈ ks then a k else none := by
  induction ks with
  | nil => rfl
  | cons k' ks ih =>
      unfold membersOf at ih ⊢
      cases ha : a k' with
      | none =>
          rw [List.filterMap_cons_none (by rw [ha]; rfl), ih]
          by_cases hk : k = k'
          · subst hk
            rw [if_pos List.mem_cons_self, ha, ite_self]
          · simp only [List.mem_cons, or_iff_right hk]
      | some v =>
          rw [List.filterMap_cons_some (by rw [ha]; rfl)]
          by_cases hk : k = k'
          · subst hk
            rw [if_pos List.mem_cons_self, ha]
            rw [jsonGet_obj, List.find?_cons_of_pos (by simp)]
            rfl
          · rw [jsonGet_cons_ne (fun h => hk (hinj h).symm), ih]
            simp only [List.mem_cons, or_iff_right hk]

theorem flatOf_doc {extra : List (Bytes × JVal D)} (h : ∀ e ∈ extra, ∀ k : Key, e.1 ≠ k.flatName)
    (a : Assignment D) : FlatDoc a (flatOf extra a) := by
  intro k
  unfold flatOf
  rw [jsonGet_append, jsonGet_membersOf flatName_injective, if_pos (mem_keys k), jsonGet_none fun e he => h e he k,
    Option.or_none]

/-- A field is looked up by that name. -/
def Key.Named (k : Key) (n : Bytes) : Prop := n = k.primary ∨ k.alias = some n

theorem Key.Named.mem_names {k : Key} {n : Bytes} (h : k.Named n) : n ∈ names := by
  rcases h with rfl | halias
  · exact List.mem_append_right _ (List.mem_map_of_mem (mem_keys k))
  · exact List.mem_append_left _ (List.mem_append_right _ (List.mem_filterMap.mpr ⟨k, mem_keys k, halias⟩))

theorem alias_ne_primary {k : Key} {n : Bytes} (h : k.alias = some n) (k' : Key) : n ≠ k'.primary := by
  rintro rfl
  apply names_nodup.disjoint
  · exact List.mem_append_right _ (List.mem_filterMap.mpr ⟨k, mem_keys k, h⟩)
  · exact List.mem_map_of_mem (mem_keys k')

/-- A released name belongs to one field. -/
theorem named_primary {k k' : Key} (h : k.Named k'.primary) : k = k' := by
  rcases h with hprimary | halias
  · exact (primary_injective hprimary).symm
  · exact absurd rfl (alias_ne_primary halias k')

/-- The two objects are not named like a field. -/
theorem not_named_config (k : Key) {n : Bytes} (hn : n ∈ [ascii "text_config", ascii "linear_attn_config"]) :
    ¬ k.Named n := by
  rintro (rfl | halias)
  · exact names_nodup.disjoint (List.mem_append_left _ hn) (List.mem_map_of_mem (mem_keys k))
  · exact names_nodup.of_append_left.disjoint hn (List.mem_filterMap.mpr ⟨k, mem_keys k, halias⟩)

theorem named_flatName (k : Key) : k.Named k.flatName := by
  unfold Key.Named Key.flatName
  cases k.alias with
  | none => exact .inl rfl
  | some n => exact .inr rfl

theorem flatName_ne_primary {k : Key} (h : k.alias.isSome) (k' : Key) : k'.flatName ≠ k.primary := by
  intro heq
  have hk : k' = k := named_primary (heq ▸ named_flatName k')
  subst hk
  obtain ⟨n, hn⟩ := Option.isSome_iff_exists.mp h
  apply alias_ne_primary hn k'
  rw [← heq, Key.flatName, hn, Option.getD_some]

theorem firstOf_none {l : List (Bytes × JVal D)} {k : Key} (h : ∀ e ∈ l, ¬ k.Named e.1) :
    firstOf (some (.obj l)) k = none := by
  unfold firstOf
  rw [jsonGet_none fun e he heq => h e he (.inl heq), Option.none_or]
  cases halias : k.alias with
  | none => rfl
  | some n => exact jsonGet_none fun e he heq => h e he (.inr (heq ▸ halias))

theorem aliasIn_none {l : List (Bytes × JVal D)} {k : Key} (h : ∀ e ∈ l, k.alias ≠ some e.1) :
    k.alias.bind (jsonGet (some (.obj l))) = none := by
  cases halias : k.alias with
  | none => rfl
  | some n => exact jsonGet_none fun e he heq => h e he (heq ▸ halias)

theorem nestedOf_doc (extra : List (Bytes × JVal D)) {inText inLin : List (Bytes × JVal D)}
    (htext : ∀ e ∈ inText, ∀ k : Key, k.inLin = false → e.1 ≠ k.primary)
    (hlin : ∀ e ∈ inLin, ∀ k : Key, k.inLin = true → e.1 ≠ k.primary) (a : Assignment D) :
    NestedDoc a (nestedOf extra inText inLin a) (textOf inText inLin a) (linOf inLin a) where
  text_config := by
    unfold nestedOf
    rw [jsonGet_obj, List.find?_cons_of_pos (by simp)]
    rfl
  linear_attn_config := by
    unfold textOf
    rw [jsonGet_obj, List.find?_cons_of_pos (by simp)]
    rfl
  values := by
    intro k
    cases hk : k.inLin with
    | true =>
        have hmem : k ∈ keys.filter fun k => k.inLin := List.mem_filter.mpr ⟨mem_keys k, hk⟩
        rw [if_pos rfl, linOf, jsonGet_append, jsonGet_membersOf primary_injective, if_pos hmem,
          jsonGet_none fun e he => hlin e he k hk, Option.or_none]
    | false =>
        have hmem : k ∈ keys.filter fun k => !k.inLin := List.mem_filter.mpr ⟨mem_keys k, by rw [hk]; rfl⟩
        have hne : ascii "linear_attn_config" ≠ k.primary := fun heq =>
          not_named_config k (n := ascii "linear_attn_config") (by simp) (.inl heq)
        rw [if_neg nofun, textOf, jsonGet_cons_ne hne, jsonGet_append,
          jsonGet_membersOf primary_injective, if_pos hmem, jsonGet_none fun e he => htext e he k hk, Option.or_none]

end LlmEngine.Cfg
