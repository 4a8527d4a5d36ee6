/-
# LlmEngine.Cfg.Shapes — the two shapes of a configuration (`include/k3/k3_cfg.h`).

`text_config` is searched before `linear_attn_config`, so a member of it that is named like a KDA field
is read in that field's place.  The flat and the nested document of an assignment load alike exactly when no
such member reads otherwise than the field it hides.  A required field that is lacking, or is not a number,
refuses the load of any document.

* `Around` is what a lookup meets before and behind a field; `flat_find` and `nested_find` give it for either shape.
* `SameReading` is that two findings are read alike, and `Undisturbed` that this holds of every field and what is
  around it.
* `shapes_agree_iff`: both documents describe one model exactly when nothing around a field disturbs it, or both are
  refused for reasons of their own.
* `unrelated_sameModel`: members that share no name with a lookup are harmless, wherever they stand.
* `refused_of_unread`: a required field that no place has, or that is no number, refuses the load.

`text_head_dim_taken` is a nested document that disturbs: a `head_dim` in `text_config`, which hides that of the KDA
heads.
-/
import LlmEngine.Cfg.Docs

namespace LlmEngine.Cfg

open LlmEngine.Lib.LittleEndian
open LlmEngine.Tokenizer (ascii)

variable {D F : Type}

/-! ## Lookup -/

/-- What a search comes to before the assigned place, and what it would come to behind it. -/
structure Around (D : Type) where
  before : Option (JVal D)
  after : Option (JVal D)

/-- Around the place of a field in a flat document: other members named `text_config` or
`linear_attn_config`, and the released name of a field that has two. -/
def flatAround (root : JVal D) (k : Key) : Around D where
  before := (firstOf (k3CfgSrc root).txt k).or ((firstOf (k3CfgSrc root).lin k).or
    (if k.alias.isSome then jsonGet (some root) k.primary else none))
  after := none

/-- Around its place in a nested document: a KDA field comes behind the members of `text_config` that are
named like it. -/
def nestedAround (root txt lin : JVal D) (k : Key) : Around D where
  before := if k.inLin then firstOf (some txt) k else none
  after :=
    if k.inLin then (k.alias.bind (jsonGet (some lin))).or (firstOf (some root) k)
    else (k.alias.bind (jsonGet (some txt))).or ((firstOf (some lin) k).or (firstOf (some root) k))

/-- **What is found in a flat document.** -/
theorem flat_find {a : Assignment D} {root : JVal D} (h : FlatDoc a root) (k : Key) :
    k3cfgFind (k3CfgSrc root) k = (flatAround root k).before.or ((a k).or (flatAround root k).after) := by
  have hk := h k
  have hroot : firstOf (k3CfgSrc root).root k =
      (if k.alias.isSome then jsonGet (some root) k.primary else none).or (a k) := by
    unfold firstOf Key.flatName at *
    cases halias : k.alias with
    | none =>
        rw [halias] at hk
        simp only [Option.getD_none] at hk
        show (jsonGet (some root) k.primary).or none = (none : Option (JVal D)).or (a k)
        rw [hk, Option.or_none, Option.none_or]
    | some n =>
        rw [halias] at hk
        simp only [Option.getD_some] at hk
        show (jsonGet (some root) k.primary).or (jsonGet (some root) n) = _
        rw [hk]
        rfl
  unfold k3cfgFind flatAround
  rw [hroot, Option.or_none, Option.or_assoc, Option.or_assoc]

/-- **What is found in a nested document.** -/
theorem nested_find {a : Assignment D} {root txt lin : JVal D} (h : NestedDoc a root txt lin) (k : Key) :
    k3cfgFind (k3CfgSrc root) k =
      (nestedAround root txt lin k).before.or ((a k).or (nestedAround root txt lin k).after) := by
  have htxt : (k3CfgSrc root).txt = some txt := h.text_config
  have hlin : (k3CfgSrc root).lin = some lin := by
    show jsonGet (some ((jsonGet (some root) (ascii "text_config")).getD root)) _ = _
    rw [h.text_config]
    exact h.linear_attn_config
  have hk := h.values k
  unfold k3cfgFind nestedAround
  rw [htxt, hlin]
  show (firstOf (some txt) k).or ((firstOf (some lin) k).or (firstOf (some root) k)) = _
  cases hplace : k.inLin with
  | true =>
      rw [hplace] at hk
      simp only [if_true] at hk ⊢
      have hfirst : firstOf (some lin) k = (a k).or (k.alias.bind (jsonGet (some lin))) := by
        unfold firstOf
        rw [hk]
      rw [hfirst, Option.or_assoc]
  | false =>
      rw [hplace] at hk
      simp only [Bool.false_eq_true, if_false] at hk ⊢
      have hfirst : firstOf (some txt) k = (a k).or (k.alias.bind (jsonGet (some txt))) := by
        unfold firstOf
        rw [hk]
      rw [hfirst, Option.or_assoc, Option.none_or]

/-! ## Reading alike -/

variable (ops : Doubles D F) (faMax : Int)

/-- Two members are the same to the loader, as the value of a field. -/
def SameReading : Key → Option (JVal D) → Option (JVal D) → Prop
  | .int _, v, w => (numberOf v).map ops.toInt = (numberOf w).map ops.toInt
  | .float _, v, w => (numberOf v).map ops.toFloat = (numberOf w).map ops.toFloat
  | .flag _, v, w => k3cfgB ops v = k3cfgB ops w
  | .fullAttn, v, w => layersOf ops faMax v = layersOf ops faMax w

theorem sameReading_refl (k : Key) (v : Option (JVal D)) : SameReading ops faMax k v v := by
  cases k <;> rfl

/-- Two lookups read alike exactly when they do at every field. -/
theorem readings_eq_iff (find find' : Assignment D) :
    readings ops faMax find = readings ops faMax find' ↔ ∀ k, SameReading ops faMax k (find k) (find' k) := by
  unfold readings
  rw [Readings.mk.injEq]
  constructor
  · rintro ⟨hints, hfloats, hflags, hlayers⟩ k
    cases k with
    | int f => exact congrFun hints f
    | float f => exact congrFun hfloats f
    | flag f => exact congrFun hflags f
    | fullAttn => exact hlayers
  · intro h
    exact ⟨funext fun f => h (.int f), funext fun f => h (.float f), funext fun f => h (.flag f), h .fullAttn⟩

/-- **Nothing around a field changes what is read of it.**  A member that is met before reads like the
assigned one; and where nothing is assigned and nothing is met before, what is met behind reads like
nothing. -/
structure Undisturbed (a : Assignment D) (around : Key → Around D) : Prop where
  before : ∀ k v, (around k).before = some v → SameReading ops faMax k (some v) (a k)
  after : ∀ k, a k = none → (around k).before = none → SameReading ops faMax k (around k).after none

theorem undisturbed_iff (a : Assignment D) (around : Key → Around D) :
    Undisturbed ops faMax a around ↔
      ∀ k, SameReading ops faMax k ((around k).before.or ((a k).or (around k).after)) (a k) := by
  constructor
  · intro h k
    cases hb : (around k).before with
    | some v => exact h.before k v hb
    | none =>
        cases ha : a k with
        | some v => exact sameReading_refl ops faMax k (some v)
        | none => exact h.after k ha hb
  · intro h
    refine ⟨fun k v hb => ?_, fun k ha hb => ?_⟩
    · have hk := h k
      rw [hb] at hk
      exact hk
    · have hk := h k
      rw [hb, ha] at hk
      exact hk

/-- A lookup that goes past the assigned place reads what is assigned exactly when nothing around disturbs it. -/
theorem readings_found_iff {find a : Assignment D} {around : Key → Around D}
    (hfind : ∀ k, find k = (around k).before.or ((a k).or (around k).after)) :
    readings ops faMax find = readings ops faMax a ↔ Undisturbed ops faMax a around := by
  rw [readings_eq_iff, undisturbed_iff]
  exact forall_congr' fun k => by rw [hfind k]

/-! ## Loading alike -/

/-- The model that the assigned values describe. -/
def described (a : Assignment D) : Except CfgFail (K3CfgVals F) := finish ops.zero faMax (readings ops faMax a)

/-- A load that does not succeed. -/
def Refused (x : Except CfgFail (K3CfgVals F)) : Prop := ∀ c, x ≠ .ok c

/-- **Both shapes describe the same model**: both are refused, or both load the configuration of the assigned
values. -/
def SameModel (a : Assignment D) (flat nested : JVal D) : Prop :=
  (Refused (k3CfgLoad ops faMax flat) ∧ Refused (k3CfgLoad ops faMax nested)) ∨
    ∃ c, described ops faMax a = .ok c ∧ k3CfgLoad ops faMax flat = .ok c ∧ k3CfgLoad ops faMax nested = .ok c

/-- What the lookups of a document find cannot be loaded. -/
def Unsound (root : JVal D) : Prop :=
  ∀ fa, ¬ Sound ops.zero (readings ops faMax (k3cfgFind (k3CfgSrc root))) fa

theorem refused_iff (root : JVal D) : Refused (k3CfgLoad ops faMax root) ↔ Unsound ops faMax root := by
  constructor
  · exact fun h fa hs => h _ (finish_ok_iff.mpr ⟨fa, hs, rfl⟩)
  · intro h c hc
    obtain ⟨fa, hs, -⟩ := finish_ok_iff.mp hc
    exact h fa hs

/-- A required field is in none of the three objects, under neither name. -/
def Lacks (root : JVal D) (k : Key) : Prop :=
  ∀ o ∈ [(k3CfgSrc root).txt, (k3CfgSrc root).lin, (k3CfgSrc root).root],
    jsonGet o k.primary = none ∧ k.alias.bind (jsonGet o) = none

/-- What a required field cannot be read from: what is no number, or for the layers what is no list of them. -/
def Unreadable : Key → JVal D → Prop
  | .fullAttn, .arr kids => kids = [] ∨ ∃ v ∈ kids, numberOf (some v) = none
  | .fullAttn, _ => True
  | _, v => numberOf (some v) = none

theorem lacks_find {root : JVal D} {k : Key} (h : Lacks root k) : k3cfgFind (k3CfgSrc root) k = none := by
  have hfirst : ∀ o ∈ [(k3CfgSrc root).txt, (k3CfgSrc root).lin, (k3CfgSrc root).root], firstOf o k = none := by
    intro o ho
    unfold firstOf
    rw [(h o ho).1, (h o ho).2]
    rfl
  unfold k3cfgFind
  rw [hfirst _ (by simp), hfirst _ (by simp), hfirst _ (by simp)]
  rfl

/-- A list of layers was read from numbers. -/
theorem numbersFrom_numbers (kids : List (JVal D)) :
    ∀ {i : Nat} {fa : List Int}, numbersFrom ops i kids = .list fa → ∀ v ∈ kids, numberOf (some v) ≠ none := by
  induction kids with
  | nil => exact fun _ => nofun
  | cons v kids ih =>
      intro i fa h
      cases v with
      | num d =>
          unfold numbersFrom at h
          cases hrest : numbersFrom ops (i + 1) kids with
          | list fa' =>
              rw [List.forall_mem_cons]
              exact ⟨nofun, ih hrest⟩
          | absent => simp only [hrest, reduceCtorEq] at h
          | tooMany n => simp only [hrest, reduceCtorEq] at h
          | notNumber j => simp only [hrest, reduceCtorEq] at h
      | null | bool | str | arr | obj => cases h

/-- The layers are read from a nonempty list of numbers only. -/
theorem layersOf_list {v : JVal D} {fa : List Int} (h : layersOf ops faMax (some v) = .list fa) :
    ¬ Unreadable .fullAttn v := by
  cases v with
  | arr kids =>
      simp only [layersOf] at h
      split_ifs at h with hlen
      rintro (rfl | ⟨v, hv, hnone⟩)
      · exact hlen rfl
      · exact numbersFrom_numbers ops kids h v hv hnone
  | null | bool | num | str | obj => cases h

/-- **A required field that is lacking, or is not a number, refuses the load.** -/
theorem refused_of_unread {root : JVal D} {k : Key} (hk : k ∈ numberKeys ++ [Key.fullAttn])
    (h : Lacks root k ∨ ∃ v, k3cfgFind (k3CfgSrc root) k = some v ∧ Unreadable k v) :
    Refused (k3CfgLoad ops faMax root) := by
  rw [refused_iff]
  intro fa hs
  have hnumber : k ≠ .fullAttn → numberOf (k3cfgFind (k3CfgSrc root) k) = none := by
    intro hne
    rcases h with hlacks | ⟨v, hfind, hun⟩
    · rw [lacks_find hlacks]
      rfl
    · rw [hfind]
      cases k with
      | fullAttn => exact absurd rfl hne
      | int f | float f | flag f => exact hun
  cases k with
  | int f =>
      have hsome := hs.ints f
      simp only [readings, hnumber nofun, Option.map_none, Option.isSome_none, Bool.false_eq_true] at hsome
  | float f =>
      have hsome := hs.floats f
      simp only [readings, hnumber nofun, Option.map_none, Option.isSome_none, Bool.false_eq_true] at hsome
  | flag f => cases f <;> revert hk <;> decide
  | fullAttn =>
      have hlayers : layersOf ops faMax (k3cfgFind (k3CfgSrc root) .fullAttn) = .list fa := hs.layers
      rcases h with hlacks | ⟨v, hfind, hun⟩
      · rw [lacks_find hlacks] at hlayers
        cases hlayers
      · rw [hfind] at hlayers
        exact layersOf_list ops faMax hlayers hun

/-! ## Unrelated members -/

/-- Members that no lookup names. -/
def Unrelated (l : List (Bytes × JVal D)) : Prop := ∀ e ∈ l, e.1 ∉ names

theorem undisturbed_of_none {a : Assignment D} {around : Key → Around D} (hbefore : ∀ k, (around k).before = none)
    (hafter : ∀ k, (around k).after = none) : Undisturbed ops faMax a around where
  before k v hv := by
    rw [hbefore k] at hv
    cases hv
  after k _ _ := by
    rw [hafter k]
    exact sameReading_refl ops faMax k none

theorem flatOf_undisturbed {extra : List (Bytes × JVal D)} (h : Unrelated extra) (a : Assignment D) :
    Undisturbed ops faMax a (flatAround (flatOf extra a)) := by
  have habsent : ∀ n ∈ [ascii "text_config", ascii "linear_attn_config"],
      jsonGet (some (flatOf extra a)) n = none := by
    intro n hn
    apply jsonGet_none
    rintro e he rfl
    rcases List.mem_append.mp he with hfield | hextra
    · obtain ⟨k, -, hname⟩ := mem_membersOf hfield
      exact not_named_config k hn (hname ▸ named_flatName k)
    · exact h e hextra (List.mem_append_left _ (List.mem_append_left _ hn))
  have htxt : (k3CfgSrc (flatOf extra a)).txt = none := habsent _ (by simp)
  have hlin : (k3CfgSrc (flatOf extra a)).lin = none := by
    show jsonGet (some ((k3CfgSrc (flatOf extra a)).txt.getD (flatOf extra a))) _ = none
    rw [htxt]
    exact habsent _ (by simp)
  apply undisturbed_of_none ops faMax
  · intro k
    have hreleased : (if k.alias.isSome then jsonGet (some (flatOf extra a)) k.primary else none) = none := by
      split_ifs with halias
      · apply jsonGet_none
        intro e he heq
        rcases List.mem_append.mp he with hfield | hextra
        · obtain ⟨k', -, hname⟩ := mem_membersOf hfield
          exact flatName_ne_primary halias k' (hname ▸ heq)
        · exact h e hextra (Key.Named.mem_names (k := k) (.inl heq))
      · rfl
    have hnone : firstOf (none : Option (JVal D)) k = none := by
      unfold firstOf
      cases k.alias <;> rfl
    unfold flatAround
    rw [htxt, hlin, hreleased, hnone]
    rfl
  · exact fun _ => rfl

/-- Fields written under their released names do not stand in the place of another. -/
theorem members_unnamed {ks : List Key} {extra : List (Bytes × JVal D)} {a : Assignment D} {k : Key} (hk : k ∉ ks)
    (h : Unrelated extra) : ∀ e ∈ membersOf Key.primary ks a ++ extra, ¬ k.Named e.1 := by
  intro e he hnamed
  rcases List.mem_append.mp he with hfield | hextra
  · obtain ⟨k', hk', hname⟩ := mem_membersOf hfield
    rw [hname] at hnamed
    exact hk (named_primary hnamed ▸ hk')
  · exact h e hextra hnamed.mem_names

theorem members_alias {ks : List Key} {extra : List (Bytes × JVal D)} {a : Assignment D} (k : Key)
    (h : Unrelated extra) : ∀ e ∈ membersOf Key.primary ks a ++ extra, k.alias ≠ some e.1 := by
  intro e he halias
  rcases List.mem_append.mp he with hfield | hextra
  · obtain ⟨k', -, hname⟩ := mem_membersOf hfield
    exact alias_ne_primary halias k' hname
  · exact h e hextra (Key.Named.mem_names (.inr halias))

theorem nestedOf_undisturbed {extra inText inLin : List (Bytes × JVal D)} (h : Unrelated extra)
    (htext : Unrelated inText) (hlin : Unrelated inLin) (a : Assignment D) :
    Undisturbed ops faMax a
      (nestedAround (nestedOf extra inText inLin a) (textOf inText inLin a) (linOf inLin a)) := by
  have hconfig : ∀ (k : Key) (n : Bytes), n ∈ [ascii "text_config", ascii "linear_attn_config"] → ¬ k.Named n :=
    fun k n hn => not_named_config k hn
  -- the root holds the two objects and members of no looked-up name
  have hroot : ∀ k, firstOf (some (nestedOf extra inText inLin a)) k = none := by
    intro k
    apply firstOf_none
    rw [List.forall_mem_cons]
    exact ⟨hconfig k _ (by simp), fun e he hnamed => h e he hnamed.mem_names⟩
  -- what `text_config` carries is not below `linear_attn_config`
  have htxt : ∀ k : Key, k.inLin = true → firstOf (some (textOf inText inLin a)) k = none := by
    intro k hk
    apply firstOf_none
    rw [List.forall_mem_cons]
    refine ⟨hconfig k _ (by simp), members_unnamed ?_ htext⟩
    intro hmem
    have hplace := (List.mem_filter.mp hmem).2
    rw [hk] at hplace
    cases hplace
  have hbelow : ∀ k : Key, k.inLin = false → firstOf (some (linOf inLin a)) k = none := by
    intro k hk
    apply firstOf_none
    apply members_unnamed _ hlin
    intro hmem
    have hplace := (List.mem_filter.mp hmem).2
    rw [hk] at hplace
    cases hplace
  apply undisturbed_of_none ops faMax
  · intro k
    unfold nestedAround
    cases hk : k.inLin with
    | true => exact htxt k hk
    | false => rfl
  · intro k
    have halias : k.alias.bind (jsonGet (some (linOf inLin a))) = none := aliasIn_none (members_alias k hlin)
    have haliasText : k.alias.bind (jsonGet (some (textOf inText inLin a))) = none := by
      apply aliasIn_none
      rw [List.forall_mem_cons]
      exact ⟨fun heq => hconfig k _ (by simp) (.inr heq), members_alias k htext⟩
    unfold nestedAround
    cases hk : k.inLin with
    | true =>
        show (k.alias.bind (jsonGet (some (linOf inLin a)))).or (firstOf _ k) = none
        rw [halias, hroot k]
        rfl
    | false =>
        show (k.alias.bind (jsonGet (some (textOf inText inLin a)))).or ((firstOf _ k).or (firstOf _ k)) = none
        rw [haliasText, hbelow k hk, hroot k]
        rfl

/-! ## The two shapes -/

/-- A load that reads what is assigned loads the model of it. -/
theorem load_of_readings {a : Assignment D} {root : JVal D}
    (h : readings ops faMax (k3cfgFind (k3CfgSrc root)) = readings ops faMax a) :
    k3CfgLoad ops faMax root = described ops faMax a := by
  unfold k3CfgLoad described
  rw [h]

/-- A load that succeeds with the model of an assignment read what is assigned. -/
theorem readings_of_load {a : Assignment D} {root : JVal D} {c : K3CfgVals F} (ha : described ops faMax a = .ok c)
    (h : k3CfgLoad ops faMax root = .ok c) :
    readings ops faMax (k3cfgFind (k3CfgSrc root)) = readings ops faMax a := finish_inj h ha

/-- Two documents that load what the assigned values describe are both refused, or both load its model. -/
theorem sameModel_of_loads {a : Assignment D} {flat nested : JVal D}
    (hflat : k3CfgLoad ops faMax flat = described ops faMax a)
    (hnested : k3CfgLoad ops faMax nested = described ops faMax a) : SameModel ops faMax a flat nested := by
  cases ha : described ops faMax a with
  | ok c => exact .inr ⟨c, ha, hflat.trans ha, hnested.trans ha⟩
  | error e =>
      rw [ha] at hflat hnested
      left
      constructor
      · intro c hc
        rw [hflat] at hc
        cases hc
      · intro c hc
        rw [hnested] at hc
        cases hc

/-- A flat document whose other members are unrelated loads what is assigned. -/
theorem flatOf_load {extra : List (Bytes × JVal D)} (h : Unrelated extra) (a : Assignment D) :
    k3CfgLoad ops faMax (flatOf extra a) = described ops faMax a := by
  have hdoc : FlatDoc a (flatOf extra a) :=
    flatOf_doc (fun e he k heq => h e he (heq ▸ (named_flatName k).mem_names)) a
  apply load_of_readings
  rw [readings_found_iff ops faMax (flat_find hdoc)]
  exact flatOf_undisturbed ops faMax h a

/-- So does a nested one. -/
theorem nestedOf_load {extra inText inLin : List (Bytes × JVal D)} (h : Unrelated extra) (htext : Unrelated inText)
    (hlin : Unrelated inLin) (a : Assignment D) :
    k3CfgLoad ops faMax (nestedOf extra inText inLin a) = described ops faMax a := by
  have hdoc : NestedDoc a (nestedOf extra inText inLin a) (textOf inText inLin a) (linOf inLin a) :=
    nestedOf_doc extra (fun e he k _ heq => htext e he (Key.Named.mem_names (.inl heq)))
      (fun e he k _ heq => hlin e he (Key.Named.mem_names (.inl heq))) a
  apply load_of_readings
  rw [readings_found_iff ops faMax (nested_find hdoc)]
  exact nestedOf_undisturbed ops faMax h htext hlin a

/-- **Unrelated members are harmless**: with none but these, the two documents of an assignment describe the same
model. -/
theorem unrelated_sameModel {inFlat inRoot inText inLin : List (Bytes × JVal D)} (hflat : Unrelated inFlat)
    (hroot : Unrelated inRoot) (htext : Unrelated inText) (hlin : Unrelated inLin) (a : Assignment D) :
    SameModel ops faMax a (flatOf inFlat a) (nestedOf inRoot inText inLin a) :=
  sameModel_of_loads ops faMax (flatOf_load ops faMax hflat a) (nestedOf_load ops faMax hroot htext hlin a)

/-- **Both shapes describe the same model**, for every assignment, exactly when nothing around a field of either
document disturbs it, or when what both documents' lookups find cannot be loaded.  And of any document, a
required field that is lacking or not a number refuses the load. -/
theorem shapes_agree_iff (ops : Doubles D F) (faMax : Int) (a : Assignment D) {flat nested txt lin : JVal D}
    (hflat : FlatDoc a flat) (hnested : NestedDoc a nested txt lin) :
    (SameModel ops faMax a flat nested ↔
      (Undisturbed ops faMax a (flatAround flat) ∧ Undisturbed ops faMax a (nestedAround nested txt lin)) ∨
        (Unsound ops faMax flat ∧ Unsound ops faMax nested)) ∧
      ∀ (root : JVal D), ∀ k ∈ numberKeys ++ [Key.fullAttn],
        (Lacks root k ∨ ∃ v, k3cfgFind (k3CfgSrc root) k = some v ∧ Unreadable k v) →
          Refused (k3CfgLoad ops faMax root) := by
  refine ⟨?_, fun root k hk h => refused_of_unread ops faMax hk h⟩
  rw [← readings_found_iff ops faMax (flat_find hflat), ← readings_found_iff ops faMax (nested_find hnested),
    ← refused_iff, ← refused_iff]
  constructor
  · rintro (hrefused | ⟨c, ha, hf, hn⟩)
    · exact .inr hrefused
    · exact .inl ⟨readings_of_load ops faMax ha hf, readings_of_load ops faMax ha hn⟩
  · rintro (⟨hf, hn⟩ | hrefused)
    · exact sameModel_of_loads ops faMax (load_of_readings ops faMax hf) (load_of_readings ops faMax hn)
    · exact .inl hrefused

/-- Numbers that are integers. -/
def integers : Doubles Int Int where
  toInt := id
  toFloat := id
  nonzero d := d ≠ 0
  zero := 0

/-- The released model's numbers, as far as they are integers. -/
def released : Assignment Int
  | .int .hidden => some (.num 7168)
  | .int .nLayers => some (.num 93)
  | .int .vocab => some (.num 163840)
  | .int .kdaHeads => some (.num 96)
  | .int .kdaHeadDim => some (.num 128)
  | .int .convK => some (.num 4)
  | .int .nHeads => some (.num 96)
  | .int .qLora => some (.num 1536)
  | .int .kvLora => some (.num 512)
  | .int .qkNope => some (.num 128)
  | .int .qkRope => some (.num 64)
  | .int .vHead => some (.num 128)
  | .int .nExperts => some (.num 896)
  | .int .topk => some (.num 16)
  | .int .nShared => some (.num 2)
  | .int .latent => some (.num 3584)
  | .int .moeInter => some (.num 3072)
  | .int .firstDense => some (.num 1)
  | .int .denseInter => some (.num 33792)
  | .int .attnResBlock => some (.num 12)
  | .float .rmsEps => some (.num 1)
  | .float .gateLb => some (.num (-5))
  | .float .routedScale => some (.num 1)
  | .float .situB1 => some (.num 4)
  | .float .situB2 => some (.num 25)
  | .flag _ => some (.bool true)
  | .fullAttn => some (.arr ((List.range 23).map (fun i => .num (4 * (i + 1))) ++ [.num 93]))

/-- A member of `text_config` for the attention's heads. -/
def attnHeadDim : List (Bytes × JVal Int) := [(ascii "head_dim", .num 192)]

theorem loads_of_toOption {α : Type} {x : Except CfgFail (K3CfgVals F)} {f : K3CfgVals F → α} {v : α}
    (h : x.toOption.map f = some v) : ∃ c, x = .ok c ∧ f c = v := by
  cases x with
  | error e => cases h
  | ok c => exact ⟨c, rfl, Option.some.inj h⟩

theorem released_described : ∃ c, described integers 128 released = .ok c ∧ c.ints .kdaHeadDim = 128 :=
  loads_of_toOption (f := fun c => c.ints .kdaHeadDim) (by decide +kernel)

theorem unrelated_nil : Unrelated ([] : List (Bytes × JVal D)) := List.forall_mem_nil _

/-- Its two plain documents load, with the KDA heads of `linear_attn_config`, and describe it. -/
theorem released_shapes_agree :
    (∃ c, k3CfgLoad integers 128 (nestedOf [] [] [] released) = .ok c ∧ c.ints .kdaHeadDim = 128) ∧
      SameModel integers 128 released (flatOf [] released) (nestedOf [] [] [] released) := by
  have hagree := shapes_agree_iff integers 128 released (flatOf_doc (List.forall_mem_nil _) released)
    (nestedOf_doc [] (List.forall_mem_nil _) (List.forall_mem_nil _) released)
  constructor
  · rw [nestedOf_load integers 128 unrelated_nil unrelated_nil unrelated_nil released]
    exact released_described
  · exact hagree.1.mpr (.inl ⟨flatOf_undisturbed integers 128 unrelated_nil released,
      nestedOf_undisturbed integers 128 unrelated_nil unrelated_nil unrelated_nil released⟩)

/-- With the attention's `head_dim` in `text_config`, the nested document loads another model: the KDA heads are
the attention's. -/
theorem text_head_dim_taken :
    FlatDoc released (flatOf [] released) ∧
      NestedDoc released (nestedOf [] attnHeadDim [] released) (textOf attnHeadDim [] released) (linOf [] released) ∧
      (∃ c, k3CfgLoad integers 128 (flatOf [] released) = .ok c ∧ c.ints .kdaHeadDim = 128) ∧
      (∃ c, k3CfgLoad integers 128 (nestedOf [] attnHeadDim [] released) = .ok c ∧ c.ints .kdaHeadDim = 192) ∧
      ¬ SameModel integers 128 released (flatOf [] released) (nestedOf [] attnHeadDim [] released) := by
  have hother : ∀ e ∈ attnHeadDim, ∀ k : Key, k.inLin = false → e.1 ≠ k.primary := by
    intro e he k hk heq
    obtain rfl := List.mem_singleton.mp he
    have hkey : Key.int .kdaHeadDim = k := primary_injective heq
    subst hkey
    cases hk
  have hflat : ∃ c, k3CfgLoad integers 128 (flatOf [] released) = .ok c ∧ c.ints .kdaHeadDim = 128 := by
    rw [flatOf_load integers 128 unrelated_nil released]
    exact released_described
  have hnested : ∃ c, k3CfgLoad integers 128 (nestedOf [] attnHeadDim [] released) = .ok c ∧
      c.ints .kdaHeadDim = 192 := loads_of_toOption (f := fun c => c.ints .kdaHeadDim) (by decide +kernel)
  refine ⟨flatOf_doc (List.forall_mem_nil _) released, nestedOf_doc [] hother (List.forall_mem_nil _) released, hflat,
    hnested, ?_⟩
  obtain ⟨c, hc, hdim⟩ := hflat
  obtain ⟨c', hc', hdim'⟩ := hnested
  rintro (⟨hrefused, -⟩ | ⟨c'', -, hload, hload'⟩)
  · exact hrefused c hc
  · rw [hc] at hload
    rw [hc'] at hload'
    cases hload
    cases hload'
    rw [hdim] at hdim'
    exact absurd hdim' (by decide)

end LlmEngine.Cfg
