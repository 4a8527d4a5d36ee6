/-
# LlmEngine.Cfg.Load — `k3_cfg_load` (`include/k3/k3_cfg.h`).

A configuration is read from the tree of a JSON document, in either of two shapes.  Every field is looked
up in `text_config`, in its `linear_attn_config` and in the root, under the released name and then under
the fixture's.  A number that is not found is collected and refuses the load.

A double is a parameter, with the conversions the loader makes of it.  What `k3_cfg_load` stores is a
function of what its lookups find (`finish`), and it is accepted exactly when all numbers are there and
the structural checks pass.

* `Key` names a field, `Key.primary` and `Key.alias` the names it goes by, and `numberKeys` the ones that are required.
* `k3cfgFind` is one lookup; `readings` is all of them, converted.
* `Readings.stored` is the structure that is filled, `structural` the checks on it, in the source's order, with the
  first that fails as the refusal.

`finish_ok_iff` says what is accepted (`Sound`), and `finish_inj` that an accepted configuration determines the
readings it came from.  `Checked` is what every accepted configuration satisfies; that it bounds no size
from above matters to those who allocate by it (`Core.Scratch`).
-/
import LlmEngine.Core.Config
import LlmEngine.Tokenizer.Bpe

namespace LlmEngine.Cfg

open LlmEngine.Core (maxTopk)
open LlmEngine.Lib.LittleEndian
open LlmEngine.Tokenizer (ascii)

/-! ## The tree -/

/-- `jval`, with the payload of its type. -/
inductive JVal (D : Type)
  | null
  | bool (b : Bool)
  | num (d : D)
  | str (s : Bytes)
  | arr (kids : List (JVal D))
  | obj (members : List (Bytes × JVal D))

/-- `json_get`: the first member of that name, of an object. -/
def jsonGet {D : Type} : Option (JVal D) → Bytes → Option (JVal D)
  | some (.obj members), key => (members.find? fun e => e.1 = key).map Prod.snd
  | _, _ => none

/-- `(int)v->num`, `(float)v->num`, `v->num != 0.0` and `0.0f`. -/
structure Doubles (D F : Type) where
  toInt : D → Int
  toFloat : D → F
  nonzero : D → Bool
  zero : F

/-! ## Fields -/

inductive IntField
  | hidden | nLayers | vocab | kdaHeads | kdaHeadDim | convK | nHeads | qLora | kvLora | qkNope | qkRope | vHead
  | nExperts | topk | nShared | latent | moeInter | firstDense | denseInter | attnResBlock
  deriving DecidableEq

inductive FloatField
  | rmsEps | gateLb | routedScale | situB1 | situB2
  deriving DecidableEq

inductive Flag
  | mlaOutGate | moeRenorm | latentNorm
  deriving DecidableEq

/-- What is looked up. -/
inductive Key
  | int (f : IntField)
  | float (f : FloatField)
  | flag (f : Flag)
  | fullAttn
  deriving DecidableEq

/-- The name in the released configuration. -/
def Key.primary : Key → Bytes
  | .int .hidden => ascii "hidden_size"
  | .int .nLayers => ascii "num_hidden_layers"
  | .int .vocab => ascii "vocab_size"
  | .float .rmsEps => ascii "rms_norm_eps"
  | .int .kdaHeads => ascii "num_heads"
  | .int .kdaHeadDim => ascii "head_dim"
  | .int .convK => ascii "short_conv_kernel_size"
  | .float .gateLb => ascii "gate_lower_bound"
  | .int .nHeads => ascii "num_attention_heads"
  | .int .qLora => ascii "q_lora_rank"
  | .int .kvLora => ascii "kv_lora_rank"
  | .int .qkNope => ascii "qk_nope_head_dim"
  | .int .qkRope => ascii "qk_rope_head_dim"
  | .int .vHead => ascii "v_head_dim"
  | .flag .mlaOutGate => ascii "mla_use_output_gate"
  | .int .nExperts => ascii "num_experts"
  | .int .topk => ascii "num_experts_per_token"
  | .int .nShared => ascii "num_shared_experts"
  | .int .latent => ascii "routed_expert_hidden_size"
  | .int .moeInter => ascii "moe_intermediate_size"
  | .float .routedScale => ascii "routed_scaling_factor"
  | .flag .moeRenorm => ascii "moe_renormalize"
  | .flag .latentNorm => ascii "latent_moe_use_norm"
  | .int .firstDense => ascii "first_k_dense_replace"
  | .int .denseInter => ascii "intermediate_size"
  | .int .attnResBlock => ascii "attn_res_block_size"
  | .float .situB1 => ascii "activation_situ_beta"
  | .float .situB2 => ascii "activation_situ_linear_beta"
  | .fullAttn => ascii "full_attn_layers"

/-- The other spelling, where there is one. -/
def Key.alias : Key → Option Bytes
  | .int .kdaHeads => some (ascii "kda_num_heads")
  | .int .kdaHeadDim => some (ascii "kda_head_dim")
  | .float .situB1 => some (ascii "situ_beta")
  | .float .situB2 => some (ascii "situ_linear_beta")
  | _ => none

/-- The numbers, in the order of their lookups. -/
def numberKeys : List Key :=
  [.int .hidden, .int .nLayers, .int .vocab, .float .rmsEps, .int .kdaHeads, .int .kdaHeadDim, .int .convK,
    .float .gateLb, .int .nHeads, .int .qLora, .int .kvLora, .int .qkNope, .int .qkRope, .int .vHead, .int .nExperts,
    .int .topk, .int .nShared, .int .latent, .int .moeInter, .float .routedScale, .int .firstDense, .int .denseInter,
    .int .attnResBlock, .float .situB1, .float .situB2]

/-! ## Lookup -/

section Lookup

variable {D F : Type} (ops : Doubles D F)

/-- `K3CfgSrc`, without what is missing. -/
structure K3CfgSrc (D : Type) where
  txt : Option (JVal D)
  lin : Option (JVal D)
  root : Option (JVal D)

/-- The three objects of a document. -/
def k3CfgSrc (root : JVal D) : K3CfgSrc D :=
  let txt := jsonGet (some root) (ascii "text_config")
  { txt := txt
    lin := jsonGet (some (txt.getD root)) (ascii "linear_attn_config")
    root := some root }

/-- A field in one object, under either name. -/
def firstOf (o : Option (JVal D)) (k : Key) : Option (JVal D) :=
  (jsonGet o k.primary).or (k.alias.bind (jsonGet o))

/-- `k3cfg_find`. -/
def k3cfgFind (s : K3CfgSrc D) (k : Key) : Option (JVal D) :=
  (firstOf s.txt k).or ((firstOf s.lin k).or (firstOf s.root k))

/-- The number of `k3cfg_i` and `k3cfg_f`. -/
def numberOf : Option (JVal D) → Option D
  | some (.num d) => some d
  | _ => none

/-- `k3cfg_b`, with its default. -/
def k3cfgB : Option (JVal D) → Bool
  | some (.bool b) => b
  | some (.num d) => ops.nonzero d
  | _ => true

/-- What the layer list can be. -/
inductive Layers
  | absent
  | tooMany (n : Nat)
  | notNumber (i : Nat)
  | list (fa : List Int)
  deriving DecidableEq

/-- `for (int i = 0; i < fal->len; i++)` -/
def numbersFrom : Nat → List (JVal D) → Layers
  | _, [] => .list []
  | i, .num d :: kids =>
      match numbersFrom (i + 1) kids with
      | .list fa => .list (ops.toInt d :: fa)
      | l => l
  | i, _ :: _ => .notNumber i

/-- The layer map. -/
def layersOf (faMax : Int) : Option (JVal D) → Layers
  | some (.arr kids) =>
      if kids.length = 0 then .absent
      else if kids.length > faMax then .tooMany kids.length
      else numbersFrom ops 0 kids
  | _ => .absent

/-- What the lookups find. -/
structure Readings (F : Type) where
  ints : IntField → Option Int
  floats : FloatField → Option F
  flags : Flag → Bool
  layers : Layers

/-- The values read where `find` finds them. -/
def readings (faMax : Int) (find : Key → Option (JVal D)) : Readings F where
  ints f := (numberOf (find (.int f))).map ops.toInt
  floats f := (numberOf (find (.float f))).map ops.toFloat
  flags f := k3cfgB ops (find (.flag f))
  layers := layersOf ops faMax (find .fullAttn)

end Lookup

/-! ## The load -/

/-- The fields of `K3Cfg` that a load sets. -/
structure K3CfgVals (F : Type) where
  ints : IntField → Int
  floats : FloatField → F
  flags : Flag → Bool
  fullAttn : List Int

/-- Why `k3_cfg_load` refuses a configuration. -/
inductive CfgFail
  /-- `k3_cfg: %s lists %d full-attention layers, buffer holds %d` -/
  | tooMany (n : Nat) (faMax : Int)
  /-- `k3_cfg: %s full_attn_layers[%d] is not a number` -/
  | notNumber (i : Nat)
  /-- `k3_cfg: %s is missing %d required field(s):` -/
  | missing (names : List Bytes)
  /-- `k3_cfg: %s has non-positive layers/hidden/vocab` -/
  | nonPositive
  /-- `k3_cfg: %s marks %d of %d layers as full attention, leaving no KDA layers` -/
  | noKda (n : Nat) (layers : Int)
  /-- `k3_cfg: %s full_attn_layers[%d] = %d is outside 1..%d` -/
  | outside (i : Nat) (v layers : Int)
  /-- `k3_cfg: %s selects top-%d, but this build supports at most %d` -/
  | topkBound (topk : Int)
  /-- `k3_cfg: %s selects %d of %d experts` -/
  | topkExperts (topk experts : Int)
  /-- `k3_cfg: %s has attn_res_block_size %d` -/
  | resBlock (v : Int)
  /-- `k3_cfg: %s has short_conv_kernel_size %d` -/
  | convKernel (v : Int)
  deriving DecidableEq

section Load

variable {D F : Type}

/-- The value of a number key, as far as it is there. -/
def Readings.found (r : Readings F) : Key → Bool
  | .int f => (r.ints f).isSome
  | .float f => (r.floats f).isSome
  | .flag _ => true
  | .fullAttn => r.layers ≠ .absent

/-- `missing`, in the order of the lookups. -/
def Readings.missing (r : Readings F) : List Bytes :=
  ((numberKeys ++ [Key.fullAttn]).filter fun k => !r.found k).map Key.primary

/-- What is stored; a field that is missing is 0. -/
def Readings.stored (zero : F) (r : Readings F) (fa : List Int) : K3CfgVals F where
  ints f := (r.ints f).getD 0
  floats f := (r.floats f).getD zero
  flags := r.flags
  fullAttn := fa

/-- The first layer outside `1..n_layers`. -/
def outsideFrom (layers : Int) : Nat → List Int → Option (Nat × Int)
  | _, [] => none
  | i, v :: fa => if v < 1 ∨ v > layers then some (i, v) else outsideFrom layers (i + 1) fa

/-- The structural checks. -/
def structural (c : K3CfgVals F) : Except CfgFail (K3CfgVals F) :=
  if c.ints .nLayers ≤ 0 ∨ c.ints .hidden ≤ 0 ∨ c.ints .vocab ≤ 0 then .error .nonPositive
  else if c.fullAttn.length ≥ c.ints .nLayers then .error (.noKda c.fullAttn.length (c.ints .nLayers))
  else
    match outsideFrom (c.ints .nLayers) 0 c.fullAttn with
    | some (i, v) => .error (.outside i v (c.ints .nLayers))
    | none =>
        if c.ints .topk > maxTopk then .error (.topkBound (c.ints .topk))
        else if c.ints .topk > c.ints .nExperts then .error (.topkExperts (c.ints .topk) (c.ints .nExperts))
        else if c.ints .attnResBlock ≤ 0 then .error (.resBlock (c.ints .attnResBlock))
        else if c.ints .convK < 1 then .error (.convKernel (c.ints .convK))
        else .ok c

/-- `k3_cfg_load` after its lookups. -/
def finish (zero : F) (faMax : Int) (r : Readings F) : Except CfgFail (K3CfgVals F) :=
  match r.layers with
  | .tooMany n => .error (.tooMany n faMax)
  | .notNumber i => .error (.notNumber i)
  | .absent => .error (.missing r.missing)
  | .list fa => if r.missing ≠ [] then .error (.missing r.missing) else structural (r.stored zero fa)

/-- `k3_cfg_load`. -/
def k3CfgLoad (ops : Doubles D F) (faMax : Int) (root : JVal D) : Except CfgFail (K3CfgVals F) :=
  finish ops.zero faMax (readings ops faMax (k3cfgFind (k3CfgSrc root)))

end Load

/-! ## What is accepted -/

/-- What the structural checks have established of a configuration that was loaded. -/
structure Checked {F : Type} (c : K3CfgVals F) : Prop where
  layers_pos : 0 < c.ints .nLayers
  hidden_pos : 0 < c.ints .hidden
  vocab_pos : 0 < c.ints .vocab
  some_kda : c.fullAttn.length < c.ints .nLayers
  in_range : ∀ v ∈ c.fullAttn, 1 ≤ v ∧ v ≤ c.ints .nLayers
  topk_max : c.ints .topk ≤ maxTopk
  topk_le : c.ints .topk ≤ c.ints .nExperts
  block_pos : 0 < c.ints .attnResBlock
  conv_pos : 1 ≤ c.ints .convK

section Accepted

variable {D F : Type}

theorem outsideFrom_none_iff (layers : Int) (fa : List Int) :
    ∀ i, outsideFrom layers i fa = none ↔ ∀ v ∈ fa, 1 ≤ v ∧ v ≤ layers := by
  induction fa with
  | nil => exact fun i => ⟨fun _ => nofun, fun _ => rfl⟩
  | cons v fa ih =>
      intro i
      rw [outsideFrom, List.forall_mem_cons]
      split_ifs with hout
      · constructor
        · exact nofun
        · rintro ⟨hv, -⟩
          omega
      · rw [ih (i + 1)]
        constructor
        · exact fun h => ⟨by omega, h⟩
        · exact fun h => h.2

/-- The structural checks pass exactly on these. -/
theorem structural_ok_iff {c c' : K3CfgVals F} : structural c = .ok c' ↔ c' = c ∧ Checked c := by
  unfold structural
  constructor
  · intro h
    cases hout : outsideFrom (c.ints .nLayers) 0 c.fullAttn with
    | some v =>
        simp only [hout] at h
        split_ifs at h
    | none =>
        simp only [hout] at h
        split_ifs at h with hpos hkda hmax hle hblock hconv
        cases h
        exact ⟨rfl, by omega, by omega, by omega, by omega, (outsideFrom_none_iff _ _ 0).mp hout, by omega, by omega,
          by omega, by omega⟩
  · rintro ⟨rfl, hc⟩
    have hlayers := hc.layers_pos
    have hhidden := hc.hidden_pos
    have hvocab := hc.vocab_pos
    have hkda := hc.some_kda
    have hmax := hc.topk_max
    have hle := hc.topk_le
    have hblock := hc.block_pos
    have hconv := hc.conv_pos
    rw [if_neg (by omega), if_neg (by omega), (outsideFrom_none_iff _ _ 0).mpr hc.in_range]
    simp only
    rw [if_neg (by omega), if_neg (by omega), if_neg (by omega), if_neg (by omega)]

/-- Nothing is missing exactly when every number and the layers are there. -/
theorem missing_nil_iff (r : Readings F) :
    r.missing = [] ↔ (∀ f, (r.ints f).isSome) ∧ (∀ f, (r.floats f).isSome) ∧ r.layers ≠ .absent := by
  unfold Readings.missing
  rw [List.map_eq_nil_iff, List.filter_eq_nil_iff]
  constructor
  · intro h
    have hfound : ∀ k ∈ numberKeys ++ [Key.fullAttn], r.found k = true := fun k hk => by simpa using h k hk
    refine ⟨fun f => hfound (.int f) ?_, fun f => hfound (.float f) ?_, ?_⟩
    · cases f <;> decide
    · cases f <;> decide
    · exact of_decide_eq_true (hfound .fullAttn (by decide))
  · rintro ⟨hints, hfloats, hlayers⟩ k -
    cases k with
    | int f => simp [Readings.found, hints f]
    | float f => simp [Readings.found, hfloats f]
    | flag f => simp [Readings.found]
    | fullAttn => simp [Readings.found, hlayers]

/-- **What is found can be loaded**: every number is there, the layers are a list, and the checks pass. -/
structure Sound (zero : F) (r : Readings F) (fa : List Int) : Prop where
  ints : ∀ f, (r.ints f).isSome
  floats : ∀ f, (r.floats f).isSome
  layers : r.layers = .list fa
  checked : Checked (r.stored zero fa)

/-- **A load stores what was found**, and is accepted exactly when that can be loaded. -/
theorem finish_ok_iff {zero : F} {faMax : Int} {r : Readings F} {c : K3CfgVals F} :
    finish zero faMax r = .ok c ↔ ∃ fa, Sound zero r fa ∧ c = r.stored zero fa := by
  unfold finish
  constructor
  · intro h
    cases hl : r.layers with
    | absent => simp only [hl, reduceCtorEq] at h
    | tooMany n => simp only [hl, reduceCtorEq] at h
    | notNumber i => simp only [hl, reduceCtorEq] at h
    | list fa =>
        simp only [hl] at h
        split_ifs at h with hmiss
        obtain ⟨hints, hfloats, -⟩ := (missing_nil_iff r).mp (not_not.mp hmiss)
        obtain ⟨rfl, hchecked⟩ := structural_ok_iff.mp h
        exact ⟨fa, ⟨hints, hfloats, hl, hchecked⟩, rfl⟩
  · rintro ⟨fa, hsound, rfl⟩
    have hmiss : r.missing = [] :=
      (missing_nil_iff r).mpr ⟨hsound.ints, hsound.floats, by rw [hsound.layers]; exact nofun⟩
    simp only [hsound.layers]
    rw [if_neg (not_not.mpr hmiss)]
    exact structural_ok_iff.mpr ⟨rfl, hsound.checked⟩

/-- What was stored says what was found. -/
theorem finish_inj {zero : F} {faMax : Int} {r r' : Readings F} {c : K3CfgVals F} (h : finish zero faMax r = .ok c)
    (h' : finish zero faMax r' = .ok c) : r = r' := by
  obtain ⟨fa, hs, rfl⟩ := finish_ok_iff.mp h
  obtain ⟨fa', hs', heq⟩ := finish_ok_iff.mp h'
  unfold Readings.stored at heq
  rw [K3CfgVals.mk.injEq] at heq
  obtain ⟨hints, hfloats, hflags, hfa⟩ := heq
  have hsome : ∀ {α : Type} {a b : Option α} (z : α), a.isSome → b.isSome → a.getD z = b.getD z → a = b := by
    intro α a b z ha hb heq
    obtain ⟨x, rfl⟩ := Option.isSome_iff_exists.mp ha
    obtain ⟨y, rfl⟩ := Option.isSome_iff_exists.mp hb
    exact congrArg some heq
  cases r with
  | mk ints floats flags layers =>
      cases r' with
      | mk ints' floats' flags' layers' =>
          rw [Readings.mk.injEq]
          refine ⟨funext fun f => hsome 0 (hs.ints f) (hs'.ints f) (congrFun hints f),
            funext fun f => hsome zero (hs.floats f) (hs'.floats f) (congrFun hfloats f), hflags, ?_⟩
          exact hs.layers.trans ((congrArg Layers.list hfa).trans hs'.layers.symm)

end Accepted

end LlmEngine.Cfg
