/-
# LlmEngine.Bind.Plan — what one decoder layer asks for (`src/model/k3_bind.c`).

`plan_layer` lists the tensors of a layer: a name, the element count the configuration implies, how
many elements are taken, and whether the tensor is NARROW (a matrix, kept in its own format and read
through the struct's dtype tag) or WIDE (a vector the kernels read elementwise, held as fp32).  Both
binders walk this one list.

`Dest.shape` is the other side of the contract: the rows and columns `k3_mmw` is called with for each
matrix (`src/core/k3_ops.c`), and `Dest.len` how many elements a kernel reads of each weight.
Element counts are exact numbers here; the source computes them in `int64_t`.

`Req.Fits` joins the two sides, for one request: a matrix is asked for whole, and of a vector as many elements are
taken as are read.  There is one lemma for each list (`planCommon_fits` to
`planMoe_fits`), and `planLayer_fits` is the layer.

The binders run the list with the narrow form allowed or not; the second is the first with every request wide
(`planLayer_wide`).
-/
import LlmEngine.Core.Config
import Mathlib.Tactic.Ring

namespace LlmEngine.Bind

open LlmEngine.Core

/-- `K3Dtype`. -/
inductive K3Dtype
  | unknown | u8 | bf16 | f16 | f32 | i8r
  deriving DecidableEq, Repr

/-- `K3_WF32`, `K3_WBF16`, `K3_WI8`: how a matrix is stored. -/
inductive Wdt
  | f32 | bf16 | i8
  deriving DecidableEq, Repr

/-- The weight pointers of `K3LayerBind`, by struct and field. -/
inductive Dest
  | inNorm | postNorm | attnResNorm | attnResProj | mlpResNorm | mlpResProj
  | mlaQA | mlaQANorm | mlaQB | mlaKvA | mlaKvANorm | mlaKvB | mlaO | mlaG
  | kdaQ | kdaK | kdaV | kdaG | kdaO | kdaQConv | kdaKConv | kdaVConv | kdaFA | kdaFB | kdaB
  | kdaALog | kdaDtBias | kdaONorm
  | denseGate | denseUp | denseDown
  | moeGate | moeBias | moeDown | moeUp | moeLatentNorm | moeSh1 | moeSh3 | moeSh2
  deriving DecidableEq, Repr

/-- `Req`, before it is resolved. -/
structure Req where
  name : String
  want : Int
  take : Int
  narrow : Bool
  dest : Dest
  deriving DecidableEq, Repr

/-- `reqw`: widened to fp32; a negative `take` asks for the whole tensor. -/
def reqw (dest : Dest) (want take : Int) (name : String) : Req :=
  { name := name, want := want, take := if take < 0 then want else take, narrow := false, dest := dest }

/-- `reqn`: kept as the checkpoint's bf16, unless the plan forces fp32. -/
def reqn (narrowOk : Bool) (dest : Dest) (want : Int) (name : String) : Req :=
  { name := name, want := want, take := want, narrow := narrowOk, dest := dest }

/-- `PRE "layers.%d."` and the rest of the name. -/
def layerName (L : Nat) (rest : String) : String :=
  "language_model.model.layers." ++ toString L ++ "." ++ rest

/-- `k3_is_dense`. -/
def isDense (c : K3Cfg) (L : Nat) : Bool := decide (L < c.firstDense)

/-- `SI`, the fused width of the shared experts. -/
def sharedInter (c : K3Cfg) : Nat := c.moeInter * c.nShared

/-- The norms and the residual projections every layer has. -/
def planCommon (c : K3Cfg) (L : Nat) : List Req :=
  [reqw .inNorm c.hidden (-1) (layerName L "input_layernorm.weight"),
   reqw .postNorm c.hidden (-1) (layerName L "post_attention_layernorm.weight"),
   reqw .attnResNorm c.hidden (-1) (layerName L "self_attention_res_norm.weight"),
   reqw .attnResProj c.hidden (-1) (layerName L "self_attention_res_proj.weight"),
   reqw .mlpResNorm c.hidden (-1) (layerName L "mlp_res_norm.weight"),
   reqw .mlpResProj c.hidden (-1) (layerName L "mlp_res_proj.weight")]

def planMla (narrowOk : Bool) (c : K3Cfg) (L : Nat) : List Req :=
  [reqn narrowOk .mlaQA (c.qLora * c.hidden) (layerName L "self_attn.q_a_proj.weight"),
   reqw .mlaQANorm c.qLora (-1) (layerName L "self_attn.q_a_layernorm.weight"),
   reqn narrowOk .mlaQB (c.nHeads * (c.qkNope + c.qkRope) * c.qLora) (layerName L "self_attn.q_b_proj.weight"),
   reqn narrowOk .mlaKvA ((c.kvLora + c.qkRope) * c.hidden)
     (layerName L "self_attn.kv_a_proj_with_mqa.weight"),
   reqw .mlaKvANorm c.kvLora (-1) (layerName L "self_attn.kv_a_layernorm.weight"),
   reqn narrowOk .mlaKvB (c.nHeads * (c.qkNope + c.vHead) * c.kvLora) (layerName L "self_attn.kv_b_proj.weight"),
   reqn narrowOk .mlaO (c.hidden * c.nHeads * c.vHead) (layerName L "self_attn.o_proj.weight")] ++
  if c.mlaOutGate then
    [reqn narrowOk .mlaG (c.nHeads * c.vHead * c.hidden) (layerName L "self_attn.g_proj.weight")]
  else []

def planKda (narrowOk : Bool) (c : K3Cfg) (L : Nat) : List Req :=
  [reqn narrowOk .kdaQ (c.kdaWidth * c.hidden) (layerName L "self_attn.q_proj.weight"),
   reqn narrowOk .kdaK (c.kdaWidth * c.hidden) (layerName L "self_attn.k_proj.weight"),
   reqn narrowOk .kdaV (c.kdaWidth * c.hidden) (layerName L "self_attn.v_proj.weight"),
   reqn narrowOk .kdaG (c.kdaWidth * c.hidden) (layerName L "self_attn.g_proj.weight"),
   reqn narrowOk .kdaO (c.hidden * c.kdaWidth) (layerName L "self_attn.o_proj.weight"),
   reqw .kdaQConv (c.kdaWidth * c.convK) (-1) (layerName L "self_attn.q_conv1d.weight"),
   reqw .kdaKConv (c.kdaWidth * c.convK) (-1) (layerName L "self_attn.k_conv1d.weight"),
   reqw .kdaVConv (c.kdaWidth * c.convK) (-1) (layerName L "self_attn.v_conv1d.weight"),
   reqn narrowOk .kdaFA (c.kdaHeadDim * c.hidden) (layerName L "self_attn.f_a_proj.weight"),
   reqn narrowOk .kdaFB (c.kdaWidth * c.kdaHeadDim) (layerName L "self_attn.f_b_proj.weight"),
   reqn narrowOk .kdaB (c.kdaHeads * c.hidden) (layerName L "self_attn.b_proj.weight"),
   -- per head: the checkpoint ships `kda_head_dim` values, the first `kda_heads` are taken
   reqw .kdaALog c.kdaHeadDim c.kdaHeads (layerName L "self_attn.A_log"),
   reqw .kdaDtBias c.kdaWidth (-1) (layerName L "self_attn.dt_bias"),
   reqw .kdaONorm c.kdaHeadDim (-1) (layerName L "self_attn.o_norm.weight")]

def planDense (narrowOk : Bool) (c : K3Cfg) (L : Nat) : List Req :=
  [reqn narrowOk .denseGate (c.denseInter * c.hidden) (layerName L "mlp.gate_proj.weight"),
   reqn narrowOk .denseUp (c.denseInter * c.hidden) (layerName L "mlp.up_proj.weight"),
   reqn narrowOk .denseDown (c.hidden * c.denseInter) (layerName L "mlp.down_proj.weight")]

def planMoe (narrowOk : Bool) (c : K3Cfg) (L : Nat) : List Req :=
  -- the router has its own inline product, so its gate stays fp32
  [reqw .moeGate (c.nExperts * c.hidden) (-1) (layerName L "block_sparse_moe.gate.weight"),
   reqw .moeBias c.nExperts (-1) (layerName L "block_sparse_moe.gate.e_score_correction_bias"),
   reqn narrowOk .moeDown (c.latent * c.hidden)
     (layerName L "block_sparse_moe.routed_expert_down_proj.weight"),
   reqn narrowOk .moeUp (c.hidden * c.latent)
     (layerName L "block_sparse_moe.routed_expert_up_proj.weight"),
   reqw .moeLatentNorm c.latent (-1) (layerName L "block_sparse_moe.routed_expert_norm.weight"),
   reqn narrowOk .moeSh1 (sharedInter c * c.hidden)
     (layerName L "block_sparse_moe.shared_experts.gate_proj.weight"),
   reqn narrowOk .moeSh3 (sharedInter c * c.hidden)
     (layerName L "block_sparse_moe.shared_experts.up_proj.weight"),
   reqn narrowOk .moeSh2 (c.hidden * sharedInter c)
     (layerName L "block_sparse_moe.shared_experts.down_proj.weight")]

/-- `plan_layer`, at most 28 requests: `MAXB` (64) is never reached. -/
def planLayer (narrowOk : Bool) (c : K3Cfg) (L : Nat) : List Req :=
  planCommon c L ++ (if c.isMla L then planMla narrowOk c L else planKda narrowOk c L) ++
    if isDense c L then planDense narrowOk c L else planMoe narrowOk c L

/-! ## What the kernels read -/

/-- Rows and columns of the matrices, as `k3_mla`, `k3_kda`, `k3_moe` and the dense block hand them to
`k3_mmw` (`out`, `in`). -/
def Dest.shape (c : K3Cfg) : Dest → Option (Nat × Nat)
  | .mlaQA => some (c.qLora, c.hidden)
  | .mlaQB => some (c.nHeads * (c.qkNope + c.qkRope), c.qLora)
  | .mlaKvA => some (c.kvLora + c.qkRope, c.hidden)
  | .mlaKvB => some (c.nHeads * (c.qkNope + c.vHead), c.kvLora)
  | .mlaO => some (c.hidden, c.nHeads * c.vHead)
  | .mlaG => some (c.nHeads * c.vHead, c.hidden)
  | .kdaQ | .kdaK | .kdaV | .kdaG => some (c.kdaWidth, c.hidden)
  | .kdaO => some (c.hidden, c.kdaWidth)
  | .kdaFA => some (c.kdaHeadDim, c.hidden)
  | .kdaFB => some (c.kdaWidth, c.kdaHeadDim)
  | .kdaB => some (c.kdaHeads, c.hidden)
  | .denseGate | .denseUp => some (c.denseInter, c.hidden)
  | .denseDown => some (c.hidden, c.denseInter)
  | .moeDown => some (c.latent, c.hidden)
  | .moeUp => some (c.hidden, c.latent)
  | .moeSh1 | .moeSh3 => some (sharedInter c, c.hidden)
  | .moeSh2 => some (c.hidden, sharedInter c)
  | _ => none

/-- How many elements a kernel reads of a weight. -/
def Dest.len (c : K3Cfg) (d : Dest) : Nat :=
  match d.shape c with
  | some (rows, cols) => rows * cols
  | none =>
      match d with
      | .mlaQANorm => c.qLora
      | .mlaKvANorm => c.kvLora
      | .kdaQConv | .kdaKConv | .kdaVConv => c.kdaWidth * c.convK
      | .kdaALog => c.kdaHeads
      | .kdaDtBias => c.kdaWidth
      | .kdaONorm => c.kdaHeadDim
      | .moeGate => c.nExperts * c.hidden
      | .moeBias => c.nExperts
      | .moeLatentNorm => c.latent
      | _ => c.hidden

/-- A request asks for what the kernels read: the whole of a matrix, of a vector as many elements as
are used. -/
structure Req.Fits (narrowOk : Bool) (c : K3Cfg) (q : Req) : Prop where
  narrow : q.narrow = (narrowOk && (q.dest.shape c).isSome)
  take : q.take = q.dest.len c
  whole : (q.dest.shape c).isSome → q.want = q.take
  want_nonneg : 0 ≤ q.want

section Fits

variable {narrowOk : Bool} {c : K3Cfg} {d : Dest} {want : Int} {name : String}

theorem reqn_fits {rows cols : Nat} (hshape : d.shape c = some (rows, cols)) (hwant : want = rows * cols) :
    (reqn narrowOk d want name).Fits narrowOk c where
  narrow := by simp [reqn, hshape]
  take := by simp [reqn, Dest.len, hshape, hwant]
  whole := fun _ => rfl
  want_nonneg := by
    show 0 ≤ want
    rw [hwant]
    exact_mod_cast Nat.zero_le _

theorem reqw_fits {take : Int} (hshape : d.shape c = none) (hwant : 0 ≤ want)
    (htake : (reqw d want take name).take = d.len c) : (reqw d want take name).Fits narrowOk c where
  narrow := by simp [reqw, hshape]
  take := htake
  whole := fun h => by simp [reqw, hshape] at h
  want_nonneg := hwant

theorem planCommon_fits (L : Nat) : ∀ q ∈ planCommon c L, q.Fits narrowOk c := by
  simp only [planCommon, List.forall_mem_cons]
  refine ⟨?_, ?_, ?_, ?_, ?_, ?_, fun q hq => absurd hq List.not_mem_nil⟩ <;>
    exact reqw_fits rfl (Int.natCast_nonneg _) rfl

theorem planMla_fits (L : Nat) : ∀ q ∈ planMla narrowOk c L, q.Fits narrowOk c := by
  unfold planMla
  refine List.forall_mem_append.mpr ⟨?_, ?_⟩
  · simp only [List.forall_mem_cons]
    refine ⟨reqn_fits rfl rfl, reqw_fits rfl (Int.natCast_nonneg _) rfl, reqn_fits rfl (by push_cast; rfl),
      reqn_fits rfl (by push_cast; rfl), reqw_fits rfl (Int.natCast_nonneg _) rfl,
      reqn_fits rfl (by push_cast; rfl), reqn_fits rfl (by push_cast; ring),
      fun q hq => absurd hq List.not_mem_nil⟩
  · split_ifs
    · exact List.forall_mem_singleton.mpr (reqn_fits rfl (by push_cast; rfl))
    · exact fun q hq => absurd hq List.not_mem_nil

theorem planKda_fits (L : Nat) : ∀ q ∈ planKda narrowOk c L, q.Fits narrowOk c := by
  have hconv : (0 : Int) ≤ c.kdaWidth * c.convK := by exact_mod_cast Nat.zero_le _
  simp only [planKda, List.forall_mem_cons]
  refine ⟨reqn_fits rfl rfl, reqn_fits rfl rfl, reqn_fits rfl rfl, reqn_fits rfl rfl, reqn_fits rfl rfl,
    reqw_fits rfl hconv ?_, reqw_fits rfl hconv ?_, reqw_fits rfl hconv ?_, reqn_fits rfl rfl,
    reqn_fits rfl rfl, reqn_fits rfl rfl, reqw_fits rfl (Int.natCast_nonneg _) ?_,
    reqw_fits rfl (Int.natCast_nonneg _) rfl, reqw_fits rfl (Int.natCast_nonneg _) rfl,
    fun q hq => absurd hq List.not_mem_nil⟩
  · simp [reqw, Dest.len, Dest.shape]
  · simp [reqw, Dest.len, Dest.shape]
  · simp [reqw, Dest.len, Dest.shape]
  · show (if (c.kdaHeads : Int) < 0 then (c.kdaHeadDim : Int) else c.kdaHeads) = c.kdaHeads
    exact if_neg (by omega)

theorem planDense_fits (L : Nat) : ∀ q ∈ planDense narrowOk c L, q.Fits narrowOk c := by
  simp only [planDense, List.forall_mem_cons]
  exact ⟨reqn_fits rfl rfl, reqn_fits rfl rfl, reqn_fits rfl rfl, fun q hq => absurd hq List.not_mem_nil⟩

theorem planMoe_fits (L : Nat) : ∀ q ∈ planMoe narrowOk c L, q.Fits narrowOk c := by
  have hgate : (0 : Int) ≤ c.nExperts * c.hidden := by exact_mod_cast Nat.zero_le _
  simp only [planMoe, List.forall_mem_cons]
  refine ⟨reqw_fits rfl hgate ?_, reqw_fits rfl (Int.natCast_nonneg _) rfl, reqn_fits rfl rfl,
    reqn_fits rfl rfl, reqw_fits rfl (Int.natCast_nonneg _) rfl, reqn_fits rfl rfl, reqn_fits rfl rfl,
    reqn_fits rfl rfl, fun q hq => absurd hq List.not_mem_nil⟩
  simp [reqw, Dest.len, Dest.shape]

/-- **The plan asks for what the kernels read.** -/
theorem planLayer_fits (L : Nat) : ∀ q ∈ planLayer narrowOk c L, q.Fits narrowOk c := by
  unfold planLayer
  refine List.forall_mem_append.mpr ⟨List.forall_mem_append.mpr ⟨planCommon_fits L, ?_⟩, ?_⟩
  · split_ifs
    · exact planMla_fits L
    · exact planKda_fits L
  · split_ifs
    · exact planDense_fits L
    · exact planMoe_fits L

end Fits

/-- Forcing fp32 changes the storage class of the matrices and nothing else. -/
def Req.wide (q : Req) : Req := { q with narrow := false }

theorem planLayer_wide (c : K3Cfg) (L : Nat) :
    planLayer false c L = (planLayer true c L).map Req.wide := by
  unfold planLayer planMla
  cases c.isMla L <;> cases isDense c L <;> cases c.mlaOutGate <;> rfl

/-- No pointer is filled twice. -/
theorem planLayer_dests (narrowOk : Bool) (c : K3Cfg) (L : Nat) :
    ((planLayer narrowOk c L).map Req.dest).Nodup := by
  unfold planLayer planMla
  cases c.isMla L <;> cases isDense c L <;> cases c.mlaOutGate <;>
    simp [planCommon, planKda, planDense, planMoe, reqw, reqn]

end LlmEngine.Bind
