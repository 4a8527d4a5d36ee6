/-
# LlmEngine.Core.Ops — the numeric kernels of `src/core/k3_ops.c`.

Every kernel computes over **uninterpreted** arithmetic: `float` is a type `F` and `double` a type
`D` with the operations C applies to them and no law about any of them.  Two results are therefore
equal here only when they are built by the same operations on the same operands in the same order.

A `float *` is a function of the index.  Pointer arithmetic is a shift of the index, and `tab n f`
is a buffer of which the kernel has written `n` entries.

The loops are `loop`, a fold over the indices from 0 on.  A dot product (`dotRow`) is accumulated in `double` in
the source's own order, sixteen accumulators with a reduction tree and a tail, and rounded once; a conversion
between the two types is an operation like any other.  The environment the arithmetic needs (conversions, `exp`,
`sqrt`, comparison, the constants) is `Fpu`, and what a configuration holds of floats is in `K3NumCfg`.

A matrix is one of the forms a weight can have in memory (`Mat`), and `mmw` picks the product by the form; the
packed experts have theirs (`matmulMxfp4`).  What the vector kernels behind these compute is the subject of
`Kernels.Dot` and of the modules under `Quant`.

The router picks greatest scores one after the other (`router`), and never names an expert that does not exist
(`router_lt`); what it selects is said in `Core.Router`.
-/
import LlmEngine.Core.Config
import Mathlib.Algebra.Field.Rat
import Mathlib.Algebra.GroupWithZero.Nat
import Mathlib.Algebra.Ring.Int.Defs

namespace LlmEngine.Core

/-- The operators C applies to a floating-point type.  No law is assumed. -/
class Arith (α : Type) extends Zero α, One α, Add α, Sub α, Mul α, Div α, Neg α

/-- Exact arithmetic, for what is about values and not about operations. -/
instance : Arith ℚ where

/-- A `float` buffer. -/
abbrev Vec (F : Type) := Nat → F

/-- A `uint8_t` buffer. -/
abbrev Bytes := Nat → BitVec 8

/-- The conversions and library functions the kernels call, and the constants they name.  `F` is
`float`, `D` is `double`. -/
structure Fpu (F D : Type) where
  wide : F → D
  narrow : D → F
  /-- `(float)n` -/
  ofInt : Nat → F
  /-- `(double)n` -/
  ofIntD : Nat → D
  fma : D → D → D → D
  sqrt : D → D
  sqrtf : F → F
  expf : F → F
  tanhf : F → F
  /-- `a > b` -/
  gt : F → F → Bool
  /-- `a == 0.0f` -/
  isZero : F → Bool
  negInfinity : F
  /-- `1e-6f` -/
  l2Eps : F
  /-- `1e-20` -/
  renormEps : D
  /-- `k3_bf16f` -/
  bf16f : BitVec 16 → F
  /-- `k3_matmul_q8`: two builds with different sums, so the kernel is whichever was compiled in. -/
  matmulQ8 : Bytes → Vec F → Nat → Nat → Vec F
  /-- `eng_mxfp4_dot_row_g`: packed row, scales, activations, length, group. -/
  mxfp4DotRowG : Bytes → Bytes → Vec F → Nat → Nat → D

/-- `K3_MXFP4_GROUP`. -/
def mxfp4Group : Nat := 32

/-- `K3Cfg` with its `float` fields. -/
structure K3NumCfg (F : Type) extends K3Cfg where
  rmsEps : F
  gateLb : F
  routedScale : F
  situB1 : F
  situB2 : F

/-! ## Loops and buffers -/

/-- `for (i = 0; i < n; i++) a = body(a, i)`. -/
def loop {α : Type} (n : Nat) (a : α) (body : α → Nat → α) : α := (List.range n).foldl body a

theorem loop_zero {α : Type} (a : α) (body : α → Nat → α) : loop 0 a body = a := rfl

theorem loop_succ {α : Type} (n : Nat) (a : α) (body : α → Nat → α) :
    loop (n + 1) a body = body (loop n a body) n := by
  rw [loop, List.range_succ, List.foldl_append]
  rfl

/-- A loop sees its body only at the indices it visits. -/
theorem loop_congr {α : Type} {n : Nat} {a : α} {body body' : α → Nat → α}
    (h : ∀ i < n, ∀ a, body a i = body' a i) : loop n a body = loop n a body' := by
  induction n with
  | zero => rw [loop_zero, loop_zero]
  | succ n ih =>
      rw [loop_succ, loop_succ, h n (Nat.lt_succ_self n),
        ih fun i hi => h i (Nat.lt_succ_of_lt hi)]

variable {F D : Type} [Arith F] [Arith D]

/-- A buffer whose first `n` entries have been written. -/
def tab (n : Nat) (f : Nat → F) : Vec F := fun i => if i < n then f i else 0

/-- `p + off`. -/
def ptr (p : Vec F) (off : Nat) : Vec F := fun i => p (off + i)

/-- `[a | b]`, the first part `n` wide. -/
def cat (n : Nat) (a b : Vec F) : Vec F := fun i => if i < n then a i else b (i - n)

/-- Elementwise `+=` over `n` entries. -/
def addTo (n : Nat) (a b : Vec F) : Vec F := tab n fun i => a i + b i

variable (fp : Fpu F D)

/-! ## Norms and activations -/

/-- The sum of squares both norms start from, in double. -/
def sumSquares (x : Vec F) (n : Nat) : D :=
  loop n 0 fun ss i => ss + fp.wide (x i) * fp.wide (x i)

/-- `1 / sqrt(mean(x²) + eps)`, rounded to float. -/
def rmsInv (x : Vec F) (n : Nat) (eps : F) : F :=
  fp.narrow (1 / fp.sqrt (sumSquares fp x n / fp.ofIntD n + fp.wide eps))

/-- `k3_rmsnorm`. -/
def rmsnorm (w x : Vec F) (n : Nat) (eps : F) : Vec F :=
  tab n fun i => w i * x i * rmsInv fp x n eps

/-- `sigmoidf_`. -/
def sigmoid (x : F) : F := 1 / (1 + fp.expf (-x))

/-- `k3_situ_glu` over `[gate | up]`: the sigmoid takes the uncapped gate. -/
def situGlu (c : K3NumCfg F) (x : Vec F) (n : Nat) : Vec F :=
  tab n fun i =>
    c.situB1 * fp.tanhf (x i / c.situB1) * sigmoid fp (x i) *
      (c.situB2 * fp.tanhf (x (n + i) / c.situB2))

/-- `l2norm_` on each of the `D`-wide heads of `v`: the sum of squares, not the mean. -/
def l2norm (v : Vec F) (heads dim : Nat) : Vec F :=
  tab (heads * dim) fun i =>
    v i * fp.narrow (1 / fp.sqrt (sumSquares fp (ptr v (i / dim * dim)) dim + fp.wide fp.l2Eps))

/-! ## Matrix products -/

/-- One output row of `k3_matmul`: sixteen accumulators over the blocks of sixteen, their reduction
tree, and the fused tail. -/
def dotRow (row x : Vec F) (n : Nat) : D :=
  let a : Nat → D := loop (n / 16) (fun _ => 0) fun a b l =>
    fp.fma (fp.wide (row (16 * b + l))) (fp.wide (x (16 * b + l))) (a l)
  let b0 := (a 0 + a 4) + (a 8 + a 12)
  let b1 := (a 1 + a 5) + (a 9 + a 13)
  let b2 := (a 2 + a 6) + (a 10 + a 14)
  let b3 := (a 3 + a 7) + (a 11 + a 15)
  loop (n % 16) ((b0 + b1) + (b2 + b3)) fun acc j =>
    fp.fma (fp.wide (row (16 * (n / 16) + j))) (fp.wide (x (16 * (n / 16) + j))) acc

/-- `k3_matmul`. -/
def matmul (x W : Vec F) (inn out : Nat) : Vec F :=
  tab out fun o => fp.narrow (dotRow fp (ptr W (o * inn)) x inn)

/-- `k3_matmul_bf16`: the weight is widened where it is read. -/
def matmulBf16 (x : Vec F) (W : Nat → BitVec 16) (inn out : Nat) : Vec F :=
  matmul fp x (fun i => fp.bf16f (W i)) inn out

/-- A weight matrix, tagged by how it is stored (`wdt`). -/
inductive Mat (F : Type)
  | f32 (W : Vec F)
  | bf16 (W : Nat → BitVec 16)
  | i8 (W : Bytes)

/-- `k3_mmw`. -/
def mmw (x : Vec F) (W : Mat F) (inn out : Nat) : Vec F :=
  match W with
  | .bf16 W => matmulBf16 fp x W inn out
  | .i8 W => fp.matmulQ8 W x inn out
  | .f32 W => matmul fp x W inn out

/-- `k3_matmul_mxfp4`. -/
def matmulMxfp4 (x : Vec F) (packed scales : Bytes) (inn rows : Nat) : Vec F :=
  tab rows fun r =>
    fp.narrow (fp.mxfp4DotRowG (fun i => packed (r * (inn / 2) + i))
      (fun i => scales (r * ((inn + mxfp4Group - 1) / mxfp4Group) + i)) x inn mxfp4Group)

/-! ## Softmax aggregation over the residual snapshots -/

/-- The raw score of one source of `k3_attn_res`: the normalised source against `fold`. -/
def attnResScore (v fold : Vec F) (n : Nat) (eps : F) : F :=
  fp.narrow (loop n 0 fun acc i => acc + fp.wide (v i * rmsInv fp v n eps) * fp.wide (fold i))

/-- `k3_attn_res`: softmax of the scores, applied to the raw sources. -/
def attnRes (src : Nat → Vec F) (fold : Vec F) (nsrc n : Nat) (eps : F) : Vec F :=
  let score := fun s => attnResScore fp (src s) fold n eps
  let m := loop (nsrc - 1) (score 0) fun m s =>
    if fp.gt (score (s + 1)) m then score (s + 1) else m
  let e := fun s => fp.expf (score s - m)
  let z : D := loop nsrc 0 fun z s => z + fp.wide (e s)
  tab n fun i => loop nsrc 0 fun o s => o + fp.narrow (fp.wide (e s) / z) * src s i

/-! ## The router -/

/-- The scan of one round of `k3_router`: the first expert whose choice score exceeds all before
it, if any exceeds `-INFINITY`. -/
def bestExpert (choice : Vec F) (nExperts : Nat) : Option Nat :=
  (loop nExperts (none, fp.negInfinity) fun (b : Option Nat × F) e =>
    if fp.gt (choice e) b.2 then (some e, choice e) else b).1

/-- `topk` rounds: a taken expert is marked `-INFINITY`, and a round that finds none writes expert 0
with weight 0. -/
def selectExperts (score : Vec F) (nExperts : Nat) : Nat → Vec F → List (Nat × F)
  | 0, _ => []
  | k + 1, choice =>
      match bestExpert fp choice nExperts with
      | none => (0, 0) :: selectExperts score nExperts k choice
      | some b =>
          (b, score b) ::
            selectExperts score nExperts k fun e => if e = b then fp.negInfinity else choice e

/-- `k3_router`: expert and combining weight of each of the `topk` slots. -/
def router (c : K3NumCfg F) (gate : Vec F) (bias : Option (Vec F)) (x : Vec F) :
    List (Nat × F) :=
  let score : Vec F := fun e => sigmoid fp (fp.narrow (loop c.hidden 0 fun acc i =>
    acc + fp.wide (gate (e * c.hidden + i)) * fp.wide (x i)))
  let choice : Vec F := fun e => score e + (bias.map fun b => b e).getD 0
  let picked := selectExperts fp score c.nExperts c.topk choice
  let weighted :=
    if c.moeRenorm && decide (1 < c.topk) then
      let s : D := picked.foldl (fun s p => s + fp.wide p.2) 0
      picked.map fun p => (p.1, p.2 * fp.narrow (1 / (s + fp.renormEps)))
    else picked
  weighted.map fun p => (p.1, p.2 * c.routedScale)

omit [Arith F] [Arith D] in
theorem bestExpert_lt {choice : Vec F} {n b : Nat} (h : bestExpert fp choice n = some b) :
    b < n := by
  unfold bestExpert at h
  -- the scan never holds an expert it has not visited yet
  induction n with
  | zero =>
      rw [loop_zero] at h
      exact absurd h (by simp)
  | succ n ih =>
      rw [loop_succ] at h
      split at h
      · obtain rfl : n = b := Option.some.inj h
        exact Nat.lt_succ_self n
      · exact Nat.lt_succ_of_lt (ih h)

omit [Arith D] in
theorem selectExperts_lt (score : Vec F) {n : Nat} (hn : 0 < n) {k : Nat} {choice : Vec F}
    {p : Nat × F} (h : p ∈ selectExperts fp score n k choice) : p.1 < n := by
  induction k generalizing choice with
  | zero => exact absurd h (List.not_mem_nil)
  | succ k ih =>
      rw [selectExperts] at h
      split at h
      · rcases List.mem_cons.mp h with rfl | h
        · exact hn
        · exact ih h
      · next b hb =>
        rcases List.mem_cons.mp h with rfl | h
        · exact bestExpert_lt fp hb
        · exact ih h

/-- Renormalising and scaling leave the experts alone, so the router only names experts that exist:
with `topk ≥ 1` there is an expert 0 to fall back on. -/
theorem router_lt (c : K3NumCfg F) (gate : Vec F) (bias : Option (Vec F)) (x : Vec F)
    {p : Nat × F} (h : p ∈ router fp c gate bias x) : p.1 < c.nExperts := by
  have key : ∀ score choice : Vec F, ∀ p ∈ selectExperts fp score c.nExperts c.topk choice,
      p.1 < c.nExperts := by
    intro score choice p hp
    rcases Nat.eq_zero_or_pos c.topk with h0 | h0
    · rw [h0, selectExperts] at hp
      exact absurd hp (List.not_mem_nil)
    · apply selectExperts_lt fp score _ hp
      exact Nat.lt_of_lt_of_le h0 c.topk_le
  unfold router at h
  dsimp only at h
  obtain ⟨p₁, h₁, rfl⟩ := List.mem_map.mp h
  split at h₁
  · obtain ⟨p₂, h₂, rfl⟩ := List.mem_map.mp h₁
    exact key _ _ p₂ h₂
  · exact key _ _ p₁ h₁

end LlmEngine.Core
