/-
# LlmEngine.Core.Kda — Kimi Delta Attention (`k3_kda_layer`).

The layer carries two kinds of state from token to token: a recurrent matrix per head, and the last
`conv_k - 1` inputs of each convolution channel.  The source runs both **lane-major**: a channel
(or a head) walks all the tokens of the call before the next one starts.

`kdaRun_eq_scan` turns that around: the layer is one token step (`kdaToken`) applied to the tokens
in order, so a call may be cut between any two tokens.

* The convolutions are `shortconv`, for the three projections one after the other; a channel of one is
  `convStep`, and its buffer holds the inputs of the tokens before.
* The recurrence is `kdaStep`: decay, delta rule, read-out; a head has its own matrix and sees its own part
  of the projections (`headInputs`).
* Everything else in the layer is a function of one token: the decay's two projections, the gate, and the norm
  and projection behind the heads (`kdaAlpha`, `kdaBeta`, `kdaOut`).

A call without a state starts from zeros, as the source clears what it allocates (`KdaState.zero`).
-/
import LlmEngine.Core.Ops
import LlmEngine.Lib.Scan

namespace LlmEngine.Core

open LlmEngine.Lib

/-- `K3KdaW`. -/
structure K3KdaW (F : Type) where
  q : Mat F
  k : Mat F
  v : Mat F
  qConv : Vec F
  kConv : Vec F
  vConv : Vec F
  fA : Mat F
  fB : Mat F
  aLog : Vec F
  dtBias : Vec F
  b : Mat F
  g : Mat F
  oNorm : Vec F
  o : Mat F

/-- The carried state of one layer: `H` recurrent matrices, then the histories of the three
convolutions, oldest input first. -/
structure KdaState (F : Type) where
  /-- head, key channel, value channel -/
  S : Nat → Nat → Nat → F
  /-- channel, tap -/
  convQ : Nat → Vec F
  convK : Nat → Vec F
  convV : Nat → Vec F

variable {F D : Type} [Arith F] [Arith D]

/-- The state of a fresh sequence. -/
def KdaState.zero : KdaState F := ⟨fun _ _ _ => 0, fun _ _ => 0, fun _ _ => 0, fun _ _ => 0⟩

variable (fp : Fpu F D) (c : K3NumCfg F)

/-! ## ShortConv -/

/-- One input of one channel: the taps over the history and the current input with SiLU fused, and
the history moved on by one. -/
def convStep (w : Vec F) (hist : Nat) (buf : Vec F) (cur : F) : F × Vec F :=
  let acc := loop hist (w hist * cur) fun acc j => acc + w j * buf j
  (acc * sigmoid fp acc,
    fun j => if j + 1 < hist then buf (j + 1) else if j + 1 = hist then cur else buf j)

/-- `k3_shortconv`: channel by channel over all the tokens. -/
def shortconv (w : Vec F) (channels k : Nat) (state : Nat → Vec F) (xs : List (Vec F)) :
    List (Vec F) × (Nat → Vec F) :=
  let r := lanes (fun ch => convStep fp (ptr w (ch * k)) (k - 1)) 0 state xs
  (r.1.map (tab channels), r.2)

/-- All channels on one token. -/
def convToken (w : Vec F) (channels k : Nat) (state : Nat → Vec F) (x : Vec F) :
    Vec F × (Nat → Vec F) :=
  (tab channels fun ch => (convStep fp (ptr w (ch * k)) (k - 1) (state ch) (x ch)).1,
    fun ch => (convStep fp (ptr w (ch * k)) (k - 1) (state ch) (x ch)).2)

omit [Arith D] in
theorem shortconv_nil (w : Vec F) (channels k : Nat) (state : Nat → Vec F) :
    shortconv fp w channels k state [] = ([], state) := by
  unfold shortconv
  dsimp only
  rw [lanes_nil, List.map_nil]

omit [Arith D] in
/-- A chunk shorter than the history is no different: the window moves by one each token. -/
theorem shortconv_cons (w : Vec F) (channels k : Nat) (state : Nat → Vec F) (x : Vec F)
    (xs : List (Vec F)) :
    shortconv fp w channels k state (x :: xs) =
      ((convToken fp w channels k state x).1 ::
          (shortconv fp w channels k (convToken fp w channels k state x).2 xs).1,
        (shortconv fp w channels k (convToken fp w channels k state x).2 xs).2) := by
  unfold shortconv
  dsimp only
  rw [lanes_cons, List.map_cons]
  rfl

/-! ## The recurrence -/

/-- `k3_kda_decay`: the gate and its exponential; `A_log` is indexed by head. -/
def kdaDecay (w : K3KdaW F) (z : Vec F) : Vec F × Vec F :=
  let g : Vec F := tab c.kdaWidth fun i =>
    c.gateLb * sigmoid fp (fp.expf (w.aLog (i / c.kdaHeadDim)) * (z i + w.dtBias i))
  (g, tab c.kdaWidth fun i => fp.expf (g i))

/-- `k3_kda_step` on one head: decay, read along `k`, delta write, output from the updated state.
A zero in `k` or `q` skips its row. -/
def kdaStep (S : Nat → Nat → F) (q k v alpha : Vec F) (beta : F) (dk dv : Nat) :
    Vec F × (Nat → Nat → F) :=
  let S₁ : Nat → Nat → F := fun i j => S i j * alpha i
  let u : Vec F := fun j => loop dk 0 fun u i =>
    if fp.isZero (k i) then u else u + k i * S₁ i j
  let S₂ : Nat → Nat → F := fun i j =>
    if fp.isZero (k i) then S₁ i j else S₁ i j + k i * beta * (v j - u j)
  (tab dv fun j => loop dk 0 fun o i => if fp.isZero (q i) then o else o + q i * S₂ i j, S₂)

/-- What one head reads of one token. -/
structure HeadIn (F : Type) where
  q : Vec F
  k : Vec F
  v : Vec F
  alpha : Vec F
  beta : F

/-- A head on one token, `q` pre-scaled by `d_k^-0.5`. -/
def headStep (S : Nat → Nat → F) (x : HeadIn F) : Vec F × (Nat → Nat → F) :=
  let dim := c.kdaHeadDim
  kdaStep fp S (tab dim fun i => x.q i * (1 / fp.sqrtf (fp.ofInt dim))) x.k x.v x.alpha x.beta
    dim dim

/-- The heads' slices of a token's rows. -/
def headInputs (q k v alpha beta : Vec F) : Nat → HeadIn F := fun h =>
  { q := ptr q (h * c.kdaHeadDim)
    k := ptr k (h * c.kdaHeadDim)
    v := ptr v (h * c.kdaHeadDim)
    alpha := ptr alpha (h * c.kdaHeadDim)
    beta := beta h }

/-- `alpha` of one token: one shared low-rank pair feeds every head. -/
def kdaAlpha (w : K3KdaW F) (x : Vec F) : Vec F :=
  (kdaDecay fp c w (mmw fp (mmw fp x w.fA c.hidden c.kdaHeadDim) w.fB c.kdaHeadDim
    c.kdaWidth)).2

/-- `beta` of one token, per head. -/
def kdaBeta (w : K3KdaW F) (x : Vec F) : Vec F :=
  tab c.kdaHeads fun h => sigmoid fp (mmw fp x w.b c.hidden c.kdaHeads h)

/-- Head-wise norm, then the gate, then the output projection. -/
def kdaOut (w : K3KdaW F) (x : Vec F) (o : Nat → Vec F) : Vec F :=
  let dim := c.kdaHeadDim
  let gb := mmw fp x w.g c.hidden c.kdaWidth
  let ot := tab c.kdaWidth fun i =>
    rmsnorm fp w.oNorm (o (i / dim)) dim c.rmsEps (i % dim) * sigmoid fp (gb i)
  mmw fp ot w.o c.kdaWidth c.hidden

/-! ## The layer -/

/-- The body of `k3_kda_layer` on a state: projections and convolutions of all tokens, then each
head's recurrence over all tokens, then the outputs. -/
def kdaRun (w : K3KdaW F) (st : KdaState F) (xs : List (Vec F)) : List (Vec F) × KdaState F :=
  let P := c.kdaWidth
  let q := shortconv fp w.qConv P c.convK st.convQ (xs.map fun x => mmw fp x w.q c.hidden P)
  let k := shortconv fp w.kConv P c.convK st.convK (xs.map fun x => mmw fp x w.k c.hidden P)
  let v := shortconv fp w.vConv P c.convK st.convV (xs.map fun x => mmw fp x w.v c.hidden P)
  let qn := q.1.map fun q => l2norm fp q c.kdaHeads c.kdaHeadDim
  let kn := k.1.map fun k => l2norm fp k c.kdaHeads c.kdaHeadDim
  let ins := ((((qn.zip kn).zip v.1).zip (xs.map (kdaAlpha fp c w))).zip
    (xs.map (kdaBeta fp c w))).map fun r =>
      headInputs c r.1.1.1.1 r.1.1.1.2 r.1.1.2 r.1.2 r.2
  let o := lanes (fun _ => headStep fp c) (fun _ => 0) st.S ins
  (List.zipWith (kdaOut fp c w) xs o.1, ⟨o.2, q.2, k.2, v.2⟩)

/-- `k3_kda_layer`: without a state the sequence starts fresh and nothing is carried out. -/
def kdaLayer (w : K3KdaW F) (state : Option (KdaState F)) (xs : List (Vec F)) :
    List (Vec F) × Option (KdaState F) :=
  match state with
  | some st => ((kdaRun fp c w st xs).1, some (kdaRun fp c w st xs).2)
  | none => ((kdaRun fp c w KdaState.zero xs).1, none)

/-- **One token through the layer.** -/
def kdaToken (w : K3KdaW F) (st : KdaState F) (x : Vec F) : Vec F × KdaState F :=
  let P := c.kdaWidth
  let q := convToken fp w.qConv P c.convK st.convQ (mmw fp x w.q c.hidden P)
  let k := convToken fp w.kConv P c.convK st.convK (mmw fp x w.k c.hidden P)
  let v := convToken fp w.vConv P c.convK st.convV (mmw fp x w.v c.hidden P)
  let ins := headInputs c (l2norm fp q.1 c.kdaHeads c.kdaHeadDim)
    (l2norm fp k.1 c.kdaHeads c.kdaHeadDim) v.1 (kdaAlpha fp c w x) (kdaBeta fp c w x)
  let o := fun h => headStep fp c (st.S h) (ins h)
  (kdaOut fp c w x fun h => (o h).1, ⟨fun h => (o h).2, q.2, k.2, v.2⟩)

theorem kdaRun_nil (w : K3KdaW F) (st : KdaState F) : kdaRun fp c w st [] = ([], st) := by
  unfold kdaRun
  simp only [List.map_nil, shortconv_nil, List.zip_nil_left, lanes_nil, List.zipWith_nil_left]

/-- The whole layer consumes its first token by `kdaToken` and goes on with the rest. -/
theorem kdaRun_cons (w : K3KdaW F) (st : KdaState F) (x : Vec F) (xs : List (Vec F)) :
    kdaRun fp c w st (x :: xs) =
      ((kdaToken fp c w st x).1 :: (kdaRun fp c w (kdaToken fp c w st x).2 xs).1,
        (kdaRun fp c w (kdaToken fp c w st x).2 xs).2) := by
  unfold kdaRun kdaToken
  -- every stage of the layer takes its first token off by itself
  simp only [List.map_cons, shortconv_cons, List.zip_cons_cons, lanes_cons,
    List.zipWith_cons_cons]

/-- **Lane-major is token-major.** -/
theorem kdaRun_eq_scan (w : K3KdaW F) (st : KdaState F) (xs : List (Vec F)) :
    kdaRun fp c w st xs = scan (kdaToken fp c w) st xs := by
  apply eq_scan_of_cons
  · exact kdaRun_nil fp c w
  · exact kdaRun_cons fp c w

end LlmEngine.Core
