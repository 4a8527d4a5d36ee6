/-
# LlmEngine.Kernels.Dense — the kernels of the dense backend (`src/kernels/kernel.c`, `kernel_avx2.c`).

`ENG_NUM_FAST` accumulates in `float`, and the two implementations differ: eight accumulators or sixteen, a
product rounded or fused.  The kernels that work in place are functions of the buffer.  What each of them makes
of the first entries depends on the first entries alone, so nothing that lies behind them matters.

* `wrote off n f y` is a buffer after `n` cells from `off` on were written; every kernel here is of that form.
* `Agree n` says that two buffers have the same first `n` entries.  There is one `_agree` lemma for each kernel, in the
  order of the source: dot product, matrix, norm, softmax, rope, the feed-forward activation, and one query head.
* `engDotF32` picks the implementation; both read `n` entries and no more.

A model's decoder is then a function of the entries it has written (`Models.Qwen3Decode`).
-/
import LlmEngine.Quant.RowOnly

namespace LlmEngine.Kernels

open LlmEngine.Core LlmEngine.Lib
open LlmEngine.Quant (Agree)

/-- What the dense kernels call besides. -/
structure DenseFpu (F D : Type) extends Fpu F D where
  /-- `fmaf` -/
  fmaf : F → F → F → F
  pow : D → D → D
  cos : D → D
  sin : D → D
  /-- `a > b` -/
  gtD : D → D → Bool

variable {F D : Type} [Arith F] [Arith D] (fp : DenseFpu F D)

/-! ## Buffers -/

/-- `n` entries written from `off` on. -/
def wrote (off n : Nat) (f y : Vec F) : Vec F := fun i => if off ≤ i ∧ i < off + n then f (i - off) else y i

omit [Arith F] in
theorem wrote_of_lt {n i : Nat} (h : i < n) (f y : Vec F) : wrote 0 n f y i = f i := by
  unfold wrote
  rw [if_pos ⟨Nat.zero_le i, by omega⟩]
  rfl

omit [Arith F] in
/-- What was written is all there is of the first entries. -/
theorem wrote_agree {n : Nat} {f g : Vec F} (h : Agree n f g) (y z : Vec F) : Agree n (wrote 0 n f y) (wrote 0 n g z) := by
  intro i hi
  rw [wrote_of_lt hi, wrote_of_lt hi]
  exact h i hi

/-- `for (h < heads) f(v + h * hd)`, each head in place. -/
def eachHead (heads hd : Nat) (f : Vec F → Vec F) (v : Vec F) : Vec F :=
  loop heads v fun v h => wrote (h * hd) hd (f (ptr v (h * hd))) v

omit [Arith F] in
/-- Kernels that read their head only and do the same to it, over all the heads. -/
theorem eachHead_agree {heads hd n : Nat} {f g : Vec F → Vec F} (hf : ∀ u v, Agree hd u v → Agree hd (f u) (g v))
    {u v : Vec F} (hn : heads * hd ≤ n) (h : Agree n u v) : Agree n (eachHead heads hd f u) (eachHead heads hd g v) := by
  have hrun : ∀ k ≤ heads, Agree n (loop k u fun v h => wrote (h * hd) hd (f (ptr v (h * hd))) v)
      (loop k v fun v h => wrote (h * hd) hd (g (ptr v (h * hd))) v) := by
    intro k hk
    induction k with
    | zero => exact h
    | succ k ih =>
        rw [loop_succ, loop_succ]
        have hrow : k * hd + hd ≤ heads * hd := by
          have hle := Nat.mul_le_mul_right hd hk
          rwa [Nat.succ_mul] at hle
        have hbefore := ih (by omega)
        intro i hi
        unfold wrote
        split_ifs with hin
        · exact hf _ _ (fun j hj => hbefore _ (by omega)) _ (by omega)
        · exact hbefore i hi
  exact hrun heads (Nat.le_refl heads)

/-! ## `eng_dot_f32`, `eng_matmul_f32` -/

/-- `eng_ref_dot_f32_fast`. -/
def engRefDotF32Fast (a b : Vec F) (n : Nat) : F := dot8 (fun u v acc => acc + u * v) a b n

/-- `v0` and `v1`, lane by lane. -/
def fastLanes (a b : Vec F) (n : Nat) : (Nat → F) × Nat :=
  forStep 16 (n - 15) 0 (fun _ => (0 : F)) (accumulate fp.fmaf a b 16)

/-- `eng_avx2_dot_f32_fast`: the two registers added, then their halves, then those. -/
def engAvx2DotF32Fast (a b : Vec F) (n : Nat) : F :=
  let r := fastLanes fp a b n
  let vs := fun j => r.1 j + r.1 (j + 8)
  let lo := fun j => vs j + vs (j + 4)
  fmaTail (fun u v acc => acc + u * v) a b n r.2 ((lo 0 + lo 2) + (lo 1 + lo 3))

/-- `eng_dot_f32` under `ENG_NUM_FAST`; `avx` is `eng_kernel_active() == ENG_IMPL_AVX2`. -/
def engDotF32 (avx : Bool) (a b : Vec F) (n : Nat) : F :=
  if avx then engAvx2DotF32Fast fp a b n else engRefDotF32Fast a b n

/-- `eng_matmul_f32` under `ENG_NUM_FAST`. -/
def engMatmulF32 (avx : Bool) (y x W : Vec F) (inn out : Nat) : Vec F :=
  wrote 0 out (fun o => engDotF32 fp avx (ptr W (o * inn)) x inn) y

omit [Arith D] in
theorem engDotF32_agree (avx : Bool) {a a' b b' : Vec F} {n : Nat} (ha : Agree n a a') (hb : Agree n b b') :
    engDotF32 fp avx a b n = engDotF32 fp avx a' b' n := by
  unfold engDotF32
  split_ifs
  · have hlanes : fastLanes fp a b n = fastLanes fp a' b' n := Quant.lanes_congr fp.fmaf 16 ha hb
    unfold engAvx2DotF32Fast
    rw [hlanes]
    dsimp only
    rw [Quant.fmaTail_congr _ ha hb]
  · exact Quant.dot8_congr _ ha hb

omit [Arith D] in
/-- A product reads `out` rows and `inn` activations. -/
theorem engMatmulF32_agree (avx : Bool) (y y' : Vec F) {x x' W W' : Vec F} {inn out : Nat} (hx : Agree inn x x')
    (hW : Agree (out * inn) W W') :
    Agree out (engMatmulF32 fp avx y x W inn out) (engMatmulF32 fp avx y' x' W' inn out) := by
  apply wrote_agree
  intro o ho
  refine engDotF32_agree fp avx (fun i hi => hW _ ?_) hx
  have hle := Nat.mul_le_mul_right inn (Nat.succ_le_of_lt ho)
  rw [Nat.succ_mul] at hle
  omega

/-! ## Norm and softmax -/

/-- `eng_rmsnorm`. -/
def engRmsnorm (y x w : Vec F) (n : Nat) (eps : F) : Vec F :=
  wrote 0 n (fun i => w i * (x i * rmsInv fp.toFpu x n eps)) y

omit [Arith F] in
theorem rmsInv_agree {x x' : Vec F} {n : Nat} (hx : Agree n x x') (eps : F) :
    rmsInv fp.toFpu x n eps = rmsInv fp.toFpu x' n eps := by
  unfold rmsInv sumSquares
  rw [loop_congr fun i hi ss => by rw [hx i hi]]

theorem engRmsnorm_agree (y y' : Vec F) {x x' w w' : Vec F} {n : Nat} (hx : Agree n x x') (hw : Agree n w w') (eps : F) :
    Agree n (engRmsnorm fp y x w n eps) (engRmsnorm fp y' x' w' n eps) := by
  apply wrote_agree
  intro i hi
  dsimp only
  rw [hx i hi, hw i hi, rmsInv_agree fp hx]

/-- `eng_softmax`, of `n > 0` entries. -/
def engSoftmax (x : Vec F) (n : Nat) : Vec F :=
  let m := loop (n - 1) (x 0) fun m i => if fp.gt (x (i + 1)) m then x (i + 1) else m
  let sum : D := loop n 0 fun sum i => sum + fp.wide (fp.expf (x i - m))
  let inv := fp.narrow (1 / if fp.gtD sum 0 then sum else 1)
  wrote 0 n (fun i => fp.expf (x i - m) * inv) x

theorem engSoftmax_agree {x x' : Vec F} {n : Nat} (hpos : 0 < n) (hx : Agree n x x') :
    Agree n (engSoftmax fp x n) (engSoftmax fp x' n) := by
  have hmax : (loop (n - 1) (x 0) fun m i => if fp.gt (x (i + 1)) m then x (i + 1) else m) =
      loop (n - 1) (x' 0) fun m i => if fp.gt (x' (i + 1)) m then x' (i + 1) else m := by
    rw [hx 0 hpos]
    exact loop_congr fun i hi m => by rw [hx (i + 1) (by omega)]
  unfold engSoftmax
  dsimp only
  rw [hmax]
  generalize (loop (n - 1) (x' 0) fun m i => if fp.gt (x' (i + 1)) m then x' (i + 1) else m) = m
  have hsum : (loop n (0 : D) fun sum i => sum + fp.wide (fp.expf (x i - m))) =
      loop n 0 fun sum i => sum + fp.wide (fp.expf (x' i - m)) := loop_congr fun i hi sum => by rw [hx i hi]
  rw [hsum]
  apply wrote_agree
  intro i hi
  dsimp only
  rw [hx i hi]

/-! ## Rotary embedding -/

/-- The angle of `eng_rope` for pair `i` at `pos`. -/
def ropeAngle (dim pos : Nat) (thetaBase : F) (i : Nat) : D :=
  fp.ofIntD pos * (1 / fp.pow (fp.wide thetaBase) (fp.ofIntD 2 * fp.ofIntD i / fp.ofIntD dim))

/-- `eng_rope` with `ENG_ROPE_HALVED`: entry `i` turns with entry `i + dim / 2`. -/
def engRope (dim pos : Nat) (thetaBase : F) (v : Vec F) : Vec F :=
  let half := dim / 2
  loop half v fun v i =>
    let c := fp.narrow (fp.cos (ropeAngle fp dim pos thetaBase i))
    let s := fp.narrow (fp.sin (ropeAngle fp dim pos thetaBase i))
    let a := v i
    let b := v (i + half)
    Function.update (Function.update v i (a * c - b * s)) (i + half) (a * s + b * c)

theorem engRope_agree (dim pos : Nat) (thetaBase : F) {u v : Vec F} (h : Agree dim u v) :
    Agree dim (engRope fp dim pos thetaBase u) (engRope fp dim pos thetaBase v) := by
  unfold engRope
  dsimp only
  have hrun : ∀ k ≤ dim / 2, ∀ body : Vec F → Nat → Vec F,
      (∀ i < dim / 2, ∀ u v, Agree dim u v → Agree dim (body u i) (body v i)) →
        Agree dim (loop k u body) (loop k v body) := by
    intro k hk body hbody
    induction k with
    | zero => exact h
    | succ k ih =>
        rw [loop_succ, loop_succ]
        exact hbody k (by omega) _ _ (ih (by omega))
  refine hrun _ (Nat.le_refl _) _ fun i hi u v huv j hj => ?_
  rw [huv i (by omega), huv (i + dim / 2) (by omega)]
  simp only [Function.update_apply]
  split_ifs
  · rfl
  · rfl
  · exact huv j hj

/-! ## Feed-forward -/

/-- `gate[i] / (1 + expf(-gate[i])) * up[i]`, in place. -/
def swigluInto (n : Nat) (gate up : Vec F) : Vec F :=
  wrote 0 n (fun i => gate i / (1 + fp.expf (-gate i)) * up i) gate

omit [Arith D] in
theorem swigluInto_agree {n : Nat} {gate gate' up up' : Vec F} (hg : Agree n gate gate') (hu : Agree n up up') :
    Agree n (swigluInto fp n gate up) (swigluInto fp n gate' up') := by
  apply wrote_agree
  intro i hi
  dsimp only
  rw [hg i hi, hu i hi]

/-- `x[i] += y[i]`. -/
def addInto (n : Nat) (x y : Vec F) : Vec F := wrote 0 n (fun i => x i + y i) x

theorem addInto_agree {n : Nat} {x x' y y' : Vec F} (hx : Agree n x x') (hy : Agree n y y') :
    Agree n (addInto n x y) (addInto n x' y') := by
  apply wrote_agree
  intro i hi
  dsimp only
  rw [hx i hi, hy i hi]

/-! ## One query head -/

/-- `1.0f / sqrtf((float)hd)`. -/
def attnScale (hd : Nat) : F := 1 / fp.sqrtf (fp.ofInt hd)

/-- The scores of the rows `0` to `pos`, after the softmax; `scores` is scratch. -/
def headScores (avx : Bool) (hd pos : Nat) (scores qh : Vec F) (k : Nat → Vec F) : Vec F :=
  engSoftmax fp (wrote 0 (pos + 1) (fun t => engDotF32 fp avx qh (k t) hd * attnScale fp hd) scores) (pos + 1)

/-- The sum of the value rows, weighted. -/
def headOut (pos : Nat) (scores : Vec F) (v : Nat → Vec F) : Vec F := fun d =>
  loop (pos + 1) 0 fun oh t => oh + scores t * v t d

theorem headScores_agree (avx : Bool) {hd pos : Nat} (scores scores' : Vec F) {qh qh' : Vec F} {k k' : Nat → Vec F}
    (hq : Agree hd qh qh') (hk : ∀ t ≤ pos, Agree hd (k t) (k' t)) :
    Agree (pos + 1) (headScores fp avx hd pos scores qh k) (headScores fp avx hd pos scores' qh' k') := by
  apply engSoftmax_agree fp (Nat.succ_pos pos)
  apply wrote_agree
  intro t ht
  exact congrArg (· * attnScale fp hd) (engDotF32_agree fp avx hq (hk t (by omega)))

theorem headOut_agree {hd pos : Nat} {scores scores' : Vec F} {v v' : Nat → Vec F} (hs : Agree (pos + 1) scores scores')
    (hv : ∀ t ≤ pos, Agree hd (v t) (v' t)) : Agree hd (headOut pos scores v) (headOut pos scores' v') := by
  intro d hd'
  unfold headOut
  exact loop_congr fun t ht oh => by rw [hs t ht, hv t (by omega) d hd']

end LlmEngine.Kernels
