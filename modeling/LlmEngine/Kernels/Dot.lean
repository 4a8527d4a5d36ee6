/-
# LlmEngine.Kernels.Dot — the exact dot products, scalar and AVX2.

`src/kernels/kernel.c` and `kernel_avx2.c`, the group sum of `src/quant/mxfp4.c`, and the two builds of
`k3_matmul_bf16` in `src/core/k3_ops.c`.  A `float` is its 32 bits; `double` is a type with the
operations C applies to it and no law about them, so equality is equality of expression trees.

The scalar kernels keep sixteen (or eight) accumulators, the vector ones four (or two) registers.  The
lane lemmas say that register `r`, lane `j` is accumulator `4 r + j` after every step; the reductions
then pair the same sums.

* `dot16` and `dot8` are the scalar shapes over any two streams, `dot16Avx2` and `dot8Avx2` the vector ones.
* `Regs.step_lanes` is one step, and `dot16Avx2_eq` and `dot8Avx2_eq` the whole: registers that hold the streams give
  the scalar result, tail included.
* A kernel is then its two streams (`cvtLoad_lane`, `bf16ToPd4_lane`).
* `dotRow_eq` is the same for the decoder's own product, whose loop counts differently.

No law of addition is used: the sums are the same sums, in the same order.
-/
import LlmEngine.Core.Ops
import LlmEngine.Lib.ForLoop
import LlmEngine.Lib.Simd

namespace LlmEngine.Kernels

open LlmEngine.Core LlmEngine.Lib

/-- `eng_bf16f`, and `k3_bf16f`, which is the same function: bf16 is the top half of an fp32. -/
def engBf16f (h : BitVec 16) : BitVec 32 := h.setWidth 32 <<< 16

variable {D : Type} [Arith D]

/-! ## Sixteen accumulators -/

/-- `acc[l] = fma(u[i + l], v[i + l], acc[l])` for `l < m`. -/
def accumulate (fma : D → D → D → D) (u v : Nat → D) (m : Nat) (acc : Nat → D) (i : Nat) : Nat → D :=
  (forStep 1 m 0 acc fun acc l => Function.update acc l (fma (u (i + l)) (v (i + l)) (acc l))).1

/-- The tail `for (; i < n; i++) s = fma(u[i], v[i], s)`. -/
def fmaTail (fma : D → D → D → D) (u v : Nat → D) (n i : Nat) (s : D) : D :=
  (forStep 1 n i s fun s i => fma (u i) (v i) s).1

/-- The scalar dot of two streams of doubles. -/
def dot16 (fma : D → D → D → D) (u v : Nat → D) (n : Nat) : D :=
  let r := forStep 16 (n - 15) 0 (fun _ => (0 : D)) (accumulate fma u v 16)
  let acc := r.1
  let b0 := (acc 0 + acc 4) + (acc 8 + acc 12)
  let b1 := (acc 1 + acc 5) + (acc 9 + acc 13)
  let b2 := (acc 2 + acc 6) + (acc 10 + acc 14)
  let b3 := (acc 3 + acc 7) + (acc 11 + acc 15)
  fmaTail fma u v n r.2 ((b0 + b1) + (b2 + b3))

/-- `v0` to `v3`. -/
structure Regs (D : Type) where
  v0 : M256d D
  v1 : M256d D
  v2 : M256d D
  v3 : M256d D

/-- `(t[0] + t[1]) + (t[2] + t[3])` of a stored register. -/
def red4 (t : M256d D) : D := (t 0 + t 1) + (t 2 + t 3)

/-- One iteration on sixteen elements; `U i` and `V i` are the registers loaded at element `i`. -/
def Regs.step (fma : D → D → D → D) (U V : Nat → M256d D) (s : Regs D) (i : Nat) : Regs D where
  v0 := mm256FmaddPd fma (U i) (V i) s.v0
  v1 := mm256FmaddPd fma (U (i + 4)) (V (i + 4)) s.v1
  v2 := mm256FmaddPd fma (U (i + 8)) (V (i + 8)) s.v2
  v3 := mm256FmaddPd fma (U (i + 12)) (V (i + 12)) s.v3

/-- The AVX2 dot; `u` and `v` are the elements the tail reads. -/
def dot16Avx2 (fma : D → D → D → D) (U V : Nat → M256d D) (u v : Nat → D) (n : Nat) : D :=
  let r := forStep 16 (n - 15) 0 ⟨mm256SetzeroPd, mm256SetzeroPd, mm256SetzeroPd, mm256SetzeroPd⟩
    (Regs.step fma U V)
  let vt := mm256AddPd (mm256AddPd r.1.v0 r.1.v1) (mm256AddPd r.1.v2 r.1.v3)
  fmaTail fma u v n r.2 (red4 vt)

/-- Register `r`, lane `j` is accumulator `4 r + j`. -/
def Regs.Lanes (acc : Nat → D) (s : Regs D) : Prop :=
  ∀ j : Fin 4, acc j = s.v0 j ∧ acc (4 + j) = s.v1 j ∧ acc (8 + j) = s.v2 j ∧ acc (12 + j) = s.v3 j

section Lanes

variable {D : Type} (fma : D → D → D → D) {u v : Nat → D}

theorem accumulate_cell {m l : Nat} (hl : l < m) (acc : Nat → D) (i : Nat) :
    accumulate fma u v m acc i l = fma (u (i + l)) (v (i + l)) (acc l) := by
  unfold accumulate
  rw [forStep_cell _ l (fun acc : Nat → D => acc l) (fun x => fma (u (i + l)) (v (i + l)) x), if_pos (by omega)]
  intro acc k
  by_cases hk : k = l
  · subst hk
    rw [if_pos rfl, Function.update_self]
  · rw [if_neg hk, Function.update_of_ne (Ne.symm hk)]

theorem Regs.step_lanes {U V : Nat → M256d D} (hU : ∀ i j, U i j = u (i + j)) (hV : ∀ i j, V i j = v (i + j))
    {acc : Nat → D} {s : Regs D} (h : Regs.Lanes acc s) (i : Nat) :
    Regs.Lanes (accumulate fma u v 16 acc i) (Regs.step fma U V s i) := by
  intro j
  have hj := j.isLt
  obtain ⟨h0, h1, h2, h3⟩ := h j
  rw [accumulate_cell fma (by omega), accumulate_cell fma (by omega), accumulate_cell fma (by omega),
    accumulate_cell fma (by omega), h0, h1, h2, h3]
  simp only [Regs.step, mm256FmaddPd, hU, hV, Nat.add_assoc, and_self]

end Lanes

/-- **Lanes and accumulators agree**: registers that hold the streams give the scalar result. -/
theorem dot16Avx2_eq (fma : D → D → D → D) {U V : Nat → M256d D} {u v : Nat → D}
    (hU : ∀ i j, U i j = u (i + j)) (hV : ∀ i j, V i j = v (i + j)) (n : Nat) :
    dot16Avx2 fma U V u v n = dot16 fma u v n := by
  obtain ⟨hlanes, hindex⟩ := forStep_rel 16 (R := Regs.Lanes)
    (fun i acc s (_ : i < n - 15) h => Regs.step_lanes fma hU hV h i) 0 (fun _ => (0 : D))
    ⟨mm256SetzeroPd, mm256SetzeroPd, mm256SetzeroPd, mm256SetzeroPd⟩ fun j => ⟨rfl, rfl, rfl, rfl⟩
  unfold dot16Avx2 dot16
  generalize forStep 16 (n - 15) 0 (fun _ => (0 : D)) (accumulate fma u v 16) = r at hlanes hindex ⊢
  generalize forStep 16 (n - 15) 0 _ (Regs.step fma U V) = r' at hlanes hindex ⊢
  have hred : ∀ j : Fin 4, (r.1 j + r.1 (4 + j)) + (r.1 (8 + j) + r.1 (12 + j)) =
      mm256AddPd (mm256AddPd r'.1.v0 r'.1.v1) (mm256AddPd r'.1.v2 r'.1.v3) j := by
    intro j
    obtain ⟨h0, h1, h2, h3⟩ := hlanes j
    rw [h0, h1, h2, h3]
    rfl
  simp only [red4, ← hindex, ← hred]
  rfl

/-! ## Eight accumulators -/

/-- The sum of `group_dot_ref`, over two streams of doubles. -/
def dot8 (fma : D → D → D → D) (u v : Nat → D) (n : Nat) : D :=
  let r := forStep 8 (n - 7) 0 (fun _ => (0 : D)) (accumulate fma u v 8)
  let s := r.1
  let b0 := s 0 + s 4
  let b1 := s 1 + s 5
  let b2 := s 2 + s 6
  let b3 := s 3 + s 7
  fmaTail fma u v n r.2 ((b0 + b1) + (b2 + b3))

/-- One iteration of `group_dot_avx2`, on the registers `(v0, v1)`. -/
def pairStep (fma : D → D → D → D) (U V : Nat → M256d D) (s : M256d D × M256d D) (i : Nat) :
    M256d D × M256d D :=
  (mm256FmaddPd fma (U i) (V i) s.1, mm256FmaddPd fma (U (i + 4)) (V (i + 4)) s.2)

/-- The sum of `group_dot_avx2`. -/
def dot8Avx2 (fma : D → D → D → D) (U V : Nat → M256d D) (u v : Nat → D) (n : Nat) : D :=
  let r := forStep 8 (n - 7) 0 (mm256SetzeroPd, mm256SetzeroPd) (pairStep fma U V)
  fmaTail fma u v n r.2 (red4 (mm256AddPd r.1.1 r.1.2))

theorem dot8Avx2_eq (fma : D → D → D → D) {U V : Nat → M256d D} {u v : Nat → D}
    (hU : ∀ i j, U i j = u (i + j)) (hV : ∀ i j, V i j = v (i + j)) (n : Nat) :
    dot8Avx2 fma U V u v n = dot8 fma u v n := by
  have hstep : ∀ (i : Nat) (acc : Nat → D) (s : M256d D × M256d D), i < n - 7 →
      (∀ j : Fin 4, acc j = s.1 j ∧ acc (4 + j) = s.2 j) → ∀ j : Fin 4,
      accumulate fma u v 8 acc i j = (pairStep fma U V s i).1 j ∧
        accumulate fma u v 8 acc i (4 + j) = (pairStep fma U V s i).2 j := by
    intro i acc s _ h j
    have hj := j.isLt
    obtain ⟨h0, h1⟩ := h j
    rw [accumulate_cell fma (by omega), accumulate_cell fma (by omega), h0, h1]
    simp only [pairStep, mm256FmaddPd, hU, hV, Nat.add_assoc, and_self]
  obtain ⟨hlanes, hindex⟩ := forStep_rel 8
    (R := fun (acc : Nat → D) (s : M256d D × M256d D) => ∀ j : Fin 4, acc j = s.1 j ∧ acc (4 + j) = s.2 j)
    hstep 0 (fun _ => (0 : D)) (mm256SetzeroPd, mm256SetzeroPd) fun j => ⟨rfl, rfl⟩
  unfold dot8Avx2 dot8
  generalize forStep 8 (n - 7) 0 (fun _ => (0 : D)) (accumulate fma u v 8) = r at hlanes hindex ⊢
  generalize forStep 8 (n - 7) 0 _ (pairStep fma U V) = r' at hlanes hindex ⊢
  have hred : ∀ j : Fin 4, r.1 j + r.1 (4 + j) = mm256AddPd r'.1.1 r'.1.2 j := by
    intro j
    rw [(hlanes j).1, (hlanes j).2]
    rfl
  simp only [red4, ← hindex, ← hred]
  rfl

/-! ## The kernels -/

section Kernels

variable (fp : Fpu (BitVec 32) D)

/-- Four floats from `p + i` on, widened. -/
def cvtLoad (p : Vec (BitVec 32)) (i : Nat) : M256d D := mm256CvtpsPd fp.wide (mmLoaduPs (ptr p i))

/-- `bf16_to_pd4`, at `w + i`. -/
def bf16ToPd4 (w : Nat → BitVec 16) (i : Nat) : M256d D :=
  mm256CvtpsPd fp.wide (mmCastsi128Ps (mmSlliEpi32 (mmCvtepu16Epi32 (mmLoadlEpi64 fun k => w (i + k))) 16))

/-- `(double)p[i]` -/
def wideAt (p : Vec (BitVec 32)) (i : Nat) : D := fp.wide (p i)

/-- `(double)eng_bf16f(w[i])` -/
def wideBf16At (w : Nat → BitVec 16) (i : Nat) : D := fp.wide (engBf16f (w i))

/-- `eng_ref_dot_f32_exact`. -/
def engRefDotF32Exact (a b : Vec (BitVec 32)) (n : Nat) : D := dot16 fp.fma (wideAt fp a) (wideAt fp b) n

/-- `eng_avx2_dot_f32_exact`. -/
def engAvx2DotF32Exact (a b : Vec (BitVec 32)) (n : Nat) : D :=
  dot16Avx2 fp.fma (cvtLoad fp a) (cvtLoad fp b) (wideAt fp a) (wideAt fp b) n

/-- `eng_ref_dot_bf16_exact`. -/
def engRefDotBf16Exact (x : Vec (BitVec 32)) (w : Nat → BitVec 16) (n : Nat) : D :=
  dot16 fp.fma (wideBf16At fp w) (wideAt fp x) n

/-- `eng_avx2_dot_bf16_exact`. -/
def engAvx2DotBf16Exact (x : Vec (BitVec 32)) (w : Nat → BitVec 16) (n : Nat) : D :=
  dot16Avx2 fp.fma (bf16ToPd4 fp w) (cvtLoad fp x) (wideBf16At fp w) (wideAt fp x) n

/-- `group_dot_ref`. -/
def groupDotRef (wf xg : Vec (BitVec 32)) (n : Nat) : D := dot8 fp.fma (wideAt fp wf) (wideAt fp xg) n

/-- `group_dot_avx2`. -/
def groupDotAvx2 (wf xg : Vec (BitVec 32)) (n : Nat) : D :=
  dot8Avx2 fp.fma (cvtLoad fp wf) (cvtLoad fp xg) (wideAt fp wf) (wideAt fp xg) n

omit [Arith D] in
theorem cvtLoad_lane (p : Vec (BitVec 32)) (i : Nat) (j : Fin 4) : cvtLoad fp p i j = wideAt fp p (i + j) := by
  unfold cvtLoad mm256CvtpsPd
  rw [lane32_loaduPs]
  rfl

omit [Arith D] in
/-- The lanes of `bf16_to_pd4` are the scalar's widened elements. -/
theorem bf16ToPd4_lane (w : Nat → BitVec 16) (i : Nat) (j : Fin 4) :
    bf16ToPd4 fp w i j = wideBf16At fp w (i + j) := by
  unfold bf16ToPd4 mm256CvtpsPd mmCastsi128Ps
  rw [lane32_slli, lane32_cvtepu16]
  rfl

theorem engAvx2DotF32Exact_eq (a b : Vec (BitVec 32)) (n : Nat) :
    engAvx2DotF32Exact fp a b n = engRefDotF32Exact fp a b n :=
  dot16Avx2_eq fp.fma (cvtLoad_lane fp a) (cvtLoad_lane fp b) n

theorem engAvx2DotBf16Exact_eq (x : Vec (BitVec 32)) (w : Nat → BitVec 16) (n : Nat) :
    engAvx2DotBf16Exact fp x w n = engRefDotBf16Exact fp x w n :=
  dot16Avx2_eq fp.fma (bf16ToPd4_lane fp w) (cvtLoad_lane fp x) n

theorem groupDotAvx2_eq (wf xg : Vec (BitVec 32)) (n : Nat) : groupDotAvx2 fp wf xg n = groupDotRef fp wf xg n :=
  dot8Avx2_eq fp.fma (cvtLoad_lane fp wf) (cvtLoad_lane fp xg) n

end Kernels

/-! ## The matrix product over bf16 -/

/-- The first iteration taken off the front. -/
theorem loop_front {α : Type} (m : Nat) (a : α) (body : α → Nat → α) :
    loop (m + 1) a body = loop m (body a 0) fun a j => body a (j + 1) := by
  unfold loop
  rw [List.range_succ_eq_map, List.foldl_cons, List.foldl_map]

/-- A stepped loop that runs `m` times. -/
theorem forStep_eq_loop {α : Type} (step : Nat) [NeZero step] {bound : Nat} (body : α → Nat → α) (m i : Nat) (a : α)
    (hlt : ∀ j < m, i + step * j < bound) (hge : bound ≤ i + step * m) :
    forStep step bound i a body = (loop m a fun a j => body a (i + step * j), i + step * m) := by
  induction m generalizing i a with
  | zero => rw [forStep_of_ge (by simpa using hge), loop_zero, Nat.mul_zero, Nat.add_zero]
  | succ m ih =>
      have hfirst : i < bound := hlt 0 (Nat.succ_pos m)
      have hnext : ∀ j, i + step * (j + 1) = i + step + step * j := by
        intro j
        rw [Nat.mul_succ, Nat.add_comm (step * j), ← Nat.add_assoc]
      have hlt' : ∀ j < m, i + step + step * j < bound := by
        intro j hj
        rw [← hnext]
        exact hlt (j + 1) (Nat.succ_lt_succ hj)
      rw [forStep_of_lt hfirst, ih (i + step) (body a i) hlt' (hnext m ▸ hge), loop_front, hnext]
      simp only [hnext, Nat.mul_zero, Nat.add_zero]

/-- What a loop does to a part of its state. -/
theorem loop_map {α β : Type} (f : α → β) {body : α → Nat → α} {body' : β → Nat → β}
    (h : ∀ a i, f (body a i) = body' (f a) i) (m : Nat) (a : α) : f (loop m a body) = loop m (f a) body' := by
  induction m with
  | zero => rfl
  | succ m ih => rw [loop_succ, loop_succ, h, ih]

section Matmul

variable (fp : Fpu (BitVec 32) D)

/-- The row product of `k3_matmul` is the scalar dot. -/
theorem dotRow_eq (row x : Vec (BitVec 32)) (n : Nat) :
    dotRow fp row x n = dot16 fp.fma (wideAt fp row) (wideAt fp x) n := by
  have hloop := forStep_eq_loop 16 (accumulate fp.fma (wideAt fp row) (wideAt fp x) 16) (n / 16) 0
    (fun _ => (0 : D)) (fun j hj => show 0 + 16 * j < n - 15 by omega) (by omega)
  -- accumulator `l` on its own, in either form
  have hcell : ∀ l < 16, (forStep 16 (n - 15) 0 (fun _ => (0 : D))
        (accumulate fp.fma (wideAt fp row) (wideAt fp x) 16)).1 l =
      loop (n / 16) (fun _ => (0 : D)) (fun a b l =>
        fp.fma (fp.wide (row (16 * b + l))) (fp.wide (x (16 * b + l))) (a l)) l := by
    intro l hl
    let body : D → Nat → D := fun s b =>
      fp.fma (fp.wide (row (0 + 16 * b + l))) (fp.wide (x (0 + 16 * b + l))) s
    have hleft : loop (n / 16) (fun _ => (0 : D)) (fun acc b =>
        accumulate fp.fma (wideAt fp row) (wideAt fp x) 16 acc (0 + 16 * b)) l = loop (n / 16) 0 body :=
      loop_map (fun acc : Nat → D => acc l) (fun acc b => accumulate_cell fp.fma hl acc (0 + 16 * b)) _ _
    have hright : loop (n / 16) (fun _ => (0 : D)) (fun a b l =>
        fp.fma (fp.wide (row (16 * b + l))) (fp.wide (x (16 * b + l))) (a l)) l = loop (n / 16) 0 body :=
      loop_map (fun acc : Nat → D => acc l) (fun acc b => by simp only [body, Nat.zero_add]) _ _
    rw [hloop]
    exact hleft.trans hright.symm
  have hindex : (forStep 16 (n - 15) 0 (fun _ => (0 : D))
      (accumulate fp.fma (wideAt fp row) (wideAt fp x) 16)).2 = 16 * (n / 16) := by
    rw [hloop, Nat.zero_add]
  unfold dot16 dotRow fmaTail
  simp only [hindex]
  rw [forStep_eq_loop 1 _ (n % 16) _ _ (fun j hj => by omega) (by omega)]
  generalize forStep 16 (n - 15) 0 (fun _ => (0 : D))
    (accumulate fp.fma (wideAt fp row) (wideAt fp x) 16) = r at hcell
  simp only [hcell 0 (by omega), hcell 1 (by omega), hcell 2 (by omega), hcell 3 (by omega),
    hcell 4 (by omega), hcell 5 (by omega), hcell 6 (by omega), hcell 7 (by omega), hcell 8 (by omega),
    hcell 9 (by omega), hcell 10 (by omega), hcell 11 (by omega), hcell 12 (by omega), hcell 13 (by omega),
    hcell 14 (by omega), hcell 15 (by omega), Nat.one_mul]
  rfl

variable [Arith (BitVec 32)]

/-- `k3_matmul_bf16`, built without AVX2. -/
def k3MatmulBf16Scalar (x : Vec (BitVec 32)) (W : Nat → BitVec 16) (inn out : Nat) : Vec (BitVec 32) :=
  tab out fun o =>
    let row := fun i => W (o * inn + i)
    fp.narrow (dot16 fp.fma (wideBf16At fp row) (wideAt fp x) inn)

/-- `k3_matmul_bf16`, built with AVX2; the conversion of `bf16_to_pd4` stands inline there. -/
def k3MatmulBf16Avx2 (x : Vec (BitVec 32)) (W : Nat → BitVec 16) (inn out : Nat) : Vec (BitVec 32) :=
  tab out fun o =>
    let row := fun i => W (o * inn + i)
    fp.narrow (dot16Avx2 fp.fma (bf16ToPd4 fp row) (cvtLoad fp x) (wideBf16At fp row) (wideAt fp x) inn)

theorem k3MatmulBf16Scalar_eq (x : Vec (BitVec 32)) (W : Nat → BitVec 16) (inn out : Nat) :
    k3MatmulBf16Scalar fp x W inn out = matmul fp x (fun i => engBf16f (W i)) inn out := by
  unfold k3MatmulBf16Scalar matmul
  simp only [dotRow_eq]
  rfl

theorem k3MatmulBf16Avx2_eq (x : Vec (BitVec 32)) (W : Nat → BitVec 16) (inn out : Nat) :
    k3MatmulBf16Avx2 fp x W inn out = matmul fp x (fun i => engBf16f (W i)) inn out := by
  rw [← k3MatmulBf16Scalar_eq]
  unfold k3MatmulBf16Avx2 k3MatmulBf16Scalar
  simp only [dot16Avx2_eq fp.fma (bf16ToPd4_lane fp _) (cvtLoad_lane fp x)]

end Matmul

end LlmEngine.Kernels
