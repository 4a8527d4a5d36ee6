/-
# LlmEngine.Quant.KQuant — the row products over Q4_K and Q6_K, scalar and AVX2.

`src/quant/q4_k.c`, `q6_k.c` and `kquant_avx2.c`.  The two files of a format share the walk over the
blocks and their scales word for word, so it is written once here, over the sums of one stretch; these
differ.  The scalar sums keep four accumulators for each partial, the vector ones a register, and the
codes are put together from bytes in `int` on one side and in 32-bit lanes on the other.

* Q4_K: `q4SumsAvx2_eq`, by one step in lanes (`Q4Regs.step_lanes`); of a step, each lane is a cell of the scalar
  arrays (`q4Step_cell`).
* Q6_K: `q6SumsAvx2_eq`, with the codes first (`code_lane`, `highBits_lane`), since they are put together from two
  bytes.
* `same_answer` collects every kernel of the engine that has two implementations.

The conversions between integers and floats are parameters, so what is shown is that both paths convert the same
integers.
-/
import LlmEngine.Quant.Mxfp4
import LlmEngine.Bind.Checkpoint

namespace LlmEngine.Quant

open LlmEngine.Core LlmEngine.Lib LlmEngine.Kernels

/-- `p + off`. -/
def bytesAt (p : Bytes) (off : Nat) : Bytes := fun i => p (off + i)

/-- `memcpy(&h, p + off, 2)` -/
def half (p : Bytes) (off : Nat) : BitVec 16 := p (off + 1) ++ p off

/-- `eng_f16_to_f32`, branch for branch the f16 case of `k3_st_read_f32`. -/
def engF16ToF32 (h : BitVec 16) : BitVec 32 := Bind.f16f h

/-- `load4_u8`: four bytes, zero-extended to four `int32` lanes. -/
def load4U8 (p : Bytes) : BitVec 128 := mmCvtepu8Epi32 (mmCvtsi32Si128 (p 3 ++ p 2 ++ p 1 ++ p 0))

theorem load4U8_lane (p : Bytes) (j : Fin 4) : lane32 (load4U8 p) j = (p j).setWidth 32 := lane32_cvtepu8 p j

/-- A byte in a lane is a non-negative `int`. -/
theorem toInt_byte (b : BitVec 8) : (b.setWidth 32).toInt = b.toNat := by
  revert b
  decide +kernel

/-- The nibbles of a byte, in a lane. -/
theorem low_lane (b : BitVec 8) : b.setWidth 32 &&& (0x0F : BitVec 32) = (b &&& 0x0F).setWidth 32 := by
  revert b
  decide +kernel

theorem high_lane (b : BitVec 8) : b.setWidth 32 >>> 4 = (b >>> 4).setWidth 32 := by
  revert b
  decide +kernel

-- `ofInt i` is `(double)i` of an `int`
variable {D : Type} [Arith D] (fp : Fpu (BitVec 32) D) (ofInt : Int → D)

/-! ## Q4_K -/

/-- `get_scale_min`. -/
def getScaleMin (j : Nat) (q : Bytes) : BitVec 8 × BitVec 8 :=
  if j < 4 then (q j &&& 63, q (j + 4) &&& 63)
  else ((q (j + 4) &&& 0x0F) ||| ((q (j - 4) >>> 6) <<< 4), (q (j + 4) >>> 4) ||| ((q j >>> 6) <<< 4))

/-- The four sums of a stretch of 64 elements, folded. -/
structure Q4Sums (D : Type) where
  s1 : D
  t1 : D
  s2 : D
  t2 : D

/-- The walk of both Q4_K products: for each block its scales, for each stretch of 64 elements two
sub-blocks, their scales and mins. -/
def q4kDotRow (sums : Bytes → Vec (BitVec 32) → Nat → Q4Sums D) (w : Bytes) (x : Vec (BitVec 32)) (n : Nat) :
    D :=
  loop (n / 256) 0 fun acc b =>
    let p := bytesAt w (b * 144)
    let d := fp.wide (engF16ToF32 (half p 0))
    let dmin := fp.wide (engF16ToF32 (half p 2))
    let sc12 := bytesAt p 4
    let qs := bytesAt p 16
    let xb := ptr x (b * 256)
    (forStep 64 256 0 (acc, 0) fun (s : D × Nat) j =>
      let is := s.2
      let g1 := getScaleMin (is + 0) sc12
      let d1 := d * ofInt g1.1.toNat
      let m1 := dmin * ofInt g1.2.toNat
      let g2 := getScaleMin (is + 1) sc12
      let d2 := d * ofInt g2.1.toNat
      let m2 := dmin * ofInt g2.2.toNat
      let r := sums (bytesAt qs (j / 64 * 32)) xb j
      let acc := s.1 + (d1 * r.s1 - m1 * r.t1)
      (acc + (d2 * r.s2 - m2 * r.t2), is + 2)).1.1

/-- `s1`, `t1`, `s2`, `t2` of the scalar product. -/
structure Q4Arrays (D : Type) where
  s1 : Nat → D
  t1 : Nat → D
  s2 : Nat → D
  t2 : Nat → D

/-- One `k` of the scalar inner loop, at element `l`. -/
def q4Cell (q : Bytes) (xb : Vec (BitVec 32)) (j l : Nat) (s : Q4Arrays D) (k : Nat) : Q4Arrays D :=
  let xa := fp.wide (xb (j + l + k))
  let xc := fp.wide (xb (j + 32 + l + k))
  { s1 := Function.update s.s1 k (fp.fma (ofInt (q (l + k) &&& 0x0F).toNat) xa (s.s1 k))
    t1 := Function.update s.t1 k (s.t1 k + xa)
    s2 := Function.update s.s2 k (fp.fma (ofInt (q (l + k) >>> 4).toNat) xc (s.s2 k))
    t2 := Function.update s.t2 k (s.t2 k + xc) }

/-- Four elements of the scalar loop. -/
def q4Step (q : Bytes) (xb : Vec (BitVec 32)) (j : Nat) (s : Q4Arrays D) (l : Nat) : Q4Arrays D :=
  (forStep 1 4 0 s (q4Cell fp ofInt q xb j l)).1

def q4SumsRef (q : Bytes) (xb : Vec (BitVec 32)) (j : Nat) : Q4Sums D :=
  let s := (forStep 4 32 0 ⟨fun _ => 0, fun _ => 0, fun _ => 0, fun _ => 0⟩ (q4Step fp ofInt q xb j)).1
  ⟨red4 fun k => s.s1 k, red4 fun k => s.t1 k, red4 fun k => s.s2 k, red4 fun k => s.t2 k⟩

/-- `s1`, `t1`, `s2`, `t2` of the vector product. -/
structure Q4Regs (D : Type) where
  s1 : M256d D
  t1 : M256d D
  s2 : M256d D
  t2 : M256d D

/-- Four elements of the vector loop. -/
def q4StepAvx2 (q : Bytes) (xb : Vec (BitVec 32)) (j : Nat) (s : Q4Regs D) (l : Nat) : Q4Regs D :=
  let q32 := load4U8 (bytesAt q l)
  let qlo := mm256Cvtepi32Pd ofInt (mmAndSi128 q32 (mmSet1Epi32 0x0F))
  let qhi := mm256Cvtepi32Pd ofInt (mmSrliEpi32 q32 4)
  let xa := cvtLoad fp xb (j + l)
  let xc := cvtLoad fp xb (j + 32 + l)
  { s1 := mm256FmaddPd fp.fma qlo xa s.s1
    t1 := mm256AddPd s.t1 xa
    s2 := mm256FmaddPd fp.fma qhi xc s.s2
    t2 := mm256AddPd s.t2 xc }

def q4SumsAvx2 (q : Bytes) (xb : Vec (BitVec 32)) (j : Nat) : Q4Sums D :=
  let s := (forStep 4 32 0 ⟨mm256SetzeroPd, mm256SetzeroPd, mm256SetzeroPd, mm256SetzeroPd⟩
    (q4StepAvx2 fp ofInt q xb j)).1
  ⟨red4 s.s1, red4 s.t1, red4 s.s2, red4 s.t2⟩

/-- `eng_q4_k_dot_row_ref`. -/
def engQ4kDotRowRef (w : Bytes) (x : Vec (BitVec 32)) (n : Nat) : D :=
  q4kDotRow fp ofInt (q4SumsRef fp ofInt) w x n

/-- `eng_q4_k_dot_row_avx2`. -/
def engQ4kDotRowAvx2 (w : Bytes) (x : Vec (BitVec 32)) (n : Nat) : D :=
  q4kDotRow fp ofInt (q4SumsAvx2 fp ofInt) w x n

/-- Lane `k` of each register is accumulator `k` of its array. -/
def Q4Regs.Lanes (s : Q4Arrays D) (r : Q4Regs D) : Prop :=
  ∀ k : Fin 4, s.s1 k = r.s1 k ∧ s.t1 k = r.t1 k ∧ s.s2 k = r.s2 k ∧ s.t2 k = r.t2 k

/-- What four elements do to accumulator `k`. -/
theorem q4Step_cell (q : Bytes) (xb : Vec (BitVec 32)) (j : Nat) (s : Q4Arrays D) (l : Nat) (k : Fin 4) :
    let xa := fp.wide (xb (j + l + k))
    let xc := fp.wide (xb (j + 32 + l + k))
    let s' := q4Step fp ofInt q xb j s l
    s'.s1 k = fp.fma (ofInt (q (l + k) &&& 0x0F).toNat) xa (s.s1 k) ∧ s'.t1 k = s.t1 k + xa ∧
      s'.s2 k = fp.fma (ofInt (q (l + k) >>> 4).toNat) xc (s.s2 k) ∧ s'.t2 k = s.t2 k + xc := by
  have hcell := forStep_cell (m := 4) (q4Cell fp ofInt q xb j l) k
    (fun s : Q4Arrays D => (s.s1 k, s.t1 k, s.s2 k, s.t2 k))
    (fun c => (fp.fma (ofInt (q (l + k) &&& 0x0F).toNat) (fp.wide (xb (j + l + k))) c.1,
      c.2.1 + fp.wide (xb (j + l + k)),
      fp.fma (ofInt (q (l + k) >>> 4).toNat) (fp.wide (xb (j + 32 + l + k))) c.2.2.1,
      c.2.2.2 + fp.wide (xb (j + 32 + l + k)))) ?_ 0 s
  · rw [if_pos ⟨Nat.zero_le _, k.isLt⟩] at hcell
    simp only [Prod.mk.injEq] at hcell
    exact hcell
  · intro s i
    by_cases hi : i = k
    · subst hi
      simp only [q4Cell, Function.update_self, if_true]
    · simp only [q4Cell, Function.update_of_ne (Ne.symm hi), if_neg hi]

theorem Q4Regs.step_lanes (q : Bytes) (xb : Vec (BitVec 32)) (j : Nat) {s : Q4Arrays D} {r : Q4Regs D}
    (h : Q4Regs.Lanes s r) (l : Nat) :
    Q4Regs.Lanes (q4Step fp ofInt q xb j s l) (q4StepAvx2 fp ofInt q xb j r l) := by
  intro k
  obtain ⟨h1, h2, h3, h4⟩ := h k
  obtain ⟨e1, e2, e3, e4⟩ := q4Step_cell fp ofInt q xb j s l k
  rw [e1, e2, e3, e4, h1, h2, h3, h4]
  simp only [q4StepAvx2, mm256FmaddPd, mm256AddPd, mm256Cvtepi32Pd, cvtLoad_lane, wideAt, lane32_and, lane32_set1,
    lane32_srli, load4U8_lane, bytesAt, low_lane, high_lane, toInt_byte, and_self]

/-- **The sums of a Q4_K stretch agree.** -/
theorem q4SumsAvx2_eq (q : Bytes) (xb : Vec (BitVec 32)) (j : Nat) :
    q4SumsAvx2 fp ofInt q xb j = q4SumsRef fp ofInt q xb j := by
  obtain ⟨hlanes, -⟩ := forStep_rel 4 (R := Q4Regs.Lanes)
    (fun l s r (_ : l < 32) h => Q4Regs.step_lanes fp ofInt q xb j h l) 0
    ⟨fun _ => 0, fun _ => 0, fun _ => 0, fun _ => 0⟩
    ⟨mm256SetzeroPd, mm256SetzeroPd, mm256SetzeroPd, mm256SetzeroPd⟩ fun k => ⟨rfl, rfl, rfl, rfl⟩
  unfold q4SumsAvx2 q4SumsRef
  simp only [fun k => (hlanes k).1, fun k => (hlanes k).2.1, fun k => (hlanes k).2.2.1,
    fun k => (hlanes k).2.2.2]

/-! ## Q6_K -/

/-- `part[r] = f(part[r])`, for the rows `is`, `is + 2`, `is + 4` and `is + 6` in turn. -/
def rows4 {α : Type} (part : Nat → α) (is : Nat) (f0 f1 f2 f3 : α → α) : Nat → α :=
  let part := Function.update part (is + 0) (f0 (part (is + 0)))
  let part := Function.update part (is + 2) (f1 (part (is + 2)))
  let part := Function.update part (is + 4) (f2 (part (is + 4)))
  Function.update part (is + 6) (f3 (part (is + 6)))

/-- The four rows are four rows. -/
theorem rows4_apply {α : Type} (part : Nat → α) (is : Nat) (f0 f1 f2 f3 : α → α) (p : Nat) :
    rows4 part is f0 f1 f2 f3 p =
      if p = is + 0 then f0 (part p) else if p = is + 2 then f1 (part p)
      else if p = is + 4 then f2 (part p) else if p = is + 6 then f3 (part p) else part p := by
  unfold rows4
  simp only [Function.update_apply]
  split_ifs <;> first | omega | (subst_vars; rfl)

/-- The walk of both Q6_K products: for each block its scale, for each half eight partial sums. -/
def q6kDotRow (sums : Bytes → Bytes → Vec (BitVec 32) → Nat → D) (w : Bytes) (x : Vec (BitVec 32)) (n : Nat) :
    D :=
  loop (n / 256) 0 fun acc b =>
    let p := bytesAt w (b * 210)
    let d := fp.wide (engF16ToF32 (half p 208))
    let xb := ptr x (b * 256)
    loop 2 acc fun acc h =>
      let ql := bytesAt p (64 * h)
      let qh := bytesAt p (128 + 32 * h)
      let sc := bytesAt p (192 + 8 * h)
      let psum := sums ql qh (ptr xb (128 * h))
      loop 8 acc fun acc k => acc + d * ofInt (sc k).toInt * psum k

/-- `(int)((lo & 0x0F) | (((hi >> s) & 3) << 4)) - 32` -/
def codeLow (lo hi : BitVec 8) (s : Nat) : Int := ((lo &&& 0x0F) ||| (((hi >>> s) &&& 3) <<< 4)).toNat - 32

/-- `(int)((lo >> 4) | (((hi >> s) & 3) << 4)) - 32` -/
def codeHigh (lo hi : BitVec 8) (s : Nat) : Int := ((lo >>> 4) ||| (((hi >>> s) &&& 3) <<< 4)).toNat - 32

/-- One `k` of the scalar inner loop, at element `l`. -/
def q6Cell (ql qh : Bytes) (xb : Vec (BitVec 32)) (l : Nat) (part : Nat → Nat → D) (k : Nat) : Nat → Nat → D :=
  let i := l + k
  let q1 := codeLow (ql (i + 0)) (qh i) 0
  let q2 := codeLow (ql (i + 32)) (qh i) 2
  let q3 := codeHigh (ql (i + 0)) (qh i) 4
  let q4 := codeHigh (ql (i + 32)) (qh i) 6
  rows4 part (l / 16)
    (fun r => Function.update r k (fp.fma (ofInt q1) (fp.wide (xb (i + 0))) (r k)))
    (fun r => Function.update r k (fp.fma (ofInt q2) (fp.wide (xb (i + 32))) (r k)))
    (fun r => Function.update r k (fp.fma (ofInt q3) (fp.wide (xb (i + 64))) (r k)))
    (fun r => Function.update r k (fp.fma (ofInt q4) (fp.wide (xb (i + 96))) (r k)))

def q6Step (ql qh : Bytes) (xb : Vec (BitVec 32)) (part : Nat → Nat → D) (l : Nat) : Nat → Nat → D :=
  (forStep 1 4 0 part (q6Cell fp ofInt ql qh xb l)).1

/-- `psum` of the scalar product, by the row of `part`. -/
def q6SumsRef (ql qh : Bytes) (xb : Vec (BitVec 32)) (p : Nat) : D :=
  red4 fun k => (forStep 4 32 0 (fun _ _ => 0) (q6Step fp ofInt ql qh xb)).1 p k

/-- Two high bits of each code, in place. -/
def highBits (hi : BitVec 128) (s : Nat) : BitVec 128 :=
  mmSlliEpi32 (mmAndSi128 (mmSrliEpi32 hi s) (mmSet1Epi32 3)) 4

/-- Four elements of the vector loop. -/
def q6StepAvx2 (ql qh : Bytes) (xb : Vec (BitVec 32)) (part : Nat → M256d D) (l : Nat) : Nat → M256d D :=
  let lo0 := load4U8 (bytesAt ql l)
  let lo1 := load4U8 (bytesAt ql (l + 32))
  let hi := load4U8 (bytesAt qh l)
  let mask := mmSet1Epi32 0x0F
  let bias := mmSet1Epi32 32
  let q1 := mmSubEpi32 (mmOrSi128 (mmAndSi128 lo0 mask) (mmSlliEpi32 (mmAndSi128 hi (mmSet1Epi32 3)) 4)) bias
  let q2 := mmSubEpi32 (mmOrSi128 (mmAndSi128 lo1 mask) (highBits hi 2)) bias
  let q3 := mmSubEpi32 (mmOrSi128 (mmSrliEpi32 lo0 4) (highBits hi 4)) bias
  let q4 := mmSubEpi32 (mmOrSi128 (mmSrliEpi32 lo1 4) (highBits hi 6)) bias
  rows4 part (l / 16)
    (fun r => mm256FmaddPd fp.fma (mm256Cvtepi32Pd ofInt q1) (cvtLoad fp xb (l + 0)) r)
    (fun r => mm256FmaddPd fp.fma (mm256Cvtepi32Pd ofInt q2) (cvtLoad fp xb (l + 32)) r)
    (fun r => mm256FmaddPd fp.fma (mm256Cvtepi32Pd ofInt q3) (cvtLoad fp xb (l + 64)) r)
    (fun r => mm256FmaddPd fp.fma (mm256Cvtepi32Pd ofInt q4) (cvtLoad fp xb (l + 96)) r)

/-- `red4(part[p])` of the vector product. -/
def q6SumsAvx2 (ql qh : Bytes) (xb : Vec (BitVec 32)) (p : Nat) : D :=
  red4 ((forStep 4 32 0 (fun _ => mm256SetzeroPd) (q6StepAvx2 fp ofInt ql qh xb)).1 p)

/-- `eng_q6_k_dot_row_ref`. -/
def engQ6kDotRowRef (w : Bytes) (x : Vec (BitVec 32)) (n : Nat) : D :=
  q6kDotRow fp ofInt (q6SumsRef fp ofInt) w x n

/-- `eng_q6_k_dot_row_avx2`. -/
def engQ6kDotRowAvx2 (w : Bytes) (x : Vec (BitVec 32)) (n : Nat) : D :=
  q6kDotRow fp ofInt (q6SumsAvx2 fp ofInt) w x n

/-- A code out of its two parts, less the bias, is the scalar's `int`. -/
theorem code_lane {a b : BitVec 128} {k : Fin 4} {x y : BitVec 8} (ha : lane32 a k = x.setWidth 32)
    (hb : lane32 b k = y.setWidth 32) :
    (lane32 (mmSubEpi32 (mmOrSi128 a b) (mmSet1Epi32 32)) k).toInt = ((x ||| y).toNat : Int) - 32 := by
  have hbias : ∀ c : BitVec 8, (c.setWidth 32 - 32#32).toInt = (c.toNat : Int) - 32 := by decide +kernel
  rw [lane32_sub, lane32_set1, lane32_or, ha, hb, ← BitVec.setWidth_or]
  exact hbias (x ||| y)

theorem pair_lane (b : BitVec 8) : (b.setWidth 32 &&& (3 : BitVec 32)) <<< 4 = (((b >>> 0) &&& 3) <<< 4).setWidth 32 := by
  revert b
  decide +kernel

theorem highBits_lane (p : Bytes) {s : Nat} (hs : s = 2 ∨ s = 4 ∨ s = 6) (j : Fin 4) :
    lane32 (highBits (load4U8 p) s) j = (((p j >>> s) &&& 3) <<< 4).setWidth 32 := by
  have hbyte : ∀ b : BitVec 8, ∀ s ∈ ([2, 4, 6] : List Nat), ((b.setWidth 32 >>> s) &&& (3 : BitVec 32)) <<< 4 =
      (((b >>> s) &&& (3 : BitVec 8)) <<< 4).setWidth 32 := by decide +kernel
  unfold highBits
  rw [lane32_slli, lane32_and, lane32_srli, lane32_set1, load4U8_lane]
  exact hbyte (p j) s (by simpa using hs)

omit [Arith D] in
/-- What four elements do to accumulator `(p, k)`. -/
theorem q6Step_cell (ql qh : Bytes) (xb : Vec (BitVec 32)) (part : Nat → Nat → D) (l p : Nat) (k : Fin 4) :
    q6Step fp ofInt ql qh xb part l p k =
      let i := l + k
      if p = l / 16 + 0 then
        fp.fma (ofInt (codeLow (ql (i + 0)) (qh i) 0)) (fp.wide (xb (i + 0))) (part p k)
      else if p = l / 16 + 2 then
        fp.fma (ofInt (codeLow (ql (i + 32)) (qh i) 2)) (fp.wide (xb (i + 32))) (part p k)
      else if p = l / 16 + 4 then
        fp.fma (ofInt (codeHigh (ql (i + 0)) (qh i) 4)) (fp.wide (xb (i + 64))) (part p k)
      else if p = l / 16 + 6 then
        fp.fma (ofInt (codeHigh (ql (i + 32)) (qh i) 6)) (fp.wide (xb (i + 96))) (part p k)
      else part p k := by
  let i := l + (k : Nat)
  have hcell := forStep_cell (m := 4) (q6Cell fp ofInt ql qh xb l) k
    (fun part : Nat → Nat → D => part p k)
    (fun c => if p = l / 16 + 0 then fp.fma (ofInt (codeLow (ql (i + 0)) (qh i) 0)) (fp.wide (xb (i + 0))) c
      else if p = l / 16 + 2 then fp.fma (ofInt (codeLow (ql (i + 32)) (qh i) 2)) (fp.wide (xb (i + 32))) c
      else if p = l / 16 + 4 then fp.fma (ofInt (codeHigh (ql (i + 0)) (qh i) 4)) (fp.wide (xb (i + 64))) c
      else if p = l / 16 + 6 then fp.fma (ofInt (codeHigh (ql (i + 32)) (qh i) 6)) (fp.wide (xb (i + 96))) c
      else c) ?_ 0 part
  · rw [if_pos ⟨Nat.zero_le _, k.isLt⟩] at hcell
    exact hcell
  · intro part k'
    unfold q6Cell
    simp only [rows4_apply]
    by_cases hk : k' = k
    · subst hk
      rw [if_pos rfl]
      split_ifs <;> first | rfl | exact Function.update_self ..
    · rw [if_neg hk]
      split_ifs <;> first | rfl | exact Function.update_of_ne (Ne.symm hk) ..

/-- Row `p`, lane `k` of the vector sums is accumulator `(p, k)`. -/
def PartLanes (part : Nat → Nat → D) (regs : Nat → M256d D) : Prop := ∀ p, ∀ k : Fin 4, part p k = regs p k

omit [Arith D] in
theorem partLanes_step (ql qh : Bytes) (xb : Vec (BitVec 32)) {part : Nat → Nat → D} {regs : Nat → M256d D}
    (h : PartLanes part regs) (l : Nat) :
    PartLanes (q6Step fp ofInt ql qh xb part l) (q6StepAvx2 fp ofInt ql qh xb regs l) := by
  intro p k
  have hcomm : ∀ o, l + o + (k : Nat) = l + k + o := fun o => Nat.add_right_comm l o k
  have hx : ∀ o, cvtLoad fp xb (l + o) k = fp.wide (xb (l + k + o)) := by
    intro o
    rw [cvtLoad_lane, hcomm]
    rfl
  -- the low part of a code, and the bits over it
  have hlow : ∀ o, lane32 (mmAndSi128 (load4U8 (bytesAt ql (l + o))) (mmSet1Epi32 0x0F)) k =
      (ql (l + k + o) &&& 0x0F).setWidth 32 := by
    intro o
    rw [lane32_and, lane32_set1, load4U8_lane, low_lane, bytesAt, hcomm]
  have hhigh : ∀ o, lane32 (mmSrliEpi32 (load4U8 (bytesAt ql (l + o))) 4) k =
      (ql (l + k + o) >>> 4).setWidth 32 := by
    intro o
    rw [lane32_srli, load4U8_lane, high_lane, bytesAt, hcomm]
  have hpair : lane32 (mmSlliEpi32 (mmAndSi128 (load4U8 (bytesAt qh l)) (mmSet1Epi32 3)) 4) k =
      (((qh (l + k) >>> 0) &&& 3) <<< 4).setWidth 32 := by
    rw [lane32_slli, lane32_and, lane32_set1, load4U8_lane, pair_lane]
    rfl
  rw [q6Step_cell, h p k]
  unfold q6StepAvx2
  simp only [rows4_apply]
  split_ifs
  · simp only [mm256FmaddPd, mm256Cvtepi32Pd, hx]
    rw [code_lane (show lane32 (mmAndSi128 (load4U8 (bytesAt ql l)) _) k = _ from hlow 0) hpair]
    rfl
  · simp only [mm256FmaddPd, mm256Cvtepi32Pd, hx]
    rw [code_lane (hlow 32) (highBits_lane (bytesAt qh l) (Or.inl rfl) k)]
    rfl
  · simp only [mm256FmaddPd, mm256Cvtepi32Pd, hx]
    rw [code_lane (show lane32 (mmSrliEpi32 (load4U8 (bytesAt ql l)) 4) k = _ from hhigh 0)
      (highBits_lane (bytesAt qh l) (Or.inr (Or.inl rfl)) k)]
    rfl
  · simp only [mm256FmaddPd, mm256Cvtepi32Pd, hx]
    rw [code_lane (hhigh 32) (highBits_lane (bytesAt qh l) (Or.inr (Or.inr rfl)) k)]
    rfl
  · rfl

/-- **The sums of a Q6_K half agree.** -/
theorem q6SumsAvx2_eq (ql qh : Bytes) (xb : Vec (BitVec 32)) (p : Nat) :
    q6SumsAvx2 fp ofInt ql qh xb p = q6SumsRef fp ofInt ql qh xb p := by
  obtain ⟨hlanes, -⟩ := forStep_rel 4 (R := PartLanes)
    (fun l part regs (_ : l < 32) h => partLanes_step fp ofInt ql qh xb h l) 0
    (fun _ _ => 0) (fun _ => mm256SetzeroPd) fun p k => rfl
  unfold q6SumsAvx2 q6SumsRef
  exact congrArg red4 (funext fun k => (hlanes p k).symm)

/-! ## The instruction set does not show -/

/-- **Every kernel with two implementations gives one answer**, for every length, all weight bytes and
all activations. -/
theorem same_answer [Arith (BitVec 32)] :
    (∀ w x n, engQ4kDotRowAvx2 fp ofInt w x n = engQ4kDotRowRef fp ofInt w x n) ∧
    (∀ w x n, engQ6kDotRowAvx2 fp ofInt w x n = engQ6kDotRowRef fp ofInt w x n) ∧
    (∀ wf xg n, groupDotAvx2 fp wf xg n = groupDotRef fp wf xg n) ∧
    (∀ stack w scales x n group, engMxfp4DotRowG fp (groupDotAvx2 fp) stack w scales x n group =
      engMxfp4DotRowG fp (groupDotRef fp) stack w scales x n group) ∧
    (∀ a b n, engAvx2DotF32Exact fp a b n = engRefDotF32Exact fp a b n) ∧
    (∀ x w n, engAvx2DotBf16Exact fp x w n = engRefDotBf16Exact fp x w n) ∧
    (∀ x W inn out, k3MatmulBf16Avx2 fp x W inn out = matmul fp x (fun i => engBf16f (W i)) inn out) ∧
    (∀ x W inn out, k3MatmulBf16Scalar fp x W inn out = matmul fp x (fun i => engBf16f (W i)) inn out) := by
  refine ⟨fun w x n => ?_, fun w x n => ?_, groupDotAvx2_eq fp, fun stack w scales x n group => ?_,
    engAvx2DotF32Exact_eq fp, engAvx2DotBf16Exact_eq fp, k3MatmulBf16Avx2_eq fp, k3MatmulBf16Scalar_eq fp⟩
  · have hsums : q4SumsAvx2 fp ofInt = q4SumsRef fp ofInt := by
      funext q xb j
      exact q4SumsAvx2_eq fp ofInt q xb j
    rw [engQ4kDotRowAvx2, hsums, engQ4kDotRowRef]
  · have hsums : q6SumsAvx2 fp ofInt = q6SumsRef fp ofInt := by
      funext ql qh xb p
      exact q6SumsAvx2_eq fp ofInt ql qh xb p
    rw [engQ6kDotRowAvx2, hsums, engQ6kDotRowRef]
  · have hdot : groupDotAvx2 fp = groupDotRef fp := by
      funext wf xg m
      exact groupDotAvx2_eq fp wf xg m
    rw [hdot]

end LlmEngine.Quant
