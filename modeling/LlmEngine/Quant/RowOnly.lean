/-
# LlmEngine.Quant.RowOnly — a row product reads its row.

`dot_row` is handed a pointer into a matrix and no length but the number of elements.  In every built-in
format, on the scalar path and on the vector one, what it returns depends on the `row_bytes` of its row, the
`scale_bytes` of its scales and the `n` activations, and on nothing behind them.  So the product of a matrix
comes out the same from whichever buffer its rows are in, all at once or some at a time.

* `Agree n` relates two buffers that begin alike; the dot products of `Kernels.Dot` depend on that much.
* There is one `_congr` lemma for each format, block by block, and `formats_readsRow` collects them (`ReadsRow`).
* `engMatmulQuant_window` is the matrix: rows `first` to `first + n` are the product of the bytes from there on.
* `register_mem` and its like: other registrations leave the built-in formats as they are.

`builtin_matmul_window` is the statement with nothing left to assume of the format.
-/
import LlmEngine.Quant.Exact
import LlmEngine.Quant.Layout

namespace LlmEngine.Quant

open LlmEngine.Core LlmEngine.Lib LlmEngine.Kernels LlmEngine.Tensor

/-! ## Dot products -/

/-- A stepped loop sees its body only below the bound. -/
theorem forStep_congr {α : Type} (step : Nat) [NeZero step] {bound : Nat} {body body' : α → Nat → α}
    (h : ∀ i < bound, ∀ a, body a i = body' a i) (i : Nat) (a : α) :
    forStep step bound i a body = forStep step bound i a body' := by
  have hbody : ∀ i a b, i < bound → a = b → body a i = body' b i := fun i a b hi hab => hab ▸ h i hi a
  obtain ⟨hfst, hsnd⟩ := forStep_rel step hbody i a a rfl
  exact Prod.ext hfst hsnd

section Dot

variable {D : Type} (fma : D → D → D → D) {u u' v v' : Nat → D} {n : Nat}

theorem accumulate_congr {m i : Nat} (hu : ∀ l < m, u (i + l) = u' (i + l)) (hv : ∀ l < m, v (i + l) = v' (i + l))
    (acc : Nat → D) : Kernels.accumulate fma u v m acc i = Kernels.accumulate fma u' v' m acc i := by
  unfold Kernels.accumulate
  rw [forStep_congr 1 fun l hl acc => by rw [hu l hl, hv l hl]]

theorem fmaTail_congr (hu : ∀ i < n, u i = u' i) (hv : ∀ i < n, v i = v' i) (i : Nat) (s : D) :
    fmaTail fma u v n i s = fmaTail fma u' v' n i s := by
  unfold fmaTail
  rw [forStep_congr 1 fun i hi s => by rw [hu i hi, hv i hi]]

variable [Arith D]

/-- The lanes of a dot product end before the last whole stretch does. -/
theorem lanes_congr (width : Nat) [NeZero width] (hu : ∀ i < n, u i = u' i) (hv : ∀ i < n, v i = v' i) :
    forStep width (n - (width - 1)) 0 (fun _ => (0 : D)) (Kernels.accumulate fma u v width) =
      forStep width (n - (width - 1)) 0 (fun _ => (0 : D)) (Kernels.accumulate fma u' v' width) :=
  forStep_congr width (fun i hi acc =>
    accumulate_congr fma (fun l hl => hu _ (by omega)) (fun l hl => hv _ (by omega)) acc) 0 _

theorem dot8_congr (hu : ∀ i < n, u i = u' i) (hv : ∀ i < n, v i = v' i) : dot8 fma u v n = dot8 fma u' v' n := by
  unfold dot8
  rw [show n - 7 = n - (8 - 1) from rfl, lanes_congr fma 8 hu hv]
  dsimp only
  rw [fmaTail_congr fma hu hv]

theorem dot4_congr (hu : ∀ i < n, u i = u' i) (hv : ∀ i < n, v i = v' i) : dot4 fma u v n = dot4 fma u' v' n := by
  unfold dot4
  rw [show n - 3 = n - (4 - 1) from rfl, lanes_congr fma 4 hu hv]
  dsimp only
  rw [fmaTail_congr fma hu hv]

end Dot

variable {D : Type} [Arith D] (fp : Fpu (BitVec 32) D) (ofIntD : Int → D) {w w' : Bytes} {x x' : Vec (BitVec 32)} {n : Nat}

/-! ## MXFP4 and Q8_0 -/

theorem groupDotRef_congr {wf wf' xg xg' : Vec (BitVec 32)} (hw : ∀ i < n, wf i = wf' i) (hx : ∀ i < n, xg i = xg' i) :
    groupDotRef fp wf xg n = groupDotRef fp wf' xg' n := by
  apply dot8_congr
  · intro i hi
    exact congrArg fp.wide (hw i hi)
  · intro i hi
    exact congrArg fp.wide (hx i hi)

/-- Either `group_dot`. -/
theorem groupDot_ref (c : Build) : groupDot c fp = groupDotRef fp := by
  unfold groupDot
  split_ifs
  · funext wf xg m
    exact groupDotAvx2_eq fp wf xg m
  · rfl

/-- A row of packed nibbles, whole bytes of them. -/
theorem mxfp4DotRow_congr (c : Build) (stack : Vec (BitVec 32)) {s s' : Bytes} (heven : n % 2 = 0)
    (hw : ∀ i < n / 2, w i = w' i) (hs : ∀ g < (n + 31) / 32, s g = s' g) (hx : ∀ i < n, x i = x' i) :
    engMxfp4DotRowG fp (groupDot c fp) stack w s x n 32 = engMxfp4DotRowG fp (groupDot c fp) stack w' s' x' n 32 := by
  rw [groupDot_ref]
  unfold engMxfp4DotRowG
  apply loop_congr
  intro g hg acc
  dsimp only
  rw [hs g hg]
  split_ifs
  · rfl
  · have hgroup : ∀ i < min (n - g * 32) 32, expandGroup (fun j => w (g * (32 / 2) + j)) (min (n - g * 32) 32) stack i =
        expandGroup (fun j => w' (g * (32 / 2) + j)) (min (n - g * 32) 32) stack i := by
      intro i hi
      rw [expandGroup_apply _ hi, expandGroup_apply _ hi]
      unfold nibbleAt
      dsimp only
      rw [hw (g * (32 / 2) + i / 2) (by omega)]
    have hgiven : ∀ i < min (n - g * 32) 32, ptr x (g * 32) i = ptr x' (g * 32) i := fun i hi => hx _ (by omega)
    rw [groupDotRef_congr fp hgroup hgiven]

theorem q80DotRow_congr (hblocks : n % 32 = 0) (hw : ∀ i < n / 32 * 34, w i = w' i) (hx : ∀ i < n, x i = x' i) :
    q80DotRow fp ofIntD w x n = q80DotRow fp ofIntD w' x' n := by
  unfold q80DotRow
  rw [forStep_congr 32 fun off hoff acc => ?_]
  have hblock : ∀ o < 34, bytesAt w (off / 32 * 34) o = bytesAt w' (off / 32 * 34) o :=
    fun o ho => hw _ (by omega)
  dsimp only
  rw [half_congr (hblock 0 (by decide)) (hblock 1 (by decide)),
    dot4_congr fp.fma (n := min (n - off) 32) (fun i hi => by rw [hblock (2 + i) (by omega)])
      fun i hi => by rw [hx (off + i) (by omega)]]

/-! ## Q4_K -/

/-- The sums of a stretch of 64 elements, eight steps of four. -/
theorem q4SumsRef_congr {q q' : Bytes} {xb xb' : Vec (BitVec 32)} {j : Nat} (hq : ∀ i < 32, q i = q' i)
    (hx : ∀ i < 64, xb (j + i) = xb' (j + i)) : q4SumsRef fp ofIntD q xb j = q4SumsRef fp ofIntD q' xb' j := by
  have hstep : ∀ i < 8, ∀ s, q4Step fp ofIntD q xb j s (0 + 4 * i) = q4Step fp ofIntD q' xb' j s (0 + 4 * i) := by
    intro i hi s
    unfold q4Step
    rw [forStep_congr 1 fun k hk s => ?_]
    unfold q4Cell
    rw [hq (0 + 4 * i + k) (by omega), Nat.add_assoc j, hx (0 + 4 * i + k) (by omega),
      show j + 32 + (0 + 4 * i) + k = j + (32 + (0 + 4 * i) + k) by omega, hx (32 + (0 + 4 * i) + k) (by omega)]
  unfold q4SumsRef
  rw [forStep_eq_loop 4 (q4Step fp ofIntD q xb j) 8 0 _ (fun i hi => by omega) (by omega),
    forStep_eq_loop 4 (q4Step fp ofIntD q' xb' j) 8 0 _ (fun i hi => by omega) (by omega), loop_congr hstep]

/-- One stretch of a block: `is` counts sub-blocks. -/
def q4Stretch (sums : Bytes → Vec (BitVec 32) → Nat → Q4Sums D) (p : Bytes) (xb : Vec (BitVec 32)) (acc : D)
    (j is : Nat) : D :=
  let d := fp.wide (engF16ToF32 (half p 0))
  let dmin := fp.wide (engF16ToF32 (half p 2))
  let g1 := getScaleMin (is + 0) (bytesAt p 4)
  let g2 := getScaleMin (is + 1) (bytesAt p 4)
  let r := sums (bytesAt (bytesAt p 16) (j / 64 * 32)) xb j
  acc + (d * ofIntD g1.1.toNat * r.s1 - dmin * ofIntD g1.2.toNat * r.t1) +
    (d * ofIntD g2.1.toNat * r.s2 - dmin * ofIntD g2.2.toNat * r.t2)

/-- The walk of a row is four stretches a block. -/
theorem q4kDotRow_eq (sums : Bytes → Vec (BitVec 32) → Nat → Q4Sums D) (w : Bytes) (x : Vec (BitVec 32)) (n : Nat) :
    q4kDotRow fp ofIntD sums w x n = loop (n / 256) 0 fun acc b =>
      loop 4 acc fun acc i =>
        q4Stretch fp ofIntD sums (bytesAt w (b * 144)) (ptr x (b * 256)) acc (64 * i) (2 * i) := by
  unfold q4kDotRow
  refine loop_congr fun b _ acc => ?_
  dsimp only
  rw [forStep_eq_loop 64 _ 4 0 _ (fun j hj => by omega) (by omega)]
  simp only [Nat.zero_add]
  exact congrArg Prod.fst (loop_counter (fun acc i is =>
    q4Stretch fp ofIntD sums (bytesAt w (b * 144)) (ptr x (b * 256)) acc (64 * i) is) 2 4 acc)

theorem q4kDotRow_congr (hw : ∀ i < n / 256 * 144, w i = w' i) (hx : ∀ i < n, x i = x' i) :
    q4kDotRow fp ofIntD (q4SumsRef fp ofIntD) w x n = q4kDotRow fp ofIntD (q4SumsRef fp ofIntD) w' x' n := by
  rw [q4kDotRow_eq, q4kDotRow_eq]
  refine loop_congr fun b hb acc => loop_congr fun i hi acc => ?_
  have hblock : ∀ o < 144, bytesAt w (b * 144) o = bytesAt w' (b * 144) o := fun o ho => hw _ (by omega)
  have hsums : q4SumsRef fp ofIntD (bytesAt (bytesAt (bytesAt w (b * 144)) 16) (64 * i / 64 * 32)) (ptr x (b * 256)) (64 * i) =
      q4SumsRef fp ofIntD (bytesAt (bytesAt (bytesAt w' (b * 144)) 16) (64 * i / 64 * 32)) (ptr x' (b * 256)) (64 * i) := by
    apply q4SumsRef_congr
    · exact fun o ho => hblock (16 + (64 * i / 64 * 32 + o)) (by omega)
    · exact fun o ho => hx (b * 256 + (64 * i + o)) (by omega)
  unfold q4Stretch
  rw [half_congr (hblock 0 (by decide)) (hblock 1 (by decide)), half_congr (hblock 2 (by decide)) (hblock 3 (by decide)),
    getScaleMin_congr hblock (show 2 * i + 0 < 8 by omega), getScaleMin_congr hblock (show 2 * i + 1 < 8 by omega), hsums]

/-! ## Q6_K -/

theorem q6SumsRef_congr {ql ql' qh qh' : Bytes} {xb xb' : Vec (BitVec 32)} (hl : ∀ i < 64, ql i = ql' i)
    (hh : ∀ i < 32, qh i = qh' i) (hx : ∀ i < 128, xb i = xb' i) :
    q6SumsRef fp ofIntD ql qh xb = q6SumsRef fp ofIntD ql' qh' xb' := by
  have hstep : ∀ i < 8, ∀ s, q6Step fp ofIntD ql qh xb s (0 + 4 * i) = q6Step fp ofIntD ql' qh' xb' s (0 + 4 * i) := by
    intro i hi s
    unfold q6Step
    rw [forStep_congr 1 fun k hk s => ?_]
    unfold q6Cell
    dsimp only
    rw [hl (0 + 4 * i + k + 0) (by omega), hl (0 + 4 * i + k + 32) (by omega), hh (0 + 4 * i + k) (by omega),
      hx (0 + 4 * i + k + 0) (by omega), hx (0 + 4 * i + k + 32) (by omega), hx (0 + 4 * i + k + 64) (by omega),
      hx (0 + 4 * i + k + 96) (by omega)]
  funext p
  unfold q6SumsRef
  rw [forStep_eq_loop 4 (q6Step fp ofIntD ql qh xb) 8 0 _ (fun i hi => by omega) (by omega),
    forStep_eq_loop 4 (q6Step fp ofIntD ql' qh' xb') 8 0 _ (fun i hi => by omega) (by omega), loop_congr hstep]

theorem q6kDotRow_congr (hw : ∀ i < n / 256 * 210, w i = w' i) (hx : ∀ i < n, x i = x' i) :
    q6kDotRow fp ofIntD (q6SumsRef fp ofIntD) w x n = q6kDotRow fp ofIntD (q6SumsRef fp ofIntD) w' x' n := by
  unfold q6kDotRow
  refine loop_congr fun b hb acc => loop_congr fun h hh acc => ?_
  have hblock : ∀ o < 210, bytesAt w (b * 210) o = bytesAt w' (b * 210) o := fun o ho => hw _ (by omega)
  have hsums : q6SumsRef fp ofIntD (bytesAt (bytesAt w (b * 210)) (64 * h)) (bytesAt (bytesAt w (b * 210)) (128 + 32 * h))
        (ptr (ptr x (b * 256)) (128 * h)) =
      q6SumsRef fp ofIntD (bytesAt (bytesAt w' (b * 210)) (64 * h)) (bytesAt (bytesAt w' (b * 210)) (128 + 32 * h))
        (ptr (ptr x' (b * 256)) (128 * h)) := by
    apply q6SumsRef_congr
    · exact fun o ho => hblock (64 * h + o) (by omega)
    · exact fun o ho => hblock (128 + 32 * h + o) (by omega)
    · exact fun o ho => hx (b * 256 + (128 * h + o)) (by omega)
  have hscale : ∀ k < 8, bytesAt (bytesAt w (b * 210)) (192 + 8 * h) k = bytesAt (bytesAt w' (b * 210)) (192 + 8 * h) k :=
    fun k hk => hblock (192 + 8 * h + k) (by omega)
  dsimp only
  rw [half_congr (hblock 208 (by decide)) (hblock 209 (by decide)), hsums]
  exact loop_congr fun k hk acc => by rw [hscale k hk]

/-! ## The formats -/

/-- The first `n` entries are the same. -/
def Agree {α : Type} (n : Nat) (u v : Nat → α) : Prop := ∀ i < n, u i = v i

/-- **A format whose products read their row**: where a row can be expressed, nothing beyond it matters. -/
def ReadsRow {R : Type} (q : EngQuantOps D R) : Prop :=
  ∀ {inn : Int}, 0 ≤ q.rowBytes inn → ∀ {w w' : Bytes} {s s' : Option Bytes} {x x' : Vec (BitVec 32)},
    Agree (q.rowBytes inn).toNat w w' → Option.Rel (Agree (q.scaleBytes inn).toNat) s s' → Agree inn.toNat x x' →
      q.dotRow w s x inn.toNat = q.dotRow w' s' x' inn.toNat

section Formats

variable {R : Type} [Arith R] (c : Build) (val : BitVec 32 → R) (ofInt : Int → R) (stack : Vec (BitVec 32))

/-- The four formats of `reg_init`. -/
def formats : List (EngQuantOps D R) :=
  [engQuantMxfp4 c fp val stack, engQuantQ80 fp ofIntD val ofInt, engQuantQ4k c fp ofIntD val ofInt,
    engQuantQ6k c fp ofIntD val ofInt]

/-- A row that can be expressed is whole blocks. -/
theorem blockRowBytes_whole {per bytes inn : Int} (hper : 0 < per) (h : 0 ≤ blockRowBytes per bytes inn) (hbytes : 0 < bytes) :
    inn.toNat % per.toNat = 0 ∧ (blockRowBytes per bytes inn).toNat = inn.toNat / per.toNat * bytes.toNat := by
  unfold blockRowBytes at h ⊢
  split_ifs at h ⊢ with hbad
  · omega
  · push Not at hbad
    obtain ⟨hnn, hmod⟩ := hbad
    rw [Int.tmod_eq_emod_of_nonneg hnn] at hmod
    rw [Int.tdiv_eq_ediv_of_nonneg hnn]
    obtain ⟨n, rfl⟩ := Int.eq_ofNat_of_zero_le hnn
    obtain ⟨p, rfl⟩ := Int.eq_ofNat_of_zero_le hper.le
    obtain ⟨k, rfl⟩ := Int.eq_ofNat_of_zero_le hbytes.le
    refine ⟨?_, ?_⟩
    · exact_mod_cast hmod
    · simp only [Int.toNat_natCast]
      exact_mod_cast Int.toNat_natCast (n / p * k)

/-- **Every built-in format reads its row**, on either path. -/
theorem formats_readsRow {q : EngQuantOps D R} (hq : q ∈ formats fp ofIntD c val ofInt stack) : ReadsRow q := by
  intro inn hrow w w' s s' x x' hw hs hx
  unfold formats at hq
  simp only [List.mem_cons, List.not_mem_nil, or_false] at hq
  rcases hq with rfl | rfl | rfl | rfl
  · have hnn : 0 ≤ inn := by
      by_contra hneg
      have hbad : blockRowBytes 2 1 inn = -1 := if_pos (Or.inl (not_le.mp hneg))
      exact absurd (hbad ▸ hrow : (0 : Int) ≤ -1) (by decide)
    obtain ⟨hmod, hlen⟩ := blockRowBytes_whole (by decide) hrow (by decide)
    have hscale : (quantScaleBytes .mxfp4 inn).toNat = (inn.toNat + 31) / 32 := by
      unfold quantScaleBytes
      rw [if_pos rfl, if_neg (not_lt.mpr hnn), Int.tdiv_eq_ediv_of_nonneg (by omega)]
      omega
    have hlen : ∀ i < inn.toNat / 2, i < (blockRowBytes 2 1 inn).toNat := by
      intro i hi
      rw [hlen]
      exact Nat.lt_of_lt_of_eq hi (Nat.mul_one _).symm
    have hs' : Agree ((inn.toNat + 31) / 32) (s.getD fun _ => 0) (s'.getD fun _ => 0) := by
      cases hs with
      | none => exact fun _ _ => rfl
      | some h => exact fun g hg => h g (hscale ▸ hg)
    exact mxfp4DotRow_congr fp c stack hmod (fun i hi => hw i (hlen i hi)) hs' hx
  · obtain ⟨hmod, hlen⟩ := blockRowBytes_whole (by decide) hrow (by decide)
    exact q80DotRow_congr fp ofIntD hmod (fun i hi => hw i (hlen.symm ▸ hi)) hx
  · obtain ⟨-, hlen⟩ := blockRowBytes_whole (by decide) hrow (by decide)
    have hsums : q4SumsAvx2 fp ofIntD = q4SumsRef fp ofIntD := by
      funext q xb j
      exact q4SumsAvx2_eq fp ofIntD q xb j
    unfold engQuantQ4k engQ4kDotRowAvx2 engQ4kDotRowRef
    dsimp only
    rw [hsums, ite_self, ite_self]
    exact q4kDotRow_congr fp ofIntD (fun i hi => hw i (hlen.symm ▸ hi)) hx
  · obtain ⟨-, hlen⟩ := blockRowBytes_whole (by decide) hrow (by decide)
    have hsums : q6SumsAvx2 fp ofIntD = q6SumsRef fp ofIntD := by
      funext ql qh xb p
      exact q6SumsAvx2_eq fp ofIntD ql qh xb p
    unfold engQuantQ6k engQ6kDotRowAvx2 engQ6kDotRowRef
    dsimp only
    rw [hsums, ite_self, ite_self]
    exact q6kDotRow_congr fp ofIntD (fun i hi => hw i (hlen.symm ▸ hi)) hx

end Formats

/-! ## Matrices -/

section Matrices

variable {R : Type}

omit [Arith D] in
/-- What a product that goes through leaves: a row product each, and the rest of `y` as it was. -/
theorem engMatmulQuant_ok {reg : Registry D R} {q : EngQuantOps D R} {y x out : Vec (BitVec 32)} {W : Bytes}
    {scales : Option Bytes} {inn rows : Int} {dt : EngDType} (hreg : reg dt = some q) :
    engMatmulQuant fp reg y x W scales inn rows dt = .ok out ↔
      0 ≤ q.rowBytes inn ∧ 0 ≤ q.scaleBytes inn ∧ (0 < q.scaleBytes inn → scales.isSome = true) ∧
        out = fun r =>
          if r < rows.toNat then
            fp.narrow (q.dotRow (bytesAt W (r * (q.rowBytes inn).toNat))
              (scales.map fun s => bytesAt s (r * (q.scaleBytes inn).toNat)) x inn.toNat)
          else y r := by
  unfold engMatmulQuant
  rw [hreg]
  dsimp only
  rw [loop_rows]
  split_ifs with hlength hscales
  · constructor
    · intro h
      cases h
    · rintro ⟨hrow, hscale, -⟩
      omega
  · constructor
    · intro h
      cases h
    · rintro ⟨-, -, hgiven, -⟩
      have hsome := hgiven hscales.1
      rw [Option.isNone_iff_eq_none.mp hscales.2] at hsome
      cases hsome
  · push Not at hlength
    rw [Except.ok.injEq]
    constructor
    · rintro rfl
      refine ⟨hlength.1, hlength.2, fun hpos => ?_, rfl⟩
      by_contra hnone
      exact hscales ⟨hpos, Option.not_isSome_iff_eq_none.mp hnone ▸ rfl⟩
    · exact fun h => h.2.2.2.symm

omit [Arith D] in
/-- Some of the rows, from buffers of their own. -/
theorem engMatmulQuant_window {reg : Registry D R} {q : EngQuantOps D R} {dt : EngDType} (hreg : reg dt = some q)
    (hq : ReadsRow q) {y x x' out : Vec (BitVec 32)} (y' : Vec (BitVec 32)) {W W' : Bytes} {s t : Option Bytes}
    {inn rows : Int} {r₀ n : Nat} (hrows : (r₀ + n : Int) ≤ rows) (hx : Agree inn.toNat x x')
    (hW : Agree (n * (q.rowBytes inn).toNat) (bytesAt W (r₀ * (q.rowBytes inn).toNat)) W')
    (hscales : Option.Rel (Agree (n * (q.scaleBytes inn).toNat))
      (s.map fun p => bytesAt p (r₀ * (q.scaleBytes inn).toNat)) t)
    (hout : engMatmulQuant fp reg y x W s inn rows dt = .ok out) :
    ∃ out', engMatmulQuant fp reg y' x' W' t inn n dt = .ok out' ∧
      (∀ r < n, out' r = out (r₀ + r)) ∧ ∀ r ≥ n, out' r = y' r := by
  obtain ⟨hrow, hscale, hgiven, rfl⟩ := (engMatmulQuant_ok fp hreg).mp hout
  have hgiven' : 0 < q.scaleBytes inn → t.isSome = true := by
    intro hpos
    obtain ⟨p, rfl⟩ := Option.isSome_iff_exists.mp (hgiven hpos)
    cases hscales with
    | some _ => rfl
  refine ⟨_, (engMatmulQuant_ok fp hreg).mpr ⟨hrow, hscale, hgiven', rfl⟩, fun r hr => ?_, fun r hr => ?_⟩
  · have hlast : ∀ {k i : Nat}, i < k → r * k + i < n * k := by
      intro k i hi
      have hle := Nat.mul_le_mul_right k (Nat.succ_le_of_lt hr)
      rw [Nat.succ_mul] at hle
      omega
    dsimp only
    rw [Int.toNat_natCast, if_pos hr, if_pos (show r₀ + r < rows.toNat by omega)]
    refine congrArg fp.narrow (hq hrow ?_ ?_ fun i hi => (hx i hi).symm)
    · intro i hi
      show W' (r * (q.rowBytes inn).toNat + i) = W ((r₀ + r) * (q.rowBytes inn).toNat + i)
      rw [← hW _ (hlast hi), Nat.add_mul, Nat.add_assoc]
      rfl
    · cases s with
      | none =>
          cases hscales with
          | none => exact .none
      | some p =>
          cases hscales with
          | some h =>
              refine .some fun i hi => ?_
              show _ = p ((r₀ + r) * (q.scaleBytes inn).toNat + i)
              rw [Nat.add_mul, Nat.add_assoc]
              exact (h _ (hlast hi)).symm
  · rw [Int.toNat_natCast, if_neg (not_lt.mpr hr)]

omit [Arith D] in
/-- A product's outcome is one for the shape and the format; its first rows depend on the weights and on the
activations it reads. -/
theorem engMatmulQuant_agree {reg : Registry D R} {q : EngQuantOps D R} {dt : EngDType} (hreg : reg dt = some q)
    (hq : ReadsRow q) (y y' : Vec (BitVec 32)) {x x' : Vec (BitVec 32)} {W W' : Bytes} {inn rows : Int}
    (hx : Agree inn.toNat x x') (hW : Agree (rows.toNat * (q.rowBytes inn).toNat) W W') :
    Option.Rel (Agree rows.toNat) (engMatmulQuant fp reg y x W none inn rows dt).toOption
      (engMatmulQuant fp reg y' x' W' none inn rows dt).toOption := by
  have hother : ∀ {y x out : Vec (BitVec 32)} {W : Bytes} (y' x' : Vec (BitVec 32)) (W' : Bytes),
      engMatmulQuant fp reg y x W none inn rows dt = .ok out →
        ∃ out', engMatmulQuant fp reg y' x' W' none inn rows dt = .ok out' := by
    intro y x out W y' x' W' h
    obtain ⟨hrow, hscale, hgiven, -⟩ := (engMatmulQuant_ok fp hreg).mp h
    exact ⟨_, (engMatmulQuant_ok fp hreg).mpr ⟨hrow, hscale, hgiven, rfl⟩⟩
  cases h : engMatmulQuant fp reg y x W none inn rows dt with
  | error e =>
      cases h' : engMatmulQuant fp reg y' x' W' none inn rows dt with
      | error e' => exact .none
      | ok out' =>
          obtain ⟨out, hout⟩ := hother y x W h'
          rw [h] at hout
          cases hout
  | ok out =>
      obtain ⟨out', h'⟩ := hother y' x' W' h
      rw [h']
      obtain ⟨hrow, -, -, rfl⟩ := (engMatmulQuant_ok fp hreg).mp h
      obtain ⟨-, -, -, rfl⟩ := (engMatmulQuant_ok fp hreg).mp h'
      refine .some fun r hr => ?_
      rw [if_pos hr, if_pos hr]
      refine congrArg fp.narrow (hq hrow (fun i hi => hW _ ?_) .none hx)
      have hle := Nat.mul_le_mul_right (q.rowBytes inn).toNat (Nat.succ_le_of_lt hr)
      rw [Nat.succ_mul] at hle
      omega

end Matrices

section Builtin

variable {R : Type} [Arith R] (c : Build) (val : BitVec 32 → R) (ofInt : Int → R) (stack : Vec (BitVec 32))

omit [Arith D] [Arith R] in
/-- What is found was there, or is one of those registered since. -/
theorem register_mem (ops : List (EngQuantOps D R)) {reg : Registry D R} {dt : EngDType} {q : EngQuantOps D R}
    (h : ops.foldl engQuantRegister reg dt = some q) : reg dt = some q ∨ q ∈ ops ∧ q.dtype = dt := by
  induction ops generalizing reg with
  | nil => exact .inl h
  | cons o rest ih =>
      rcases ih h with hbefore | ⟨hmem, hdt⟩
      · unfold engQuantRegister at hbefore
        split_ifs at hbefore
        · exact .inl hbefore
        · by_cases heq : dt = o.dtype
          · subst heq
            rw [Function.update_self] at hbefore
            obtain rfl := Option.some.inj hbefore
            exact .inr ⟨List.mem_cons_self, rfl⟩
          · rw [Function.update_of_ne heq] at hbefore
            exact .inl hbefore
      · exact .inr ⟨List.mem_cons_of_mem o hmem, hdt⟩

/-- Whatever is registered at first is built in. -/
theorem formats_of_regInit {dt : EngDType} {q : EngQuantOps D R} (h : regInit c fp ofIntD val ofInt stack dt = some q) :
    q ∈ formats fp ofIntD c val ofInt stack ∧ q.dtype = dt := by
  apply Or.resolve_left (register_mem _ h)
  exact fun hnone => Option.some_ne_none q hnone.symm

/-- A row is as long as the registry says. -/
theorem quantRowBytes_regInit (dt : EngDType) :
    quantRowBytes dt = (regInit c fp ofIntD val ofInt stack dt).map fun q => q.rowBytes := by
  cases dt <;> rfl

/-- A row that can be expressed is expanded whole, over whatever was there. -/
theorem formats_dequantRow {q : EngQuantOps D R} (hq : q ∈ formats fp ofIntD c val ofInt stack) {n : Int}
    (hrow : 0 ≤ q.rowBytes n) (out out' : Vec R) (w : Bytes) (s : Option Bytes) :
    Agree n.toNat (q.dequantRow out w s n.toNat) (q.dequantRow out' w s n.toNat) := by
  have hfills : ∀ {hi : Nat} {f : Nat → R} {a a' : Vec R}, n.toNat ≤ hi → Fills 0 hi f out a → Fills 0 hi f out' a' →
      Agree n.toNat a a' := by
    intro hi f a a' hle ha ha' i hin
    rw [ha i, ha' i, if_pos (by omega), if_pos (by omega)]
  unfold formats at hq
  simp only [List.mem_cons, List.not_mem_nil, or_false] at hq
  rcases hq with rfl | rfl | rfl | rfl
  · apply hfills (Nat.le_refl _)
    · exact engMxfp4DequantRowG_fills val _ _ _ _ (by decide)
    · exact engMxfp4DequantRowG_fills val _ _ _ _ (by decide)
  · exact hfills (Nat.le_refl _) (q80DequantRow_fills val ofInt _ _ _) (q80DequantRow_fills val ofInt _ _ _)
  · obtain ⟨hmod, -⟩ := blockRowBytes_whole (by decide) hrow (by decide)
    have hwhole : n.toNat ≤ n.toNat / 256 * 256 := by
      have hmod' : n.toNat % 256 = 0 := hmod
      omega
    exact hfills hwhole (q4kDequantRow_fills val ofInt _ _ _) (q4kDequantRow_fills val ofInt _ _ _)
  · obtain ⟨hmod, -⟩ := blockRowBytes_whole (by decide) hrow (by decide)
    have hwhole : n.toNat ≤ n.toNat / 256 * 256 := by
      have hmod' : n.toNat % 256 = 0 := hmod
      omega
    exact hfills hwhole (q6kDequantRow_fills val ofInt _ _ _) (q6kDequantRow_fills val ofInt _ _ _)

theorem regInit_formats {q : EngQuantOps D R} (hq : q ∈ formats fp ofIntD c val ofInt stack) :
    regInit c fp ofIntD val ofInt stack q.dtype = some q := by
  simp only [formats, List.mem_cons, List.not_mem_nil, or_false] at hq
  rcases hq with rfl | rfl | rfl | rfl <;> rfl

/-- **A matrix in pieces**, in any built-in format and build, whatever else is registered: `n` rows from row
`r₀` on, copied with their scales into buffers of their own, give the rows the whole matrix gives, and write no
other.  What lies behind the pieces, what the outputs held, and activations beyond `inn` make no difference. -/
theorem builtin_matmul_window {q : EngQuantOps D R} (hq : q ∈ formats fp ofIntD c val ofInt stack)
    (extra : List (EngQuantOps D R)) {y x x' out : Vec (BitVec 32)} (y' : Vec (BitVec 32)) {W W' : Bytes}
    {s t : Option Bytes} {inn rows : Int} {r₀ n : Nat} (hrows : (r₀ + n : Int) ≤ rows) (hx : Agree inn.toNat x x')
    (hW : Agree (n * (q.rowBytes inn).toNat) (bytesAt W (r₀ * (q.rowBytes inn).toNat)) W')
    (hscales : Option.Rel (Agree (n * (q.scaleBytes inn).toNat))
      (s.map fun p => bytesAt p (r₀ * (q.scaleBytes inn).toNat)) t)
    (hout : engMatmulQuant fp (extra.foldl engQuantRegister (regInit c fp ofIntD val ofInt stack)) y x W s inn rows
      q.dtype = .ok out) :
    ∃ out', engMatmulQuant fp (extra.foldl engQuantRegister (regInit c fp ofIntD val ofInt stack)) y' x' W' t inn n
        q.dtype = .ok out' ∧
      (∀ r < n, out' r = out (r₀ + r)) ∧ ∀ r ≥ n, out' r = y' r :=
  engMatmulQuant_window fp (register_keeps extra (regInit_formats fp ofIntD c val ofInt stack hq))
    (formats_readsRow fp ofIntD c val ofInt stack hq) y' hrows hx hW hscales hout

end Builtin

/-- The second of two rows of Q8_0, out of a buffer that ends with it. -/
theorem q80_second_row :
    ∃ out out',
      engMatmulQuant constFpu (regInit ⟨true, true, true, false⟩ constFpu exactInt floatVal exactInt fun _ => 0) (fun _ => 0)
          (fun _ => 0x40000000) (fun i => BitVec.ofNat 8 i) none 32 2 .q8_0 = .ok out ∧
        engMatmulQuant constFpu (regInit ⟨true, true, true, false⟩ constFpu exactInt floatVal exactInt fun _ => 0) (fun _ => 9)
          (fun i => if i < 32 then 0x40000000 else 0) (fun i => if i < 34 then BitVec.ofNat 8 (34 + i) else 0) none 32 1
          .q8_0 = .ok out' ∧
        out' 0 = out 1 ∧ out' 1 = 9 := by
  have hq : engQuantQ80 constFpu exactInt floatVal exactInt ∈
      formats constFpu exactInt ⟨true, true, true, false⟩ floatVal exactInt fun _ => 0 :=
    List.mem_cons_of_mem _ List.mem_cons_self
  have hx : Agree (32 : Int).toNat (fun _ => (0x40000000 : BitVec 32)) fun i => if i < 32 then 0x40000000 else 0 :=
    fun i hi => (if_pos hi).symm
  have hW : Agree (1 * 34) (bytesAt (fun i => BitVec.ofNat 8 i) (1 * 34)) fun i =>
      if i < 34 then BitVec.ofNat 8 (34 + i) else 0 := fun i hi => (if_pos hi).symm
  obtain ⟨out', hout', hrow, hrest⟩ := builtin_matmul_window constFpu exactInt ⟨true, true, true, false⟩ floatVal exactInt
    (fun _ => 0) hq [] (y := fun _ => 0) (s := none) (t := none) (fun _ => 9) (show (1 + 1 : Int) ≤ 2 by decide) hx hW
    .none rfl
  exact ⟨_, out', rfl, hout', hrow 0 (by decide), hrest 1 (by decide)⟩

end LlmEngine.Quant
