/-
# LlmEngine.Core.Router — which experts `k3_router` selects (`src/core/k3_ops.c`).

Each round scans the biased scores for the first greatest one and marks the expert it takes with
`-INFINITY`.  The marks stand for a list of the experts that are left, and a round takes the least of
them in the order `before`: the greater biased score first, the lower index among equal ones.  So the
rounds sort that list, as far as they go (`selectExperts_eq`).

Nothing is assumed of `float` but what `>` and `-INFINITY` mean (`FloatOrder`).

* `Marked` relates the marked array to the list of what is left; a scan then finds the first of it
  (`bestExpert_least`) and a mark takes it out (`Marked.take`).
* A weight is the expert's own score, before the bias, and the factor of the renormalisation is one and the same for
  all of them (`commonFactor`).
* `k3Router_topk` says both, with ties and with as many experts as there are.

A score that is not a number, or a biased one of `-INFINITY`, is outside: the scan passes over it like over a mark,
and the source then takes fewer experts than it was asked for.
-/
import LlmEngine.Core.Ops
import LlmEngine.Lib.Rank
import Mathlib.Algebra.Order.Field.Basic
import Mathlib.Algebra.Order.Field.Rat
import Mathlib.Algebra.BigOperators.Group.List.Basic
import Mathlib.Algebra.Order.BigOperators.Group.List
import Mathlib.Order.WithBot
import Mathlib.Tactic.IntervalCases
import Mathlib.Tactic.NormNum
import Mathlib.Tactic.Positivity

namespace LlmEngine.Core

open LlmEngine.Lib

variable {F D : Type} [Arith F] [Arith D] (fp : Fpu F D)

/-! ## The code -/

/-- `score`: a sigmoid for each expert. -/
def routerScore (hidden : Nat) (gate x : Vec F) : Vec F :=
  fun e => sigmoid fp (fp.narrow (loop hidden 0 fun acc i =>
    acc + fp.wide (gate (e * hidden + i)) * fp.wide (x i)))

/-- `choice`: the score with the bias, for the selection only. -/
def routerChoice (score : Vec F) (bias : Option (Vec F)) : Vec F :=
  fun e => score e + (bias.map fun b => b e).getD 0

/-- `inv`, the common factor of the renormalisation. -/
def renormFactor (picked : List (Nat × F)) : F :=
  fp.narrow (1 / (picked.foldl (fun s p => s + fp.wide p.2) 0 + fp.renormEps))

/-- `k3_router` with the arguments it is called with, `topk` of any size. -/
def k3Router (hidden nExperts topk : Nat) (renorm : Bool) (routedScale : F) (gate : Vec F)
    (bias : Option (Vec F)) (x : Vec F) : List (Nat × F) :=
  let score := routerScore fp hidden gate x
  let picked := selectExperts fp score nExperts topk (routerChoice score bias)
  let weighted :=
    if renorm && decide (1 < topk) then picked.map fun p => (p.1, p.2 * renormFactor fp picked)
    else picked
  weighted.map fun p => (p.1, p.2 * routedScale)

/-- The call that the expert layers make. -/
theorem router_eq (c : K3NumCfg F) (gate : Vec F) (bias : Option (Vec F)) (x : Vec F) :
    router fp c gate bias x =
      k3Router fp c.hidden c.nExperts c.topk c.moeRenorm c.routedScale gate bias x := rfl

/-! ## The order of the experts -/

section Order

variable {L : Type} [LinearOrder L]

/-- `a` goes before `b`: it has the greater key, or an equal one and the lower index. -/
def before (key : Nat → L) (a b : Nat) : Prop := key b < key a ∨ key a = key b ∧ a ≤ b

instance (key : Nat → L) : DecidableRel (before key) := fun a b =>
  inferInstanceAs (Decidable (key b < key a ∨ key a = key b ∧ a ≤ b))

instance (key : Nat → L) : Std.Total (before key) where
  total a b := by
    unfold before
    rcases lt_trichotomy (key a) (key b) with hlt | heq | hgt
    · exact .inr (.inl hlt)
    · rcases Nat.le_total a b with hle | hle
      · exact .inl (.inr ⟨heq, hle⟩)
      · exact .inr (.inr ⟨heq.symm, hle⟩)
    · exact .inl (.inl hgt)

instance (key : Nat → L) : IsTrans Nat (before key) where
  trans a b c := by
    rintro (hab | ⟨hab, hle⟩) (hbc | ⟨hbc, hle'⟩)
    · exact .inl (hbc.trans hab)
    · exact .inl (hbc ▸ hab)
    · exact .inl (hab ▸ hbc)
    · exact .inr ⟨hab.trans hbc, hle.trans hle'⟩

instance (key : Nat → L) : Std.Antisymm (before key) where
  antisymm a b := by
    rintro (hab | ⟨hab, hle⟩) (hba | ⟨hba, hle'⟩)
    · exact absurd hab (not_lt.mpr hba.le)
    · exact absurd hab (hba ▸ lt_irrefl _)
    · exact absurd hba (hab ▸ lt_irrefl _)
    · exact Nat.le_antisymm hle hle'

/-- The experts by descending key, the lowest index first among equal ones. -/
def rankedExperts (key : Nat → L) (nExperts : Nat) : List Nat :=
  (List.range nExperts).insertionSort (before key)

/-- What `>` means: every float but a NaN has a place in an order, of which `-INFINITY` is the least, and
a comparison with a NaN is false. -/
structure FloatOrder (fp : Fpu F D) (L : Type) [LinearOrder L] [OrderBot L] where
  val : F → Option L
  gt_iff : ∀ a b, fp.gt a b = true ↔ ∃ x y, val a = some x ∧ val b = some y ∧ y < x
  negInf : val fp.negInfinity = some ⊥

/-- The place of a float in the order; that of a NaN is never asked for. -/
def FloatOrder.key {fp : Fpu F D} [OrderBot L] (o : FloatOrder fp L) (choice : Vec F) (e : Nat) : L :=
  (o.val (choice e)).getD ⊥

end Order

/-! ## The rounds -/

section Rounds

variable {fp} {L : Type} [LinearOrder L] [OrderBot L] (o : FloatOrder fp L) (key : Nat → L)

/-- The biased scores between two rounds: `left` are the experts not yet taken, the others are marked. -/
structure Marked (nExperts : Nat) (left : List Nat) (choice : Vec F) : Prop where
  known : ∀ e ∈ left, o.val (choice e) = some (key e) ∧ ⊥ < key e
  taken : ∀ e < nExperts, e ∉ left → choice e = fp.negInfinity
  inside : ∀ e ∈ left, e < nExperts
  distinct : left.Nodup

variable {o key} {n : Nat} {left : List Nat} {choice : Vec F}

omit [Arith F] [Arith D] in
/-- A marked expert exceeds nothing. -/
theorem FloatOrder.not_gt_negInfinity (o : FloatOrder fp L) (b : F) : fp.gt fp.negInfinity b = false := by
  rw [Bool.eq_false_iff]
  intro hgt
  obtain ⟨x, y, hx, -, hlt⟩ := (o.gt_iff _ _).mp hgt
  rw [o.negInf] at hx
  obtain rfl := Option.some.inj hx
  exact not_lt_bot hlt

omit [Arith F] [Arith D] in
/-- What the scan holds once it has seen the first `i` experts. -/
theorem scan_least (h : Marked o key n left choice) (i : Nat) (hi : i ≤ n) :
    let b := loop i (none, fp.negInfinity) fun (b : Option Nat × F) e =>
      if fp.gt (choice e) b.2 then (some e, choice e) else b
    (b = (none, fp.negInfinity) ∧ ∀ e < i, e ∉ left) ∨
      ∃ m ∈ left, m < i ∧ b = (some m, choice m) ∧ ∀ e < i, e ∈ left → before key m e := by
  induction i with
  | zero => exact .inl ⟨rfl, fun e he => absurd he (Nat.not_lt_zero e)⟩
  | succ i ih =>
      simp only
      rw [loop_succ]
      have hih := ih (by omega)
      simp only at hih
      generalize loop i (none, fp.negInfinity) (fun (b : Option Nat × F) e =>
        if fp.gt (choice e) b.2 then (some e, choice e) else b) = b at hih ⊢
      by_cases hleft : i ∈ left
      · obtain ⟨hval, hpos⟩ := h.known i hleft
        rcases hih with ⟨rfl, hnone⟩ | ⟨m, hm, hmi, rfl, hleast⟩
        · -- the first one that is left
          have hgt : fp.gt (choice i) fp.negInfinity = true :=
            (o.gt_iff _ _).mpr ⟨_, _, hval, o.negInf, hpos⟩
          rw [if_pos hgt]
          refine .inr ⟨i, hleft, Nat.lt_succ_self i, rfl, fun e he hmem => ?_⟩
          obtain rfl : e = i := by
            by_contra hne
            exact hnone e (by omega) hmem
          exact .inr ⟨rfl, Nat.le_refl e⟩
        · -- the comparison of the floats is the one of the keys, and a tie stays with the earlier expert
          obtain ⟨hvalm, -⟩ := h.known m hm
          have hiff : fp.gt (choice i) (choice m) = true ↔ key m < key i := by
            rw [o.gt_iff, hval, hvalm]
            simp
          by_cases hgt : key m < key i
          · rw [if_pos (hiff.mpr hgt)]
            refine .inr ⟨i, hleft, Nat.lt_succ_self i, rfl, fun e he hmem => ?_⟩
            rcases Nat.lt_succ_iff_lt_or_eq.mp he with hlt | rfl
            · exact trans_of (before key) (.inl hgt) (hleast e hlt hmem)
            · exact .inr ⟨rfl, Nat.le_refl e⟩
          · rw [if_neg (fun hg => hgt (hiff.mp hg))]
            refine .inr ⟨m, hm, Nat.lt_succ_of_lt hmi, rfl, fun e he hmem => ?_⟩
            rcases Nat.lt_succ_iff_lt_or_eq.mp he with hlt | rfl
            · exact hleast e hlt hmem
            · rcases lt_or_eq_of_le (not_lt.mp hgt) with hlt | heq
              · exact .inl hlt
              · exact .inr ⟨heq.symm, hmi.le⟩
      · -- a taken expert is at minus infinity and beats nothing
        rw [h.taken i (by omega) hleft, o.not_gt_negInfinity, if_neg (by simp)]
        rcases hih with ⟨rfl, hnone⟩ | ⟨m, hm, hmi, rfl, hleast⟩
        · refine .inl ⟨rfl, fun e he => ?_⟩
          rcases Nat.lt_succ_iff_lt_or_eq.mp he with hlt | rfl
          · exact hnone e hlt
          · exact hleft
        · refine .inr ⟨m, hm, Nat.lt_succ_of_lt hmi, rfl, fun e he hmem => ?_⟩
          rcases Nat.lt_succ_iff_lt_or_eq.mp he with hlt | rfl
          · exact hleast e hlt hmem
          · exact absurd hmem hleft

omit [Arith F] [Arith D] in
/-- **One scan**: the expert that goes before all that are left. -/
theorem bestExpert_least (h : Marked o key n left choice) (hne : left ≠ []) :
    ∃ m ∈ left, bestExpert fp choice n = some m ∧ ∀ e ∈ left, before key m e := by
  rcases scan_least h n (Nat.le_refl n) with ⟨-, hnone⟩ | ⟨m, hm, -, hscan, hleast⟩
  · obtain ⟨e, he⟩ := List.exists_mem_of_ne_nil left hne
    exact absurd he (hnone e (h.inside e he))
  · refine ⟨m, hm, ?_, fun e he => hleast e (h.inside e he) he⟩
    unfold bestExpert
    rw [hscan]

omit [Arith F] [Arith D] in
/-- Taking an expert. -/
theorem Marked.take (h : Marked o key n left choice) (m : Nat) :
    Marked o key n (left.erase m) fun e => if e = m then fp.negInfinity else choice e := by
  have hother : ∀ e ∈ left.erase m, e ≠ m ∧ e ∈ left := fun e he => (h.distinct.mem_erase_iff).mp he
  refine ⟨fun e he => ?_, fun e he hnot => ?_, fun e he => h.inside e (hother e he).2, h.distinct.erase m⟩
  · rw [if_neg (hother e he).1]
    exact h.known e (hother e he).2
  · by_cases hem : e = m
    · rw [if_pos hem]
    · rw [if_neg hem]
      exact h.taken e he fun hmem => hnot (h.distinct.mem_erase_iff.mpr ⟨hem, hmem⟩)

omit [Arith D] in
/-- **The rounds sort what is left**, as far as they go, and pair each expert with its own score. -/
theorem selectExperts_eq (score : Vec F) (k : Nat) : ∀ {left : List Nat} {choice : Vec F},
    Marked o key n left choice → k ≤ left.length →
    selectExperts fp score n k choice =
      ((left.insertionSort (before key)).take k).map fun e => (e, score e) := by
  induction k with
  | zero =>
      intro left choice _ _
      rw [List.take_zero]
      rfl
  | succ k ih =>
      intro left choice h hk
      obtain ⟨m, hm, hbest, hleast⟩ := bestExpert_least h (by
        rintro rfl
        exact absurd hk (Nat.not_succ_le_zero k))
      have hlen := List.length_erase_of_mem hm
      rw [selectExperts, hbest, insertionSort_least (before key) hm hleast, List.take_succ_cons,
        List.map_cons]
      simp only
      rw [ih (h.take m) (by omega)]

end Rounds

/-! ## The router -/

/-- **Exact arithmetic**: floats have values in an ordered field, and what the renormalisation computes
with them does not round. -/
structure ExactFpu (fp : Fpu F D) (K : Type) [Field K] [LinearOrder K] where
  real : F → K
  realD : D → K
  mul : ∀ a b : F, real (a * b) = real a * real b
  wide : ∀ a : F, realD (fp.wide a) = real a
  narrow : ∀ d : D, real (fp.narrow d) = realD d
  zero : realD 0 = 0
  add : ∀ a b : D, realD (a + b) = realD a + realD b
  inv : ∀ d : D, realD (1 / d) = (realD d)⁻¹
  eps : 0 ≤ realD fp.renormEps

section Exact

variable {fp} {K : Type} [Field K] [LinearOrder K] (ex : ExactFpu fp K)

/-- The sum that the renormalisation divides by. -/
theorem ExactFpu.sum (picked : List (Nat × F)) : ∀ s : D,
    ex.realD (picked.foldl (fun s p => s + fp.wide p.2) s) =
      ex.realD s + (picked.map fun p => ex.real p.2).sum := by
  induction picked with
  | nil => intro s; simp
  | cons p ps ih =>
      intro s
      rw [List.foldl_cons, ih, ex.add, ex.wide, List.map_cons, List.sum_cons, add_assoc]

theorem ExactFpu.factor (picked : List (Nat × F)) :
    ex.real (renormFactor fp picked) =
      ((picked.map fun p => ex.real p.2).sum + ex.realD fp.renormEps)⁻¹ := by
  rw [renormFactor, ex.narrow, ex.inv, ex.add, ex.sum, ex.zero, zero_add]

end Exact

/-- What the weights are multiplied by, other than by `routed_scale`. -/
def commonFactor {K : Type} [Field K] [LinearOrder K] {fp : Fpu F D} (ex : ExactFpu fp K) (renorm : Bool)
    (score : Vec F) (top : List Nat) : K :=
  if renorm && decide (1 < top.length) then
    ((top.map fun e => ex.real (score e)).sum + ex.realD fp.renormEps)⁻¹
  else 1

/-- **The router selects the true top-k.**  With biased scores that are numbers above `-INFINITY`, the
experts of the slots are the first `topk` of the experts by descending biased score, ties to the lowest
index, in that order and each once.  Each carries its unbiased score, which the renormalisation
multiplies by one factor for all; in exact arithmetic, and with positive scores, that factor is the
inverse of the sum over the slots. -/
theorem k3Router_topk {L : Type} [LinearOrder L] [OrderBot L] (o : FloatOrder fp L)
    (hidden nExperts topk : Nat) (renorm : Bool) (routedScale : F) (gate : Vec F) (bias : Option (Vec F))
    (x : Vec F) (hk : topk ≤ nExperts)
    (hfinite : ∀ e < nExperts,
      ∃ v, ⊥ < v ∧ o.val (routerChoice (routerScore fp hidden gate x) bias e) = some v) :
    let score := routerScore fp hidden gate x
    let choice := routerChoice score bias
    let top := (rankedExperts (o.key choice) nExperts).take topk
    let picked := selectExperts fp score nExperts topk choice
    let out := k3Router fp hidden nExperts topk renorm routedScale gate bias x
    (top.length = topk ∧ top.Nodup) ∧ out.map Prod.fst = top ∧
      picked = top.map (fun e => (e, score e)) ∧
      out = top.map (fun e => (e,
        (if renorm && decide (1 < topk) then score e * renormFactor fp picked else score e) * routedScale)) ∧
      ∀ (K : Type) [Field K] [LinearOrder K] [IsStrictOrderedRing K] (ex : ExactFpu fp K),
        (∀ e < nExperts, 0 < ex.real (score e)) →
        0 < commonFactor ex renorm score top ∧
          ∀ p ∈ out, ex.real p.2 =
            commonFactor ex renorm score top * ex.real (score p.1) * ex.real routedScale := by
  intro score choice top picked out
  -- before the first round nothing is marked, and every expert is left
  have hmarked : Marked o (o.key choice) nExperts (List.range nExperts) choice := by
    refine ⟨fun e he => ?_, fun e he hnot => absurd (List.mem_range.mpr he) hnot,
      fun e he => List.mem_range.mp he, List.nodup_range⟩
    obtain ⟨v, hpos, hval⟩ := hfinite e (List.mem_range.mp he)
    have hkey : o.key choice e = v := by
      unfold FloatOrder.key
      rw [hval]
      rfl
    rw [hkey]
    exact ⟨hval, hpos⟩
  have hperm := List.perm_insertionSort (before (o.key choice)) (List.range nExperts)
  have hlen : top.length = topk := by
    show (List.take _ _).length = topk
    rw [List.length_take, rankedExperts, hperm.length_eq, List.length_range, Nat.min_eq_left hk]
  have hpicked : picked = top.map fun e => (e, score e) :=
    selectExperts_eq score topk hmarked (by rw [List.length_range]; exact hk)
  have hout : out = top.map fun e => (e,
      (if renorm && decide (1 < topk) then score e * renormFactor fp picked else score e) *
        routedScale) := by
    show ((if renorm && decide (1 < topk) then picked.map fun p => (p.1, p.2 * renormFactor fp picked)
      else picked).map fun p => (p.1, p.2 * routedScale)) = _
    split_ifs with hrenorm
    · rw [hpicked, List.map_map, List.map_map]
      rfl
    · rw [hpicked, List.map_map]
      rfl
  refine ⟨⟨hlen, ?_⟩, ?_, hpicked, hout, fun K _ _ _ ex hscore => ?_⟩
  · exact (hperm.nodup_iff.mpr List.nodup_range).sublist (List.take_sublist _ _)
  · rw [hout, List.map_map]
    exact List.map_id' _
  · have hinside : ∀ e ∈ top, e < nExperts := fun e he =>
      List.mem_range.mp (hperm.subset (List.mem_of_mem_take he))
    have hterms : (picked.map fun p => ex.real p.2) = top.map fun e => ex.real (score e) := by
      rw [hpicked, List.map_map]
      rfl
    unfold commonFactor
    rw [hlen]
    split_ifs with hrenorm
    · -- the sum is over at least one positive score, so its inverse is a factor
      have hsum : 0 < (top.map fun e => ex.real (score e)).sum := by
        apply List.sum_pos
        · intro v hv
          obtain ⟨e, he, rfl⟩ := List.mem_map.mp hv
          exact hscore e (hinside e he)
        · rw [Bool.and_eq_true, decide_eq_true_eq] at hrenorm
          rw [Ne, List.map_eq_nil_iff, ← List.length_eq_zero_iff, hlen]
          omega
      refine ⟨inv_pos.mpr (add_pos_of_pos_of_nonneg hsum ex.eps), fun p hp => ?_⟩
      rw [hout] at hp
      obtain ⟨e, -, rfl⟩ := List.mem_map.mp hp
      simp only [hrenorm, if_true]
      rw [ex.mul, ex.mul, ex.factor, hterms, mul_comm (ex.real (score e))]
    · refine ⟨one_pos, fun p hp => ?_⟩
      rw [hout] at hp
      obtain ⟨e, -, rfl⟩ := List.mem_map.mp hp
      simp only [hrenorm]
      rw [if_neg (by simp), ex.mul, one_mul]

/-! ## Three experts -/

/-- Rationals with `-INFINITY`, for a run by hand. -/
abbrev ExtRat := Option ℚ

/-- An operation of which `-INFINITY` is absorbing. -/
def ExtRat.lift (op : ℚ → ℚ → ℚ) : ExtRat → ExtRat → ExtRat
  | some a, some b => some (op a b)
  | _, _ => none

instance : Arith ExtRat where
  zero := some 0
  one := some 1
  add := ExtRat.lift (· + ·)
  sub := ExtRat.lift (· - ·)
  mul := ExtRat.lift (· * ·)
  div := ExtRat.lift (· / ·)
  neg := Option.map (- ·)

/-- `expf` is only asked for 0 below. -/
def ratFpu : Fpu ExtRat ℚ where
  wide := fun a => a.getD 0
  narrow := some
  ofInt := fun n => some n
  ofIntD := fun n => n
  fma := fun a b c => a * b + c
  sqrt := id
  sqrtf := id
  expf := fun _ => some 1
  tanhf := id
  gt := fun (a b : WithBot ℚ) => decide (b < a)
  isZero := fun a => a == some 0
  negInfinity := none
  l2Eps := some (1 / 10 ^ 6)
  renormEps := 1 / 10 ^ 20
  bf16f := fun _ => some 0
  matmulQ8 := fun _ _ _ _ _ => some 0
  mxfp4DotRowG := fun _ _ _ _ _ => 0

def ratOrder : FloatOrder ratFpu (WithBot ℚ) where
  val := fun a => some a
  gt_iff := by
    intro (a : WithBot ℚ) (b : WithBot ℚ)
    constructor
    · intro h
      exact ⟨a, b, rfl, rfl, of_decide_eq_true h⟩
    · rintro ⟨x, y, hx, hy, hlt⟩
      obtain rfl := Option.some.inj hx
      obtain rfl := Option.some.inj hy
      exact decide_eq_true hlt
  negInf := rfl

def ratExact : ExactFpu ratFpu ℚ where
  real := fun a => a.getD 0
  realD := id
  mul := by
    rintro (_ | a) (_ | b)
    · exact (mul_zero (0 : ℚ)).symm
    · exact (zero_mul b).symm
    · exact (mul_zero a).symm
    · rfl
  wide := fun _ => rfl
  narrow := fun _ => rfl
  zero := rfl
  add := fun _ _ => rfl
  inv := fun d => one_div d
  eps := by
    show (0 : ℚ) ≤ 1 / 10 ^ 20
    positivity

/-- Three experts with one score; the bias puts the first of them behind. -/
theorem k3Router_topk_three :
    let zeros : Vec ExtRat := fun _ => some 0
    let bias : Vec ExtRat := fun e => if e = 0 then some 0 else some 1
    let out := k3Router ratFpu 0 3 2 true (some 2) zeros (some bias) zeros
    out.map Prod.fst = [1, 2] ∧ ∀ p ∈ out, ratExact.real p.2 = (1 + 1 / 10 ^ 20)⁻¹ * (1 / 2) * 2 := by
  intro zeros bias out
  have hnum : ∀ e < 3, ∃ v, ⊥ < v ∧
      ratOrder.val (routerChoice (routerScore ratFpu 0 zeros zeros) (some bias) e) = some v := by
    intro e he
    refine ⟨_, ?_, rfl⟩
    interval_cases e <;> exact WithBot.bot_lt_coe _
  obtain ⟨-, hfst, -, -, hexact⟩ :=
    k3Router_topk ratFpu ratOrder 0 3 2 true (some 2) zeros (some bias) zeros (by decide) hnum
  have htop : (rankedExperts (ratOrder.key (routerChoice (routerScore ratFpu 0 zeros zeros) (some bias)))
      3).take 2 = [1, 2] := by decide +kernel
  obtain ⟨-, hweights⟩ := hexact ℚ ratExact (fun e _ => by
    show (0 : ℚ) < 1 / (1 + 1)
    norm_num)
  rw [htop] at hfst hweights
  have hfactor : commonFactor ratExact true (routerScore ratFpu 0 zeros zeros) [1, 2] =
      (1 + 1 / 10 ^ 20)⁻¹ := by decide +kernel
  refine ⟨hfst, fun p hp => ?_⟩
  rw [hweights p hp, hfactor]
  congr 2
  show (1 : ℚ) / (1 + 1) = 1 / 2
  norm_num

end LlmEngine.Core
