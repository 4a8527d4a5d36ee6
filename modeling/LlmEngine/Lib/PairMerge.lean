/-
# LlmEngine.Lib.PairMerge — joining adjacent pairs, the lowest rank first.

A list of pieces is reduced by joining one adjacent pair at a time: the leftmost of those whose rank
is lowest, until no pair has a rank.  This is the inner loop of byte-pair encoding, with the pieces, what
joining makes of two of them, and the ranks all left open.

* `Lowest` says which pair is joined next, `Reduces` what a list is reduced to.
* `choose` scans for the pair and `run` joins until none is left; they agree with the two relations
  (`choose_iff`, `reduces_iff`), so the result does not depend on how the best pair is searched for.

What a run keeps is proved once: a property that every join keeps (`run_keeps`), and where the pieces of the
result come from (`mem_run`).  Runs are compared in two ways:

* under a map of the pieces that respects ranks and joins (`run_map`), which relates a program that joins
  indices or spans to one that joins texts;
* under another ranking: two rankings join the same places in the same order exactly when they choose alike
  on every list the run comes through (`joined_eq_iff`).

The last part follows the first piece, which is left alone (`run_cons`) or grows (`run_head`).
-/
import Mathlib.Data.List.Basic
import Mathlib.Tactic.Common

namespace LlmEngine.Lib.PairMerge

variable {P Q : Type}

/-! ## The choice -/

/-- The rank of the pair that starts at place `i`. -/
def rankAt (rank : P → P → Option Nat) : List P → Nat → Option Nat
  | x :: y :: _, 0 => rank x y
  | _ :: rest, i + 1 => rankAt rank rest i
  | _, _ => none

/-- The best pair so far, against the next one: only a lower rank displaces it. -/
def better (best : Option (Nat × Nat)) (i : Nat) : Option Nat → Option (Nat × Nat)
  | none => best
  | some r =>
      match best with
      | none => some (i, r)
      | some (j, q) => if r < q then some (i, r) else some (j, q)

/-- One pass over the adjacent pairs, from left to right. -/
def scan (rank : P → P → Option Nat) : Nat → Option (Nat × Nat) → List P → Option (Nat × Nat)
  | i, best, x :: y :: rest => scan rank (i + 1) (better best i (rank x y)) (y :: rest)
  | _, best, _ => best

def choose (rank : P → P → Option Nat) (l : List P) : Option Nat :=
  (scan rank 0 none l).map Prod.fst

/-- The pair at `i` is the leftmost of lowest rank. -/
structure Lowest (rank : P → P → Option Nat) (l : List P) (i : Nat) : Prop where
  ranked : ∃ r, rankAt rank l i = some r
  lowest : ∀ j q r, rankAt rank l i = some r → rankAt rank l j = some q → r ≤ q
  leftmost : ∀ j q r, j < i → rankAt rank l i = some r → rankAt rank l j = some q → r < q

section Choice

variable {rank : P → P → Option Nat}

/-- `best` is the leftmost of lowest rank among the first `n` pairs, if one of them has a rank. -/
def IsBest (rk : Nat → Option Nat) (n : Nat) : Option (Nat × Nat) → Prop
  | none => ∀ j < n, rk j = none
  | some (p, r) => p < n ∧ rk p = some r ∧ (∀ j < n, ∀ q, rk j = some q → r ≤ q) ∧
      ∀ j < p, ∀ q, rk j = some q → r < q

theorem IsBest.step {rk : Nat → Option Nat} {n : Nat} {best : Option (Nat × Nat)}
    (h : IsBest rk n best) : IsBest rk (n + 1) (better best n (rk n)) := by
  cases hr : rk n with
  | none =>
      -- a pair without a rank changes nothing
      cases best with
      | none =>
          intro j hj
          rcases Nat.lt_succ_iff_lt_or_eq.mp hj with hlt | rfl
          · exact h j hlt
          · exact hr
      | some b =>
          obtain ⟨hp, hat, hle, hleft⟩ := h
          refine ⟨by omega, hat, fun j hj q hq => ?_, hleft⟩
          rcases Nat.lt_succ_iff_lt_or_eq.mp hj with hlt | rfl
          · exact hle j hlt q hq
          · exact absurd (hr.symm.trans hq) (by simp)
  | some r =>
      cases best with
      | none =>
          refine ⟨by omega, hr, fun j hj q hq => ?_, fun j hj q hq => ?_⟩
          · rcases Nat.lt_succ_iff_lt_or_eq.mp hj with hlt | rfl
            · exact absurd ((h j hlt).symm.trans hq) (by simp)
            · exact Nat.le_of_eq (Option.some.inj (hr.symm.trans hq))
          · exact absurd ((h j hj).symm.trans hq) (by simp)
      | some b =>
          obtain ⟨p, q₀⟩ := b
          obtain ⟨hp, hat, hle, hleft⟩ := h
          by_cases hlt : r < q₀
          · -- a lower rank displaces the best so far
            have hbetter : better (some (p, q₀)) n (some r) = some (n, r) := if_pos hlt
            rw [hbetter]
            refine ⟨by omega, hr, fun j hj q hq => ?_, fun j hj q hq => ?_⟩
            · rcases Nat.lt_succ_iff_lt_or_eq.mp hj with hj | rfl
              · have := hle j hj q hq
                omega
              · exact Nat.le_of_eq (Option.some.inj (hr.symm.trans hq))
            · have := hle j hj q hq
              omega
          · have hbetter : better (some (p, q₀)) n (some r) = some (p, q₀) := if_neg hlt
            rw [hbetter]
            refine ⟨by omega, hat, fun j hj q hq => ?_, hleft⟩
            rcases Nat.lt_succ_iff_lt_or_eq.mp hj with hj | rfl
            · exact hle j hj q hq
            · have := Option.some.inj (hr.symm.trans hq)
              omega

@[simp] theorem rankAt_succ (x : P) (xs : List P) (i : Nat) :
    rankAt rank (x :: xs) (i + 1) = rankAt rank xs i := by
  cases xs <;> rfl

theorem rankAt_append (xs : List P) : ∀ (l : List P) (i : Nat),
    rankAt rank (xs ++ l) (xs.length + i) = rankAt rank l i := by
  induction xs with
  | nil =>
      intro l i
      rw [List.nil_append, List.length_nil, Nat.zero_add]
  | cons x xs ih =>
      intro l i
      rw [List.length_cons, Nat.add_right_comm, List.cons_append, rankAt_succ]
      exact ih l i

theorem rankAt_end (l : List P) : ∀ {i : Nat}, l.length ≤ i + 1 → rankAt rank l i = none := by
  induction l with
  | nil =>
      intro i _
      cases i <;> rfl
  | cons x xs ih =>
      intro i hi
      cases i with
      | zero =>
          cases xs with
          | nil => rfl
          | cons y ys => simp at hi
      | succ i =>
          rw [rankAt_succ]
          exact ih (by simpa using hi)

/-- **The scan finds the best pair.** -/
theorem scan_isBest (rank : P → P → Option Nat) (l : List P) : ∀ (done : List P) (best : Option (Nat × Nat)),
    IsBest (rankAt rank (done ++ l)) done.length best →
      ∃ n, (done ++ l).length ≤ n + 1 ∧
        IsBest (rankAt rank (done ++ l)) n (scan rank done.length best l) := by
  induction l with
  | nil =>
      intro done best h
      exact ⟨done.length, by simp, h⟩
  | cons x xs ih =>
      intro done best h
      cases xs with
      | nil => exact ⟨done.length, by simp, h⟩
      | cons y rest =>
          have hstep := h.step
          have hat : rankAt rank (done ++ x :: y :: rest) done.length = rank x y :=
            rankAt_append done (x :: y :: rest) 0
          rw [hat] at hstep
          have hsplit : done ++ x :: y :: rest = done ++ [x] ++ y :: rest := by simp
          have hrec := ih (done ++ [x]) (better best done.length (rank x y))
          rw [← hsplit, List.length_append] at hrec
          exact hrec hstep

theorem choose_some {l : List P} {i : Nat} (h : choose rank l = some i) : Lowest rank l i := by
  obtain ⟨n, hn, hbest⟩ := scan_isBest rank l [] none fun j hj => absurd hj (by simp)
  obtain ⟨⟨p, r⟩, hscan, rfl⟩ := Option.map_eq_some_iff.mp h
  rw [List.length_nil, hscan, List.nil_append] at hbest
  obtain ⟨-, hat, hle, hleft⟩ := hbest
  refine ⟨⟨r, hat⟩, fun j q r' hr' hq => ?_, fun j q r' hj hr' hq => ?_⟩
  · obtain rfl := Option.some.inj (hat.symm.trans hr')
    by_cases hjn : j < n
    · exact hle j hjn q hq
    · -- there is no pair that far
      rw [List.nil_append] at hn
      exact absurd ((rankAt_end l (by omega)).symm.trans hq) (by simp)
  · obtain rfl := Option.some.inj (hat.symm.trans hr')
    exact hleft j hj q hq

theorem choose_none {l : List P} (h : choose rank l = none) (j : Nat) : rankAt rank l j = none := by
  obtain ⟨n, hn, hbest⟩ := scan_isBest rank l [] none fun j hj => absurd hj (by simp)
  rw [List.length_nil, Option.map_eq_none_iff.mp h, List.nil_append] at hbest
  rw [List.nil_append] at hn
  by_cases hjn : j < n
  · exact hbest j hjn
  · exact rankAt_end l (by omega)

theorem Lowest.unique {l : List P} {i j : Nat} (hi : Lowest rank l i) (hj : Lowest rank l j) :
    i = j := by
  obtain ⟨r, hr⟩ := hi.ranked
  obtain ⟨q, hq⟩ := hj.ranked
  have hrq := hi.lowest j q r hr hq
  have hqr := hj.lowest i r q hq hr
  rcases Nat.lt_trichotomy i j with hlt | heq | hgt
  · have := hj.leftmost i r q hlt hq hr
    omega
  · exact heq
  · have := hi.leftmost j q r hgt hr hq
    omega

theorem choose_iff {l : List P} {i : Nat} : choose rank l = some i ↔ Lowest rank l i := by
  refine ⟨choose_some, fun h => ?_⟩
  cases hc : choose rank l with
  | none =>
      obtain ⟨r, hr⟩ := h.ranked
      exact absurd ((choose_none hc i).symm.trans hr) (by simp)
  | some j => rw [(choose_some hc).unique h]

theorem Lowest.lt {l : List P} {i : Nat} (h : Lowest rank l i) : i + 1 < l.length := by
  obtain ⟨r, hr⟩ := h.ranked
  by_contra hge
  exact absurd ((rankAt_end l (by omega)).symm.trans hr) (by simp)

end Choice

/-! ## Runs -/

/-- The pair at place `i` joined. -/
def joinAt (join : P → P → P) : Nat → List P → List P
  | 0, x :: y :: rest => join x y :: rest
  | i + 1, x :: rest => x :: joinAt join i rest
  | _, l => l

/-- At most `n` joins; the places joined, and the pieces left. -/
def joins (join : P → P → P) (rank : P → P → Option Nat) : Nat → List P → List Nat × List P
  | 0, l => ([], l)
  | n + 1, l =>
      match choose rank l with
      | none => ([], l)
      | some i => (i :: (joins join rank n (joinAt join i l)).1,
          (joins join rank n (joinAt join i l)).2)

/-- The loop until no pair has a rank.  Each join leaves one piece less, so the number of pieces
bounds the number of joins. -/
def run (join : P → P → P) (rank : P → P → Option Nat) (l : List P) : List P :=
  (joins join rank l.length l).2

/-- Where the loop joins, in order. -/
def joined (join : P → P → P) (rank : P → P → Option Nat) (l : List P) : List Nat :=
  (joins join rank l.length l).1

/-- The loop as a relation: the leftmost pair of lowest rank is joined, until there is none. -/
inductive Reduces (join : P → P → P) (rank : P → P → Option Nat) : List P → List P → Prop
  | stop {l : List P} : (∀ i, rankAt rank l i = none) → Reduces join rank l l
  | step {l l' : List P} {i : Nat} : Lowest rank l i → Reduces join rank (joinAt join i l) l' →
      Reduces join rank l l'

/-- The states the loop goes through. -/
inductive Visits (join : P → P → P) (rank : P → P → Option Nat) : List P → List P → Prop
  | here {l : List P} : Visits join rank l l
  | next {l l' : List P} {i : Nat} : Lowest rank l i → Visits join rank (joinAt join i l) l' →
      Visits join rank l l'

section Runs

variable {join : P → P → P} {rank : P → P → Option Nat}

theorem joinAt_length (join : P → P → P) (l : List P) : ∀ {i : Nat}, i + 1 < l.length →
    (joinAt join i l).length + 1 = l.length := by
  induction l with
  | nil => intro i hi; exact absurd hi (Nat.not_lt_zero _)
  | cons x xs ih =>
      intro i hi
      cases i with
      | zero =>
          cases xs with
          | nil => simp at hi
          | cons y rest => rfl
      | succ i =>
          have hrec := ih (i := i) (by simpa using hi)
          show (joinAt join i xs).length + 1 + 1 = xs.length + 1
          rw [hrec]

/-- A join leaves the pieces there were, and the two it joined as one. -/
theorem mem_joinAt (rank : P → P → Option Nat) {p : P} (l : List P) : ∀ {i : Nat}, p ∈ joinAt join i l →
    p ∈ l ∨ ∃ x y, p = join x y ∧ rankAt rank l i = rank x y := by
  induction l with
  | nil =>
      intro i h
      cases i <;> exact .inl h
  | cons x xs ih =>
      intro i h
      cases i with
      | zero =>
          cases xs with
          | nil => exact .inl h
          | cons y rest =>
              rcases List.mem_cons.mp h with rfl | hmem
              · exact .inr ⟨x, y, rfl, rfl⟩
              · exact .inl (by simp [hmem])
      | succ i =>
          rcases List.mem_cons.mp h with rfl | hmem
          · exact .inl List.mem_cons_self
          · rcases ih hmem with hold | hnew
            · exact .inl (List.mem_cons_of_mem x hold)
            · rw [rankAt_succ]
              exact .inr hnew

/-- **A run ends, and ends as the relation says.** -/
theorem reduces_joins : ∀ (n : Nat) (l : List P), l.length ≤ n →
    Reduces join rank l (joins join rank n l).2 := by
  intro n
  induction n with
  | zero =>
      intro l hl
      exact .stop fun i => rankAt_end l (by omega)
  | succ n ih =>
      intro l hl
      rw [joins]
      cases hc : choose rank l with
      | none => exact .stop (choose_none hc)
      | some i =>
          have hlow := choose_some hc
          have hlen := joinAt_length join l hlow.lt
          exact .step hlow (ih _ (by omega))

theorem Reduces.unique {l l₁ l₂ : List P} (h₁ : Reduces join rank l l₁)
    (h₂ : Reduces join rank l l₂) : l₁ = l₂ := by
  induction h₁ with
  | stop hnone =>
      cases h₂ with
      | stop _ => rfl
      | step hlow _ =>
          obtain ⟨r, hr⟩ := hlow.ranked
          exact absurd ((hnone _).symm.trans hr) (by simp)
  | step hlow _ ih =>
      cases h₂ with
      | stop hnone =>
          obtain ⟨r, hr⟩ := hlow.ranked
          exact absurd ((hnone _).symm.trans hr) (by simp)
      | step hlow' hrest =>
          rw [hlow'.unique hlow] at hrest
          exact ih hrest

theorem reduces_iff {l l' : List P} : Reduces join rank l l' ↔ l' = run join rank l := by
  have hrun : Reduces join rank l (run join rank l) := reduces_joins l.length l (Nat.le_refl _)
  constructor
  · intro h
    exact h.unique hrun
  · rintro rfl
    exact hrun

/-- **What every join keeps, the run keeps.** -/
theorem run_keeps {I : List P → Prop} (hstep : ∀ l i, I l → Lowest rank l i → I (joinAt join i l))
    {l : List P} (h : I l) : I (run join rank l) := by
  have hred : Reduces join rank l (run join rank l) := reduces_iff.mpr rfl
  generalize run join rank l = l' at hred
  induction hred with
  | stop _ => exact h
  | step hlow _ ih => exact ih (hstep _ _ h hlow)

/-- **Where the pieces of a run come from**: each was there, or is the join of a ranked pair. -/
theorem mem_run {p : P} {l : List P} (h : p ∈ run join rank l) :
    p ∈ l ∨ ∃ x y r, p = join x y ∧ rank x y = some r := by
  have hall : ∀ q ∈ run join rank l, q ∈ l ∨ ∃ x y r, q = join x y ∧ rank x y = some r := by
    apply run_keeps (I := fun l' => ∀ q ∈ l', q ∈ l ∨ ∃ x y r, q = join x y ∧ rank x y = some r)
    · intro l' i hkeep hlow q hq
      rcases mem_joinAt rank l' hq with hold | ⟨x, y, rfl, hat⟩
      · exact hkeep q hold
      · obtain ⟨r, hr⟩ := hlow.ranked
        exact .inr ⟨x, y, r, rfl, hat ▸ hr⟩
    · exact fun q hq => .inl hq
  exact hall p h

/-- The choice depends on the ranks alone. -/
theorem choose_congr {rank' : Q → Q → Option Nat} {l : List P} {l' : List Q}
    (h : ∀ i, rankAt rank' l' i = rankAt rank l i) : choose rank' l' = choose rank l := by
  have hlow : ∀ i, Lowest rank' l' i ↔ Lowest rank l i := by
    intro i
    constructor
    · rintro ⟨hranked, hlowest, hleft⟩
      simp only [h] at hranked hlowest hleft
      exact ⟨hranked, hlowest, hleft⟩
    · rintro ⟨hranked, hlowest, hleft⟩
      simp only [← h] at hranked hlowest hleft
      exact ⟨hranked, hlowest, hleft⟩
  apply Option.ext
  intro i
  rw [choose_iff, choose_iff]
  exact hlow i

/-- **Joins under a map of the pieces**: where the map respects ranks and joins on the states that `I`
admits, it takes the joins to joins at the same places. -/
theorem joins_map {join' : Q → Q → Q} {rank' : Q → Q → Option Nat} {f : P → Q} {I : List P → Prop}
    (hstep : ∀ l i, I l → Lowest rank l i → I (joinAt join i l))
    (hrank : ∀ l i, I l → rankAt rank' (l.map f) i = rankAt rank l i)
    (hjoin : ∀ l i, I l → Lowest rank l i → (joinAt join i l).map f = joinAt join' i (l.map f)) :
    ∀ (n : Nat) {l : List P}, I l →
      joins join' rank' n (l.map f) =
        ((joins join rank n l).1, (joins join rank n l).2.map f) := by
  intro n
  induction n with
  | zero => intro l _; rfl
  | succ n ih =>
      intro l h
      rw [joins, joins, choose_congr (fun i => hrank l i h)]
      cases hc : choose rank l with
      | none => rfl
      | some i =>
          have hlow := choose_some hc
          simp only [← hjoin l i h hlow, ih (hstep l i h hlow)]

/-- The run of the images is the image of the run. -/
theorem run_map {join' : Q → Q → Q} {rank' : Q → Q → Option Nat} {f : P → Q} {I : List P → Prop}
    (hstep : ∀ l i, I l → Lowest rank l i → I (joinAt join i l))
    (hrank : ∀ l i, I l → rankAt rank' (l.map f) i = rankAt rank l i)
    (hjoin : ∀ l i, I l → Lowest rank l i → (joinAt join i l).map f = joinAt join' i (l.map f))
    {l : List P} (h : I l) : (run join rank l).map f = run join' rank' (l.map f) := by
  unfold run
  rw [List.length_map, joins_map hstep hrank hjoin _ h]

theorem joined_map {join' : Q → Q → Q} {rank' : Q → Q → Option Nat} {f : P → Q} {I : List P → Prop}
    (hstep : ∀ l i, I l → Lowest rank l i → I (joinAt join i l))
    (hrank : ∀ l i, I l → rankAt rank' (l.map f) i = rankAt rank l i)
    (hjoin : ∀ l i, I l → Lowest rank l i → (joinAt join i l).map f = joinAt join' i (l.map f))
    {l : List P} (h : I l) : joined join rank l = joined join' rank' (l.map f) := by
  unfold joined
  rw [List.length_map, joins_map hstep hrank hjoin _ h]

/-- Two rankings that choose alike on every state of a run join alike, and leave the same. -/
theorem joins_congr {rank' : P → P → Option Nat} : ∀ (n : Nat) (l : List P),
    (∀ l', Visits join rank l l' → choose rank' l' = choose rank l') →
      joins join rank' n l = joins join rank n l := by
  intro n
  induction n with
  | zero => intro l _; rfl
  | succ n ih =>
      intro l h
      rw [joins, joins, h l .here]
      cases hc : choose rank l with
      | none => rfl
      | some i =>
          have hrec := ih (joinAt join i l) fun l' hl' => h l' (.next (choose_some hc) hl')
          simp only [hrec]

/-- Joins that are alike were chosen alike, as long as there are rounds for all of them. -/
theorem choose_of_joins {rank' : P → P → Option Nat} {l l' : List P} (hvisit : Visits join rank l l') :
    ∀ {n : Nat}, l.length ≤ n → (joins join rank' n l).1 = (joins join rank n l).1 →
      choose rank' l' = choose rank l' := by
  induction hvisit with
  | @here l =>
      intro n hn heq
      cases n with
      | zero =>
          have hnil : l = [] := List.length_eq_zero_iff.mp (by omega)
          subst hnil
          rfl
      | succ n =>
          rw [joins, joins] at heq
          cases hc : choose rank l with
          | none =>
              cases hc' : choose rank' l with
              | none => rfl
              | some j =>
                  rw [hc, hc'] at heq
                  exact absurd heq (by simp)
          | some i =>
              cases hc' : choose rank' l with
              | none =>
                  rw [hc, hc'] at heq
                  exact absurd heq (by simp)
              | some j =>
                  rw [hc, hc'] at heq
                  rw [(List.cons.inj heq).1]
  | @next l l' i hlow _ ih =>
      intro n hn heq
      have hlt := hlow.lt
      have hlen := joinAt_length join l hlt
      cases n with
      | zero => omega
      | succ n =>
          rw [joins, joins, choose_iff.mpr hlow] at heq
          cases hc' : choose rank' l with
          | none =>
              rw [hc'] at heq
              exact absurd heq (by simp)
          | some j =>
              rw [hc'] at heq
              obtain ⟨rfl, hrest⟩ := List.cons.inj heq
              exact ih (by omega) hrest

/-- **Two rankings join the same places in the same order exactly when they choose alike on every
state of the run.** -/
theorem joined_eq_iff {rank' : P → P → Option Nat} {l : List P} :
    joined join rank' l = joined join rank l ↔
      ∀ l', Visits join rank l l' → choose rank' l' = choose rank l' :=
  ⟨fun h _ hl' => choose_of_joins hl' (Nat.le_refl _) h,
    fun h => congrArg Prod.fst (joins_congr l.length l h)⟩

theorem run_congr {rank' : P → P → Option Nat} {l : List P}
    (h : ∀ l', Visits join rank l l' → choose rank' l' = choose rank l') :
    run join rank' l = run join rank l := congrArg Prod.snd (joins_congr l.length l h)

/-! ### The first piece -/

theorem joinAt_forall {K : P → Prop} (hjoin : ∀ p q, K p → K q → K (join p q)) (l : List P) :
    ∀ i : Nat, (∀ p ∈ l, K p) → ∀ p ∈ joinAt join i l, K p := by
  induction l with
  | nil =>
      intro i h
      cases i <;> exact h
  | cons x xs ih =>
      intro i h p hp
      cases i with
      | succ i =>
          rcases List.mem_cons.mp hp with rfl | hmem
          · exact h p List.mem_cons_self
          · exact ih i (fun q hq => h q (List.mem_cons_of_mem x hq)) p hmem
      | zero =>
          cases xs with
          | nil => exact h p hp
          | cons y rest =>
              rcases List.mem_cons.mp hp with rfl | hmem
              · exact hjoin x y (h x (by simp)) (h y (by simp))
              · exact h p (by simp [hmem])

/-- The choice behind a piece that is not joined is the choice without it. -/
theorem choose_tail {x : P} {l : List P} (h : choose rank (x :: l) ≠ some 0) :
    choose rank (x :: l) = (choose rank l).map (· + 1) := by
  cases hc : choose rank (x :: l) with
  | none =>
      cases hl : choose rank l with
      | none => rfl
      | some i =>
          obtain ⟨r, hr⟩ := (choose_some hl).ranked
          have hnone := choose_none hc (i + 1)
          rw [rankAt_succ, hr] at hnone
          exact absurd hnone (by simp)
  | some j =>
      cases j with
      | zero => exact absurd hc h
      | succ i =>
          obtain ⟨hranked, hlowest, hleft⟩ := choose_some hc
          have hlow : Lowest rank l i := by
            refine ⟨?_, ?_, ?_⟩
            · simpa using hranked
            · intro k
              simpa using hlowest (k + 1)
            · intro k hk
              simpa using hleft (k + 1) (by omega)
          rw [choose_iff.mpr hlow]
          rfl

/-- A first piece that is never joined stays as it is, and the others go on without it. -/
theorem joins_cons {x : P} : ∀ (n : Nat) (l : List P), 0 ∉ (joins join rank n (x :: l)).1 →
    (joins join rank n (x :: l)).2 = x :: (joins join rank n l).2 := by
  intro n
  induction n with
  | zero => intro l _; rfl
  | succ n ih =>
      intro l h
      rw [joins] at h ⊢
      have hne : choose rank (x :: l) ≠ some 0 := by
        intro hc
        rw [hc] at h
        exact h List.mem_cons_self
      rw [choose_tail hne] at h ⊢
      rw [joins]
      cases hc : choose rank l with
      | none => rfl
      | some i =>
          rw [hc] at h
          exact ih (joinAt join i l) fun hmem => h (List.mem_cons_of_mem _ hmem)

/-- **The first piece left alone.** -/
theorem run_cons {x : P} {l : List P} (h : 0 ∉ joined join rank (x :: l)) :
    run join rank (x :: l) = x :: run join rank l := by
  have hrest : (joins join rank (x :: l).length l).2 = run join rank l :=
    reduces_iff.mp (reduces_joins _ l (by simp))
  rw [run, joins_cons _ l h, hrest]

theorem joins_head {size : P → Nat} (hsize : ∀ p q, size (join p q) = size p + size q) :
    ∀ (n : Nat) (x : P) (l : List P), (∀ p ∈ l, 0 < size p) →
      ∃ y ys, (joins join rank n (x :: l)).2 = y :: ys ∧ size x ≤ size y ∧
        (0 ∈ (joins join rank n (x :: l)).1 → size x < size y) := by
  intro n
  induction n with
  | zero =>
      intro x l _
      exact ⟨x, l, rfl, Nat.le_refl _, fun h => absurd h (by simp [joins])⟩
  | succ n ih =>
      intro x l hl
      rw [joins]
      cases hc : choose rank (x :: l) with
      | none => exact ⟨x, l, rfl, Nat.le_refl _, fun h => absurd h (by simp)⟩
      | some j =>
          cases j with
          | zero =>
              have hlt := (choose_some hc).lt
              cases l with
              | nil => simp at hlt
              | cons w l =>
                  have hw := hl w List.mem_cons_self
                  obtain ⟨y, ys, hrun, hle, -⟩ :=
                    ih (join x w) l fun p hp => hl p (List.mem_cons_of_mem w hp)
                  rw [hsize] at hle
                  exact ⟨y, ys, hrun, by omega, fun _ => by omega⟩
          | succ i =>
              have hpos : ∀ p ∈ joinAt join i l, 0 < size p := by
                apply joinAt_forall _ l i hl
                intro p q hp _
                rw [hsize]
                omega
              obtain ⟨y, ys, hrun, hle, hlt⟩ := ih x (joinAt join i l) hpos
              refine ⟨y, ys, hrun, hle, fun h => hlt ?_⟩
              rcases List.mem_cons.mp h with h0 | hmem
              · exact absurd h0 (by omega)
              · exact hmem

/-- **The first piece joined** has grown, in any measure that adds up. -/
theorem run_head (size : P → Nat) (hsize : ∀ p q, size (join p q) = size p + size q) {x : P}
    {l : List P} (hl : ∀ p ∈ l, 0 < size p) (h : 0 ∈ joined join rank (x :: l)) :
    ∃ y ys, run join rank (x :: l) = y :: ys ∧ size x < size y := by
  obtain ⟨y, ys, hrun, -, hgrown⟩ := joins_head hsize (x :: l).length x l hl
  exact ⟨y, ys, hrun, hgrown h⟩

end Runs

end LlmEngine.Lib.PairMerge
