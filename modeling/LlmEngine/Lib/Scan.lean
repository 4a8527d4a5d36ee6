/-
# LlmEngine.Lib.Scan — loops that carry a state from one input to the next.

`scan` feeds a list of inputs to a step function one by one, carrying the state and collecting the
outputs.  Three facts about such loops are used to move computation around without changing it:

* a list may be cut anywhere, and the pieces fed one after the other (`scan_append`);
* independent lanes may each walk the whole list before the next lane starts (`lanes`);
* a stack of steps may be run layer by layer over the whole list, or input by input through the
  whole stack (`layerMajor_eq_scan`).

The third is what makes a batch of tokens equal to one token after the other: the state of a layer is
touched by that layer only, and layer `L` sees the inputs in the same order either way.  What the layers
above do is not seen (`through_above`), and a layer's state may satisfy an invariant that each of its steps
keeps (`through_each`).

`scan_sim` and `through_sim` are the simulation rules: steps that answer alike from related states, and keep
them related, answer alike over the whole list.  Nothing here names a particular program.
-/
import Mathlib.Data.List.GetD
import Mathlib.Logic.Function.Basic

namespace LlmEngine.Lib

variable {σ τ α β ι : Type}

/-- Feed `xs` to `step` in order: the outputs, and the state after the last input. -/
def scan (step : σ → α → β × σ) : σ → List α → List β × σ
  | s, [] => ([], s)
  | s, x :: xs => ((step s x).1 :: (scan step (step s x).2 xs).1, (scan step (step s x).2 xs).2)

section Scan

variable (step : σ → α → β × σ)

@[simp] theorem scan_nil (s : σ) : scan step s [] = ([], s) := by
  rw [scan]

@[simp] theorem scan_cons (s : σ) (x : α) (xs : List α) :
    scan step s (x :: xs) =
      ((step s x).1 :: (scan step (step s x).2 xs).1, (scan step (step s x).2 xs).2) := by
  rw [scan]

theorem scan_length (s : σ) (xs : List α) : (scan step s xs).1.length = xs.length := by
  induction xs generalizing s with
  | nil => rw [scan_nil]; rfl
  | cons x xs ih => rw [scan_cons, List.length_cons, List.length_cons, ih]

/-- Feeding two lists one after the other is feeding them as one. -/
theorem scan_append (s : σ) (xs ys : List α) :
    scan step s (xs ++ ys) =
      ((scan step s xs).1 ++ (scan step (scan step s xs).2 ys).1,
        (scan step (scan step s xs).2 ys).2) := by
  induction xs generalizing s with
  | nil => rw [List.nil_append, scan_nil, List.nil_append]
  | cons x xs ih =>
      rw [List.cons_append, scan_cons, ih, scan_cons, List.cons_append]

/-- Preparing the inputs and reading off the outputs can be done inside the loop. -/
theorem scan_map {γ δ : Type} (f : γ → α) (g : β → δ) (s : σ) (xs : List γ) :
    scan (fun s x => (g (step s (f x)).1, (step s (f x)).2)) s xs =
      ((scan step s (xs.map f)).1.map g, (scan step s (xs.map f)).2) := by
  induction xs generalizing s with
  | nil => rw [scan_nil, List.map_nil, scan_nil, List.map_nil]
  | cons x xs ih => rw [scan_cons, ih, List.map_cons, scan_cons, List.map_cons]

/-- A loop that consumes its head by `step` and hands the rest the state it left is `scan`. -/
theorem eq_scan_of_cons {A : σ → List α → List β × σ} (hnil : ∀ s, A s [] = ([], s))
    (hcons : ∀ s x xs, A s (x :: xs) =
      ((step s x).1 :: (A (step s x).2 xs).1, (A (step s x).2 xs).2))
    (s : σ) (xs : List α) : A s xs = scan step s xs := by
  induction xs generalizing s with
  | nil => rw [hnil, scan_nil]
  | cons x xs ih => rw [hcons, scan_cons, ih]

/-- **The simulation rule.**  Steps that answer alike from related states, and keep them related,
answer alike along the whole list. -/
theorem scan_sim {step' : τ → α → β × τ} {R : σ → τ → Prop}
    (h : ∀ s t x, R s t → (step s x).1 = (step' t x).1 ∧ R (step s x).2 (step' t x).2)
    {s : σ} {t : τ} (hst : R s t) (xs : List α) :
    (scan step s xs).1 = (scan step' t xs).1 ∧ R (scan step s xs).2 (scan step' t xs).2 := by
  induction xs generalizing s t with
  | nil => exact ⟨by rw [scan_nil, scan_nil], hst⟩
  | cons x xs ih =>
      obtain ⟨hout, hrel⟩ := h s t x hst
      obtain ⟨houts, hend⟩ := ih hrel
      refine ⟨?_, hend⟩
      rw [scan_cons, scan_cons, hout, houts]

end Scan

/-! ## Pieces of a fixed size -/

/-- `xs` cut into pieces of `n`, the last one possibly shorter. -/
def pieces (n : Nat) (xs : List α) : List (List α) :=
  (List.range ((xs.length + n - 1) / n)).map fun i => (xs.drop (n * i)).take n

theorem flatten_map_drop_take (n k : Nat) (xs : List α) :
    ((List.range k).map fun i => (xs.drop (n * i)).take n).flatten = xs.take (n * k) := by
  induction k with
  | zero => rw [List.range_zero, List.map_nil, List.flatten_nil, Nat.mul_zero, List.take_zero]
  | succ k ih =>
      rw [List.range_succ, List.map_append, List.flatten_append, ih, Nat.mul_succ, List.take_add,
        List.map_cons, List.map_nil, List.flatten_cons, List.flatten_nil, List.append_nil]

theorem pieces_flatten {n : Nat} (hn : 0 < n) (xs : List α) : (pieces n xs).flatten = xs := by
  unfold pieces
  rw [flatten_map_drop_take]
  apply List.take_of_length_le
  -- rounding up covers the list
  have h := Nat.div_add_mod (xs.length + n - 1) n
  have hlt := Nat.mod_lt (xs.length + n - 1) hn
  omega

/-! ## Lanes -/

/-- Independent lanes, each walking the whole list by itself: lane `i` reads component `i` of every
input, and output `t` collects what the lanes answered to input `t`. -/
def lanes (step : ι → σ → α → β × σ) (d : β) (s : ι → σ) (xs : List (ι → α)) :
    List (ι → β) × (ι → σ) :=
  ((List.range xs.length).map fun t i => (scan (step i) (s i) (xs.map (· i))).1.getD t d,
    fun i => (scan (step i) (s i) (xs.map (· i))).2)

section Lanes

variable (step : ι → σ → α → β × σ) (d : β)

@[simp] theorem lanes_nil (s : ι → σ) : lanes step d s [] = ([], s) := rfl

/-- The lanes may as well take the first input together and then walk the rest. -/
@[simp] theorem lanes_cons (s : ι → σ) (x : ι → α) (xs : List (ι → α)) :
    lanes step d s (x :: xs) =
      ((fun i => (step i (s i) (x i)).1) ::
          (lanes step d (fun i => (step i (s i) (x i)).2) xs).1,
        (lanes step d (fun i => (step i (s i) (x i)).2) xs).2) := by
  unfold lanes
  -- output 0 is the head of every lane, output `t + 1` is output `t` of the lanes' tails
  rw [List.length_cons, List.range_succ_eq_map, List.map_cons, List.map_map]
  simp only [List.map_cons, scan_cons, List.getD_cons_zero]
  rfl

end Lanes

/-! ## Stacks of layers -/

section Stack

variable (step : Nat → σ → α → α × σ)

/-- One input through layers `0 … n-1`, each with its own state. -/
def through : Nat → (Nat → σ) → α → α × (Nat → σ)
  | 0, st, x => (x, st)
  | n + 1, st, x =>
      let r := through n st x
      let o := step n (r.2 n) r.1
      (o.1, Function.update r.2 n o.2)

/-- The whole list through layer `0`, then what came out through layer `1`, and so on. -/
def layerMajor : Nat → (Nat → σ) → List α → List α × (Nat → σ)
  | 0, st, xs => (xs, st)
  | n + 1, st, xs =>
      let r := layerMajor n st xs
      let o := scan (step n) (r.2 n) r.1
      (o.1, Function.update r.2 n o.2)

/-- The first `n` layers neither read nor change the state of a later one. -/
theorem through_update {n m : Nat} (h : n ≤ m) (st : Nat → σ) (v : σ) (x : α) :
    through step n (Function.update st m v) x =
      ((through step n st x).1, Function.update (through step n st x).2 m v) := by
  induction n generalizing st with
  | zero => rw [through, through]
  | succ n ih =>
      have hne : n ≠ m := Nat.ne_of_lt h
      rw [through, ih (Nat.le_of_succ_le h), through]
      simp only [Function.update_of_ne hne]
      rw [Function.update_comm hne]

theorem scan_through_update {n m : Nat} (h : n ≤ m) (st : Nat → σ) (v : σ) (xs : List α) :
    scan (through step n) (Function.update st m v) xs =
      ((scan (through step n) st xs).1,
        Function.update (scan (through step n) st xs).2 m v) := by
  induction xs generalizing st with
  | nil => rw [scan_nil, scan_nil]
  | cons x xs ih => rw [scan_cons, through_update step h, ih, scan_cons]

theorem through_above {n m : Nat} (h : n ≤ m) (st : Nat → σ) (x : α) :
    (through step n st x).2 m = st m := by
  have hsame := congrArg (fun r => r.2 m) (through_update step h st (st m) x)
  simpa only [Function.update_eq_self, Function.update_self] using hsame

theorem scan_through_above {n m : Nat} (h : n ≤ m) (st : Nat → σ) (xs : List α) :
    (scan (through step n) st xs).2 m = st m := by
  have hsame := congrArg (fun r => r.2 m) (scan_through_update step h st (st m) xs)
  simpa only [Function.update_eq_self, Function.update_self] using hsame

/-- Walking the list through `n + 1` layers is walking it through `n` and then through the last. -/
theorem scan_through_succ (n : Nat) (st : Nat → σ) (xs : List α) :
    scan (through step (n + 1)) st xs =
      ((scan (step n) ((scan (through step n) st xs).2 n) (scan (through step n) st xs).1).1,
        Function.update (scan (through step n) st xs).2 n
          (scan (step n) ((scan (through step n) st xs).2 n)
            (scan (through step n) st xs).1).2) := by
  induction xs generalizing st with
  | nil => simp only [scan_nil, Function.update_eq_self]
  | cons x xs ih =>
      rw [scan_cons, ih, through]
      -- the lower layers do not see what the last layer did to the first input
      simp only [scan_through_update step (Nat.le_refl n), scan_cons, Function.update_self,
        Function.update_idem]
      -- and the last layer's state is its own after the lower ones have walked the rest
      simp only [scan_through_above step (Nat.le_refl n), through_above step (Nat.le_refl n)]

theorem layerMajor_length (n : Nat) (st : Nat → σ) (xs : List α) :
    (layerMajor step n st xs).1.length = xs.length := by
  induction n with
  | zero => rw [layerMajor]
  | succ n ih => rw [layerMajor, scan_length, ih]

/-- **Layer by layer is input by input.** -/
theorem layerMajor_eq_scan (n : Nat) (st : Nat → σ) (xs : List α) :
    layerMajor step n st xs = scan (through step n) st xs := by
  induction n with
  | zero =>
      rw [layerMajor]
      symm
      induction xs with
      | nil => rw [scan_nil]
      | cons x xs ih => rw [scan_cons, through, ih]
  | succ n ih => rw [layerMajor, ih, scan_through_succ]

theorem layerMajor_above {n m : Nat} (h : n ≤ m) (st : Nat → σ) (xs : List α) :
    (layerMajor step n st xs).2 m = st m := by
  rw [layerMajor_eq_scan, scan_through_above step h]

/-- What every layer does to its state, a pass through the stack does to each of them once. -/
theorem through_each {Q : σ → σ → Prop} (h : ∀ L s x, Q s (step L s x).2) {n L : Nat} (hL : L < n)
    (st : Nat → σ) (x : α) : Q (st L) ((through step n st x).2 L) := by
  induction n with
  | zero => exact absurd hL (Nat.not_lt_zero L)
  | succ n ih =>
      rw [through]
      rcases Nat.lt_succ_iff_lt_or_eq.mp hL with hlt | rfl
      · simp only [Function.update_of_ne (Nat.ne_of_lt hlt)]
        exact ih hlt
      · simp only [Function.update_self, through_above step (Nat.le_refl L)]
        exact h L (st L) _

/-- Related stacks answer an input alike and stay related; only the layers that run matter. -/
theorem through_sim {R : Nat → σ → σ → Prop} {n N : Nat} (hn : n ≤ N)
    (h : ∀ L < n, ∀ s t x, R L s t → (step L s x).1 = (step L t x).1 ∧
      R L (step L s x).2 (step L t x).2)
    {st st' : Nat → σ} (hst : ∀ L < N, R L (st L) (st' L)) (x : α) :
    (through step n st x).1 = (through step n st' x).1 ∧
      ∀ L < N, R L ((through step n st x).2 L) ((through step n st' x).2 L) := by
  induction n with
  | zero => exact ⟨by rw [through, through], hst⟩
  | succ n ih =>
      obtain ⟨hout, hrel⟩ := ih (Nat.le_of_succ_le hn) fun L hL => h L (Nat.lt_succ_of_lt hL)
      obtain ⟨hout', hrel'⟩ := h n (Nat.lt_succ_self n) _ _ (through step n st x).1 (hrel n hn)
      refine ⟨?_, ?_⟩
      · rw [through, through, ← hout, hout']
      · intro L hL
        rw [through, through, ← hout]
        rcases eq_or_ne L n with rfl | hne
        · simp only [Function.update_self]
          exact hrel'
        · simp only [Function.update_of_ne hne]
          exact hrel L hL

end Stack

end LlmEngine.Lib
