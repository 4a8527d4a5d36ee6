/-
# LlmEngine.Lib.Regex — backtracking regular expressions with ordered choice.

`ways r s` lists how much of the front of `s` an expression can match, in the order a backtracking
matcher tries: the first alternative before the second, one more repetition before one less.  The
match is the first of them (`first`), and `findAll` are the successive leftmost matches of a text.  A
lookahead looks at what is left and takes nothing.

This is the meaning of a pattern as the usual libraries give it, where `a|ab` matches `a` of `ab`; it is not
that of the language an expression denotes.

* Of a sequence whose second part always matches something, the first way of the first part is taken
  (`first_seq`): the matcher does not come back.  Most of the lemmas are for deciding that.
* A repetition of a class takes as much as there is (`first_many_cls`, with `reach`).
* An expression that is not `nullable` matches at least one element (`pos_of_not_nullable`).

Where an expression matches something of every text, its matches cut the text into pieces
(`findAll_eq_tiling`), and a scanner that cuts a text is compared with it piece by piece (`Lib.Tiling`).
-/
import LlmEngine.Lib.Tiling

namespace LlmEngine.Lib.Regex

variable {α : Type}

/-- Expressions over a class of symbols. -/
inductive Rx (α : Type) where
  | cls (p : α → Bool)
  | seq (r t : Rx α)
  | alt (r t : Rx α)
  /-- `r?` -/
  | opt (r : Rx α)
  /-- `r*` -/
  | many (r : Rx α)
  /-- `(?!r)` -/
  | notAhead (r : Rx α)

/-- `r+`. -/
def Rx.plus (r : Rx α) : Rx α := .seq r (.many r)

/-- The alternatives of a list, in order. -/
def Rx.oneOf (r : Rx α) : List (Rx α) → Rx α
  | [] => r
  | t :: ts => .alt r (Rx.oneOf t ts)

/-- As many repetitions as possible first; a repetition takes something. -/
def repeats (f : List α → List Nat) : Nat → List α → List Nat
  | 0, _ => [0]
  | n + 1, s => ((f s).filter (0 < ·)).flatMap (fun k => (repeats f n (s.drop k)).map (k + ·)) ++ [0]

/-- The lengths an expression can match at the front, in the order they are tried. -/
def ways : Rx α → List α → List Nat
  | .cls p, s => if s.head?.any p then [1] else []
  | .seq r t, s => (ways r s).flatMap fun k => (ways t (s.drop k)).map (k + ·)
  | .alt r t, s => ways r s ++ ways t s
  | .opt r, s => ways r s ++ [0]
  | .many r, s => repeats (ways r) s.length s
  | .notAhead r, s => if ways r s = [] then [0] else []

/-- What a backtracking matcher takes. -/
def first (r : Rx α) (s : List α) : Option Nat := (ways r s).head?

/-- At most `n` of the successive leftmost matches.  Where there is none, or an empty one, the search
goes on at the next symbol. -/
def findFrom (r : Rx α) : Nat → List α → List (List α)
  | n + 1, x :: xs =>
      match first r (x :: xs) with
      | some (k + 1) => (x :: xs).take (k + 1) :: findFrom r n ((x :: xs).drop (k + 1))
      | _ => findFrom r n xs
  | _, _ => []

def findAll (r : Rx α) (s : List α) : List (List α) := findFrom r s.length s

/-! ## Matching -/

section Ways

variable {r t : Rx α} {p q : α → Bool}

theorem first_alt (s : List α) : first (.alt r t) s = (first r s).or (first t s) := by
  unfold first
  rw [ways, List.head?_append]

@[simp] theorem ways_cls_nil : ways (.cls p) [] = [] := rfl

@[simp] theorem ways_cls_cons (x : α) (xs : List α) :
    ways (.cls p) (x :: xs) = if p x then [1] else [] := rfl

/-- A symbol in front of an expression. -/
theorem ways_seq_cls_cons (x : α) (xs : List α) :
    ways (.seq (.cls p) r) (x :: xs) = if p x then (ways r xs).map (1 + ·) else [] := by
  rw [ways, ways_cls_cons]
  split_ifs <;> simp

theorem ways_seq_opt_cls (s : List α) :
    ways (.seq (.opt (.cls p)) r) s = ways (.seq (.cls p) r) s ++ ways r s := by
  cases s with
  | nil => simp [ways]
  | cons x xs => simp [ways]

/-- One more repetition first, then none. -/
theorem ways_many_cls_cons (x : α) (xs : List α) :
    ways (.many (.cls p)) (x :: xs) =
      (if p x then (ways (.many (.cls p)) xs).map (1 + ·) else []) ++ [0] := by
  rw [ways, ways, List.length_cons, repeats, ways_cls_cons]
  split_ifs <;> simp

theorem ways_many_cls_nil : ways (.many (.cls p)) ([] : List α) = [0] := rfl

/-- A repetition in front of an expression: one more, or the expression at once. -/
theorem ways_seq_many_cls_cons (x : α) (xs : List α) :
    ways (.seq (.many (.cls p)) r) (x :: xs) =
      (if p x then (ways (.seq (.many (.cls p)) r) xs).map (1 + ·) else []) ++ ways r (x :: xs) := by
  rw [ways, ways_many_cls_cons, List.flatMap_append]
  have hzero : ([0] : List Nat).flatMap (fun k => (ways r ((x :: xs).drop k)).map (k + ·)) =
      ways r (x :: xs) := by
    simp
  rw [hzero]
  congr 1
  split_ifs
  · rw [ways, List.flatMap_map, List.map_flatMap]
    congr 1
    funext k
    rw [Nat.add_comm 1 k, List.drop_succ_cons, List.map_map]
    congr 1
    funext j
    simp only [Function.comp]
    omega
  · rfl

theorem ways_seq_assoc {u : Rx α} (s : List α) :
    ways (.seq (.seq r t) u) s = ways (.seq r (.seq t u)) s := by
  simp only [ways, List.flatMap_assoc, List.flatMap_map, List.map_flatMap, List.map_map,
    List.drop_drop]
  congr 1
  funext k
  congr 1
  funext j
  congr 1
  funext i
  simp only [Function.comp]
  omega

/-- How far a class reaches. -/
def reach (p : α → Bool) (s : List α) : Nat := (s.takeWhile p).length

theorem first_many_cls (s : List α) : first (.many (.cls p)) s = some (reach p s) := by
  unfold first reach
  induction s with
  | nil => rfl
  | cons x xs ih =>
      rw [ways_many_cls_cons, List.takeWhile_cons]
      split_ifs with hx
      · rw [List.head?_append, List.head?_map, ih]
        simp
        omega
      · rfl

theorem first_plus_cls (s : List α) : first (.plus (.cls p)) s =
    if 0 < reach p s then some (reach p s) else none := by
  unfold first Rx.plus
  cases s with
  | nil => rfl
  | cons x xs =>
      have hmany : (ways (.many (.cls p)) xs).head? = some (reach p xs) := first_many_cls xs
      rw [ways_seq_cls_cons]
      unfold reach at *
      rw [List.takeWhile_cons]
      split_ifs with hx
      · rw [List.head?_map, hmany]
        simp
        omega
      · simp_all
      · simp_all
      · rfl

/-- What follows can always match: the first way of the first part is the one that is taken. -/
theorem first_seq (ht : ∀ s, ways t s ≠ []) (s : List α) :
    first (.seq r t) s = (first r s).bind fun k => (first t (s.drop k)).map (k + ·) := by
  unfold first
  rw [ways]
  cases ways r s with
  | nil => rfl
  | cons k ks =>
      rw [List.flatMap_cons, List.head?_append, List.head?_map, List.head?_cons, Option.bind_some]
      cases hk : ways t (s.drop k) with
      | nil => exact absurd hk (ht _)
      | cons j js => rfl

theorem ways_many_cls_ne_nil (s : List α) : ways (.many (.cls p)) s ≠ [] := by
  cases s with
  | nil => simp [ways_many_cls_nil]
  | cons x xs => simp [ways_many_cls_cons]

theorem first_seq_cls_cons (x : α) (xs : List α) :
    first (.seq (.cls p) r) (x :: xs) = if p x then (first r xs).map (1 + ·) else none := by
  unfold first
  rw [ways_seq_cls_cons]
  split_ifs
  · rw [List.head?_map]
  · rfl

theorem first_seq_opt_cls (s : List α) :
    first (.seq (.opt (.cls p)) r) s = (first (.seq (.cls p) r) s).or (first r s) := by
  unfold first
  rw [ways_seq_opt_cls, List.head?_append]

theorem repeats_le {f : List α → List Nat} (hf : ∀ s, ∀ k ∈ f s, k ≤ s.length) :
    ∀ (n : Nat) (s : List α), ∀ k ∈ repeats f n s, k ≤ s.length := by
  intro n
  induction n with
  | zero =>
      intro s k hk
      rw [List.mem_singleton.mp hk]
      exact Nat.zero_le _
  | succ n ih =>
      intro s k hk
      rcases List.mem_append.mp hk with hmore | hnone
      · obtain ⟨i, hi, hrest⟩ := List.mem_flatMap.mp hmore
        obtain ⟨j, hj, rfl⟩ := List.mem_map.mp hrest
        have hfirst := hf s i (List.mem_filter.mp hi).1
        have hthen := ih (s.drop i) j hj
        rw [List.length_drop] at hthen
        omega
      · rw [List.mem_singleton.mp hnone]
        exact Nat.zero_le _

/-- A match takes no more than there is. -/
theorem ways_le (r : Rx α) : ∀ s : List α, ∀ k ∈ ways r s, k ≤ s.length := by
  induction r with
  | cls p =>
      intro s k hk
      cases s with
      | nil => exact absurd hk List.not_mem_nil
      | cons x xs =>
          rw [ways_cls_cons] at hk
          split_ifs at hk
          · simp_all
          · exact absurd hk List.not_mem_nil
  | seq r t ihr iht =>
      intro s k hk
      obtain ⟨i, hi, hrest⟩ := List.mem_flatMap.mp hk
      obtain ⟨j, hj, rfl⟩ := List.mem_map.mp hrest
      have hfirst := ihr s i hi
      have hthen := iht (s.drop i) j hj
      rw [List.length_drop] at hthen
      omega
  | alt r t ihr iht =>
      intro s k hk
      rcases List.mem_append.mp hk with h | h
      · exact ihr s k h
      · exact iht s k h
  | opt r ih =>
      intro s k hk
      rcases List.mem_append.mp hk with h | h
      · exact ih s k h
      · rw [List.mem_singleton.mp h]
        exact Nat.zero_le _
  | many r ih => exact fun s => repeats_le ih s.length s
  | notAhead r _ =>
      intro s k hk
      rw [ways] at hk
      split_ifs at hk
      · rw [List.mem_singleton.mp hk]
        exact Nat.zero_le _
      · exact absurd hk List.not_mem_nil

end Ways

/-! ## Empty matches -/

/-- An expression that may match nothing, judged by its shape. -/
def nullable : Rx α → Bool
  | .cls _ => false
  | .seq r t => nullable r && nullable t
  | .alt r t => nullable r || nullable t
  | .opt _ | .many _ | .notAhead _ => true

theorem pos_of_not_nullable (r : Rx α) (h : nullable r = false) : ∀ s : List α, ∀ k ∈ ways r s, 0 < k := by
  induction r with
  | cls p =>
      intro s k hk
      cases s with
      | nil => exact absurd hk List.not_mem_nil
      | cons x xs =>
          rw [ways_cls_cons] at hk
          split_ifs at hk
          · simp_all
          · exact absurd hk List.not_mem_nil
  | seq r t ihr iht =>
      intro s k hk
      obtain ⟨i, hi, hrest⟩ := List.mem_flatMap.mp hk
      obtain ⟨j, hj, rfl⟩ := List.mem_map.mp hrest
      rcases Bool.and_eq_false_iff.mp h with hr | ht
      · have := ihr hr s i hi
        omega
      · have := iht ht _ j hj
        omega
  | alt r t ihr iht =>
      intro s k hk
      obtain ⟨hr, ht⟩ := Bool.or_eq_false_iff.mp h
      rcases List.mem_append.mp hk with h | h
      · exact ihr hr s k h
      · exact iht ht s k h
  | opt r _ => exact absurd h (by simp [nullable])
  | many r _ => exact absurd h (by simp [nullable])
  | notAhead r _ => exact absurd h (by simp [nullable])

/-! ## Successive matches -/

section Find

/-- How much the match takes, 0 where there is none. -/
def next (r : Rx α) (s : List α) : Nat := (first r s).getD 0

/-- `r` matches something at the front of every text. -/
def Covers (r : Rx α) : Prop := ∀ s, s ≠ [] → 0 < next r s

variable {r : Rx α}

/-- A match is enough for an expression that does not match nothing. -/
theorem covers_of_first (hr : nullable r = false) (h : ∀ s, s ≠ [] → first r s ≠ none) : Covers r := by
  intro s hs
  obtain ⟨k, hk⟩ := Option.ne_none_iff_exists'.mp (h s hs)
  unfold next
  rw [hk]
  exact pos_of_not_nullable r hr s k (List.mem_of_head? hk)

theorem Covers.advances (h : Covers r) : Tiling.Advances (next r) := by
  intro s hs
  refine ⟨h s hs, ?_⟩
  unfold next
  cases hfirst : first r s with
  | none => exact Nat.zero_le _
  | some k => exact ways_le r s k (List.mem_of_head? hfirst)

/-- **An expression that matches everywhere cuts the text into its matches.** -/
theorem findAll_eq_tiling (h : Covers r) (s : List α) : findAll r s = Tiling.tiling (next r) s := by
  have hfrom : ∀ (n : Nat) (s : List α), findFrom r n s = Tiling.tiles (next r) n s := by
    intro n
    induction n with
    | zero => intro s; cases s <;> rfl
    | succ n ih =>
        intro s
        cases s with
        | nil => rfl
        | cons x xs =>
            have hpos := h (x :: xs) (by simp)
            unfold next at hpos
            rw [findFrom, Tiling.tiles]
            unfold next
            cases hfirst : first r (x :: xs) with
            | none => simp [hfirst] at hpos
            | some k =>
                cases k with
                | zero => simp [hfirst] at hpos
                | succ k => simp only [Option.getD_some, ih]; rfl
  exact hfrom s.length s

end Find

end LlmEngine.Lib.Regex
