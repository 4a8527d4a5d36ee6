/-
# LlmEngine.Lib.Walk — walks over an input that may be cut short.

A walk is a stateful computation that ends with a value or is given up with a verdict.  One verdict,
`short`, means that the input ran out and may be retried on a longer one; some states are `dead`: the
input has run out and the walk has not looked yet.

* `Ensures P m Q` is the triple of one walk: from `P`, a value only comes with `Q`.
* `Delivers P m Q` is the total one: from `P` there is a value.
* `Keeps P Q m` compares a walk with the same walk on a longer input: from states related by `P`, a
  verdict other than `short` is the same on both, and a value in a live state is the same on both,
  with states related by `Q`.
* `Latched m`: from a dead state the walk stays dead or says `short`.  A walk that looks lets no dead
  state through: `Latched dead never m`.

* `Leaves f m` is the frame: whatever happens, `f` of the state is as it was.

The rules are the sequence and the counted loop.  Nothing here names a particular format.
-/
import Mathlib.Tactic.Common

namespace LlmEngine.Lib.Walk

variable {ε σ α β : Type}

/-! ## Sequence and loop -/

theorem bind_ok {m : EStateM ε σ α} {f : α → EStateM ε σ β} {s t : σ} {b : β}
    (h : (m >>= f) s = .ok b t) : ∃ a u, m s = .ok a u ∧ f a u = .ok b t := by
  change EStateM.bind m f s = _ at h
  unfold EStateM.bind at h
  split at h
  · next a u hm => exact ⟨a, u, hm, h⟩
  · exact absurd h (by simp)

theorem bind_of_ok {m : EStateM ε σ α} {s u : σ} {a : α} (h : m s = .ok a u)
    (f : α → EStateM ε σ β) : (m >>= f) s = f a u := by
  change EStateM.bind m f s = _
  unfold EStateM.bind
  rw [h]

theorem bind_of_error {m : EStateM ε σ α} {s u : σ} {e : ε} (h : m s = .error e u)
    (f : α → EStateM ε σ β) : (m >>= f) s = .error e u := by
  change EStateM.bind m f s = _
  unfold EStateM.bind
  rw [h]

/-- `m` a given number of times. -/
def times (m : EStateM ε σ α) : Nat → EStateM ε σ (List α)
  | 0 => pure []
  | n + 1 => do
      let a ← m
      let as ← times m n
      return a :: as

/-! ## Triples -/

/-- From `P`, a value only comes with `Q`. -/
def Ensures (P : σ → Prop) (m : EStateM ε σ α) (Q : α → σ → Prop) : Prop :=
  ∀ s, P s → ∀ a t, m s = .ok a t → Q a t

theorem Ensures.bind {P : σ → Prop} {m : EStateM ε σ α} {Q : α → σ → Prop}
    {f : α → EStateM ε σ β} {R : β → σ → Prop} (hm : Ensures P m Q)
    (hf : ∀ a, Ensures (Q a) (f a) R) : Ensures P (m >>= f) R := by
  intro s hs b t h
  obtain ⟨a, u, hma, hfa⟩ := bind_ok h
  exact hf a u (hm s hs a u hma) b t hfa

theorem Ensures.pure {P : σ → Prop} {a : α} {Q : α → σ → Prop} (h : ∀ s, P s → Q a s) :
    Ensures P (Pure.pure a : EStateM ε σ α) Q := by
  intro s hs a' t he
  obtain ⟨rfl, rfl⟩ := EStateM.Result.ok.inj he
  exact h s hs

theorem Ensures.throw {P : σ → Prop} {e : ε} {Q : α → σ → Prop} :
    Ensures P (throw e : EStateM ε σ α) Q := by
  intro s _ a t he
  have hne : EStateM.Result.error e s = EStateM.Result.ok a t := he
  cases hne

theorem Ensures.weaken {P P' : σ → Prop} {m : EStateM ε σ α} {Q Q' : α → σ → Prop}
    (h : Ensures P m Q) (hP : ∀ s, P' s → P s) (hQ : ∀ a s, Q a s → Q' a s) : Ensures P' m Q' :=
  fun s hs a t he => hQ a t (h s (hP s hs) a t he)

/-- Two triples of one walk hold together. -/
theorem Ensures.and {P P' : σ → Prop} {m : EStateM ε σ α} {Q Q' : α → σ → Prop}
    (h : Ensures P m Q) (h' : Ensures P' m Q') :
    Ensures (fun s => P s ∧ P' s) m fun a s => Q a s ∧ Q' a s :=
  fun s hs a t he => ⟨h s hs.1 a t he, h' s hs.2 a t he⟩

/-- **The loop rule.** `I` holds before each round, with the number of rounds still to go. -/
theorem Ensures.times {I : Nat → σ → Prop} {m : EStateM ε σ α}
    (hm : ∀ n, Ensures (I (n + 1)) m fun _ s => I n s) (n : Nat) :
    Ensures (I n) (times m n) fun _ s => I 0 s := by
  induction n with
  | zero => exact Ensures.pure fun s hs => hs
  | succ n ih => exact (hm n).bind fun _ => ih.bind fun _ => Ensures.pure fun s hs => hs

/-! ## Total triples -/

/-- From `P` there is a value, and it comes with `Q`. -/
def Delivers (P : σ → Prop) (m : EStateM ε σ α) (Q : α → σ → Prop) : Prop :=
  ∀ s, P s → ∃ a t, m s = .ok a t ∧ Q a t

theorem Delivers.bind {P : σ → Prop} {m : EStateM ε σ α} {Q : α → σ → Prop}
    {f : α → EStateM ε σ β} {R : β → σ → Prop} (hm : Delivers P m Q)
    (hf : ∀ a, Delivers (Q a) (f a) R) : Delivers P (m >>= f) R := by
  intro s hs
  obtain ⟨a, t, hma, ht⟩ := hm s hs
  rw [bind_of_ok hma]
  exact hf a t ht

theorem Delivers.pure {P : σ → Prop} {a : α} {Q : α → σ → Prop} (h : ∀ s, P s → Q a s) :
    Delivers P (Pure.pure a : EStateM ε σ α) Q :=
  fun s hs => ⟨a, s, rfl, h s hs⟩

theorem Delivers.weaken {P : σ → Prop} {m : EStateM ε σ α} {Q Q' : α → σ → Prop}
    (h : Delivers P m Q) (hQ : ∀ a s, Q a s → Q' a s) : Delivers P m Q' := by
  intro s hs
  obtain ⟨a, t, hma, ht⟩ := h s hs
  exact ⟨a, t, hma, hQ a t ht⟩

/-- What a triple says of the value may be used as an assumption. -/
theorem Delivers.assuming {p : Prop} {P : σ → Prop} {m : EStateM ε σ α} {Q : α → σ → Prop}
    (h : p → Delivers P m Q) : Delivers (fun s => p ∧ P s) m Q :=
  fun s hs => h hs.1 s hs.2

/-- **The loop rule**, over the list of what the rounds are to deliver. -/
theorem Delivers.times {γ : Type} {I : List γ → List α → σ → Prop} {m : EStateM ε σ α}
    (hm : ∀ x xs as, Delivers (I (x :: xs) as) m fun a s => I xs (as ++ [a]) s) (xs : List γ) :
    ∀ as, Delivers (I xs as) (times m xs.length) fun bs s => I [] (as ++ bs) s := by
  induction xs with
  | nil =>
      intro as
      exact Delivers.pure fun s hs => by rw [List.append_nil]; exact hs
  | cons x xs ih =>
      intro as
      refine (hm x xs as).bind fun a => (ih (as ++ [a])).bind fun bs => Delivers.pure fun s hs => ?_
      rw [List.append_assoc] at hs
      exact hs

/-! ## Frames -/

/-- `m` does not change what `f` sees, whether it ends with a value or is given up. -/
def Leaves (f : σ → β) (m : EStateM ε σ α) : Prop :=
  ∀ s, match m s with
    | .ok _ t => f t = f s
    | .error _ t => f t = f s

theorem Leaves.bind {γ : Type} {f : σ → γ} {m : EStateM ε σ α} {k : α → EStateM ε σ β}
    (hm : Leaves f m) (hk : ∀ a, Leaves f (k a)) : Leaves f (m >>= k) := by
  intro s
  have h := hm s
  cases hms : m s with
  | ok a t =>
      rw [hms] at h
      rw [bind_of_ok hms]
      have h' := hk a t
      cases hkt : k a t with
      | ok b u =>
          rw [hkt] at h'
          exact h'.trans h
      | error e u =>
          rw [hkt] at h'
          exact h'.trans h
  | error e t =>
      rw [hms] at h
      rw [bind_of_error hms]
      exact h

theorem Leaves.pure {f : σ → β} (a : α) : Leaves f (Pure.pure a : EStateM ε σ α) := fun _ => rfl

theorem Leaves.throw {f : σ → β} (e : ε) : Leaves f (throw e : EStateM ε σ α) := fun _ => rfl

theorem Leaves.times {f : σ → β} {m : EStateM ε σ α} (hm : Leaves f m) (n : Nat) :
    Leaves f (times m n) := by
  induction n with
  | zero => exact Leaves.pure []
  | succ n ih => exact hm.bind fun a => ih.bind fun as => Leaves.pure (a :: as)

/-! ## The same walk on a longer input -/

section Longer

/-- A value in a live state, or a verdict other than `short`, is the longer input's as well. -/
def Keeps (dead : σ → Prop) (short : ε) (P : σ → σ → Prop) (m : EStateM ε σ α)
    (Q : α → σ → σ → Prop) : Prop :=
  ∀ s s', P s s' →
    match m s with
    | .ok a t => dead t ∨ ∃ t', m s' = .ok a t' ∧ Q a t t'
    | .error e _ => e = short ∨ ∃ t', m s' = .error e t'

/-- From a state `dead` before, nothing comes but one that is `dead'` after, or `short`. -/
def Latched (dead dead' : σ → Prop) (short : ε) (m : EStateM ε σ α) : Prop :=
  ∀ s, dead s →
    match m s with
    | .ok _ t => dead' t
    | .error e _ => e = short

/-- No state: a walk that is never dead when it delivers its value. -/
def never : σ → Prop := fun _ => False

variable {dead dead' dead'' : σ → Prop} {short : ε} {P : σ → σ → Prop}

theorem Latched.bind {m : EStateM ε σ α} {f : α → EStateM ε σ β} (hm : Latched dead dead' short m)
    (hf : ∀ a, Latched dead' dead'' short (f a)) : Latched dead dead'' short (m >>= f) := by
  intro s hs
  have h := hm s hs
  cases hms : m s with
  | ok a u =>
      rw [hms] at h
      rw [bind_of_ok hms]
      exact hf a u h
  | error e u =>
      rw [hms] at h
      rw [bind_of_error hms]
      exact h

theorem Latched.pure (a : α) : Latched dead dead short (Pure.pure a : EStateM ε σ α) :=
  fun _ hs => hs

/-- There is nothing to say of walks that start nowhere. -/
theorem Latched.never (m : EStateM ε σ α) : Latched Walk.never dead' short m := fun _ h => h.elim

theorem Keeps.bind {m : EStateM ε σ α} {f : α → EStateM ε σ β} {Q : α → σ → σ → Prop}
    {R : β → σ → σ → Prop} (hm : Keeps dead short P m Q)
    (hf : ∀ a, Keeps dead' short (Q a) (f a) R) (hl : ∀ a, Latched dead dead' short (f a)) :
    Keeps dead' short P (m >>= f) R := by
  intro s s' hs
  have h := hm s s' hs
  cases hms : m s with
  | ok a t =>
      rw [hms] at h
      rw [bind_of_ok hms]
      rcases h with hdead | ⟨t', hms', ht⟩
      · -- the shorter walk is dead: it can only say so
        have hlatch := hl a t hdead
        cases hfa : f a t with
        | ok b u =>
            rw [hfa] at hlatch
            exact .inl hlatch
        | error e u =>
            rw [hfa] at hlatch
            exact .inl hlatch
      · rw [bind_of_ok hms']
        exact hf a t t' ht
  | error e t =>
      rw [hms] at h
      rw [bind_of_error hms]
      rcases h with hshort | ⟨t', hms'⟩
      · exact .inl hshort
      · exact .inr ⟨t', bind_of_error hms' f⟩

/-- What follows a walk that is never dead need not be latched. -/
theorem Keeps.seq {m : EStateM ε σ α} {f : α → EStateM ε σ β} {Q : α → σ → σ → Prop}
    {R : β → σ → σ → Prop} (hm : Keeps Walk.never short P m Q)
    (hf : ∀ a, Keeps dead short (Q a) (f a) R) : Keeps dead short P (m >>= f) R :=
  hm.bind hf fun a => Latched.never (f a)

theorem Keeps.of_never {m : EStateM ε σ α} {Q : α → σ → σ → Prop}
    (hm : Keeps Walk.never short P m Q) : Keeps dead short P m Q := by
  intro s s' hs
  have h := hm s s' hs
  cases hms : m s with
  | ok a t =>
      rw [hms] at h
      exact .inr (h.resolve_left id)
  | error e t =>
      rw [hms] at h
      exact h

theorem Keeps.pure {Q : α → σ → σ → Prop} (a : α) (h : ∀ s s', P s s' → Q a s s') :
    Keeps dead short P (Pure.pure a : EStateM ε σ α) Q :=
  fun s s' hs => .inr ⟨s', rfl, h s s' hs⟩

theorem Keeps.throw {Q : α → σ → σ → Prop} (e : ε) :
    Keeps dead short P (throw e : EStateM ε σ α) Q :=
  fun _ s' _ => .inr ⟨s', rfl⟩

theorem Latched.times {m : EStateM ε σ α} (hm : Latched dead dead short m) (n : Nat) :
    Latched dead dead short (times m n) := by
  induction n with
  | zero => exact Latched.pure []
  | succ n ih => exact hm.bind fun a => ih.bind fun as => Latched.pure (a :: as)

/-- **The loop rule**, with the number of rounds still to go. -/
theorem Keeps.times {I : Nat → σ → σ → Prop} {m : EStateM ε σ α}
    (hm : ∀ n, Keeps dead short (I (n + 1)) m fun _ => I n) (hl : Latched dead dead short m)
    (n : Nat) : Keeps dead short (I n) (times m n) fun _ => I 0 := by
  induction n with
  | zero => exact Keeps.pure [] fun _ _ h => h
  | succ n ih =>
      refine (hm n).bind (fun a => ?_) fun a => (hl.times n).bind fun as => Latched.pure (a :: as)
      exact ih.bind (fun as => Keeps.pure (a :: as) fun _ _ h => h) fun as => Latched.pure (a :: as)

end Longer

end LlmEngine.Lib.Walk
