/-
# LlmEngine.Cli.Forward — the forward pass as the generate loop sees it.

`forward` (`src/cli/k3_run.c`) advances the state a model carries between tokens: the recurrent
matrices and convolution history `ks`, and the KV and rope rows, one per position, of which the
first `cached` are meaningful.  It leaves the argmax after every fed position.

`Forward` is that function over the live state, with the one law the loop relies on: a batch is its
tokens fed one at a time.  `Forward.run` is its call on the row buffer, where rows at or above
`cached` are stale: it reads none of them and overwrites from `cached` on.  Serial greedy decoding
is defined from one-token passes only.

* `run_eq`: a batch is its tokens, state and argmaxes.
* `Same` states are alike in what is live; what a run makes of them is alike (`Same.feed`, `Same.serial`).
* Serial decode composes: the ids after the first `m` are decoded from the state and the pending ids then
  (`serialIds_add`, `serialState_add`).
* `serial_accept`: of a verified batch, the drafts up to the first disagreement are what serial decode emits, and so
  is the argmax behind them.

No expert, layer or float is mentioned: that the decoder is such a function is `Cli.DecoderPass`.
-/
import LlmEngine.Lib.Buffer
import Mathlib.Data.List.Basic

namespace LlmEngine.Cli

open LlmEngine.Lib.Buffer

/-- A token id: a C `int`. -/
abbrev Tok := BitVec 32

/-- What one model carries between tokens. -/
structure Carried (κ ρ : Type) where
  ks : κ
  rows : Nat → ρ
  cached : Nat

/-- What one call of `forward` leaves behind: `frc == 0`, the two state buffers, and
`argmax_(lg, vocab)` after each fed position.  `cached` is the caller's to advance. -/
structure Pass (κ ρ : Type) where
  ok : Bool
  ks : κ
  rows : Nat → ρ
  args : List Tok

section Carried

variable {κ ρ : Type}

/-- `argmax_(lg, vocab)` after the call: the logits buffer holds the last position's vector. -/
def Pass.lastArg (r : Pass κ ρ) : Tok := r.args.getLastD 0

/-- The state after a pass, with `cached` set. -/
def Pass.carried (r : Pass κ ρ) (cached : Nat) : Carried κ ρ :=
  { ks := r.ks, rows := r.rows, cached := cached }

/-- The rows a pass may read. -/
def Carried.live (z : Carried κ ρ) : List ρ := (List.range z.cached).map z.rows

/-- The two states are one to a forward pass: rows at or above `cached` are stale. -/
structure Carried.Same (z z' : Carried κ ρ) : Prop where
  ks : z.ks = z'.ks
  cached : z.cached = z'.cached
  rows : ∀ p < z.cached, z.rows p = z'.rows p

theorem Carried.Same.refl (z : Carried κ ρ) : z.Same z := ⟨rfl, rfl, fun _ _ => rfl⟩

theorem Carried.Same.symm {z z' : Carried κ ρ} (h : z.Same z') : z'.Same z :=
  ⟨h.ks.symm, h.cached.symm, fun p hp => (h.rows p (h.cached ▸ hp)).symm⟩

theorem Carried.Same.trans {z z' z'' : Carried κ ρ} (h : z.Same z') (h' : z'.Same z'') :
    z.Same z'' :=
  ⟨h.ks.trans h'.ks, h.cached.trans h'.cached,
    fun p hp => (h.rows p hp).trans (h'.rows p (h.cached ▸ hp))⟩

theorem Carried.Same.live {z z' : Carried κ ρ} (h : z.Same z') : z.live = z'.live := by
  unfold Carried.live
  rw [← h.cached]
  apply List.map_congr_left
  intro p hp
  exact h.rows p (List.mem_range.mp hp)

end Carried

/-- What the forward pass computes from the live state: the next recurrent state, one row and one
argmax per fed position. -/
structure Advance (κ ρ : Type) where
  ks : κ
  rows : List ρ
  args : List Tok

/-- **The forward pass**, a function of the carried state and the fed tokens. -/
structure Forward (κ ρ : Type) where
  pass : κ → List ρ → List Tok → Advance κ ρ
  /-- one row and one argmax per fed position -/
  single : ∀ ks live t, ∃ r a, (pass ks live [t]).rows = [r] ∧ (pass ks live [t]).args = [a]
  /-- feeding a batch is feeding its tokens one at a time -/
  batch : ∀ ks live t ts, ts ≠ [] → pass ks live (t :: ts) =
    let a := pass ks live [t]
    let b := pass a.ks (live ++ a.rows) ts
    { ks := b.ks, rows := a.rows ++ b.rows, args := a.args ++ b.args }

namespace Forward

/-- Feed the tokens one at a time. -/
def passSteps {κ ρ : Type} (step : κ → List ρ → Tok → κ × ρ × Tok) (ks : κ) (live : List ρ) :
    List Tok → Advance κ ρ
  | [] => { ks := ks, rows := [], args := [] }
  | t :: ts =>
      let (ks', r, a) := step ks live t
      let b := passSteps step ks' (live ++ [r]) ts
      { ks := b.ks, rows := r :: b.rows, args := a :: b.args }

/-- Any one-token step extends to a forward pass. -/
def ofStep {κ ρ : Type} (step : κ → List ρ → Tok → κ × ρ × Tok) : Forward κ ρ where
  pass := passSteps step
  single ks live t := ⟨(step ks live t).2.1, (step ks live t).2.2, rfl, rfl⟩
  batch _ _ _ _ _ := rfl

variable {κ ρ : Type} (fw : Forward κ ρ)

/-- The call on the buffers: it reads the live rows and writes from `cached` on. -/
def run (z : Carried κ ρ) (ts : List Tok) : Pass κ ρ :=
  let a := fw.pass z.ks z.live ts
  { ok := true, ks := a.ks, rows := overwrite z.rows z.cached a.rows, args := a.args }

theorem run_writes (z : Carried κ ρ) (ts : List Tok) {p : Nat} (h : p < z.cached) :
    (fw.run z ts).rows p = z.rows p := overwrite_below _ _ h

theorem run_reads {z z' : Carried κ ρ} (h : z.Same z') (t : Tok) :
    (fw.run z [t]).ks = (fw.run z' [t]).ks ∧ (fw.run z [t]).args = (fw.run z' [t]).args ∧
      (fw.run z [t]).rows z.cached = (fw.run z' [t]).rows z.cached := by
  obtain ⟨r, a, hr, ha⟩ := fw.single z'.ks z'.live t
  unfold run
  rw [h.ks, h.live, ← h.cached]
  refine ⟨rfl, rfl, ?_⟩
  show overwrite z.rows z.cached (fw.pass z'.ks z'.live [t]).rows z.cached
    = overwrite z'.rows z.cached (fw.pass z'.ks z'.live [t]).rows z.cached
  rw [hr, overwrite_singleton, overwrite_singleton]

/-- On the buffers too, a batch is its first token and then the rest. -/
theorem run_batch (z : Carried κ ρ) (t : Tok) {ts : List Tok} (h : ts ≠ []) :
    fw.run z (t :: ts) =
      let a := fw.run z [t]
      let b := fw.run (a.carried (z.cached + 1)) ts
      { ok := true, ks := b.ks, rows := b.rows, args := a.args ++ b.args } := by
  obtain ⟨r, a, hr, ha⟩ := fw.single z.ks z.live t
  have hlive : ((fw.run z [t]).carried (z.cached + 1)).live = z.live ++ [r] := by
    show (List.range (z.cached + 1)).map (fw.run z [t]).rows = _
    rw [List.range_succ, List.map_append]
    congr 1
    · apply List.map_congr_left
      intro p hp
      exact fw.run_writes z [t] (List.mem_range.mp hp)
    · show [overwrite z.rows z.cached (fw.pass z.ks z.live [t]).rows z.cached] = [r]
      rw [hr, overwrite_singleton]
  have hks : ((fw.run z [t]).carried (z.cached + 1)).ks = (fw.pass z.ks z.live [t]).ks := rfl
  simp only
  rw [run, run, hlive, hks, fw.batch _ _ _ _ h]
  show Pass.mk true _ (overwrite z.rows z.cached _) _ = Pass.mk true _ (overwrite (overwrite z.rows
    z.cached (fw.pass z.ks z.live [t]).rows) (z.cached + 1) _) _
  simp only [hr, overwrite_cons, List.singleton_append]
  rfl

/-! ## One token at a time -/

/-- Feed one token and advance. -/
def feed (z : Carried κ ρ) (t : Tok) : Carried κ ρ := (fw.run z [t]).carried (z.cached + 1)

/-- The model's own next token after one more token. -/
def arg (z : Carried κ ρ) (t : Tok) : Tok := (fw.run z [t]).lastArg

def feedAll (z : Carried κ ρ) (ts : List Tok) : Carried κ ρ := ts.foldl fw.feed z

/-- The next token after every position, one pass per token. -/
def args (z : Carried κ ρ) : List Tok → List Tok
  | [] => []
  | t :: ts => fw.arg z t :: args (fw.feed z t) ts

/-- The argmax after the last of the pending tokens. -/
def next (z : Carried κ ρ) (pending : List Tok) : Tok := (fw.args z pending).getLastD 0

/-- **Serial greedy decode**: feed the pending tokens, emit the argmax after the last of them, and
go on with that token pending. -/
def serialIds (z : Carried κ ρ) (pending : List Tok) : Nat → List Tok
  | 0 => []
  | n + 1 => fw.next z pending :: serialIds (fw.feedAll z pending) [fw.next z pending] n

/-- What serial decode carries once it has emitted `n` ids: everything but the last id is fed. -/
def serialState (z : Carried κ ρ) (pending : List Tok) : Nat → Carried κ ρ
  | 0 => z
  | n + 1 => serialState (fw.feedAll z pending) [fw.next z pending] n

/-- The tokens serial decode has not fed yet once it has emitted `n` ids. -/
def serialPending (z : Carried κ ρ) (pending : List Tok) : Nat → List Tok
  | 0 => pending
  | n + 1 => serialPending (fw.feedAll z pending) [fw.next z pending] n

@[simp] theorem feed_cached (z : Carried κ ρ) (t : Tok) : (fw.feed z t).cached = z.cached + 1 := rfl

theorem run_args_single (z : Carried κ ρ) (t : Tok) : (fw.run z [t]).args = [fw.arg z t] := by
  obtain ⟨r, a, _, ha⟩ := fw.single z.ks z.live t
  show (fw.pass z.ks z.live [t]).args = [(fw.pass z.ks z.live [t]).args.getLastD 0]
  rw [ha]
  rfl

theorem feedAll_cons (z : Carried κ ρ) (t : Tok) (ts : List Tok) :
    fw.feedAll z (t :: ts) = fw.feedAll (fw.feed z t) ts := rfl

theorem feedAll_append (z : Carried κ ρ) (xs ys : List Tok) :
    fw.feedAll z (xs ++ ys) = fw.feedAll (fw.feedAll z xs) ys := by
  unfold feedAll
  rw [List.foldl_append]

@[simp] theorem feedAll_cached (ts : List Tok) : ∀ z : Carried κ ρ,
    (fw.feedAll z ts).cached = z.cached + ts.length := by
  induction ts with
  | nil => intro z; rfl
  | cons t ts ih =>
      intro z
      rw [feedAll_cons, ih, feed_cached, List.length_cons]
      omega

@[simp] theorem args_length (ts : List Tok) : ∀ z : Carried κ ρ, (fw.args z ts).length = ts.length := by
  induction ts with
  | nil => intro z; rfl
  | cons t ts ih =>
      intro z
      rw [args, List.length_cons, ih, List.length_cons]

theorem args_append (xs ys : List Tok) : ∀ z : Carried κ ρ,
    fw.args z (xs ++ ys) = fw.args z xs ++ fw.args (fw.feedAll z xs) ys := by
  induction xs with
  | nil => intro z; rfl
  | cons x xs ih =>
      intro z
      rw [List.cons_append, args, args, ih, feedAll_cons, List.cons_append]

/-- **A batch is its tokens**: state and argmaxes. -/
theorem run_eq (ts : List Tok) : ∀ z : Carried κ ρ, ts ≠ [] →
    (fw.run z ts).carried (z.cached + ts.length) = fw.feedAll z ts ∧
      (fw.run z ts).args = fw.args z ts := by
  induction ts with
  | nil => intro z h; exact absurd rfl h
  | cons t ts ih =>
      intro z _
      by_cases hts : ts = []
      · subst hts
        exact ⟨rfl, fw.run_args_single z t⟩
      · have hlen : z.cached + (t :: ts).length = (fw.feed z t).cached + ts.length := by
          rw [feed_cached, List.length_cons]
          omega
        obtain ⟨hrun, hargs⟩ := ih (fw.feed z t) hts
        rw [fw.run_batch z t hts, hlen, feedAll_cons, args, ← hrun, ← hargs]
        refine ⟨rfl, ?_⟩
        show (fw.run z [t]).args ++ (fw.run (fw.feed z t) ts).args = _
        rw [fw.run_args_single, List.singleton_append]

theorem run_lastArg {z : Carried κ ρ} {ts : List Tok} (h : ts ≠ []) :
    (fw.run z ts).lastArg = (fw.args z ts).getLastD 0 := by
  rw [Pass.lastArg, (fw.run_eq ts z h).2]

/-! ## Stale rows do not matter -/

theorem Same.feed {z z' : Carried κ ρ} (h : z.Same z') (t : Tok) :
    (fw.feed z t).Same (fw.feed z' t) ∧ fw.arg z t = fw.arg z' t := by
  obtain ⟨hks, hargs, hrow⟩ := fw.run_reads h t
  refine ⟨⟨hks, ?_, fun p hp => ?_⟩, ?_⟩
  · rw [feed_cached, feed_cached, h.cached]
  · rw [feed_cached] at hp
    by_cases hlast : p = z.cached
    · subst hlast
      exact hrow
    · have hlt : p < z.cached := by omega
      show (fw.run z [t]).rows p = (fw.run z' [t]).rows p
      rw [fw.run_writes z [t] hlt, fw.run_writes z' [t] (h.cached ▸ hlt)]
      exact h.rows p hlt
  · rw [arg, arg, Pass.lastArg, Pass.lastArg, hargs]

theorem Same.feedAll (ts : List Tok) : ∀ {z z' : Carried κ ρ}, z.Same z' →
    (fw.feedAll z ts).Same (fw.feedAll z' ts) ∧ fw.args z ts = fw.args z' ts := by
  induction ts with
  | nil => intro z z' h; exact ⟨h, rfl⟩
  | cons t ts ih =>
      intro z z' h
      obtain ⟨hsame, harg⟩ := Same.feed fw h t
      obtain ⟨hall, hargs⟩ := ih hsame
      exact ⟨hall, by rw [args, args, harg, hargs]⟩

/-! ## Serial decode -/

@[simp] theorem serialIds_length (n : Nat) : ∀ (z : Carried κ ρ) pending,
    (fw.serialIds z pending n).length = n := by
  induction n with
  | zero => intro z pending; rfl
  | succ n ih =>
      intro z pending
      rw [serialIds, List.length_cons, ih]

/-- **Serial decode composes**: the ids after the first `m` are decoded from the state and the
pending tokens those left. -/
theorem serialIds_add (m n : Nat) : ∀ (z : Carried κ ρ) (pending : List Tok),
    fw.serialIds z pending (m + n) = fw.serialIds z pending m ++
      fw.serialIds (fw.serialState z pending m) (fw.serialPending z pending m) n := by
  induction m with
  | zero =>
      intro z pending
      rw [Nat.zero_add, serialIds, serialState, serialPending, List.nil_append]
  | succ m ih =>
      intro z pending
      rw [show m + 1 + n = (m + n) + 1 by omega, serialIds, ih, serialIds, serialState,
        serialPending, List.cons_append]

theorem serialState_add (m n : Nat) : ∀ (z : Carried κ ρ) (pending : List Tok),
    fw.serialState z pending (m + n) =
      fw.serialState (fw.serialState z pending m) (fw.serialPending z pending m) n := by
  induction m with
  | zero =>
      intro z pending
      rw [Nat.zero_add, serialState, serialPending]
  | succ m ih =>
      intro z pending
      rw [show m + 1 + n = (m + n) + 1 by omega, serialState, ih, serialState, serialPending]

/-- Past the prompt one token is pending: the last id. -/
theorem serialPending_succ (n : Nat) : ∀ (z : Carried κ ρ) (pending : List Tok),
    fw.serialPending z pending (n + 1) = [(fw.serialIds z pending (n + 1)).getLastD 0] := by
  induction n with
  | zero => intro z pending; rfl
  | succ n ih =>
      intro z pending
      rw [serialPending, ih]
      conv_lhs => rw [serialIds, List.getLastD_cons]
      conv_rhs => rw [serialIds, List.getLastD_cons, serialIds, List.getLastD_cons]

/-- The state has consumed the pending tokens and every id but the last. -/
theorem serialState_cached (n : Nat) : ∀ (z : Carried κ ρ) (pending : List Tok),
    (fw.serialState z pending (n + 1)).cached = z.cached + pending.length + n := by
  induction n with
  | zero =>
      intro z pending
      rw [serialState, serialState, feedAll_cached]
      omega
  | succ n ih =>
      intro z pending
      rw [serialState, ih, feedAll_cached, List.length_singleton]
      omega

/-- Fewer ids are a prefix. -/
theorem serialIds_take (m n : Nat) (z : Carried κ ρ) (pending : List Tok) :
    (fw.serialIds z pending (m + n)).take m = fw.serialIds z pending m := by
  rw [serialIds_add, List.take_left' (fw.serialIds_length m z pending)]

/-- The state is that of feeding the pending tokens and every id but the last. -/
theorem serialState_succ (n : Nat) : ∀ (z : Carried κ ρ) (pending : List Tok),
    fw.serialState z pending (n + 1) = fw.feedAll z (pending ++ fw.serialIds z pending n) := by
  induction n with
  | zero =>
      intro z pending
      rw [serialState, serialState, serialIds, List.append_nil]
  | succ n ih =>
      intro z pending
      rw [serialState, ih, serialIds, fw.feedAll_append z pending]
      rfl

theorem Same.serial (n : Nat) : ∀ {z z' : Carried κ ρ}, z.Same z' → ∀ pending,
    fw.serialIds z pending n = fw.serialIds z' pending n ∧
      (fw.serialState z pending n).Same (fw.serialState z' pending n) := by
  induction n with
  | zero => intro z z' h pending; exact ⟨rfl, h⟩
  | succ n ih =>
      intro z z' h pending
      obtain ⟨hall, hargs⟩ := Same.feedAll fw pending h
      have hnext : fw.next z pending = fw.next z' pending := by
        unfold next
        rw [hargs]
      obtain ⟨hids, hstate⟩ := ih hall [fw.next z' pending]
      rw [Forward.serialIds, Forward.serialIds, Forward.serialState, Forward.serialState, hnext]
      exact ⟨by rw [hids], hstate⟩

/-- Tokens already fed may be moved into the state. -/
theorem serialIds_fed (z : Carried κ ρ) (xs : List Tok) {ys : List Tok} (h : ys ≠ []) (n : Nat) :
    fw.serialIds z (xs ++ ys) n = fw.serialIds (fw.feedAll z xs) ys n := by
  have hne : fw.args (fw.feedAll z xs) ys ≠ [] := by
    intro hnil
    have hlen := congrArg List.length hnil
    rw [args_length] at hlen
    exact h (List.length_eq_zero_iff.mp hlen)
  have hlast : fw.next z (xs ++ ys) = fw.next (fw.feedAll z xs) ys := by
    rw [next, next, args_append, List.getLastD_eq_getLast?, List.getLastD_eq_getLast?,
      List.getLast?_append_of_ne_nil _ hne]
  cases n with
  | zero => rfl
  | succ n => rw [serialIds, serialIds, hlast, feedAll_append]

/-! ## Greedy verification -/

/-- `while (m < nd && arg[m] == d[m]) m++`. -/
def agree : List Tok → List Tok → Nat
  | a :: as, d :: ds => if a = d then agree as ds + 1 else 0
  | _, _ => 0

theorem agree_le (as ds : List Tok) : agree as ds ≤ ds.length := by
  induction as generalizing ds with
  | nil => exact Nat.zero_le _
  | cons a as ih =>
      cases ds with
      | nil => exact Nat.zero_le _
      | cons d ds =>
          rw [agree, List.length_cons]
          split_ifs with h
          · exact Nat.succ_le_succ (ih ds)
          · exact Nat.zero_le _

/-- **The accepted prefix is serial decode.** Verifying the pending token `t` and the drafts `d` in
one batch, the drafts the model agrees with and its own token after them are exactly the ids serial
decode would have emitted, and its state has consumed exactly `t` and the accepted drafts. -/
theorem serial_accept (d : List Tok) : ∀ (z : Carried κ ρ) (t : Tok),
    let arg := fw.args z (t :: d)
    let m := agree arg d
    fw.serialIds z [t] (m + 1) = d.take m ++ [arg.getD m 0] ∧
      fw.serialState z [t] (m + 1) = fw.feedAll z (t :: d.take m) := by
  induction d with
  | nil => intro z t; exact ⟨rfl, rfl⟩
  | cons x d ih =>
      intro z t
      have hnext : fw.next z [t] = fw.arg z t := rfl
      simp only [args]
      by_cases hx : fw.arg z t = x
      · -- the first draft is the model's own choice: the rest is verified one token further on
        obtain ⟨hids, hstate⟩ := ih (fw.feed z t) x
        simp only [args] at hids hstate
        rw [agree, if_pos hx, serialIds, serialState, hnext, hx, List.take_succ_cons,
          List.getD_cons_succ]
        exact ⟨by rw [List.cons_append, ← hids]; rfl, hstate⟩
      · rw [agree, if_neg hx]
        exact ⟨rfl, rfl⟩

end Forward

end LlmEngine.Cli
