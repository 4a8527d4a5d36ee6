/-
# LlmEngine.Cli.Generate — the incremental generate loop of `k3_run`.

`main` (`src/cli/k3_run.c`) decodes in rounds.  Round 0 feeds everything not yet consumed.  A later
round feeds one token, or, when `--spec` or a draft trunk is on and there is room, proposes drafts,
verifies the pending token and the drafts in one batch, and keeps the prefix the model agrees with.
On a partial acceptance the recurrent state is restored from a snapshot and the accepted prefix is
replayed.  A draft model runs beside the exact one and is resynchronised in the same way.

`emitted` and `fed` are history: what each round emitted before the append loop's bounds, and the
position and length of every pass.

The loop's state has a carried half for the exact model and one for the draft model (`Carried`), the sequence as it
is filled, the ids put out and the history.  A pass of either model is a function of its carried half and the ids
(`Models`).

* `specDraft` is the n-gram drafter, `draftChain` the draft model's; `propose` asks the one that is on.
* `verify` is a speculative round: one batch, the count of accepted drafts, then `settleExact` and `settleDraft`.
* `roundFirst`, `roundSingle`, `roundNext` are the kinds of round, `round` the loop's body, and `rounds` the loop
  for a number of them.

A failed pass ends the run, except one of the draft model while it proposes: that ends the proposing.
-/
import LlmEngine.Cli.Forward

namespace LlmEngine.Cli

open LlmEngine.Lib.Buffer
open Forward (agree)

/-- `K3_SPEC_MAX`. -/
def specMax : Nat := 8

/-- What a run is started with: `--gen`, the prompt's length `np`, the length `prior` of a restored
sequence (0 on a fresh run), `--spec`, whether a draft trunk is loaded, and whether
`--load-state` was given. -/
structure GenCfg where
  gen : Nat
  np : Nat
  prior : Nat
  spec : Nat
  draftTrunk : Bool
  loadState : Bool

namespace GenCfg

def tMax (c : GenCfg) : Nat := c.prior + c.np + c.gen + 1

/-- `w.kv_cap = Tmax`. -/
def kvCap (c : GenCfg) : Nat := c.tMax

/-- `spec_n` as `main` settles it: a draft trunk without `--spec` asks for 4, and neither path
exceeds `K3_SPEC_MAX`. -/
def specN (c : GenCfg) : Nat :=
  min (if c.draftTrunk ∧ c.spec = 0 then 4 else c.spec) specMax

end GenCfg

/-! ## The n-gram drafter -/

/-- `seq[j + i] == seq[T - n + i]` for all `i < n`. -/
def suffixHit (seq : Nat → Tok) (T n j : Nat) : Bool :=
  (List.range n).all fun i => seq (j + i) == seq (T - n + i)

/-- The scan `for (j = T - n - 1; j >= 0; j--)` from `j - 1` down, for the most recent hit. -/
def lastHit (seq : Nat → Tok) (T n : Nat) : Nat → Option Nat
  | 0 => none
  | j + 1 => if suffixHit seq T n j then some j else lastHit seq T n j

/-- The ids after the match `m1`, up to `left` of them from offset `i` on, cut where the older match
`m2` runs into `m1` or continues differently. -/
def continuation (seq : Nat → Tok) (T n m1 : Nat) (m2 : Option Nat) : Nat → Nat → List Tok
  | 0, _ => []
  | left + 1, i =>
      if m1 + n + i < T then
        let cand := seq (m1 + n + i)
        match m2 with
        | some m2' =>
            if m2' + n + i ≥ m1 ∨ seq (m2' + n + i) ≠ cand then []
            else cand :: continuation seq T n m1 m2 left (i + 1)
        | none => cand :: continuation seq T n m1 m2 left (i + 1)
      else []

/-- One match length: the two most recent earlier occurrences of the last `n` ids. -/
def draftAt (seq : Nat → Tok) (T cap n : Nat) : List Tok :=
  if T < n + 1 then []
  else
    match lastHit seq T n (T - n) with
    | none => []
    | some m1 => continuation seq T n m1 (lastHit seq T n m1) cap 0

/-- `spec_draft`: match length 4, then 3. -/
def specDraft (seq : Nat → Tok) (T cap : Nat) : List Tok :=
  let cap := min cap specMax
  match draftAt seq T cap 4 with
  | [] => draftAt seq T cap 3
  | d => d

/-! ## The loop's state -/

/-- The two models.  The draft routes among whatever experts are resident, so its answer may change
from one call to the next: it also takes the number of passes made so far. -/
structure Models (κ ρ κd ρd : Type) where
  exact : Carried κ ρ → List Tok → Pass κ ρ
  draft : Nat → Carried κd ρd → List Tok → Pass κd ρd

/-- `seq`, `T`, `outtok`, the carried state of both models, and the history. -/
structure GenState (κ ρ κd ρd : Type) where
  seq : Nat → Tok
  T : Nat
  out : List Tok
  w : Carried κ ρ
  dw : Carried κd ρd
  emitted : List Tok
  fed : List (Nat × Nat)

namespace GenState

variable {κ ρ κd ρd : Type}

/-- One call `forward(&w, …, ids, …, ks, …)`; `w.cached` is advanced by the caller. -/
def exactPass (M : Models κ ρ κd ρd) (s : GenState κ ρ κd ρd) (ids : List Tok) :
    Pass κ ρ × GenState κ ρ κd ρd :=
  let r := M.exact s.w ids
  (r, { s with w := r.carried s.w.cached, fed := s.fed ++ [(s.w.cached, ids.length)] })

/-- One call `forward(&dw, …, ids, …, dks, …)`. -/
def draftPass (M : Models κ ρ κd ρd) (s : GenState κ ρ κd ρd) (ids : List Tok) :
    Pass κd ρd × GenState κ ρ κd ρd :=
  let r := M.draft s.fed.length s.dw ids
  (r, { s with dw := r.carried s.dw.cached, fed := s.fed ++ [(s.dw.cached, ids.length)] })

def setCached (s : GenState κ ρ κd ρd) (n : Nat) : GenState κ ρ κd ρd :=
  { s with w := { s.w with cached := n } }

def setDraftCached (s : GenState κ ρ κd ρd) (n : Nat) : GenState κ ρ κd ρd :=
  { s with dw := { s.dw with cached := n } }

/-- `for (i < nd) seq[T + i] = d[i]`. -/
def writeDrafts (s : GenState κ ρ κd ρd) (d : List Tok) : GenState κ ρ κd ρd :=
  { s with seq := overwrite s.seq s.T d }

/-- `memcpy(ks, spec_snap, …)` and `w.cached = base`. -/
def rewind (s : GenState κ ρ κd ρd) (snap : κ) (base : Nat) : GenState κ ρ κd ρd :=
  { s with w := { s.w with ks := snap, cached := base } }

/-- `memcpy(dks, dsnap, …)` and `dw.cached = base`. -/
def rewindDraft (s : GenState κ ρ κd ρd) (snap : κd) (base : Nat) : GenState κ ρ κd ρd :=
  { s with dw := { s.dw with ks := snap, cached := base } }

/-- The state `main` enters the loop with: `prior + np` ids in `seq`, nothing emitted. -/
def start (c : GenCfg) (seq : Nat → Tok) (w : Carried κ ρ) (dw : Carried κd ρd) :
    GenState κ ρ κd ρd :=
  { seq := seq, T := c.prior + c.np, out := [], w := w, dw := dw, emitted := [], fed := [] }

end GenState

/-! ## One round

A round hands `emit[0..emitn)` to the append loop; `none` is the abort after a failed pass. -/

section Round

variable {κ ρ κd ρd : Type} (c : GenCfg) (M : Models κ ρ κd ρd)

/-- A draft pass whose failure aborts the run; `cached` is advanced on success. -/
def draftFollow (s : GenState κ ρ κd ρd) (ids : List Tok) (cached : Nat) :
    Option (GenState κ ρ κd ρd) :=
  let (rd, s) := s.draftPass M ids
  if rd.ok then some (s.setDraftCached cached) else none

/-- Round 0: everything not yet consumed, through both models.  The saved state does not include
the draft's, so after a restore the draft absorbs the whole sequence. -/
def roundFirst (s : GenState κ ρ κd ρd) : Option (List Tok × GenState κ ρ κd ρd) := do
  let base := s.w.cached
  let nT0 := s.T - base
  let (r, s) := s.exactPass M (slice s.seq base nT0)
  if r.ok then
    let s := s.setCached (base + nT0)
    if c.draftTrunk then
      let db := if c.loadState then 0 else base
      let s ← draftFollow M s (slice s.seq db (base + nT0 - db)) (base + nT0)
      some ([r.lastArg], s)
    else some ([r.lastArg], s)
  else none

/-- `while (nd < spec_n)`: one-token draft steps, each feeding the draft's own last choice.  A
failing step ends the drafting, not the run. -/
def draftChain : Nat → Tok → GenState κ ρ κd ρd → List Tok × GenState κ ρ κd ρd
  | 0, _, s => ([], s)
  | n + 1, prev, s =>
      let (r, s) := s.draftPass M [prev]
      if r.ok then
        let s := s.setDraftCached (s.dw.cached + 1)
        let (d, s) := draftChain n r.lastArg s
        (r.lastArg :: d, s)
      else ([], s)

/-- The drafts of this round, if there is room for them. -/
def propose (s : GenState κ ρ κd ρd) : List Tok × GenState κ ρ κd ρd :=
  let base := s.w.cached
  if 0 < c.specN ∧ s.T + c.specN + 1 < c.tMax ∧ base + c.specN + 1 ≤ c.kvCap then
    if c.draftTrunk then draftChain M c.specN (s.seq base) s
    else (specDraft s.seq s.T c.specN, s)
  else ([], s)

/-- The exact model after the verifying batch: nothing to undo when every draft was accepted, else
restore the recurrent state and replay the accepted prefix. -/
def settleExact (snap : κ) (base m nd : Nat) (s : GenState κ ρ κd ρd) :
    Option (GenState κ ρ κd ρd) :=
  if m = nd then some (s.setCached (base + nd + 1))
  else
    let s := s.rewind snap base
    let (r, s) := s.exactPass M (slice s.seq base (m + 1))
    if r.ok then some (s.setCached (base + m + 1)) else none

/-- The draft model after the verifying batch: it has not yet fed its own last draft, or it rewinds
and replays like the exact one. -/
def settleDraft (dsnap : κd) (base m : Nat) (d : List Tok) (s : GenState κ ρ κd ρd) :
    Option (GenState κ ρ κd ρd) :=
  if c.draftTrunk then
    if m = d.length then draftFollow M s [d.getLastD 0] (s.dw.cached + 1)
    else
      let s := s.rewindDraft dsnap base
      draftFollow M s (slice s.seq base (m + 1)) (base + m + 1)
  else some s

/-- Verify the pending token and the drafts in one sweep and keep the agreed prefix. -/
def verify (dsnap : κd) (d : List Tok) (s : GenState κ ρ κd ρd) :
    Option (List Tok × GenState κ ρ κd ρd) := do
  let base := s.w.cached
  let snap := s.w.ks
  let s := s.writeDrafts d
  let (r, s) := s.exactPass M (slice s.seq base (d.length + 1))
  if r.ok then
    let m := agree r.args d
    let s ← settleExact M snap base m d.length s
    let s ← settleDraft c M dsnap base m d s
    some (d.take m ++ [r.args.getD m 0], s)
  else none

/-- A round without drafts: one token through both models. -/
def roundSingle (s : GenState κ ρ κd ρd) : Option (List Tok × GenState κ ρ κd ρd) := do
  let base := s.w.cached
  let (r, s) := s.exactPass M (slice s.seq base 1)
  if r.ok then
    let s := s.setCached (base + 1)
    if c.draftTrunk then
      let s ← draftFollow M s (slice s.seq base 1) (base + 1)
      some ([r.lastArg], s)
    else some ([r.lastArg], s)
  else none

/-- A round after the first.  The draft's snapshot is taken before it proposes. -/
def roundNext (s : GenState κ ρ κd ρd) : Option (List Tok × GenState κ ρ κd ρd) :=
  let dsnap := s.dw.ks
  match propose c M s with
  | ([], s) => roundSingle c M s
  | (d, s) => verify c M dsnap d s

/-- `for (i < emitn && nout < gen && T < Tmax) { seq[T++] = emit[i]; outtok[nout++] = emit[i]; }`. -/
def appendEmit : List Tok → GenState κ ρ κd ρd → GenState κ ρ κd ρd
  | [], s => s
  | e :: es, s =>
      if s.out.length < c.gen ∧ s.T < c.tMax then
        appendEmit es { s with seq := overwrite s.seq s.T [e], T := s.T + 1, out := s.out ++ [e] }
      else s

/-- What round `g` of the loop emits. -/
def roundEmit (g : Nat) (s : GenState κ ρ κd ρd) : Option (List Tok × GenState κ ρ κd ρd) :=
  if g = 0 then roundFirst c M s else roundNext c M s

/-- Round `g` of the loop, with its append. -/
def round (g : Nat) (s : GenState κ ρ κd ρd) : Option (GenState κ ρ κd ρd) := do
  let (emit, s) ← roundEmit c M g s
  if emit = [] then none
  else some (appendEmit c emit { s with emitted := s.emitted ++ emit })

/-- The loop is left at the top once `nout` reaches `gen`, and at the bottom once `T` reaches
`Tmax`. -/
def running (g : Nat) (s : GenState κ ρ κd ρd) : Bool :=
  s.out.length < c.gen && (g == 0 || s.T < c.tMax)

/-- The state after `g` rounds, or after the loop's last if there are fewer. -/
def rounds (s : GenState κ ρ κd ρd) : Nat → Option (GenState κ ρ κd ρd)
  | 0 => some s
  | g + 1 => do
      let s ← rounds s g
      if running c g s then round c M g s else some s

end Round

end LlmEngine.Cli
