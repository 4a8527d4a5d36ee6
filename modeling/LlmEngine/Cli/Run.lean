/-
# LlmEngine.Cli.Run — the loop of `llm-engine run` (`cmd_run` in `src/app/cli.c`).

The prompt goes in token by token, with logits at the last one only; from there on each round feeds what the
round before chose.  A backend is its `decode` and what it makes of the logits; the loop knows no more of it.
Of a backend whose logits are a function of the tokens decoded, the run is greedy decoding with that function,
cut off where a call fails.

* `Follows` is what the loop is told of a backend: an invariant of its states, indexed by the tokens decoded, and the
  best token as a function of these.
* `runRounds_adds` is the induction on the rounds; `At` says where the loop stands at a position, in the prompt or
  behind it.
* `run_greedy`: what is produced begins the greedy continuation of the prompt, and is all of it where no call fails.
* `run_decodes`: with a backend that decodes every position of its context, no call fails.

The end of the text, the number of tokens asked for and the room of the context each end a run.  What is printed is
the prompt's own text and behind it that of the tokens produced.
-/
import LlmEngine.Core.Ops
import LlmEngine.Tokenizer.Bpe

namespace LlmEngine.Cli.Run

open LlmEngine.Core (Vec loop loop_zero loop_succ)
open LlmEngine.Lib.LittleEndian
open LlmEngine.Tokenizer

/-! ## The best token -/

/-- `for (i = 1; i < nv; i++) if (lg[i] > lg[best]) best = i`. -/
def bestOf {F : Type} (gt : F → F → Bool) (lg : Vec F) (nv : Nat) : Nat :=
  loop (nv - 1) 0 fun best i => if gt (lg (i + 1)) (lg best) then i + 1 else best

/-- It depends on them alone. -/
theorem bestOf_congr {F : Type} (gt : F → F → Bool) {lg lg' : Vec F} {nv : Nat} (h : ∀ i < nv, lg i = lg' i) :
    bestOf gt lg nv = bestOf gt lg' nv := by
  have hrun : ∀ k, k ≤ nv - 1 →
      (loop k 0 fun best i => if gt (lg (i + 1)) (lg best) then i + 1 else best) =
        (loop k 0 fun best i => if gt (lg' (i + 1)) (lg' best) then i + 1 else best) ∧
      (loop k 0 fun best i => if gt (lg' (i + 1)) (lg' best) then i + 1 else best) ≤ k := by
    intro k hk
    induction k with
    | zero => exact ⟨rfl, Nat.le_refl 0⟩
    | succ k ih =>
        obtain ⟨hsame, hle⟩ := ih (by omega)
        rw [loop_succ, loop_succ, hsame, h (k + 1) (by omega), h _ (Nat.lt_of_le_of_lt hle (by omega))]
        refine ⟨rfl, ?_⟩
        split_ifs <;> omega
  exact (hrun (nv - 1) (Nat.le_refl _)).1

/-- It is one of them. -/
theorem bestOf_lt {F : Type} (gt : F → F → Bool) (lg : Vec F) {nv : Nat} (h : 0 < nv) : bestOf gt lg nv < nv := by
  have hrun : ∀ k, (loop k 0 fun best i => if gt (lg (i + 1)) (lg best) then i + 1 else best) ≤ k := by
    intro k
    induction k with
    | zero => exact Nat.le_refl 0
    | succ k ih =>
        rw [loop_succ]
        split_ifs <;> omega
  have hle := hrun (nv - 1)
  unfold bestOf
  omega

/-! ## The loop -/

/-- A backend, as the loop uses it.  Each position is decoded once, so what depends on the call (its reads) may
depend on the position. -/
structure Backend (σ F : Type) where
  /-- `b->decode(m, st, tok_id, pos, fl)`; `true` is `ENG_DEC_LOGITS`. -/
  decode : σ → Nat → Nat → Bool → Except σ σ
  logits : σ → Vec F
  vocab : Nat

/-- Why the loop ends. -/
inductive RunEnd
  /-- `pos` reaches `ctx - 1` -/
  | context
  /-- `decode failed` -/
  | failed
  | eos
  /-- `produced >= ntok` -/
  | enough
  deriving DecidableEq, Repr

/-- The variables of the loop; `produced` are the ids, in their order, and `text` what was printed. -/
structure RunState (σ : Type) where
  s : σ
  tok : Nat
  produced : List Nat
  text : Bytes

/-- What a generated id prints: nothing where it is special or has no text, and nothing behind a zero byte. -/
def shown (b : EngBpe) (id : Nat) : Bytes :=
  if engBpeIsSpecial b id then [] else ((engBpeDecodeOne b id 511).getD []).takeWhile (· ≠ 0)

section Loop

variable {σ F : Type} (B : Backend σ F) (gt : F → F → Bool) (b : EngBpe) (ids : List Nat) (ntok : Nat)

/-- One round. -/
def runRound (pos : Nat) (st : RunState σ) : Except (RunEnd × RunState σ) (RunState σ) :=
  let lastPrompt := decide (pos + 1 ≥ ids.length)
  match B.decode st.s st.tok pos lastPrompt with
  | .error s => .error (.failed, { st with s := s })
  | .ok s =>
      if !lastPrompt then .ok { st with s := s, tok := ids.getD (pos + 1) 0 }
      else
        let best := bestOf gt (B.logits s) B.vocab
        if (best : Int) = b.eos then .error (.eos, { st with s := s })
        else
          let st := ⟨s, best, st.produced ++ [best], st.text ++ shown b best⟩
          if st.produced.length ≥ ntok then .error (.enough, st) else .ok st

/-- `n` rounds from `pos` on. -/
def runRounds : Nat → Nat → RunState σ → RunEnd × RunState σ
  | 0, _, st => (.context, st)
  | n + 1, pos, st =>
      match runRound B gt b ids ntok pos st with
      | .error r => r
      | .ok st => runRounds n (pos + 1) st

/-- The loop of `cmd_run`, behind the prompt. -/
def run (prompt : Bytes) (ctx : Nat) (s : σ) : RunEnd × RunState σ :=
  runRounds B gt b ids ntok (ctx - 1) 0 ⟨s, ids.getD 0 0, [], prompt⟩

end Loop

/-! ## Greedy decoding -/

/-- At most `n` tokens behind `toks`, each the one `next` gives for all before it, up to the end of the text. -/
def greedy (next : List Nat → Nat) (eos : Int) : Nat → List Nat → List Nat
  | 0, _ => []
  | n + 1, toks =>
      if (next toks : Int) = eos then [] else next toks :: greedy next eos n (toks ++ [next toks])

/-- Fewer tokens are a prefix of more. -/
theorem greedy_begins (next : List Nat → Nat) (eos : Int) {n k : Nat} (h : n ≤ k) :
    ∀ toks, greedy next eos n toks <+: greedy next eos k toks := by
  induction n generalizing k with
  | zero => exact fun toks => List.nil_prefix
  | succ n ih =>
      intro toks
      obtain ⟨k, rfl⟩ : ∃ k', k = k' + 1 := ⟨k - 1, by omega⟩
      unfold greedy
      split_ifs
      · exact List.nil_prefix
      · exact List.prefix_cons_inj _ |>.mpr (ih (by omega) _)

section Greedy

variable {σ F : Type} {B : Backend σ F} {gt : F → F → Bool} {b : EngBpe} {ids : List Nat} {ntok : Nat}

/-- A backend that, fed one token after the other, has the logits of the tokens it was fed: `I toks s` is what its
state is after `toks`. -/
structure Follows (B : Backend σ F) (gt : F → F → Bool) (I : List Nat → σ → Prop) (next : List Nat → Nat) : Prop where
  step : ∀ {toks s t fl s'}, I toks s → B.decode s t toks.length fl = .ok s' →
    I (toks ++ [t]) s' ∧ (fl = true → bestOf gt (B.logits s') B.vocab = next (toks ++ [t]))

/-- Where the loop is: the prompt and what was produced are fed up to `pos`, and what comes next is the token there,
the last one once the prompt is through. -/
structure At (I : List Nat → σ → Prop) (ids : List Nat) (ntok pos : Nat) (st : RunState σ) : Prop where
  fed : I ((ids ++ st.produced).take pos) st.s
  lt : pos < (ids ++ st.produced).length
  tok : st.tok = (ids ++ st.produced).getD pos 0
  phase : (st.produced = [] ∧ pos < ids.length) ∨ (ids ++ st.produced).length = pos + 1
  room : st.produced.length < ntok

variable {I : List Nat → σ → Prop} {next : List Nat → Nat}

/-- What is decoded is the token behind those fed. -/
theorem At.decoded (h : Follows B gt I next) {pos : Nat} {st : RunState σ} (hat : At I ids ntok pos st) {fl : Bool} {s' : σ}
    (hd : B.decode st.s st.tok pos fl = .ok s') :
    I ((ids ++ st.produced).take (pos + 1)) s' ∧
      (fl = true → bestOf gt (B.logits s') B.vocab = next ((ids ++ st.produced).take (pos + 1))) := by
  have hlen : ((ids ++ st.produced).take pos).length = pos := by
    rw [List.length_take, Nat.min_eq_left hat.lt.le]
  have hd' : B.decode st.s st.tok ((ids ++ st.produced).take pos).length fl = .ok s' := by rwa [hlen]
  have hstep := h.step hat.fed hd'
  have hnext : (ids ++ st.produced).take pos ++ [st.tok] = (ids ++ st.produced).take (pos + 1) := by
    rw [hat.tok, List.getD_eq_getElem?_getD, List.getElem?_eq_getElem hat.lt, Option.getD_some, List.take_append_getElem]
  rwa [hnext] at hstep

/-- Everything so far is fed once the prompt is through. -/
theorem At.whole {pos : Nat} {st : RunState σ} (hat : At I ids ntok pos st) (hlast : pos + 1 ≥ ids.length) :
    (ids ++ st.produced).length = pos + 1 ∧ (ids ++ st.produced).take (pos + 1) = ids ++ st.produced := by
  have hlen : (ids ++ st.produced).length = pos + 1 := by
    rcases hat.phase with ⟨hnone, hlt⟩ | hlen
    · rw [hnone, List.append_nil]
      omega
    · exact hlen
  exact ⟨hlen, List.take_of_length_le hlen.le⟩

/-- A token of the prompt that is not the last. -/
theorem At.prefill {pos : Nat} {st : RunState σ} (hat : At I ids ntok pos st) (hmore : pos + 1 < ids.length) {s' : σ}
    (hfed : I ((ids ++ st.produced).take (pos + 1)) s') :
    At I ids ntok (pos + 1) { st with s := s', tok := ids.getD (pos + 1) 0 } := by
  have hnone : st.produced = [] := by
    rcases hat.phase with ⟨hnone, -⟩ | hlen
    · exact hnone
    · rw [List.length_append] at hlen
      omega
  refine ⟨hfed, ?_, ?_, .inl ⟨hnone, hmore⟩, hat.room⟩
  · show pos + 1 < (ids ++ st.produced).length
    rwa [hnone, List.append_nil]
  · show ids.getD (pos + 1) 0 = (ids ++ st.produced).getD (pos + 1) 0
    rw [hnone, List.append_nil]

/-- A token that was chosen. -/
theorem At.generate {pos : Nat} {st : RunState σ} (hat : At I ids ntok pos st) (hlast : pos + 1 ≥ ids.length) {s' : σ}
    (hfed : I ((ids ++ st.produced).take (pos + 1)) s') (best : Nat) (text : Bytes)
    (hroom : (st.produced ++ [best]).length < ntok) : At I ids ntok (pos + 1) ⟨s', best, st.produced ++ [best], text⟩ := by
  obtain ⟨hlen, hall⟩ := hat.whole hlast
  have hseq : ids ++ (st.produced ++ [best]) = (ids ++ st.produced) ++ [best] := (List.append_assoc _ _ _).symm
  have hlen' : (ids ++ (st.produced ++ [best])).length = pos + 1 + 1 := by
    rw [hseq, List.length_append, hlen]
    rfl
  refine ⟨?_, ?_, ?_, .inr hlen', hroom⟩
  · show I ((ids ++ (st.produced ++ [best])).take (pos + 1)) s'
    rw [hall] at hfed
    rwa [hseq, List.take_left' hlen]
  · show pos + 1 < (ids ++ (st.produced ++ [best])).length
    omega
  · show best = (ids ++ (st.produced ++ [best])).getD (pos + 1) 0
    rw [hseq, List.getD_eq_getElem?_getD, List.getElem?_append_right hlen.le, hlen, Nat.sub_self]
    rfl

/-- What a run adds: the tokens, in their order and with their text, and all of them unless a call failed. -/
structure Adds (b : EngBpe) (st : RunState σ) (want : List Nat) (r : RunEnd × RunState σ) : Prop where
  produced : ∃ more, r.2.produced = st.produced ++ more ∧ more <+: want ∧ r.2.text = st.text ++ more.flatMap (shown b) ∧
    (r.1 ≠ .failed → more = want)

theorem Adds.none {st : RunState σ} {want : List Nat} {e : RunEnd} (s' : σ) (hend : e ≠ .failed → want = []) :
    Adds b st want (e, { st with s := s' }) :=
  ⟨[], (List.append_nil _).symm, List.nil_prefix, (List.append_nil _).symm, fun hok => (hend hok).symm⟩

/-- One more in front. -/
theorem Adds.cons {st : RunState σ} (s' : σ) {best : Nat} {want : List Nat} {r : RunEnd × RunState σ}
    (h : Adds b ⟨s', best, st.produced ++ [best], st.text ++ shown b best⟩ want r) : Adds b st (best :: want) r := by
  obtain ⟨more, hids, hpre, htext, hall⟩ := h.produced
  refine ⟨best :: more, ?_, (List.prefix_cons_inj best).mpr hpre, ?_, fun hok => by rw [hall hok]⟩
  · rw [hids, List.append_assoc]
    rfl
  · rw [htext, List.append_assoc, List.flatMap_cons]

/-- **The rounds from `pos` on** add the greedy tokens: one a round once the prompt is through. -/
theorem runRounds_adds (h : Follows B gt I next) (n : Nat) : ∀ {pos : Nat} {st : RunState σ}, At I ids ntok pos st →
    Adds b st (greedy next b.eos (min (n - (ids.length - 1 - pos)) (ntok - st.produced.length)) (ids ++ st.produced))
      (runRounds B gt b ids ntok n pos st) := by
  induction n with
  | zero =>
      intro pos st hat
      rw [Nat.zero_sub, Nat.zero_min]
      exact Adds.none st.s fun _ => rfl
  | succ n ih =>
      intro pos st hat
      unfold runRounds runRound
      dsimp only
      cases hd : B.decode st.s st.tok pos (decide (pos + 1 ≥ ids.length)) with
      | error s' => exact Adds.none s' fun hok => absurd rfl hok
      | ok s' =>
          obtain ⟨hfed, hbest⟩ := hat.decoded h hd
          dsimp only
          by_cases hlast : pos + 1 ≥ ids.length
          · obtain ⟨hlen, hall⟩ := hat.whole hlast
            have hnext := hbest (decide_eq_true hlast)
            rw [hall] at hnext
            have hcount : min (n + 1 - (ids.length - 1 - pos)) (ntok - st.produced.length) =
                min n (ntok - (st.produced.length + 1)) + 1 := by
              have := hat.room
              omega
            rw [decide_eq_true hlast, hcount, Bool.not_true, if_neg Bool.false_ne_true, hnext]
            unfold greedy
            split_ifs with heos hmany
            · exact Adds.none s' fun _ => rfl
            · have hzero : ntok - (st.produced.length + 1) = 0 := by
                rw [List.length_append] at hmany
                exact Nat.sub_eq_zero_of_le hmany
              rw [hzero, Nat.min_zero]
              exact Adds.cons s' (Adds.none s' fun _ => rfl)
            · have hrest := ih (hat.generate hlast hfed (next (ids ++ st.produced))
                (st.text ++ shown b (next (ids ++ st.produced))) (not_le.mp hmany))
              have hzero : ids.length - 1 - (pos + 1) = 0 := by omega
              rw [hzero, Nat.sub_zero, List.length_append, ← List.append_assoc] at hrest
              exact Adds.cons s' hrest
          · have hmore : pos + 1 < ids.length := not_le.mp hlast
            have hrest := ih (hat.prefill hmore hfed)
            have hcount : n + 1 - (ids.length - 1 - pos) = n - (ids.length - 1 - (pos + 1)) := by omega
            rw [decide_eq_false hlast, Bool.not_false, if_pos rfl, hcount]
            exact ⟨hrest.produced⟩

/-- **A run is greedy decoding**: what it produces begins the greedy continuation of the prompt and is printed behind
it; it is the whole of it, as many tokens as asked for and as the context holds, unless a call fails. -/
theorem run_greedy (h : Follows B gt I next) (hids : ids ≠ []) (hntok : 0 < ntok) (prompt : Bytes) {ctx : Nat}
    (hctx : ctx ≤ ids.length + ntok) {s : σ} (hs : I [] s) :
    ∃ more, (run B gt b ids ntok prompt ctx s).2.produced = more ∧
      more <+: greedy next b.eos (ctx - ids.length) ids ∧
      (run B gt b ids ntok prompt ctx s).2.text = prompt ++ more.flatMap (shown b) ∧
      ((run B gt b ids ntok prompt ctx s).1 ≠ .failed → more = greedy next b.eos (ctx - ids.length) ids) := by
  have hpos := List.length_pos_iff.mpr hids
  have hstart : At I ids ntok 0 ⟨s, ids.getD 0 0, [], prompt⟩ := by
    refine ⟨hs, ?_, ?_, .inl ⟨rfl, hpos⟩, hntok⟩
    · show 0 < (ids ++ []).length
      rwa [List.append_nil]
    · show ids.getD 0 0 = (ids ++ []).getD 0 0
      rw [List.append_nil]
  have hadds := (runRounds_adds (b := b) h (ctx - 1) hstart).produced
  have hcount : min (ctx - 1 - (ids.length - 1 - 0)) (ntok - 0) = ctx - ids.length := by omega
  rw [List.length_nil, hcount, List.append_nil] at hadds
  obtain ⟨more, hids', hpre, htext, hall⟩ := hadds
  exact ⟨more, hids', hpre, htext, hall⟩

/-- A backend that decodes every token of the vocabulary, at every position below `ctx`. -/
def Decodes (B : Backend σ F) (ctx : Nat) : Prop :=
  ∀ s t pos fl, t < B.vocab → pos < ctx → ∃ s', B.decode s t pos fl = .ok s'

/-- No call of such a run fails. -/
theorem runRounds_decodes {ctx : Nat} (hB : Decodes B ctx) (hids : ∀ t ∈ ids, t < B.vocab) (n : Nat) :
    ∀ {pos : Nat} {st : RunState σ}, st.tok < B.vocab → pos + n ≤ ctx →
      (runRounds B gt b ids ntok n pos st).1 ≠ .failed := by
  induction n with
  | zero =>
      intro pos st _ _ hend
      cases hend
  | succ n ih =>
      intro pos st htok hroom
      obtain ⟨s', hd⟩ := hB st.s st.tok pos (decide (pos + 1 ≥ ids.length)) htok (by omega)
      have hvocab : 0 < B.vocab := by omega
      unfold runRounds runRound
      dsimp only
      rw [hd]
      dsimp only
      by_cases hlast : pos + 1 ≥ ids.length
      · rw [decide_eq_true hlast, Bool.not_true, if_neg Bool.false_ne_true]
        split_ifs with heos hmany
        · intro hend
          cases hend
        · intro hend
          cases hend
        · exact ih (bestOf_lt gt (B.logits s') hvocab) (by omega)
      · rw [decide_eq_false hlast, Bool.not_false, if_pos rfl]
        refine ih ?_ (by omega)
        show ids.getD (pos + 1) 0 < B.vocab
        rw [List.getD_eq_getElem?_getD, List.getElem?_eq_getElem (not_le.mp hlast), Option.getD_some]
        exact hids _ (List.getElem_mem _)

theorem run_decodes {ctx : Nat} (hB : Decodes B ctx) (hids : ∀ t ∈ ids, t < B.vocab) (hne : ids ≠ []) (prompt : Bytes) (s : σ) :
    (run B gt b ids ntok prompt ctx s).1 ≠ .failed := by
  cases ctx with
  | zero =>
      intro hend
      cases hend
  | succ ctx =>
      refine runRounds_decodes hB hids (ctx + 1 - 1) ?_ (by omega)
      obtain ⟨t, rest, rfl⟩ := List.exists_cons_of_ne_nil hne
      exact hids t List.mem_cons_self

end Greedy

end LlmEngine.Cli.Run
