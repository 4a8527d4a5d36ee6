/-
# LlmEngine.Models.Qwen3Run — `llm-engine run` on a dense model (`src/app/cli.c`, `src/models/qwen3/qwen3.c`).

The loop of `cmd_run` over `qwen3_decode`.  The plan sizes the context and the streamer, and decides whether the
LM head is held in memory; storage decides which reads succeed.  None of it is in the text: the tokens are the
greedy continuation of the prompt under the logits computed from nothing, as far as the run gets.

* `backend` is the decoder as the loop of `cmd_run` sees it (`Cli.Run`): a state, a call for a token, the best token.
* `backend_follows`: the invariant is that the rows are those of the tokens (`Holds`), by `qwen3Decode_holds`.
* `cmd_run_greedy`: what is produced begins the greedy continuation, and `cmd_run_whole` that with storage that
  works it is all of it.
* `plans_agree` compares two plans: the layout is the container's alone (`Loaded.same`), so the logits are.

`Fits` is what the plan's context and the container's shapes have to satisfy, and `CallIo.Honest` what the streamer's
blocks do (`Models.Qwen3Recompute`).
-/
import LlmEngine.Cli.Run
import LlmEngine.Models.Qwen3Recompute

namespace LlmEngine.Models.Qwen3

open LlmEngine.Cli.Run
open LlmEngine.Core (Arith Vec)
open LlmEngine.Formats
open LlmEngine.Lib.LittleEndian
open LlmEngine.Runtime
open LlmEngine.Tokenizer (EngBpe)

section Runs

variable {D : Type} [Arith D] [Arith (BitVec 32)]

section Backend

variable (e : Engine D) (f : File) (m : EngModel)

/-- `eng_backend_qwen3`, as the loop uses it; `io` says which reads succeed at a position. -/
def backend (seq : EngSeqState) (io : Nat → CallIo) : Backend DecodeState (BitVec 32) where
  decode := fun s tok pos logits => qwen3Decode e f m seq s ⟨tok, pos, logits, io pos⟩
  logits := DecodeState.logits
  vocab := m.layout.vocab.toNat

/-- The best token behind a sequence. -/
def nextToken (toks : List Nat) : Nat :=
  bestOf e.fp.gt (forwardLogits e f m (toks.map Int.ofNat)) m.layout.vocab.toNat

/-- `cmd_run`, from the loop on. -/
def cmdRun (seq : EngSeqState) (io : Nat → CallIo) (b : EngBpe) (ids : List Nat) (ntok : Nat) (prompt : Bytes)
    (s : DecodeState) : RunEnd × RunState DecodeState :=
  run (backend e f m seq io) e.fp.gt b ids ntok prompt seq.context.toNat s

end Backend

/-- The dense backend has the logits of the tokens it is fed. -/
theorem backend_follows (e : Engine D) {f : File} {direct threadOk : Bool} {plan : Option EngPlan} {force : Option Bool}
    {m : EngModel} {seq : EngSeqState} (h : Loaded f direct threadOk plan force m) {context : Int}
    (hseq : stateCreate m context = some seq) (hfit : Fits m seq) {io : Nat → CallIo} (hio : ∀ pos, (io pos).Honest f m) :
    Follows (backend e f m seq io) e.fp.gt (fun toks s => Played e f m seq (toks.map Int.ofNat) s) (nextToken e f m) := by
  refine ⟨fun {toks s t fl s'} hp hd => ?_⟩
  have hpos : ((toks.length : Nat) : Int) ≤ (toks.map Int.ofNat).length := by
    rw [List.length_map]
  have htake : (toks.map Int.ofNat).take ((toks.length : Nat) : Int).toNat ++ [(t : Int)] = (toks ++ [t]).map Int.ofNat := by
    rw [Int.toNat_natCast, List.take_of_length_le (by rw [List.length_map]), List.map_append]
    rfl
  refine ⟨?_, fun hfl => ?_⟩
  · have hcall := Played.call (c := ⟨t, toks.length, fl, io toks.length⟩) hp (fun _ _ => hio _)
      (.inl hpos)
    rw [show qwen3Decode e f m seq s ⟨t, toks.length, fl, io toks.length⟩ = .ok s' from hd] at hcall
    rw [← htake]
    exact hcall
  · unfold nextToken
    rw [← htake]
    exact bestOf_congr e.fp.gt (hp.logits (c := ⟨t, toks.length, fl, io toks.length⟩) h hseq hfit (hio _) hpos hd hfl)

section Run

variable (e : Engine D) {f : File} {direct threadOk : Bool} {plan : EngPlan} {force : Option Bool} {m : EngModel}
  {seq : EngSeqState}

/-- **`llm-engine run` is greedy decoding**: under any plan, with the head in memory or not, whatever the buffers held
and whichever reads fail, as long as the blocks handed out are those of the file, the tokens are the first ones of the
greedy continuation of the prompt, and the text is theirs; and they are all of it, up to the end of the text and the
room the context has, unless a call fails. -/
theorem cmd_run_greedy (h : Loaded f direct threadOk (some plan) force m) {ids : List Nat} (hids : ids ≠ []) {ntok : Nat}
    (hntok : 0 < ntok) {ctx : Int} (hctx : runContext plan ids.length ntok = some ctx) (hseq : stateCreate m ctx = some seq)
    (hfit : Fits m seq) {io : Nat → CallIo} (hio : ∀ pos, (io pos).Honest f m) (b : EngBpe) (prompt : Bytes)
    (s : DecodeState) :
    ∃ more, (cmdRun e f m seq io b ids ntok prompt s).2.produced = more ∧
      more <+: greedy (nextToken e f m) b.eos (ctx.toNat - ids.length) ids ∧
      (cmdRun e f m seq io b ids ntok prompt s).2.text = prompt ++ more.flatMap (shown b) ∧
      ((cmdRun e f m seq io b ids ntok prompt s).1 ≠ .failed →
        more = greedy (nextToken e f m) b.eos (ctx.toNat - ids.length) ids) := by
  have hcontext := (stateCreate_floats hseq).1
  have hle : ctx ≤ ids.length + ntok := by
    unfold runContext at hctx
    dsimp only at hctx
    rw [Option.ite_none_left_eq_some, Option.some.injEq] at hctx
    obtain ⟨-, rfl⟩ := hctx
    split_ifs <;> omega
  unfold cmdRun
  rw [hcontext]
  exact run_greedy (backend_follows e h hseq hfit hio) hids hntok prompt (by omega) (.start s)

/-- A container every token of which can be decoded. -/
structure Servable (f : File) (m : EngModel) : Prop where
  steps : ∀ token, 0 ≤ token → token < m.layout.vocab →
    performed f m.layout token false = m.layout.steps token false
  head : HeadPasses f m (.ofFile f m)

theorem Servable.decodes (h : Loaded f direct threadOk (some plan) force m) (hf : Servable f m) :
    Decodes (backend e f m seq fun _ => .ofFile f m) seq.context.toNat := by
  intro s t pos fl ht hpos
  have hvocab : ((t : Nat) : Int) < m.layout.vocab := by
    have : t < m.layout.vocab.toNat := ht
    omega
  have hsteps := hf.steps t (Int.natCast_nonneg t) hvocab
  unfold performed at hsteps
  rw [List.takeWhile_eq_self_iff] at hsteps
  obtain ⟨hembd, hlayers⟩ := (steps_pass h t false).mp hsteps
  refine (qwen3Decode_isOk e s _).mpr ⟨?_, rfl, hembd, hlayers, fun _ => hf.head⟩
  unfold Call.Refused
  dsimp only
  omega

/-- **With working storage the run is whole**: of a container that can be decoded, the tokens are the greedy
continuation of the prompt, up to the end of the text, the number asked for or what is left of the context. -/
theorem cmd_run_whole (h : Loaded f direct threadOk (some plan) force m) (hf : Servable f m) {ids : List Nat} (hids : ids ≠ [])
    (hvocab : ∀ t ∈ ids, t < m.layout.vocab.toNat) {ntok : Nat} (hntok : 0 < ntok) {ctx : Int}
    (hctx : runContext plan ids.length ntok = some ctx) (hseq : stateCreate m ctx = some seq) (hfit : Fits m seq) (b : EngBpe)
    (prompt : Bytes) (s : DecodeState) :
    (cmdRun e f m seq (fun _ => .ofFile f m) b ids ntok prompt s).2.produced =
        greedy (nextToken e f m) b.eos (ctx.toNat - ids.length) ids ∧
      (cmdRun e f m seq (fun _ => .ofFile f m) b ids ntok prompt s).2.text =
        prompt ++ (greedy (nextToken e f m) b.eos (ctx.toNat - ids.length) ids).flatMap (shown b) := by
  obtain ⟨more, hproduced, -, htext, hall⟩ :=
    cmd_run_greedy e h hids hntok hctx hseq hfit (fun _ => CallIo.ofFile_honest f m) b prompt s
  have hmore := hall (run_decodes (hf.decodes e h) hvocab hids prompt s)
  rw [hmore] at hproduced htext
  exact ⟨hproduced, htext⟩

end Run

/-! ## Whatever the plan -/

section Plans

variable {f : File} {direct direct' threadOk threadOk' : Bool} {plan plan' : Option EngPlan} {force force' : Option Bool}
  {m m' : EngModel}

omit [Arith (BitVec 32)] in
/-- Whatever the plan, the same weights are bound. -/
theorem Loaded.same (h : Loaded f direct threadOk plan force m) (h' : Loaded f direct' threadOk' plan' force' m') :
    m'.layout = m.layout ∧ m'.outNorm = m.outNorm := by
  obtain ⟨g, hopen, hl⟩ := h.opened
  obtain ⟨g', hopen', hl'⟩ := h'.opened
  obtain rfl := Option.some.inj (hopen.symm.trans hopen')
  have hlayout : m'.layout = m.layout := Except.ok.inj (hl'.symm.trans hl)
  refine ⟨hlayout, ?_⟩
  have hnorm := h'.outNorm
  rw [hlayout, h.outNorm] at hnorm
  exact (Option.some.inj hnorm).symm

/-- What is computed from nothing is computed from the weights. -/
theorem hidden_layout (e : Engine D) (f : File) {m m' : EngModel} (hl : m'.layout = m.layout) (toks : Nat → Int) (L : Nat) :
    ∀ pos, hidden e f m' toks L pos = hidden e f m toks L pos := by
  obtain ⟨l, _, _, _, _, _, _, _⟩ := m
  obtain ⟨l', _, _, _, _, _, _, _⟩ := m'
  obtain rfl : l' = l := hl
  induction L with
  | zero => exact fun pos => rfl
  | succ L ih =>
      intro pos
      unfold hidden
      rw [funext ih]
      rfl

theorem forwardLogits_layout (e : Engine D) (f : File) {m m' : EngModel} (hl : m'.layout = m.layout)
    (hn : m'.outNorm = m.outNorm) (toks : List Int) : forwardLogits e f m' toks = forwardLogits e f m toks := by
  unfold forwardLogits
  rw [hidden_layout e f hl, hl]
  unfold logitsOf
  rw [hn]
  unfold headProduct EngModel.d
  rw [hl]

theorem nextToken_layout (e : Engine D) (f : File) {m m' : EngModel} (hl : m'.layout = m.layout)
    (hn : m'.outNorm = m.outNorm) : nextToken e f m' = nextToken e f m := by
  funext toks
  unfold nextToken
  rw [forwardLogits_layout e f hl hn, hl]

/-- **The plan is not in the text.**  Two runs of a container, each under a plan of its own that fits, with its own
number of tokens, its own context, buffers and reads that fail, handed the blocks of the file where they do not, produce
the beginning of one sequence; and the longer context continues the other's where its run does not fail. -/
theorem plans_agree (e : Engine D) {p p' : EngPlan} (h : Loaded f direct threadOk (some p) force m)
    (h' : Loaded f direct' threadOk' (some p') force' m') {ids : List Nat} (hids : ids ≠ []) {ntok ntok' : Nat}
    (hntok : 0 < ntok) (hntok' : 0 < ntok') {ctx ctx' : Int} (hctx : runContext p ids.length ntok = some ctx)
    (hctx' : runContext p' ids.length ntok' = some ctx') {seq seq' : EngSeqState} (hseq : stateCreate m ctx = some seq)
    (hseq' : stateCreate m' ctx' = some seq') (hfit : Fits m seq) (hfit' : Fits m' seq') {io io' : Nat → CallIo}
    (hio : ∀ pos, (io pos).Honest f m) (hio' : ∀ pos, (io' pos).Honest f m') (b : EngBpe) (prompt : Bytes) (s s' : DecodeState) :
    ((cmdRun e f m seq io b ids ntok prompt s).2.produced <+: (cmdRun e f m' seq' io' b ids ntok' prompt s').2.produced ∨
      (cmdRun e f m' seq' io' b ids ntok' prompt s').2.produced <+: (cmdRun e f m seq io b ids ntok prompt s).2.produced) ∧
    (ctx ≤ ctx' → (cmdRun e f m' seq' io' b ids ntok' prompt s').1 ≠ .failed →
      (cmdRun e f m seq io b ids ntok prompt s).2.text <+: (cmdRun e f m' seq' io' b ids ntok' prompt s').2.text) := by
  obtain ⟨more, hids₁, hpre, htext, -⟩ := cmd_run_greedy e h hids hntok hctx hseq hfit hio b prompt s
  obtain ⟨more', hids₂, hpre', htext', hall'⟩ := cmd_run_greedy e h' hids hntok' hctx' hseq' hfit' hio' b prompt s'
  obtain ⟨hl, hn⟩ := h.same h'
  rw [nextToken_layout e f hl hn] at hpre' hall'
  rw [hids₁, hids₂, htext, htext']
  constructor
  · exact List.prefix_or_prefix_of_prefix
      (hpre.trans (greedy_begins _ _ (Nat.le_max_left _ (ctx'.toNat - ids.length)) ids))
      (hpre'.trans (greedy_begins _ _ (Nat.le_max_right (ctx.toNat - ids.length) _) ids))
  · intro hle hok
    have hgrow : more <+: more' := by
      rw [hall' hok]
      exact hpre.trans (greedy_begins _ _ (by omega) ids)
    obtain ⟨rest, rfl⟩ := hgrow
    rw [List.flatMap_append, ← List.append_assoc]
    exact List.prefix_append _ _

end Plans

end Runs

/-! ## The container of one layer, run -/

theorem oneLayer_bothHeads : ((engPlan ⟨0, 0⟩ oneLayerFacts ⟨2 ^ 30, 0, 1⟩).toOption.bind fun plan =>
    (oneLayerLayout.finish oneLayer false true (some plan) none).bind fun _ =>
      (oneLayerLayout.finish oneLayer false true (some plan) (some false)).bind fun _ => runContext plan 1 2) = some 3 := by
  decide +kernel

/-- Under a plan of a gigabyte it loads with the head in memory and with the head on storage. -/
theorem oneLayer_twice : ∃ plan m m', Loaded oneLayer false true (some plan) none m ∧
    Loaded oneLayer false true (some plan) (some false) m' ∧ m.layout = oneLayerLayout ∧ m'.layout = oneLayerLayout ∧
      runContext plan 1 2 = some 3 := by
  obtain ⟨plan, -, hrest⟩ := Option.bind_eq_some_iff.mp oneLayer_bothHeads
  obtain ⟨m, hm, hrest⟩ := Option.bind_eq_some_iff.mp hrest
  obtain ⟨m', hm', hctx⟩ := Option.bind_eq_some_iff.mp hrest
  have hload : qwen3Load oneLayer false true (some plan) none = .ok m := qwen3Load_eq_ok.mpr ⟨oneLayerLayout, oneLayer_laid, hm⟩
  have hload' : qwen3Load oneLayer false true (some plan) (some false) = .ok m' :=
    qwen3Load_eq_ok.mpr ⟨oneLayerLayout, oneLayer_laid, hm'⟩
  exact ⟨plan, m, m', qwen3Load_ok hload, qwen3Load_ok hload',
    Except.ok.inj ((qwen3Load_layout hload).symm.trans oneLayer_laid),
    Except.ok.inj ((qwen3Load_layout hload').symm.trans oneLayer_laid), hctx⟩

theorem oneLayer_state₃ {m : EngModel} (hl : m.layout = oneLayerLayout) : stateCreate m 3 = some ⟨3, 3⟩ := by
  unfold stateCreate EngModel.kvWidth
  rw [hl]
  decide

/-- A text of its two tokens, the end of it out of the vocabulary. -/
def abTokens : EngBpe where
  tok := [[97], [98]]
  tokType := [1, 1]
  vocab := []
  merge := []
  bos := -1
  eos := 2
  addBos := 0
  spec := []
  specFirst := fun _ => false

/-- Two tokens behind a prompt of one. -/
theorem oneLayer_whole : ∃ plan m, Loaded oneLayer false true (some plan) none m ∧
    (cmdRun bitEngine oneLayer m ⟨3, 3⟩ (fun _ => .ofFile oneLayer m) abTokens [1] 2 [98] .blank).2.produced =
      greedy (nextToken bitEngine oneLayer m) 2 2 [1] := by
  obtain ⟨plan, m, -, h, -, hl, -, hctx⟩ := oneLayer_twice
  have hserve : Servable oneLayer m := by
    refine ⟨fun token h0 hlt => ?_, oneLayer_head h hl fun _ => rfl⟩
    rw [hl] at hlt ⊢
    exact oneLayer_steps token h0 hlt false
  have hvocab : ∀ t ∈ [1], t < m.layout.vocab.toNat := by
    rw [hl]
    decide
  exact ⟨plan, m, h, (cmd_run_whole bitEngine h hserve (List.cons_ne_nil 1 []) hvocab (by decide) hctx (oneLayer_state₃ hl)
    (oneLayer_fits h hl (by decide)) abTokens [98] .blank).1⟩

/-- The head in memory, and the head on storage with a read of it that fails. -/
theorem oneLayer_plans : ∃ plan m m', (Loaded oneLayer false true (some plan) none m ∧
      Loaded oneLayer false true (some plan) (some false) m') ∧
    ∀ io, io = (fun _ => ⟨true, (CallIo.ofFile oneLayer m').layer, fun _ => false⟩) →
      (cmdRun bitEngine oneLayer m ⟨3, 3⟩ (fun _ => .ofFile oneLayer m) abTokens [1] 2 [98] .blank).2.produced <+:
          (cmdRun bitEngine oneLayer m' ⟨3, 3⟩ io abTokens [1] 2 [98] .blank).2.produced ∨
        (cmdRun bitEngine oneLayer m' ⟨3, 3⟩ io abTokens [1] 2 [98] .blank).2.produced <+:
          (cmdRun bitEngine oneLayer m ⟨3, 3⟩ (fun _ => .ofFile oneLayer m) abTokens [1] 2 [98] .blank).2.produced := by
  obtain ⟨plan, m, m', h, h', hl, hl', hctx⟩ := oneLayer_twice
  refine ⟨plan, m, m', ⟨h, h'⟩, fun io hio => ?_⟩
  have hhonest : ∀ pos, (io pos).Honest oneLayer m' := by
    rw [hio]
    exact fun _ => CallIo.ofFile_honest oneLayer m'
  exact (plans_agree bitEngine h h' (List.cons_ne_nil 1 []) (by decide) (by decide) hctx hctx (oneLayer_state₃ hl)
    (oneLayer_state₃ hl') (oneLayer_fits h hl (by decide)) (oneLayer_fits h' hl' (by decide))
    (fun _ => CallIo.ofFile_honest oneLayer m) hhonest abTokens [98] .blank .blank).1

end LlmEngine.Models.Qwen3
