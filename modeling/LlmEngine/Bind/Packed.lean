/-
# LlmEngine.Bind.Packed — binding a layer from a packed run (`k3_bind_layer_mem`).

A packed run is a verbatim copy of a layer's tensors with a table that says where each one is.  Most
weights are pointed at in place; the vectors that are not fp32 there are widened (or, from an int8
draft trunk, dequantised) into an area beside the run, one after the other.

The loop of `k3_bind_layer_mem` is `memLoop`, one round of it `memOne`, over the plan of a layer
(`Bind.Plan`).  Its state is the pointers filled so far, the two flags that tell the kinds of trunk
apart, and the widen area with its cursor; a refusal is `none`, wherever it is made.

* `memOne_cases` says what one request can do;
* `MemInv` is what the loop has established after any part of the plan, and `MemInv.step` that a
  request keeps it: earlier vectors lie before the cursor, so a later one does not touch them;
* `bindLayerMem_inv` is the invariant of every layer that is bound;
* `bindLayerMem_isSome` says what a refusal goes by: the table, and never the bytes.
-/
import LlmEngine.Bind.Resident
import Mathlib.Data.Option.Basic

namespace LlmEngine.Bind

open LlmEngine.Core LlmEngine.Lib

/-- What the table of a run says of a tensor. -/
structure MemTensor where
  off : Int
  nbytes : Int
  dtype : K3Dtype
  deriving DecidableEq, Repr

/-- `K3MemSrc`: `find`, with its context. -/
abbrev K3MemSrc := String → Option MemTensor

/-- `k3_bind_widen_bytes`. -/
def k3BindWidenBytes (c : K3Cfg) : Int :=
  (6 * c.hidden + c.qLora + c.kvLora + c.latent + c.nExperts * c.hidden) * 4 + 4096

/-- The locals of the loop: `w`, the two flags, the pointers filled so far and the widen area. -/
structure MemState where
  w : Int
  narrowedAll : Bool
  i8Seen : Bool
  dest : Dest → Option Ptr
  widen : Mem

/-- `esz` of `k3_bind_layer_mem`, which knows of no empty element. -/
def memElemsize : K3Dtype → Int
  | .f32 => 4
  | .u8 => 1
  | _ => 2

/-- The rows of a tensor of `take` elements stored in `nb` bytes as int8 rows. -/
def i8Rows (nb take : Int) : Int := (nb - take).tdiv 4

/-- Element `i` of such a tensor at `p`, its row scale times its int8. -/
def i8Elem (ops : FloatOps) (m : Mem) (p cols i : Int) : BitVec 32 :=
  let row := p + i / cols * (4 + cols)
  ops.scaleI8 (m (row + 4 + i % cols)) (le32 m row)

def MemState.point (s : MemState) (q : Req) (p : Ptr) : MemState :=
  { s with dest := Function.update s.dest q.dest (some p) }

/-- `take` words written at the next aligned place of the widen area, if they fit. -/
def MemState.widened (s : MemState) (cap : Int) (q : Req) (f : Nat → BitVec 32) : Option MemState :=
  let w := align8 s.w
  if w + q.take * 4 > cap then none
  else some { s.point q (.widen w) with w := w + q.take * 4, widen := putWords32 s.widen w q.take f }

/-- One iteration of `k3_bind_layer_mem`; `none` is a refusal. -/
def memOne (ops : FloatOps) (run : Mem) (src : K3MemSrc) (cap : Int) (s : MemState) (q : Req) :
    Option MemState :=
  match src q.name with
  | none => none
  | some e =>
      if e.dtype = .i8r then
        if q.narrow then some { s.point q (.run e.off) with i8Seen := true }
        else if (e.nbytes - q.take).tmod 4 ≠ 0 then none
        else
          let rows := i8Rows e.nbytes q.take
          if rows ≤ 0 ∨ q.take.tmod rows ≠ 0 then none
          else s.widened cap q fun i => i8Elem ops run e.off (q.take.tdiv rows) i
      else
        let have_ := e.nbytes.tdiv (memElemsize e.dtype)
        if 0 ≤ q.want ∧ have_ ≠ q.want then none
        else if q.take > have_ then none
        else if q.narrow = true ∧ e.dtype = .bf16 then some (s.point q (.run e.off))
        else
          let s := if q.narrow then { s with narrowedAll := false } else s
          if e.dtype = .f32 then some (s.point q (.run e.off))
          else if e.dtype ≠ .bf16 then none
          else s.widened cap q fun i => bf16f (le16 run (e.off + 2 * i))

def memLoop (ops : FloatOps) (run : Mem) (src : K3MemSrc) (cap : Int) : List Req → MemState → Option MemState
  | [], s => some s
  | q :: qs, s =>
      match memOne ops run src cap s q with
      | none => none
      | some s => memLoop ops run src cap qs s

def MemState.start (widen : Mem) : MemState :=
  { w := 0, narrowedAll := true, i8Seen := false, dest := fun _ => none, widen := widen }

/-- `k3_bind_layer_mem`, with the widen area it leaves. -/
def bindLayerMem (ops : FloatOps) (c : K3Cfg) (L : Nat) (run : Mem) (src : K3MemSrc) (widen : Mem)
    (cap : Int) : Option (K3LayerBind × Mem) :=
  match memLoop ops run src cap (planLayer true c L) (MemState.start widen) with
  | none => none
  | some s =>
      if s.narrowedAll = false ∧ s.i8Seen = false then none
      else
        some ({ dest := s.dest
                wdt := if s.i8Seen then .i8 else .bf16
                kda := !c.isMla L
                mla := c.isMla L
                moe := !isDense c L }, s.widen)

/-! ## One request -/

/-- The table's size for the request is the one the configuration implies. -/
def MemTensor.Sized (e : MemTensor) (q : Req) : Prop :=
  (0 ≤ q.want → e.nbytes.tdiv (memElemsize e.dtype) = q.want) ∧
    q.take ≤ e.nbytes.tdiv (memElemsize e.dtype)

/-- What a widened vector holds at `i`. -/
def MemTensor.elem (e : MemTensor) (ops : FloatOps) (run : Mem) (q : Req) (i : Int) : BitVec 32 :=
  if e.dtype = .i8r then i8Elem ops run e.off (q.take.tdiv (i8Rows e.nbytes q.take)) i
  else bf16f (le16 run (e.off + 2 * i))

/-- **Everything one request can do**: a matrix or an fp32 vector is pointed at in place, any other
vector is widened. -/
theorem memOne_cases {ops : FloatOps} {run : Mem} {src : K3MemSrc} {cap : Int} {s s' : MemState} {q : Req}
    (h : memOne ops run src cap s q = some s') : ∃ e, src q.name = some e ∧
      ((q.narrow = true ∧ e.dtype = .i8r ∧ s' = { s.point q (.run e.off) with i8Seen := true }) ∨
        (q.narrow = true ∧ e.dtype = .bf16 ∧ e.Sized q ∧ s' = s.point q (.run e.off)) ∨
        (e.dtype = .f32 ∧ e.Sized q ∧
          s' = { s.point q (.run e.off) with narrowedAll := s.narrowedAll && !q.narrow }) ∨
        (q.narrow = false ∧ (e.dtype = .i8r ∨ e.dtype = .bf16 ∧ e.Sized q) ∧
          s.widened cap q (fun i => e.elem ops run q i) = some s')) := by
  unfold memOne at h
  cases hfind : src q.name with
  | none => simp [hfind] at h
  | some e =>
      simp only [hfind] at h
      refine ⟨e, rfl, ?_⟩
      by_cases hi8 : e.dtype = .i8r
      · rw [if_pos hi8] at h
        split_ifs at h with hn hmod hrows
        · exact Or.inl ⟨hn, hi8, (Option.some.inj h).symm⟩
        · refine Or.inr (Or.inr (Or.inr ⟨by simpa using hn, Or.inl hi8, ?_⟩))
          rw [← h]
          exact congrArg (s.widened cap q) (funext fun i => if_pos hi8)
      · rw [if_neg hi8] at h
        have hsized : ∀ (_ : ¬ (0 ≤ q.want ∧ e.nbytes.tdiv (memElemsize e.dtype) ≠ q.want))
            (_ : ¬ q.take > e.nbytes.tdiv (memElemsize e.dtype)), e.Sized q := by
          intro hwant htake
          exact ⟨fun hnn => not_not.mp fun hne => hwant ⟨hnn, hne⟩, not_lt.mp htake⟩
        split_ifs at h with hwant htake hbf16 hf32 hn hother hn
        · exact Or.inr (Or.inl ⟨hbf16.1, hbf16.2, hsized hwant htake, (Option.some.inj h).symm⟩)
        · refine Or.inr (Or.inr (Or.inl ⟨hf32, hsized hwant htake, ?_⟩))
          rw [← Option.some.inj h, hn]
          simp [MemState.point]
        · refine Or.inr (Or.inr (Or.inl ⟨hf32, hsized hwant htake, ?_⟩))
          rw [← Option.some.inj h, Bool.eq_false_iff.mpr hn]
          simp [MemState.point]
        · -- a bf16 matrix was pointed at already
          exact absurd ⟨hn, not_not.mp hother⟩ hbf16
        · refine Or.inr (Or.inr (Or.inr ⟨Bool.eq_false_iff.mpr hn,
            Or.inr ⟨not_not.mp hother, hsized hwant htake⟩, ?_⟩))
          rw [← h]
          exact congrArg (s.widened cap q) (funext fun i => if_neg hi8)

/-! ## The whole plan -/

/-- How a request is bound, in the state that came of it or a later one: pointed at where the run has
it, or widened below the cursor. -/
inductive MemState.Bound (ops : FloatOps) (run : Mem) (cap : Int) (s : MemState) (q : Req) (e : MemTensor) :
    Prop
  | matrixI8 (hn : q.narrow = true) (hi8 : e.dtype = .i8r) (hdest : s.dest q.dest = some (.run e.off))
  | matrixBf16 (hn : q.narrow = true) (hbf16 : e.dtype = .bf16) (hsized : e.Sized q)
      (hdest : s.dest q.dest = some (.run e.off))
  | inPlace (hf32 : e.dtype = .f32) (hsized : e.Sized q) (hdest : s.dest q.dest = some (.run e.off))
  | widened (o : Int) (hn : q.narrow = false) (hdt : e.dtype = .i8r ∨ e.dtype = .bf16 ∧ e.Sized q)
      (hdest : s.dest q.dest = some (.widen o)) (hlo : 0 ≤ o) (hhi : o + 4 * q.take ≤ s.w)
      (hcap : o + 4 * q.take ≤ cap)
      (hwords : ∀ i : Nat, i < q.take → le32 s.widen (o + 4 * i) = e.elem ops run q i)

/-- A later state keeps the binding, as long as it writes behind the cursor. -/
theorem MemState.Bound.frame {ops : FloatOps} {run : Mem} {cap : Int} {s s' : MemState} {q : Req}
    {e : MemTensor} (h : s.Bound ops run cap q e) (hdest : s'.dest q.dest = s.dest q.dest) (hw : s.w ≤ s'.w)
    (hkept : Kept s.widen s'.widen s.w s'.w) : s'.Bound ops run cap q e := by
  cases h with
  | matrixI8 hn hi8 hd => exact .matrixI8 hn hi8 (hdest.trans hd)
  | matrixBf16 hn hbf16 hsized hd => exact .matrixBf16 hn hbf16 hsized (hdest.trans hd)
  | inPlace hf32 hsized hd => exact .inPlace hf32 hsized (hdest.trans hd)
  | widened o hn hdt hd hlo hhi hcap hwords =>
      refine .widened o hn hdt (hdest.trans hd) hlo (hhi.trans hw) hcap fun i hi => ?_
      have hsame := hkept.same (p := o) (n := 4 * q.take) (Or.inl hhi)
      rw [hsame.word32 (by omega) (by omega)]
      exact hwords i hi

/-- What one request does to the state: its pointer and its binding, the two flags, and what is left
alone. -/
structure MemStep (ops : FloatOps) (run : Mem) (cap : Int) (s s' : MemState) (q : Req) (e : MemTensor) :
    Prop where
  dest : ∃ p, s'.dest = Function.update s.dest q.dest (some p) ∧ ∀ o, p = .widen o → s.w ≤ o
  bound : s'.Bound ops run cap q e
  grows : s.w ≤ s'.w
  kept : Kept s.widen s'.widen s.w s'.w
  inside : Kept s.widen s'.widen 0 cap
  i8Seen : s'.i8Seen = (s.i8Seen || (q.narrow && decide (e.dtype = .i8r)))
  narrowedAll : s'.narrowedAll = (s.narrowedAll && !(q.narrow && decide (e.dtype = .f32)))

/-- A request that is pointed at where it is. -/
theorem MemStep.pointed {ops : FloatOps} {run : Mem} {cap : Int} {s s' : MemState} {q : Req} {e : MemTensor}
    (hdest : s'.dest = Function.update s.dest q.dest (some (.run e.off)))
    (hbound : s'.dest q.dest = some (.run e.off) → s'.Bound ops run cap q e) (hw : s'.w = s.w)
    (hwiden : s'.widen = s.widen) (hi8 : s'.i8Seen = (s.i8Seen || (q.narrow && decide (e.dtype = .i8r))))
    (hall : s'.narrowedAll = (s.narrowedAll && !(q.narrow && decide (e.dtype = .f32)))) :
    MemStep ops run cap s s' q e where
  dest := ⟨.run e.off, hdest, fun o h => nomatch h⟩
  bound := hbound (by rw [hdest, Function.update_self])
  grows := hw.ge
  kept := by rw [hwiden]; exact Kept.refl _ _ _
  inside := by rw [hwiden]; exact Kept.refl _ _ _
  i8Seen := hi8
  narrowedAll := hall

/-- **One request.** -/
theorem memOne_step {ops : FloatOps} {run : Mem} {src : K3MemSrc} {cap : Int} {s s' : MemState} {q : Req}
    (hw : 0 ≤ s.w) (htake : 0 ≤ q.take) (h : memOne ops run src cap s q = some s') :
    ∃ e, src q.name = some e ∧ MemStep ops run cap s s' q e := by
  obtain ⟨e, hfind, hcases⟩ := memOne_cases h
  refine ⟨e, hfind, ?_⟩
  obtain ⟨hn, hi8, rfl⟩ | ⟨hn, hbf16, hsized, rfl⟩ | ⟨hf32, hsized, rfl⟩ | ⟨hn, hdt, hwidened⟩ := hcases
  · refine .pointed rfl (.matrixI8 hn hi8) rfl rfl ?_ ?_
    · simp [hn, hi8]
    · simp [MemState.point, hi8]
  · refine .pointed rfl (.matrixBf16 hn hbf16 hsized) rfl rfl ?_ ?_
    · simp [MemState.point, hbf16]
    · simp [MemState.point, hbf16]
  · refine .pointed rfl (.inPlace hf32 hsized) rfl rfl ?_ ?_
    · simp [MemState.point, hf32]
    · simp [hf32]
  · unfold MemState.widened at hwidened
    have halign : s.w ≤ align8 s.w := by
      unfold align8
      omega
    generalize align8 s.w = w at hwidened halign
    simp only at hwidened
    split_ifs at hwidened with hcap
    obtain rfl := Option.some.inj hwidened
    have hkept : Kept s.widen (putWords32 s.widen w q.take fun i => e.elem ops run q i) w (w + q.take * 4) := by
      rw [mul_comm]
      exact putBytes_kept _ _ _ _
    refine ⟨⟨.widen w, rfl, fun o ho => ?_⟩, .widened w hn hdt ?_ (by omega) ?_ (by omega) ?_, ?_, ?_, ?_, ?_, ?_⟩
    · cases ho
      exact halign
    · exact Function.update_self ..
    · show w + 4 * q.take ≤ w + q.take * 4
      omega
    · exact fun i hi => le32_putWords32 s.widen w q.take _ hi
    · show s.w ≤ w + q.take * 4
      omega
    · exact hkept.trans (Kept.refl _ s.w s.w) halign (le_refl _) (le_refl _)
        (show s.w ≤ w + q.take * 4 by omega)
    · exact hkept.trans (Kept.refl _ 0 cap) (by omega) (le_refl _) (by omega) (le_refl _)
    · simp [MemState.point, hn]
    · simp [MemState.point, hn]

/-- What holds after the requests `done`. -/
structure MemInv (ops : FloatOps) (run : Mem) (src : K3MemSrc) (cap : Int) (widen₀ : Mem) (done : List Req)
    (s : MemState) : Prop where
  bound : ∀ q ∈ done, ∃ e, src q.name = some e ∧ s.Bound ops run cap q e
  others : ∀ d, d ∉ done.map Req.dest → s.dest d = none
  /-- no two vectors share a byte of the widen area -/
  apart : ∀ q ∈ done, ∀ q' ∈ done, q.dest ≠ q'.dest → ∀ o o', s.dest q.dest = some (.widen o) →
    s.dest q'.dest = some (.widen o') → o + 4 * q.take ≤ o' ∨ o' + 4 * q'.take ≤ o
  i8Seen : s.i8Seen = true ↔ ∃ q ∈ done, q.narrow = true ∧ ∃ e, src q.name = some e ∧ e.dtype = .i8r
  narrowedAll : s.narrowedAll = true ↔
    ∀ q ∈ done, q.narrow = true → ∀ e, src q.name = some e → e.dtype ≠ .f32
  cursor : 0 ≤ s.w
  /-- nothing outside the area was written -/
  inside : Kept widen₀ s.widen 0 cap

theorem MemInv.start (ops : FloatOps) (run : Mem) (src : K3MemSrc) (cap : Int) (widen : Mem) :
    MemInv ops run src cap widen [] (MemState.start widen) where
  bound := fun q hq => absurd hq List.not_mem_nil
  others := fun _ _ => rfl
  apart := fun q hq => absurd hq List.not_mem_nil
  i8Seen := by simp [MemState.start]
  narrowedAll := by simp [MemState.start]
  cursor := le_refl 0
  inside := Kept.refl _ _ _

/-- A vector that was widened ends below the cursor and inside the area. -/
theorem MemState.Bound.widen_range {ops : FloatOps} {run : Mem} {cap : Int} {s : MemState} {q : Req}
    {e : MemTensor} (h : s.Bound ops run cap q e) {o : Int} (hdest : s.dest q.dest = some (.widen o)) :
    0 ≤ o ∧ o + 4 * q.take ≤ s.w ∧ o + 4 * q.take ≤ cap := by
  cases h with
  | matrixI8 hn hi8 hd => rw [hd] at hdest; nomatch hdest
  | matrixBf16 hn hbf16 hsized hd => rw [hd] at hdest; nomatch hdest
  | inPlace hf32 hsized hd => rw [hd] at hdest; nomatch hdest
  | widened o' hn hdt hd hlo hhi hcap hwords =>
      rw [hd, Option.some.injEq, Ptr.widen.injEq] at hdest
      subst hdest
      exact ⟨hlo, hhi, hcap⟩

section Run

variable {ops : FloatOps} {run : Mem} {src : K3MemSrc} {cap : Int} {widen₀ : Mem}

/-- **One request keeps the invariant**, if its pointer was not filled before. -/
theorem MemInv.step {done : List Req} {s s' : MemState} {q : Req} (hinv : MemInv ops run src cap widen₀ done s)
    (hfresh : q.dest ∉ done.map Req.dest) (htake : 0 ≤ q.take) (h : memOne ops run src cap s q = some s') :
    MemInv ops run src cap widen₀ (done ++ [q]) s' := by
  obtain ⟨e, hfind, hstep⟩ := memOne_step hinv.cursor htake h
  obtain ⟨p, hdest, hp⟩ := hstep.dest
  have hold : ∀ q' ∈ done, s'.dest q'.dest = s.dest q'.dest := by
    intro q' hq'
    rw [hdest, Function.update_of_ne]
    rintro heq
    exact hfresh (heq ▸ List.mem_map_of_mem hq')
  have hnew : ∀ o, s'.dest q.dest = some (.widen o) → s.w ≤ o := by
    intro o ho
    rw [hdest, Function.update_self, Option.some.injEq] at ho
    exact hp o ho
  have hbelow : ∀ q' ∈ done, ∀ o, s'.dest q'.dest = some (.widen o) → o + 4 * q'.take ≤ s.w := by
    intro q' hq' o ho
    obtain ⟨e', -, hb⟩ := hinv.bound q' hq'
    exact (hb.widen_range ((hold q' hq').symm.trans ho)).2.1
  refine ⟨fun q' hq' => ?_, fun d hd => ?_, fun q₁ hq₁ q₂ hq₂ hne o₁ o₂ ho₁ ho₂ => ?_, ?_, ?_,
    hinv.cursor.trans hstep.grows, hinv.inside.trans hstep.inside (le_refl _) (le_refl _) (le_refl _) (le_refl _)⟩
  · rw [List.mem_append, List.mem_singleton] at hq'
    obtain hq' | rfl := hq'
    · obtain ⟨e', hfind', hb⟩ := hinv.bound q' hq'
      exact ⟨e', hfind', hb.frame (hold q' hq') hstep.grows hstep.kept⟩
    · exact ⟨e, hfind, hstep.bound⟩
  · rw [List.map_append, List.mem_append, not_or, List.map_singleton, List.mem_singleton] at hd
    rw [hdest, Function.update_of_ne hd.2]
    exact hinv.others d hd.1
  · rw [List.mem_append, List.mem_singleton] at hq₁ hq₂
    obtain hq₁ | rfl := hq₁ <;> obtain hq₂ | rfl := hq₂
    · exact hinv.apart q₁ hq₁ q₂ hq₂ hne o₁ o₂ ((hold q₁ hq₁).symm.trans ho₁) ((hold q₂ hq₂).symm.trans ho₂)
    · exact Or.inl ((hbelow q₁ hq₁ o₁ ho₁).trans (hnew o₂ ho₂))
    · exact Or.inr ((hbelow q₂ hq₂ o₂ ho₂).trans (hnew o₁ ho₁))
    · exact absurd rfl hne
  · rw [hstep.i8Seen, Bool.or_eq_true, hinv.i8Seen, Bool.and_eq_true, decide_eq_true_eq]
    simp only [List.mem_append, List.mem_singleton, or_and_right, exists_or, exists_eq_left, hfind,
      Option.some.injEq, exists_eq_left']
  · rw [hstep.narrowedAll, Bool.and_eq_true, hinv.narrowedAll, Bool.not_eq_true', Bool.and_eq_false_iff,
      decide_eq_false_iff_not]
    simp only [List.forall_mem_append, List.forall_mem_singleton, hfind, Option.some.injEq, forall_eq']
    cases q.narrow <;> simp

/-- **The whole loop keeps the invariant.** -/
theorem memLoop_inv : ∀ {qs done : List Req} {s s' : MemState}, MemInv ops run src cap widen₀ done s →
    ((done ++ qs).map Req.dest).Nodup → (∀ q ∈ qs, 0 ≤ q.take) → memLoop ops run src cap qs s = some s' →
    MemInv ops run src cap widen₀ (done ++ qs) s'
  | [], done, s, s', hinv, _, _, h => by
      obtain rfl := Option.some.inj h
      rwa [List.append_nil]
  | q :: qs, done, s, s', hinv, hnodup, htake, h => by
      unfold memLoop at h
      cases hone : memOne ops run src cap s q with
      | none => simp [hone] at h
      | some s₁ =>
          simp only [hone] at h
          have hfresh : q.dest ∉ done.map Req.dest := by
            rw [List.map_append, List.nodup_append] at hnodup
            exact fun hmem => hnodup.2.2 _ hmem _ (List.mem_cons_self ..) rfl
          have hassoc : done ++ q :: qs = done ++ [q] ++ qs := by simp
          rw [hassoc] at hnodup ⊢
          exact memLoop_inv (hinv.step hfresh (htake q (List.mem_cons_self ..)) hone) hnodup
            (fun q' hq' => htake q' (List.mem_cons_of_mem _ hq')) h

end Run

/-- **A bound layer**: the invariant after the whole plan, and a layer that is not all bf16 is accepted
only with an int8 matrix in it. -/
theorem bindLayerMem_inv {ops : FloatOps} {c : K3Cfg} {L : Nat} {run : Mem} {src : K3MemSrc} {widen widen' : Mem}
    {cap : Int} {b : K3LayerBind} (h : bindLayerMem ops c L run src widen cap = some (b, widen')) :
    ∃ s : MemState, MemInv ops run src cap widen (planLayer true c L) s ∧
      (s.narrowedAll = true ∨ s.i8Seen = true) ∧ widen' = s.widen ∧ b.dest = s.dest ∧
      b.wdt = (if s.i8Seen then .i8 else .bf16) ∧ b.kda = !c.isMla L ∧ b.mla = c.isMla L ∧
      b.moe = !isDense c L := by
  unfold bindLayerMem at h
  cases hloop : memLoop ops run src cap (planLayer true c L) (MemState.start widen) with
  | none => simp [hloop] at h
  | some s =>
      simp only [hloop] at h
      have hmixed : ¬ (s.narrowedAll = false ∧ s.i8Seen = false) := by
        intro hmixed
        rw [if_pos hmixed] at h
        nomatch h
      rw [if_neg hmixed] at h
      obtain ⟨rfl, rfl⟩ := Prod.mk.inj (Option.some.inj h)
      refine ⟨s, ?_, ?_, rfl, rfl, rfl, rfl, rfl, rfl⟩
      · have htake : ∀ q ∈ planLayer true c L, 0 ≤ q.take := by
          intro q hq
          rw [(planLayer_fits L q hq).take]
          exact Int.natCast_nonneg _
        have hinv : MemInv ops run src cap widen ([] ++ planLayer true c L) s :=
          memLoop_inv (MemInv.start ops run src cap widen) (planLayer_dests true c L) htake hloop
        exact hinv
      · by_contra hno
        rw [not_or, Bool.not_eq_true, Bool.not_eq_true] at hno
        exact hmixed hno

/-! ## What decides whether a layer is bound -/

/-- Two runs of the loop that have come to the same place. -/
structure MemState.Like (s s' : MemState) : Prop where
  w : s.w = s'.w
  narrowedAll : s.narrowedAll = s'.narrowedAll
  i8Seen : s.i8Seen = s'.i8Seen

section Like

variable {ops : FloatOps} {run run' : Mem} {src : K3MemSrc} {cap : Int} {s s' : MemState} {q : Req}

theorem MemState.Like.widened (h : s.Like s') (f f' : Nat → BitVec 32) :
    Option.Rel MemState.Like (s.widened cap q f) (s'.widened cap q f') := by
  unfold MemState.widened
  dsimp only
  rw [h.w]
  split_ifs
  · exact .none
  · exact .some ⟨rfl, h.narrowedAll, h.i8Seen⟩

/-- A request goes by the table. -/
theorem memOne_like (h : s.Like s') : Option.Rel MemState.Like (memOne ops run src cap s q) (memOne ops run' src cap s' q) := by
  have hpoint : ∀ p, (s.point q p).Like (s'.point q p) := fun _ => ⟨h.w, h.narrowedAll, h.i8Seen⟩
  unfold memOne
  cases src q.name with
  | none => exact .none
  | some e =>
      dsimp only
      split_ifs
      · exact .some ⟨h.w, h.narrowedAll, rfl⟩
      · exact .none
      · exact .none
      · exact h.widened _ _
      · exact .none
      · exact .none
      · exact .some (hpoint _)
      · exact .some ⟨h.w, rfl, h.i8Seen⟩
      · exact .some (hpoint _)
      · exact .none
      · apply MemState.Like.widened
        exact ⟨h.w, rfl, h.i8Seen⟩
      · exact h.widened _ _

theorem memLoop_like (qs : List Req) : ∀ {s s' : MemState}, s.Like s' →
    Option.Rel MemState.Like (memLoop ops run src cap qs s) (memLoop ops run' src cap qs s') := by
  induction qs with
  | nil => exact fun h => .some h
  | cons q qs ih =>
      intro s s' h
      have hone : Option.Rel MemState.Like (memOne ops run src cap s q) (memOne ops run' src cap s' q) := memOne_like h
      unfold memLoop
      cases hs : memOne ops run src cap s q with
      | none =>
          cases hs' : memOne ops run' src cap s' q with
          | none => exact .none
          | some t' =>
              rw [hs, hs'] at hone
              cases hone
      | some t =>
          cases hs' : memOne ops run' src cap s' q with
          | none =>
              rw [hs, hs'] at hone
              cases hone
          | some t' =>
              rw [hs, hs', Option.rel_some_some] at hone
              exact ih hone

/-- **Whether a layer is bound is a matter of its table**: what the run and the widen area hold makes no difference. -/
theorem bindLayerMem_isSome (ops : FloatOps) (c : K3Cfg) (L : Nat) (run run' : Mem) (src : K3MemSrc) (widen widen' : Mem)
    (cap : Int) : (bindLayerMem ops c L run src widen cap).isSome = (bindLayerMem ops c L run' src widen' cap).isSome := by
  have hloop : Option.Rel MemState.Like (memLoop ops run src cap (planLayer true c L) (.start widen))
      (memLoop ops run' src cap (planLayer true c L) (.start widen')) := memLoop_like _ ⟨rfl, rfl, rfl⟩
  unfold bindLayerMem
  cases hs : memLoop ops run src cap (planLayer true c L) (.start widen) with
  | none =>
      cases hs' : memLoop ops run' src cap (planLayer true c L) (.start widen') with
      | none => rfl
      | some t' =>
          rw [hs, hs'] at hloop
          cases hloop
  | some t =>
      cases hs' : memLoop ops run' src cap (planLayer true c L) (.start widen') with
      | none =>
          rw [hs, hs'] at hloop
          cases hloop
      | some t' =>
          rw [hs, hs', Option.rel_some_some] at hloop
          dsimp only
          rw [hloop.narrowedAll, hloop.i8Seen]
          split_ifs <;> rfl

end Like
end LlmEngine.Bind
