/-
# LlmEngine.Core.Mla — gated multi-head latent attention (`k3_mla_cached`).

Softmax attention is the one mechanism that must see every earlier position.  The source first
writes the expanded key/value row and the shared rope row of every token of the call, at their
absolute positions, and only then attends, each token over the positions up to its own.

Attention at position `p` reads rows `0 … p` and no others (`attend_congr`), so writing the later
rows first makes no difference and the call is one token step (`mlaToken`) applied in order
(`mlaRows_eq_scan`).  For the same reason what a buffer holds at positions not yet written is
immaterial (`mlaToken_agree`), be it an old cache or uninitialised scratch.

    token t of the call, at position p = cached + t:   write row p;   attend over rows 0 … p

The buffer is the cache where there is one, and scratch of the call where there is none; a cache that has no room
for all the tokens refuses the call before anything is written (`mlaCached`).  The query and the rows go through
the latent projections with their norms; the rope part of a key is shared by the heads.  No rotation is applied to it.

A step depends on the rows below its position and on nothing else of the buffer, which is what lets a state file
store the occupied rows only, and a resumed run begin on a buffer with other contents behind them.
-/
import LlmEngine.Core.Ops
import LlmEngine.Lib.Buffer
import LlmEngine.Lib.Scan

namespace LlmEngine.Core

open LlmEngine.Lib LlmEngine.Lib.Buffer

/-- `K3MlaW`; `g` is absent when the output gate is disabled. -/
structure K3MlaW (F : Type) where
  qA : Mat F
  qB : Mat F
  kvA : Mat F
  kvB : Mat F
  o : Mat F
  g : Option (Mat F)
  qANorm : Vec F
  kvANorm : Vec F

/-- Key/value rows (`kvc`) and rope rows (`ropec`), by position. -/
structure Kv (F : Type) where
  kv : Nat → Vec F
  rope : Nat → Vec F

variable {F D : Type} [Arith F] [Arith D] (fp : Fpu F D) (c : K3NumCfg F)

/-- `qh`: the full head width. -/
def qkHead : Nat := c.qkNope + c.qkRope

/-- `kvd`: the cached width per head. -/
def kvHead : Nat := c.qkNope + c.vHead

/-! ## Projections -/

/-- The queries of one token. -/
def mlaQuery (w : K3MlaW F) (x : Vec F) : Vec F :=
  let ql := rmsnorm fp w.qANorm (mmw fp x w.qA c.hidden c.qLora) c.qLora c.rmsEps
  mmw fp ql w.qB c.qLora (c.nHeads * qkHead c)

/-- One projection emits the compressed latent and, behind it, the shared rope slot. -/
def mlaLatent (w : K3MlaW F) (x : Vec F) : Vec F :=
  mmw fp x w.kvA c.hidden (c.kvLora + c.qkRope)

/-- The rope row: the slot behind the latent, which the norm does not cover. -/
def ropeRow (w : K3MlaW F) (x : Vec F) : Vec F :=
  tab c.qkRope (ptr (mlaLatent fp c w x) c.kvLora)

/-- The expanded key/value row. -/
def kvRow (w : K3MlaW F) (x : Vec F) : Vec F :=
  mmw fp (rmsnorm fp w.kvANorm (mlaLatent fp c w x) c.kvLora c.rmsEps) w.kvB c.kvLora
    (c.nHeads * kvHead c)

/-- The rows of the tokens `xs` written from position `p` on. -/
def writeRows (w : K3MlaW F) (buf : Kv F) (p : Nat) (xs : List (Vec F)) : Kv F :=
  { kv := overwrite buf.kv p (xs.map (kvRow fp c w))
    rope := overwrite buf.rope p (xs.map (ropeRow fp c w)) }

/-! ## Attention -/

/-- The score of position `s` for head `h`: the nope part against the head's key, then the rope part
against the slot every head shares. -/
def mlaScore (buf : Kv F) (q : Vec F) (h s : Nat) : F :=
  let qt := ptr q (h * qkHead c)
  let ks := ptr (buf.kv s) (h * kvHead c)
  let nope : D := loop c.qkNope 0 fun d i => d + fp.wide (qt i) * fp.wide (ks i)
  let d : D := loop c.qkRope nope fun d i =>
    d + fp.wide (qt (c.qkNope + i)) * fp.wide (buf.rope s i)
  fp.narrow d * (1 / fp.sqrtf (fp.ofInt (qkHead c)))

/-- One head over positions `0 … p`: running maximum, exponentials with their sum in double, and the
weighted values. -/
def attendHead (buf : Kv F) (p : Nat) (q : Vec F) (h : Nat) : Vec F :=
  let sc := fun s => mlaScore fp c buf q h s
  let m := loop (p + 1) fp.negInfinity fun m s => if fp.gt (sc s) m then sc s else m
  let e := fun s => fp.expf (sc s - m)
  let z : D := loop (p + 1) 0 fun z s => z + fp.wide (e s)
  fun j => loop (p + 1) 0 fun o s =>
    o + fp.narrow (fp.wide (e s) / z) * buf.kv s (h * kvHead c + c.qkNope + j)

/-- All heads of the token at position `p`. -/
def attend (buf : Kv F) (p : Nat) (q : Vec F) : Vec F :=
  tab (c.nHeads * c.vHead) fun i => attendHead fp c buf p q (i / c.vHead) (i % c.vHead)

/-- The output gate, before the projection and with no norm. -/
def mlaOut (w : K3MlaW F) (x acc : Vec F) : Vec F :=
  let width := c.nHeads * c.vHead
  let gated :=
    match w.g with
    | some g => tab width fun i => acc i * sigmoid fp (mmw fp x g c.hidden width i)
    | none => acc
  mmw fp gated w.o width c.hidden

/-- Two buffers that hold the same rows below `n`. -/
def Kv.AgreeBelow (a b : Kv F) (n : Nat) : Prop :=
  ∀ s < n, a.kv s = b.kv s ∧ a.rope s = b.rope s

theorem mlaScore_congr {a b : Kv F} {s : Nat} (hkv : a.kv s = b.kv s)
    (hrope : a.rope s = b.rope s) (q : Vec F) (h : Nat) :
    mlaScore fp c a q h s = mlaScore fp c b q h s := by
  unfold mlaScore
  rw [hkv, hrope]

/-- **Causality.**  Attention at `p` reads the rows up to `p` only. -/
theorem attend_congr {a b : Kv F} {p : Nat} (hab : a.AgreeBelow b (p + 1)) (q : Vec F) :
    attend fp c a p q = attend fp c b p q := by
  have hsc : ∀ h, ∀ s < p + 1, mlaScore fp c a q h s = mlaScore fp c b q h s := by
    intro h s hs
    obtain ⟨hkv, hrope⟩ := hab s hs
    exact mlaScore_congr fp c hkv hrope q h
  have hmax : ∀ h,
      (loop (p + 1) fp.negInfinity fun m s =>
        if fp.gt (mlaScore fp c a q h s) m then mlaScore fp c a q h s else m) =
      loop (p + 1) fp.negInfinity fun m s =>
        if fp.gt (mlaScore fp c b q h s) m then mlaScore fp c b q h s else m := by
    intro h
    apply loop_congr
    intro s hs m
    rw [hsc h s hs]
  have hsum : ∀ h (m : F),
      (loop (p + 1) (0 : D) fun z s => z + fp.wide (fp.expf (mlaScore fp c a q h s - m))) =
      loop (p + 1) (0 : D) fun z s => z + fp.wide (fp.expf (mlaScore fp c b q h s - m)) := by
    intro h m
    apply loop_congr
    intro s hs z
    rw [hsc h s hs]
  unfold attend
  congr 1
  funext i
  unfold attendHead
  dsimp only
  rw [hmax, hsum]
  apply loop_congr
  intro s hs o
  rw [hsc _ s hs, (hab s hs).1]

/-! ## The layer -/

/-- The two loops of `k3_mla_cached` over a row buffer: all rows first, then each token at its own
position. -/
def mlaRows (w : K3MlaW F) (st : Kv F × Nat) (xs : List (Vec F)) :
    List (Vec F) × (Kv F × Nat) :=
  let buf := writeRows fp c w st.1 st.2 xs
  ((xs.zipIdx st.2).map fun x => mlaOut fp c w x.1 (attend fp c buf x.2 (mlaQuery fp c w x.1)),
    (buf, st.2 + xs.length))

/-- `k3_mla_cached`.  Without a cache the rows live in scratch (`scr`) and positions start at 0;
with one, a position past `cap` is fatal (`none`). -/
def mlaCached (w : K3MlaW F) (cache : Option (Kv F)) (scr : Kv F) (cached cap : Nat)
    (xs : List (Vec F)) : Option (List (Vec F) × Option (Kv F)) :=
  match cache with
  | none => some ((mlaRows fp c w (scr, 0) xs).1, none)
  | some kvc =>
      -- `last >= cap`, with `last = cached + T - 1`
      if cap < cached + xs.length then none
      else some ((mlaRows fp c w (kvc, cached) xs).1, some (mlaRows fp c w (kvc, cached) xs).2.1)

/-- **One token through the layer**: write its row at the next position, attend up to it. -/
def mlaToken (w : K3MlaW F) (st : Kv F × Nat) (x : Vec F) : Vec F × (Kv F × Nat) :=
  let buf := writeRows fp c w st.1 st.2 [x]
  (mlaOut fp c w x (attend fp c buf st.2 (mlaQuery fp c w x)), (buf, st.2 + 1))

theorem mlaRows_nil (w : K3MlaW F) (st : Kv F × Nat) : mlaRows fp c w st [] = ([], st) := by
  unfold mlaRows writeRows
  rw [List.map_nil, List.map_nil, overwrite_nil, overwrite_nil]
  rfl

/-- Writing a token's row and then the others' is writing them all. -/
theorem writeRows_cons (w : K3MlaW F) (buf : Kv F) (p : Nat) (x : Vec F) (xs : List (Vec F)) :
    writeRows fp c w buf p (x :: xs) =
      writeRows fp c w (writeRows fp c w buf p [x]) (p + 1) xs := by
  unfold writeRows
  simp only [List.map_cons, List.map_nil, overwrite_cons]

theorem writeRows_below (w : K3MlaW F) (buf : Kv F) {p n : Nat} (h : n ≤ p) (xs : List (Vec F)) :
    (writeRows fp c w buf p xs).AgreeBelow buf n := by
  intro s hs
  unfold writeRows
  exact ⟨overwrite_below _ _ (Nat.lt_of_lt_of_le hs h),
    overwrite_below _ _ (Nat.lt_of_lt_of_le hs h)⟩

theorem mlaRows_cons (w : K3MlaW F) (st : Kv F × Nat) (x : Vec F) (xs : List (Vec F)) :
    mlaRows fp c w st (x :: xs) =
      ((mlaToken fp c w st x).1 :: (mlaRows fp c w (mlaToken fp c w st x).2 xs).1,
        (mlaRows fp c w (mlaToken fp c w st x).2 xs).2) := by
  unfold mlaRows mlaToken
  dsimp only
  rw [List.zipIdx_cons, List.map_cons, writeRows_cons, List.length_cons]
  -- the first token does not see the rows written behind its own
  rw [attend_congr fp c (writeRows_below fp c w _ (Nat.le_refl (st.2 + 1)) xs)]
  rw [Nat.add_assoc, Nat.add_comm 1 xs.length]

/-- **Rows first is token by token.** -/
theorem mlaRows_eq_scan (w : K3MlaW F) (st : Kv F × Nat) (xs : List (Vec F)) :
    mlaRows fp c w st xs = scan (mlaToken fp c w) st xs := by
  apply eq_scan_of_cons
  · exact mlaRows_nil fp c w
  · exact mlaRows_cons fp c w

/-- Buffers that agree on the positions written so far answer a token alike, and agree on one
position more afterwards. -/
theorem mlaToken_agree (w : K3MlaW F) {a b : Kv F} {p : Nat} (hab : a.AgreeBelow b p) (x : Vec F) :
    (mlaToken fp c w (a, p) x).1 = (mlaToken fp c w (b, p) x).1 ∧
      (mlaToken fp c w (a, p) x).2.1.AgreeBelow (mlaToken fp c w (b, p) x).2.1 (p + 1) := by
  have hrows : (writeRows fp c w a p [x]).AgreeBelow (writeRows fp c w b p [x]) (p + 1) := by
    intro s hs
    rcases Nat.lt_succ_iff_lt_or_eq.mp hs with hs | rfl
    · obtain ⟨hkva, hropea⟩ := writeRows_below fp c w a (Nat.le_refl p) [x] s hs
      obtain ⟨hkvb, hropeb⟩ := writeRows_below fp c w b (Nat.le_refl p) [x] s hs
      rw [hkva, hropea, hkvb, hropeb]
      exact hab s hs
    · unfold writeRows
      simp only [List.map_cons, List.map_nil, overwrite_singleton]
      exact ⟨trivial, trivial⟩
  refine ⟨?_, hrows⟩
  unfold mlaToken
  dsimp only
  rw [attend_congr fp c hrows]

end LlmEngine.Core
