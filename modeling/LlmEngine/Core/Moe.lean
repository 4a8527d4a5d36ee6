/-
# LlmEngine.Core.Moe — the Stable LatentMoE block (`k3_moe`, `k3_moe_prefill`).

Two implementations of one block.  `k3_moe` walks the tokens and fetches each token's experts in
turn; `k3_moe_prefill` cuts the batch into sub-chunks, fetches every expert of a sub-chunk once and
stages each expert's output per (token, slot) before it sums.

The expert source is code behind function pointers with a state of its own (a cache over a file),
so it is a record of functions on a state `σ`, and both paths thread that state.

An expert that cannot be fetched is dropped: its slot adds nothing, and a counter goes up.  In cache-only mode
(a drafting pass) the experts that are not resident are left out before, and the weights of the others are scaled
up to the whole; which are resident is asked of the source, whose state that may change.

The pieces the two paths share come first: one expert on one latent vector (`streamedExpert`, `bankExpert`), a
fetch with its counter, the weighted sum.  A bank of resident experts needs no source and goes the per-token way.

    k3_moe:          token → slot → fetch, add
    k3_moe_prefill:  sub-chunk → unique expert → fetch → stage for each slot that names it;  then slot by slot, add

The staging buffer is not cleared between sub-chunks, so what it held before is a parameter.
-/
import LlmEngine.Core.Ops
import LlmEngine.Lib.Scan

namespace LlmEngine.Core

open LlmEngine.Lib

/-- `K3ExpertQ`: one expert as the cache holds it, packed rows and scales. -/
structure K3ExpertQ where
  p1 : Bytes
  s1 : Bytes
  p3 : Bytes
  s3 : Bytes
  p2 : Bytes
  s2 : Bytes

/-- `K3ExpertSrc`.  `get` answers `none` where the C returns non-zero; `getmany` and `resident` may
be `NULL`. -/
structure K3ExpertSrc (σ : Type) where
  get : σ → Nat → Nat → Option K3ExpertQ × σ
  getmany : Option (σ → Nat → List Nat → σ)
  resident : Option (σ → Nat → Nat → Option K3ExpertQ × σ)

/-- `K3MoeW`. -/
structure K3MoeW (F σ : Type) where
  gate : Vec F
  bias : Option (Vec F)
  w1 : Vec F
  w3 : Vec F
  w2 : Vec F
  latentNorm : Vec F
  down : Mat F
  up : Mat F
  sh1 : Mat F
  sh3 : Mat F
  sh2 : Mat F
  src : Option (K3ExpertSrc σ)
  layer : Nat
  cacheOnly : Bool
  /-- cache-only routing calls `resident` without looking for `NULL` -/
  draft_resident : cacheOnly = true → ∀ s ∈ src, s.resident.isSome = true

/-- What a MoE call changes outside its output: the source's state and `k3_expert_drops`. -/
structure ExpertIo (σ : Type) where
  src : σ
  drops : Nat

variable {F D σ : Type} [Arith F] [Arith D] (fp : Fpu F D) (c : K3NumCfg F)

/-! ## One expert -/

/-- A streamed expert on a latent input, multiplied straight out of MXFP4. -/
def streamedExpert (q : K3ExpertQ) (z : Vec F) : Vec F :=
  let gu := cat c.moeInter (matmulMxfp4 fp z q.p1 q.s1 c.latent c.moeInter)
    (matmulMxfp4 fp z q.p3 q.s3 c.latent c.moeInter)
  matmulMxfp4 fp (situGlu fp c gu c.moeInter) q.p2 q.s2 c.moeInter c.latent

/-- An expert of the resident bank. -/
def bankExpert (w : K3MoeW F σ) (e : Nat) (z : Vec F) : Vec F :=
  let gu := cat c.moeInter
    (matmul fp z (ptr w.w1 (e * c.moeInter * c.latent)) c.latent c.moeInter)
    (matmul fp z (ptr w.w3 (e * c.moeInter * c.latent)) c.latent c.moeInter)
  matmul fp (situGlu fp c gu c.moeInter) (ptr w.w2 (e * c.latent * c.moeInter)) c.moeInter c.latent

/-- The streamed fetch of `k3_moe`: `resident` in cache-only mode, where a miss is skipped, and
`get` otherwise, where a miss is a counted drop. -/
def fetch (w : K3MoeW F σ) (src : K3ExpertSrc σ) (io : ExpertIo σ) (e : Nat) :
    Option K3ExpertQ × ExpertIo σ :=
  if w.cacheOnly then
    match src.resident with
    | some r => ((r io.src w.layer e).1, { io with src := (r io.src w.layer e).2 })
    | none => (none, io)
  else
    match src.get io.src w.layer e with
    | (some q, s) => (some q, { src := s, drops := io.drops })
    | (none, s) => (none, { src := s, drops := io.drops + 1 })

/-- The output of expert `e` on `z`, unless it could not be fetched. -/
def expertOut (w : K3MoeW F σ) (z : Vec F) (io : ExpertIo σ) (e : Nat) :
    Option (Vec F) × ExpertIo σ :=
  match w.src with
  | some src =>
      ((fetch w src io e).1.map fun q => streamedExpert fp c q z, (fetch w src io e).2)
  | none => (some (bankExpert fp c w e z), io)

/-! ## The per-token path -/

/-- `accL[i] += wj * edn[i]`. -/
def accumulate (acc : Vec F) (wj : F) (edn : Vec F) : Vec F :=
  tab c.latent fun i => acc i + wj * edn i

/-- The selected experts in slot order, weighted and summed; a missing one is skipped. -/
def sumExperts (w : K3MoeW F σ) (z : Vec F) (slots : List (Nat × F)) (io : ExpertIo σ) :
    Vec F × ExpertIo σ :=
  slots.foldl (fun s p =>
    match expertOut fp c w z s.2 p.1 with
    | (some edn, io) => (accumulate c s.1 p.2 edn, io)
    | (none, io) => (s.1, io)) (fun _ => 0, io)

/-- One slot of the cache-only filter: the kept slots, the sum of their weights, and the source. -/
def keepSlot (w : K3MoeW F σ) (r : σ → Nat → Nat → Option K3ExpertQ × σ)
    (s : List (Nat × F) × F × ExpertIo σ) (p : Nat × F) : List (Nat × F) × F × ExpertIo σ :=
  match r s.2.2.src w.layer p.1 with
  | (some _, s') => (s.1 ++ [p], s.2.1 + p.2, { src := s', drops := s.2.2.drops })
  | (none, s') => (s.1, s.2.1, { src := s', drops := s.2.2.drops })

/-- Draft cache-only routing: keep the slots whose expert is resident and renormalise their
weights. -/
def keepResident (w : K3MoeW F σ) (r : σ → Nat → Nat → Option K3ExpertQ × σ)
    (slots : List (Nat × F)) (io : ExpertIo σ) : List (Nat × F) × ExpertIo σ :=
  let kept := slots.foldl (keepSlot w r) ([], 0, io)
  if fp.gt kept.2.1 0 then (kept.1.map fun p => (p.1, p.2 / kept.2.1), kept.2.2)
  else (kept.1, kept.2.2)

/-- The slots a token uses. -/
def usedSlots (w : K3MoeW F σ) (slots : List (Nat × F)) (io : ExpertIo σ) :
    List (Nat × F) × ExpertIo σ :=
  if w.cacheOnly then
    match w.src.bind K3ExpertSrc.resident with
    | some r => keepResident fp w r slots io
    | none => (slots, io)
  else (slots, io)

/-- The optional batch prefetch, not used in cache-only mode.  It changes only the source. -/
def prefetch (w : K3MoeW F σ) (experts : List Nat) (io : ExpertIo σ) : ExpertIo σ :=
  if w.cacheOnly then io
  else
    match w.src.bind K3ExpertSrc.getmany with
    | some gm => { io with src := gm io.src w.layer experts }
    | none => io

/-- Steps 4 to 6: norm of the aggregate, up-projection, and the shared expert on the original
input, unweighted. -/
def moeTail (w : K3MoeW F σ) (x acc : Vec F) : Vec F :=
  let si := c.moeInter * c.nShared
  let a := if c.latentNorm then rmsnorm fp w.latentNorm acc c.latent c.rmsEps else acc
  let sgu := cat si (mmw fp x w.sh1 c.hidden si) (mmw fp x w.sh3 c.hidden si)
  let sdn := mmw fp (situGlu fp c sgu si) w.sh2 si c.hidden
  addTo c.hidden (mmw fp a w.up c.latent c.hidden) sdn

/-- One iteration of the token loop of `k3_moe`, for a routing function. -/
def moeToken (w : K3MoeW F σ) (route : Vec F → List (Nat × F)) (io : ExpertIo σ) (x : Vec F) :
    Vec F × ExpertIo σ :=
  let used := usedSlots fp w (route x) io
  let z := mmw fp x w.down c.hidden c.latent
  let io := prefetch w (used.1.map Prod.fst) used.2
  let agg := sumExperts fp c w z used.1 io
  (moeTail fp c w x agg.1, agg.2)

/-- The token loop. -/
def moeWith (w : K3MoeW F σ) (route : Vec F → List (Nat × F)) (io : ExpertIo σ)
    (xs : List (Vec F)) : List (Vec F) × ExpertIo σ :=
  scan (moeToken fp c w route) io xs

/-- `k3_moe`. -/
def k3Moe (w : K3MoeW F σ) (io : ExpertIo σ) (xs : List (Vec F)) : List (Vec F) × ExpertIo σ :=
  moeWith fp c w (router fp c w.gate w.bias) io xs

/-! ## The batched path -/

/-- One slot of the collection: an existing expert not seen yet is marked and appended. -/
def collectSlot (nExperts : Nat) (s : List Nat × (Nat → Bool)) (p : Nat × F) :
    List Nat × (Nat → Bool) :=
  if p.1 < nExperts ∧ s.2 p.1 = false then
    (s.1 ++ [p.1], fun e => if e = p.1 then true else s.2 e)
  else s

/-- The unique experts of a sub-chunk, in order of first use, and the `seen` marks. -/
def collect (nExperts : Nat) (slots : List (Nat × F)) : List Nat × (Nat → Bool) :=
  slots.foldl (collectSlot nExperts) ([], fun _ => false)

/-- Expert `e` applied to every (token, slot) that selected it; the other cells of the staging
buffer are left alone. -/
def stage (routes : List (List (Nat × F))) (zz : List (Vec F)) (q : K3ExpertQ) (e : Nat)
    (contrib : Nat → Nat → Vec F) : Nat → Nat → Vec F :=
  fun t j =>
    if ((routes.getD t []).map Prod.fst)[j]? = some e then
      streamedExpert fp c q (zz.getD t fun _ => 0)
    else contrib t j

/-- The expert-major loop: each unique expert is fetched once; one that cannot be fetched is counted
and leaves its cells as they are. -/
def stageAll (w : K3MoeW F σ) (src : K3ExpertSrc σ) (routes : List (List (Nat × F)))
    (zz : List (Vec F)) (uniq : List Nat) (contrib : Nat → Nat → Vec F) (io : ExpertIo σ) :
    (Nat → Nat → Vec F) × ExpertIo σ :=
  uniq.foldl (fun s e =>
    match src.get s.2.src w.layer e with
    | (some q, s') => (stage fp c routes zz q e s.1, { src := s', drops := s.2.drops })
    | (none, s') => (s.1, { src := s', drops := s.2.drops + 1 })) (contrib, io)

/-- The sum of one token's staged contributions, in slot order. -/
def sumStaged (slots : List (Nat × F)) (cb : Nat → Vec F) : Vec F :=
  slots.zipIdx.foldl (fun acc p => accumulate c acc p.1.2 (cb p.2)) fun _ => 0

/-- `moe_prefill_chunk`.  `junk` is what `malloc` left in the staging buffer. -/
def moePrefillChunk (w : K3MoeW F σ) (src : K3ExpertSrc σ) (route : Vec F → List (Nat × F))
    (junk : Nat → Nat → Vec F) (io : ExpertIo σ) (xs : List (Vec F)) :
    List (Vec F) × ExpertIo σ :=
  let routes := xs.map route
  let zz := xs.map fun x => mmw fp x w.down c.hidden c.latent
  let uniq := (collect c.nExperts routes.flatten).1
  let staged := stageAll fp c w src routes zz uniq junk (prefetch w uniq io)
  ((List.range xs.length).map fun t =>
      moeTail fp c w (xs.getD t fun _ => 0) (sumStaged c (routes.getD t []) (staged.1 t)),
    staged.2)

/-- `CHUNK`. -/
def prefillChunk : Nat := 64

/-- One sub-chunk: a last one of a single token goes to the per-token path. -/
def prefillPiece (w : K3MoeW F σ) (src : K3ExpertSrc σ) (route : Vec F → List (Nat × F))
    (junk : Nat → Nat → Vec F) (io : ExpertIo σ) (xs : List (Vec F)) :
    List (Vec F) × ExpertIo σ :=
  if xs.length = 1 then moeWith fp c w route io xs
  else moePrefillChunk fp c w src route junk io xs

/-- `k3_moe_prefill` for a routing function: the per-token path without a source, for at most one
token, under `K3_NO_BATCH_PREFILL` and in cache-only mode, and sub-chunks otherwise. -/
def moePrefillWith (w : K3MoeW F σ) (route : Vec F → List (Nat × F)) (noBatch : Bool)
    (junk : Nat → Nat → Vec F) (io : ExpertIo σ) (xs : List (Vec F)) :
    List (Vec F) × ExpertIo σ :=
  match w.src with
  | none => moeWith fp c w route io xs
  | some src =>
      if xs.length ≤ 1 || noBatch || w.cacheOnly then moeWith fp c w route io xs
      else
        let r := scan (prefillPiece fp c w src route junk) io (pieces prefillChunk xs)
        (r.1.flatten, r.2)

/-- `k3_moe_prefill`. -/
def k3MoePrefill (w : K3MoeW F σ) (noBatch : Bool) (junk : Nat → Nat → Vec F) (io : ExpertIo σ)
    (xs : List (Vec F)) : List (Vec F) × ExpertIo σ :=
  moePrefillWith fp c w (router fp c w.gate w.bias) noBatch junk io xs

end LlmEngine.Core
