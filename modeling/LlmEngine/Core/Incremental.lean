/-
# LlmEngine.Core.Incremental — incremental decode is full recompute.

The decoder as a machine that reads **one token at a time**: per layer a KDA state, the attention
rows, and the number of tokens consumed (`LayerSt`); per token one step through every layer
(`tokenPass`).  A pass over a chunk, which the source runs layer by layer with each layer's lanes,
rows and expert batches arranged as they come, is that machine run over the chunk
(`forwardChunk_eq`).

Whatever the cut into chunks, the machine then reads the same tokens in the same order.  A call
without a cache is the same machine started on uninitialised rows, and a row that has not been
written is never read (`LayerSt.Sim`).

* A layer call is the token step in order: `attention_eq` for the two kinds of attention (`Core.Kda`, `Core.Mla`),
  `mlpBlock_value` for the experts (`Core.MoePrefill`), `decoderLayerInc_eq` for the layer.
* Layer by layer is token by token: the exchange is that of `Lib.Scan`, with the number of snapshots a layer starts
  from known in advance (`blocksAt`).
* A chunked run follows any machine in a state similar to what is carried (`decodeChunks_tracks`), by induction on
  the chunks.

The source of the experts answers alike at all times (`Mlp.Steady`).  Floats are uninterpreted, so the two
sides are built by the same operations in the same order; that is what "equal" means here.
-/
import LlmEngine.Core.Decoder
import LlmEngine.Core.MoePrefill

namespace LlmEngine.Core

open LlmEngine.Lib

variable {F D σ : Type} [Arith F] [Arith D] (fp : Fpu F D) (c : K3NumCfg F)

/-! ## One token through one layer -/

/-- The state of one layer of the token machine. -/
structure LayerSt (F : Type) where
  kda : KdaState F
  kv : Kv F
  pos : Nat

/-- The attention on one token. -/
def attnToken (a : Attn F) (st : LayerSt F) (x : Vec F) : Vec F × LayerSt F :=
  match a with
  | .kda w =>
      ((kdaToken fp c w st.kda x).1, ⟨(kdaToken fp c w st.kda x).2, st.kv, st.pos + 1⟩)
  | .mla w =>
      ((mlaToken fp c w (st.kv, st.pos) x).1,
        ⟨st.kda, (mlaToken fp c w (st.kv, st.pos) x).2.1, st.pos + 1⟩)

/-- The experts behind an MLP answer alike at all times; a dense MLP has none. -/
def Mlp.Steady (n : Nat) (m : Mlp F σ) (answer : Nat → Option K3ExpertQ) : Prop :=
  match m with
  | .moe w => Core.Steady n w answer
  | .dense _ _ _ => True

/-- The MLP on one token. -/
def mlpValue (m : Mlp F σ) (answer : Nat → Option K3ExpertQ) (x : Vec F) : Vec F :=
  match m with
  | .moe w => moeValue fp c w answer (router fp c w.gate w.bias) x
  | .dense gate up down => denseMlp fp c gate up down x

/-- **One token through one layer.** -/
def layerToken (w : K3LayerW F σ) (answer : Nat → Option K3ExpertQ) (layerIdx nb : Nat)
    (st : LayerSt F) (r : TokenRow F) : TokenRow F × LayerSt F :=
  let a := attnToken fp c w.attn st (attnIn fp c w nb r)
  let mid := afterAttn c layerIdx nb r a.1
  (afterMlp c mid (mlpValue fp c w.mlp answer (mlpIn fp c w (nextBlocks c layerIdx nb) mid)), a.2)

/-! ## A layer call is the token step in order -/

theorem scan_attnToken_kda (w : K3KdaW F) (st : LayerSt F) (xs : List (Vec F)) :
    scan (attnToken fp c (.kda w)) st xs =
      ((scan (kdaToken fp c w) st.kda xs).1,
        ⟨(scan (kdaToken fp c w) st.kda xs).2, st.kv, st.pos + xs.length⟩) := by
  induction xs generalizing st with
  | nil => rfl
  | cons x xs ih =>
      rw [scan_cons, ih, scan_cons, List.length_cons, Nat.add_comm xs.length 1, ← Nat.add_assoc]
      rfl

theorem scan_attnToken_mla (w : K3MlaW F) (st : LayerSt F) (xs : List (Vec F)) :
    scan (attnToken fp c (.mla w)) st xs =
      ((scan (mlaToken fp c w) (st.kv, st.pos) xs).1,
        ⟨st.kda, (scan (mlaToken fp c w) (st.kv, st.pos) xs).2.1, st.pos + xs.length⟩) := by
  induction xs generalizing st with
  | nil => rfl
  | cons x xs ih =>
      rw [scan_cons, ih, scan_cons, List.length_cons, Nat.add_comm xs.length 1, ← Nat.add_assoc]
      rfl

/-- The attention of a layer call, on the rows it was given or on scratch. -/
theorem attention_eq (a : Attn F) (state : KdaState F) (cache : Option (Kv F)) (scr : Kv F)
    {cached cap : Nat} {xs : List (Vec F)} (hpos : cache = none → cached = 0)
    (hcap : cache.isSome = true → cached + xs.length ≤ cap) :
    attention fp c a state cache scr cached cap xs =
      some ((scan (attnToken fp c a) ⟨state, cache.getD scr, cached⟩ xs).1,
        (scan (attnToken fp c a) ⟨state, cache.getD scr, cached⟩ xs).2.kda,
        cache.map fun _ => (scan (attnToken fp c a) ⟨state, cache.getD scr, cached⟩ xs).2.kv) := by
  cases a with
  | kda w =>
      rw [scan_attnToken_kda, attention, kdaLayer, kdaRun_eq_scan]
      cases cache with
      | none => rfl
      | some kvc => rfl
  | mla w =>
      rw [scan_attnToken_mla, attention]
      cases cache with
      | none =>
          obtain rfl := hpos rfl
          rw [mlaCached, mlaRows_eq_scan]
          rfl
      | some kvc =>
          have hfits : ¬ cap < cached + xs.length := Nat.not_lt.mpr (hcap rfl)
          rw [mlaCached, if_neg hfits, mlaRows_eq_scan]
          rfl

/-- The MLP of a layer call, batched or not, from any state of the expert source. -/
theorem mlpBlock_value {m : Mlp F σ} {answer : Nat → Option K3ExpertQ}
    (hs : m.Steady c.nExperts answer) (noBatch : Bool) (contrib : Nat → Nat → Vec F)
    (io : ExpertIo σ) (xs : List (Vec F)) :
    (mlpBlock fp c m noBatch contrib io xs).1 = xs.map (mlpValue fp c m answer) := by
  cases m with
  | dense gate up down => rfl
  | moe w =>
      have hs : Core.Steady c.nExperts w answer := hs
      have hroute : ∀ x, ∀ p ∈ router fp c w.gate w.bias x, p.1 < c.nExperts :=
        fun x p hp => router_lt fp c w.gate w.bias x hp
      -- outside cache-only mode every answer about an existing expert is its bytes
      let z : Bytes := fun _ => 0
      have hget : w.cacheOnly = false → ∀ src ∈ w.src, ∀ s, ∀ e < c.nExperts,
          (src.get s w.layer e).1 = some ((answer e).getD ⟨z, z, z, z, z, z⟩) := by
        intro hco src hsrc s e he
        obtain ⟨q, hq⟩ := Option.isSome_iff_exists.mp (hs.served hco e he)
        rw [hs.get hco src hsrc s e he, hq, Option.getD_some]
      unfold mlpBlock k3MoePrefill
      dsimp only
      rw [(moePrefillWith_eq_moeWith fp c hget hroute noBatch contrib io xs).1,
        moeWith_value fp c hs hroute]
      rfl

/-- The rows a layer call produces, with the attention and the MLP replaced by what they compute. -/
def layerRows (w : K3LayerW F σ) (answer : Nat → Option K3ExpertQ) (layerIdx nb : Nat)
    (st : LayerSt F) (rows : List (TokenRow F)) : List (TokenRow F) × LayerSt F :=
  let a := scan (attnToken fp c w.attn) st (rows.map (attnIn fp c w nb))
  let mids := List.zipWith (afterAttn c layerIdx nb) rows a.1
  (List.zipWith (afterMlp c) mids ((mids.map (mlpIn fp c w (nextBlocks c layerIdx nb))).map
    (mlpValue fp c w.mlp answer)), a.2)

theorem layerRows_eq_scan (w : K3LayerW F σ) (answer : Nat → Option K3ExpertQ)
    (layerIdx nb : Nat) (st : LayerSt F) (rows : List (TokenRow F)) :
    layerRows fp c w answer layerIdx nb st rows =
      scan (layerToken fp c w answer layerIdx nb) st rows := by
  apply eq_scan_of_cons
  · intro st
    rfl
  · intro st r rows
    unfold layerRows layerToken
    simp only [List.map_cons, scan_cons, List.zipWith_cons_cons]

/-- **A layer call** is the token step applied to its rows in order. -/
theorem decoderLayerInc_eq (noBatch : Bool) {w : K3LayerW F σ} {answer : Nat → Option K3ExpertQ}
    (hs : w.mlp.Steady c.nExperts answer) (layerIdx nb : Nat) (rows : List (TokenRow F))
    (state : KdaState F) (cache : Option (Kv F)) {cached cap : Nat} (scr : Scratch F)
    (io : ExpertIo σ) (hpos : cache = none → cached = 0)
    (hcap : cache.isSome = true → cached + rows.length ≤ cap) :
    ∃ io', decoderLayerInc fp c noBatch w layerIdx nb rows state cache cached cap scr io =
      some ⟨(scan (layerToken fp c w answer layerIdx nb)
            ⟨state, cache.getD scr.kv, cached⟩ rows).1,
        nextBlocks c layerIdx nb,
        (scan (layerToken fp c w answer layerIdx nb)
          ⟨state, cache.getD scr.kv, cached⟩ rows).2.kda,
        cache.map fun _ => (scan (layerToken fp c w answer layerIdx nb)
          ⟨state, cache.getD scr.kv, cached⟩ rows).2.kv, io'⟩ := by
  have hlen : cache.isSome = true →
      cached + (rows.map (attnIn fp c w nb)).length ≤ cap := by
    rw [List.length_map]
    exact hcap
  unfold decoderLayerInc
  rw [attention_eq fp c w.attn state cache scr.kv hpos hlen, ← layerRows_eq_scan, Option.map_some]
  dsimp only
  rw [mlpBlock_value fp c hs]
  exact ⟨_, rfl⟩

/-! ## A pass is the token machine in order -/

section Pass

variable (ws : Nat → K3LayerW F σ) (ans : Nat → Nat → Option K3ExpertQ)

/-- The snapshots taken before layer `L` of a pass. -/
def blocksAt : Nat → Nat
  | 0 => 0
  | L + 1 => nextBlocks c L (blocksAt L)

/-- Layer `L` of the token machine. -/
def layerStep (L : Nat) : LayerSt F → TokenRow F → TokenRow F × LayerSt F :=
  layerToken fp c (ws L) (ans L) L (blocksAt c L)

/-- The machine as a pass finds it: carried states, the rows it was given or scratch, and the
tokens consumed. -/
def launch (ks : Nat → KdaState F) (kv : Option (Nat → Kv F)) (scr : Nat → Scratch F)
    (cached : Nat) : Nat → LayerSt F :=
  fun L => ⟨ks L, (kv.map fun kv => kv L).getD (scr L).kv, cached⟩

/-- **The first `n` layers of a pass.** -/
theorem forwardLayers_eq (noBatch : Bool) {n cached cap : Nat}
    (hs : ∀ L < n, (ws L).mlp.Steady c.nExperts (ans L)) (scr : Nat → Scratch F)
    (rows : List (TokenRow F)) (ks : Nat → KdaState F) (kv : Option (Nat → Kv F))
    (io : ExpertIo σ) (hpos : kv = none → cached = 0)
    (hcap : kv.isSome = true → cached + rows.length ≤ cap) :
    ∃ io', forwardLayers fp c noBatch ws cached cap scr n ⟨rows, 0, ks, kv, io⟩ =
      some ⟨(layerMajor (layerStep fp c ws ans) n (launch ks kv scr cached) rows).1,
        blocksAt c n,
        fun L => ((layerMajor (layerStep fp c ws ans) n (launch ks kv scr cached) rows).2 L).kda,
        kv.map fun _ L =>
          ((layerMajor (layerStep fp c ws ans) n (launch ks kv scr cached) rows).2 L).kv,
        io'⟩ := by
  induction n with
  | zero =>
      refine ⟨io, ?_⟩
      cases kv with
      | none => rfl
      | some kv => rfl
  | succ n ih =>
      obtain ⟨io₁, hlow⟩ := ih fun L hL => hs L (Nat.lt_succ_of_lt hL)
      -- layer `n` has not been touched yet
      have hmine := layerMajor_above (layerStep fp c ws ans) (Nat.le_refl n)
        (launch ks kv scr cached) rows
      have hlen := layerMajor_length (layerStep fp c ws ans) n (launch ks kv scr cached) rows
      rw [forwardLayers, hlow, Option.bind_some, layerMajor]
      generalize layerMajor (layerStep fp c ws ans) n (launch ks kv scr cached) rows = low at *
      have hcache : (kv.map fun _ L => (low.2 L).kv).map (fun kv => kv n) =
          kv.map fun kv => kv n := by
        rw [Option.map_map]
        cases kv with
        | none => rfl
        | some kv => exact congrArg (fun st => some (LayerSt.kv st)) hmine
      have hroom : (kv.map fun kv => kv n).isSome → cached + low.1.length ≤ cap := by
        intro h
        rw [Option.isSome_map] at h
        rw [hlen]
        exact hcap h
      obtain ⟨io₂, hlayer⟩ := decoderLayerInc_eq fp c noBatch (hs n (Nat.lt_succ_self n)) n
        (blocksAt c n) low.1 (ks n) (kv.map fun kv => kv n) (scr n) io₁
        (fun h => hpos (Option.map_eq_none_iff.mp h)) hroom
      have hkda : (low.2 n).kda = ks n := by rw [hmine]; rfl
      dsimp only
      rw [hcache, hkda, hlayer, Option.map_some, hmine]
      refine ⟨io₂, ?_⟩
      congr 1
      -- the states of the other layers are as they were
      congr 1
      · funext L
        exact (Function.apply_update (fun _ => LayerSt.kda) low.2 n _ L).symm
      · cases kv with
        | none => rfl
        | some kv =>
            apply congrArg some
            funext L
            exact (Function.apply_update (fun _ => LayerSt.kv) low.2 n _ L).symm

/-- **One token through all layers.** -/
def tokenPass (sts : Nat → LayerSt F) (h : Vec F) : Vec F × (Nat → LayerSt F) :=
  ((through (layerStep fp c ws ans) c.nLayers sts ⟨h, fun _ _ => 0⟩).1.h,
    (through (layerStep fp c ws ans) c.nLayers sts ⟨h, fun _ _ => 0⟩).2)

/-- **A pass over a chunk** is the token machine run over it. -/
theorem forwardChunk_eq (noBatch : Bool) (cached cap : Nat)
    (hs : ∀ L < c.nLayers, (ws L).mlp.Steady c.nExperts (ans L)) (scr : Nat → Scratch F)
    (ks : Nat → KdaState F) (kv : Option (Nat → Kv F)) (io : ExpertIo σ) (hid : List (Vec F))
    (hpos : kv = none → cached = 0) (hcap : kv.isSome = true → cached + hid.length ≤ cap) :
    ∃ st, forwardChunk fp c noBatch ws cached cap scr ks kv io hid = some st ∧
      st.rows.map TokenRow.h =
        (scan (tokenPass fp c ws ans) (launch ks kv scr cached) hid).1 ∧
      (st.ks = fun L =>
        ((scan (tokenPass fp c ws ans) (launch ks kv scr cached) hid).2 L).kda) ∧
      st.kv = kv.map fun _ L =>
        ((scan (tokenPass fp c ws ans) (launch ks kv scr cached) hid).2 L).kv := by
  have hlen : kv.isSome = true → cached + (freshRows hid).length ≤ cap := by
    rw [freshRows, List.length_map]
    exact hcap
  obtain ⟨io', hpass⟩ := forwardLayers_eq fp c ws ans noBatch hs scr (freshRows hid) ks kv io
    hpos hlen
  have hscan : scan (tokenPass fp c ws ans) (launch ks kv scr cached) hid = _ :=
    scan_map (through (layerStep fp c ws ans) c.nLayers) (fun h => ⟨h, fun _ _ => 0⟩) TokenRow.h
      (launch ks kv scr cached) hid
  refine ⟨_, hpass, ?_⟩
  rw [hscan, layerMajor_eq_scan]
  exact ⟨rfl, rfl, rfl⟩

theorem layerStep_pos (L : Nat) (s : LayerSt F) (r : TokenRow F) :
    (layerStep fp c ws ans L s r).2.pos = s.pos + 1 := by
  unfold layerStep layerToken attnToken
  dsimp only
  split
  · rfl
  · rfl

/-- Each token moves every layer on by one position. -/
theorem scan_tokenPass_pos {L : Nat} (hL : L < c.nLayers) (sts : Nat → LayerSt F)
    (hid : List (Vec F)) :
    ((scan (tokenPass fp c ws ans) sts hid).2 L).pos = (sts L).pos + hid.length := by
  induction hid generalizing sts with
  | nil => rfl
  | cons h hid ih =>
      have hone : ((tokenPass fp c ws ans sts h).2 L).pos = (sts L).pos + 1 :=
        through_each (layerStep fp c ws ans) (Q := fun s s' => s'.pos = s.pos + 1)
          (layerStep_pos fp c ws ans) hL sts _
      rw [scan_cons, ih, hone, List.length_cons, Nat.add_assoc, Nat.add_comm 1]

/-! ## Rows not yet written do not matter -/

/-- Two states of a layer that differ at most in rows the layer has not written: those past the
tokens consumed, and all of them in a KDA layer. -/
structure LayerSt.Sim (a : Attn F) (s t : LayerSt F) : Prop where
  kda : s.kda = t.kda
  pos : s.pos = t.pos
  rows : ∀ w, a = .mla w → s.kv.AgreeBelow t.kv s.pos

theorem attnToken_sim {a : Attn F} {s t : LayerSt F} (h : s.Sim a t) (x : Vec F) :
    (attnToken fp c a s x).1 = (attnToken fp c a t x).1 ∧
      (attnToken fp c a s x).2.Sim a (attnToken fp c a t x).2 := by
  obtain ⟨skda, skv, spos⟩ := s
  obtain ⟨tkda, tkv, tpos⟩ := t
  obtain ⟨hkda, hpos, hrows⟩ := h
  obtain rfl : skda = tkda := hkda
  obtain rfl : spos = tpos := hpos
  cases a with
  | kda w => exact ⟨rfl, rfl, rfl, fun w' hw' => absurd hw' (by simp)⟩
  | mla w =>
      obtain ⟨hout, hrows'⟩ := mlaToken_agree fp c w (hrows w rfl) x
      exact ⟨hout, rfl, rfl, fun _ _ => hrows'⟩

theorem layerStep_sim {L : Nat} {s t : LayerSt F} (h : s.Sim (ws L).attn t) (r : TokenRow F) :
    (layerStep fp c ws ans L s r).1 = (layerStep fp c ws ans L t r).1 ∧
      (layerStep fp c ws ans L s r).2.Sim (ws L).attn (layerStep fp c ws ans L t r).2 := by
  obtain ⟨hout, hsim⟩ := attnToken_sim fp c h (attnIn fp c (ws L) (blocksAt c L) r)
  refine ⟨?_, hsim⟩
  unfold layerStep layerToken
  dsimp only
  rw [hout]

/-- **Machines in similar states** answer a list of tokens alike and end in similar states. -/
theorem scan_tokenPass_sim {sts sts' : Nat → LayerSt F}
    (h : ∀ L < c.nLayers, (sts L).Sim (ws L).attn (sts' L)) (hid : List (Vec F)) :
    (scan (tokenPass fp c ws ans) sts hid).1 = (scan (tokenPass fp c ws ans) sts' hid).1 ∧
      ∀ L < c.nLayers, ((scan (tokenPass fp c ws ans) sts hid).2 L).Sim (ws L).attn
        ((scan (tokenPass fp c ws ans) sts' hid).2 L) := by
  refine scan_sim (tokenPass fp c ws ans)
    (R := fun (s t : Nat → LayerSt F) => ∀ L < c.nLayers, (s L).Sim (ws L).attn (t L)) ?_ h hid
  intro s t x hst
  obtain ⟨hout, hsim⟩ := through_sim (layerStep fp c ws ans) (Nat.le_refl c.nLayers)
    (R := fun L s t => s.Sim (ws L).attn t) (fun L _ s t r h => layerStep_sim fp c ws ans h r)
    hst ⟨x, fun _ _ => 0⟩
  exact ⟨congrArg TokenRow.h hout, hsim⟩

/-! ## Chunk after chunk -/

/-- **The chunked run** follows any machine in a state similar to what is carried: it never hits the
cache bound, produces the machine's hidden vectors, and leaves its KDA states. -/
theorem decodeChunks_tracks (noBatch : Bool) {cap : Nat}
    (hs : ∀ L < c.nLayers, (ws L).mlp.Steady c.nExperts (ans L))
    (scr : Nat → Nat → Scratch F) (chunks : List (List (Vec F))) {cached : Nat}
    {ks : Nat → KdaState F} {kv : Nat → Kv F} (io : ExpertIo σ) {sts : Nat → LayerSt F}
    (hsim : ∀ L < c.nLayers, (sts L).Sim (ws L).attn ⟨ks L, kv L, cached⟩)
    (hcap : cached + chunks.flatten.length ≤ cap) :
    ∃ r, decodeChunks fp c noBatch ws cap scr cached ks (some kv) io chunks = some r ∧
      r.outs.flatten = (scan (tokenPass fp c ws ans) sts chunks.flatten).1 ∧
      ∀ L < c.nLayers, r.ks L = ((scan (tokenPass fp c ws ans) sts chunks.flatten).2 L).kda := by
  induction chunks generalizing cached ks kv io sts with
  | nil => exact ⟨_, rfl, rfl, fun L hL => (hsim L hL).kda.symm⟩
  | cons hid chunks ih =>
      rw [List.flatten_cons, List.length_append] at hcap
      obtain ⟨st, hst, hrows, hks, hkv⟩ := forwardChunk_eq fp c ws ans noBatch cached cap hs
        (scr cached) ks (some kv) io hid (fun h => absurd h (by simp)) fun _ => by omega
      have hsim₀ : ∀ L < c.nLayers,
          (sts L).Sim (ws L).attn (launch ks (some kv) (scr cached) cached L) := hsim
      obtain ⟨hout, hsim₁⟩ := scan_tokenPass_sim fp c ws ans hsim₀ hid
      have hpos₁ : ∀ L < c.nLayers, ((scan (tokenPass fp c ws ans)
          (launch ks (some kv) (scr cached) cached) hid).2 L).pos = cached + hid.length :=
        fun L hL => scan_tokenPass_pos fp c ws ans hL _ hid
      -- the next chunk finds the states this one left, at the position it reached
      generalize scan (tokenPass fp c ws ans) (launch ks (some kv) (scr cached) cached) hid = left
        at *
      have hcarried : ∀ L < c.nLayers, ((scan (tokenPass fp c ws ans) sts hid).2 L).Sim
          (ws L).attn ⟨st.ks L, (left.2 L).kv, cached + hid.length⟩ := by
        intro L hL
        rw [hks, ← hpos₁ L hL]
        exact hsim₁ L hL
      obtain ⟨r, hr, houts, hend⟩ := ih st.io hcarried (by omega)
      refine ⟨{ r with outs := st.rows.map TokenRow.h :: r.outs }, ?_, ?_, ?_⟩
      · rw [decodeChunks, hst, Option.bind_some, hkv, Option.map_some, hr, Option.map_some]
      · rw [List.flatten_cons, List.flatten_cons, scan_append, houts, hrows, hout]
      · intro L hL
        rw [List.flatten_cons, scan_append]
        exact hend L hL

/-- **Incremental decode is full recompute.**  For every configuration, all weights, every sequence
of hidden vectors and every cut of it into chunks: running all layers chunk by chunk, from the zero
KDA state, with the states carried, the rows of every MLA layer cached in buffers of capacity at
least the total length that may hold anything at the start, `cached` the tokens consumed so far and
the snapshots cleared for each chunk, is never stopped by the cache bound, and yields for every
token the hidden vector, and for every layer the final KDA and convolution state, of one call over
the whole sequence from the zero state without a cache.

The experts are the only part of the weights behind a call that can fail: their source is assumed
to answer alike at all times.  Scratch memory may hold anything in every call. -/
theorem incremental_decode_is_full_recompute
    (hs : ∀ L < c.nLayers, (ws L).mlp.Steady c.nExperts (ans L)) (noBatch noBatch' : Bool)
    (chunks : List (List (Vec F))) {cap : Nat} (hcap : chunks.flatten.length ≤ cap)
    (kv₀ : Nat → Kv F) (scr : Nat → Nat → Scratch F) (scr' : Nat → Scratch F)
    (io io' : ExpertIo σ) :
    ∃ r full,
      decodeChunks fp c noBatch ws cap scr 0 (fun _ => KdaState.zero) (some kv₀) io chunks =
        some r ∧
      forwardChunk fp c noBatch' ws 0 0 scr' (fun _ => KdaState.zero) none io' chunks.flatten =
        some full ∧
      r.outs.flatten = full.rows.map TokenRow.h ∧
      ∀ L < c.nLayers, r.ks L = full.ks L := by
  obtain ⟨full, hfull, hrows, hks, -⟩ := forwardChunk_eq fp c ws ans noBatch' 0 0 hs scr'
    (fun _ => KdaState.zero) none io' chunks.flatten (fun _ => rfl)
    fun h => absurd h Bool.false_ne_true
  -- before the first token no row has been written, so any two buffers will do
  have hstart : ∀ L < c.nLayers, (launch (fun _ => KdaState.zero) none scr' 0 L).Sim
      (ws L).attn ⟨KdaState.zero, kv₀ L, 0⟩ :=
    fun L _ => ⟨rfl, rfl, fun _ _ s hs => absurd hs (Nat.not_lt_zero s)⟩
  have hroom : 0 + chunks.flatten.length ≤ cap := by
    rw [Nat.zero_add]
    exact hcap
  obtain ⟨r, hr, houts, hend⟩ := decodeChunks_tracks fp c ws ans noBatch hs scr chunks io hstart
    hroom
  refine ⟨r, full, hr, hfull, ?_, ?_⟩
  · rw [houts, hrows]
  · intro L hL
    rw [hend L hL, hks]

end Pass

/-! ### Two layers over integer arithmetic -/

/-- A KDA layer with a dense MLP, then an MLA layer with a streamed MoE. -/
def smallLayers : Nat → K3LayerW Int Nat := fun L =>
  let ones : Mat Int := .f32 fun _ => 1
  let up : Mat Int := .f32 fun i => i + 1
  { inNorm := fun _ => 1
    postNorm := fun _ => 1
    attnResNorm := fun _ => 1
    attnResProj := fun _ => 1
    mlpResNorm := fun _ => 1
    mlpResProj := fun _ => 1
    attn :=
      if L = 0 then
        .kda ⟨up, up, up, fun i => i + 1, fun i => i + 1, fun i => i + 1, ones, ones, fun _ => 1,
          fun _ => 1, ones, ones, fun _ => 1, up⟩
      else .mla ⟨up, up, up, up, up, some ones, fun _ => 1, fun _ => 1⟩
    mlp := if L = 0 then .dense ones up ones else .moe smallMoe }

theorem smallLayers_steady (L : Nat) :
    (smallLayers L).mlp.Steady smallCfg.nExperts (fun e => some (smallExpert e)) := by
  unfold smallLayers
  dsimp only
  split
  · exact trivial
  · apply steady_of_get (Eq.refl false)
    rintro src ⟨⟩ s e he
    exact if_pos he

/-- The prompt's first two tokens in one chunk and the third alone, in caches that start out full of
nines, against one call over the three tokens on scratch full of sevens. -/
theorem small_incremental_is_full :
    ∃ r full,
      decodeChunks intFpu smallCfg false smallLayers 3
          (fun _ _ => ⟨⟨fun _ _ => 8, fun _ _ => 8⟩, fun _ _ _ => 8⟩) 0 (fun _ => KdaState.zero)
          (some fun _ => ⟨fun _ _ => 9, fun _ _ => 9⟩) ⟨0, 0⟩
          [[fun _ => 1, fun i => i], [fun _ => -2]] = some r ∧
      forwardChunk intFpu smallCfg false smallLayers 0 0
          (fun _ => ⟨⟨fun _ _ => 7, fun _ _ => 7⟩, fun _ _ _ => 7⟩) (fun _ => KdaState.zero)
          none ⟨0, 0⟩ smallTokens = some full ∧
      r.outs.flatten = full.rows.map TokenRow.h ∧
      ∀ L < smallCfg.nLayers, r.ks L = full.ks L :=
  incremental_decode_is_full_recompute intFpu smallCfg smallLayers
    (fun _ e => some (smallExpert e)) (fun L _ => smallLayers_steady L) false false
    [[fun _ => 1, fun i => i], [fun _ => -2]] (by decide) _ _ _ _ _

end LlmEngine.Core
