/-
# LlmEngine.Cache.Serves — the expert cache serves the checkpoint's bytes.

The reference in a slot's metadata decides where the kernels look for the six tensors of an expert, and the
slot's bytes are what some load delivered.  Along every run that batches only MoE layers, a resident expert's
metadata is the reference `k3_expert_ref` gives for it and its bytes are a load made with that reference; so
whoever is served an expert reads the checkpoint's tensors of that name, whatever was evicted in between, in
whatever chunks the kernel read, and by whichever path.

* `key_parts`: `k3_describe` takes apart what `k3key` put together, so the metadata is of the key's expert.
* `k3Load_got`: a load that was described is made, in full and inside the slot.
* `Sound` joins the engine's invariant with the entries' being genuine; there is one lemma for each call
  (`Sound.get`, `Sound.prefetch`, `Sound.getmany`, `Sound.pin`), and `Sound.applyOp` for all.
* `Sound.entryQ_eq`: what the kernels read through a genuine entry is the checkpoint's expert.
* `Sound.get_none`: with every slot pinned, an expert that is not resident is refused, and only then.

A batch on a dense layer resolves nothing and can leave a slot described for an expert it does not hold; `MoeBatches`
leaves those out, as the kernels do.  `Routed` is what a checkpoint has to have: each expert resolved, with the shapes
of the configuration, inside its shard.
-/
import LlmEngine.Cache.K3Cache
import LlmEngine.Storage.CacheBytes
import LlmEngine.Storage.CacheHonest
import LlmEngine.Storage.CacheSlots

namespace LlmEngine.Cache

open LlmEngine.Bind
open LlmEngine.Core (K3Cfg maxTopk mxfp4Group)
open LlmEngine.Lib
open LlmEngine.Storage
open LlmEngine.Storage.Cache

/-! ## The checkpoint -/

/-- The first `n` bytes of the tensor of that name. -/
def tensorBytes (s : K3StIndex) (name : String) (n : Nat) : Core.Bytes :=
  match s.find name with
  | some t => window (s.shard t.shard).mem t.off n
  | none => fun _ => 0

/-- **The expert as the checkpoint has it**: for each of its tensors, found by name, the bytes the kernels
read of it. -/
def checkpointExpert (s : K3StIndex) (c : K3Cfg) (layer expert : Int) : Core.K3ExpertQ where
  p1 := tensorBytes s (expertName layer expert "w1" "weight_packed") (packedLen c.latent c.moeInter)
  s1 := tensorBytes s (expertName layer expert "w1" "weight_scale") (scaleLen c.latent c.moeInter)
  p3 := tensorBytes s (expertName layer expert "w3" "weight_packed") (packedLen c.latent c.moeInter)
  s3 := tensorBytes s (expertName layer expert "w3" "weight_scale") (scaleLen c.latent c.moeInter)
  p2 := tensorBytes s (expertName layer expert "w2" "weight_packed") (packedLen c.moeInter c.latent)
  s2 := tensorBytes s (expertName layer expert "w2" "weight_scale") (scaleLen c.moeInter c.latent)

/-- The six tensors hold what the kernels read of them. -/
structure Shaped (c : K3Cfg) (r : K3ExpertRef) : Prop where
  p1 : (packedLen c.latent c.moeInter : Int) ≤ r.m1.pBytes
  s1 : (scaleLen c.latent c.moeInter : Int) ≤ r.m1.sBytes
  p2 : (packedLen c.moeInter c.latent : Int) ≤ r.m2.pBytes
  s2 : (scaleLen c.moeInter c.latent : Int) ≤ r.m2.sBytes
  p3 : (packedLen c.latent c.moeInter : Int) ≤ r.m3.pBytes
  s3 : (scaleLen c.latent c.moeInter : Int) ≤ r.m3.sBytes

/-- A layer with routed experts. -/
def IsMoe (c : K3Cfg) (layer : Int) : Prop := c.firstDense ≤ layer ∧ layer < c.nLayers

/-- **The checkpoint has its experts**: counts and shards are `int`s, and each expert of each MoE layer is
accepted, of the shape the configuration asks for, and no larger than the one the slots are sized by. -/
structure Routed (s : K3StIndex) (c : K3Cfg) : Prop where
  inside : s.Inside
  shards : s.nshard < 2 ^ 31
  layers : c.nLayers < 2 ^ 31
  experts : c.nExperts < 2 ^ 31
  each : ∀ layer expert : Int, IsMoe c layer → 0 ≤ expert → expert < c.nExperts →
    ∃ r, k3ExpertRef s layer expert = .ok r ∧ Shaped c r ∧ ∀ r₀ ∈ probe s c, r.nbytes ≤ r₀.nbytes

/-! ## Keys -/

section Keys

variable {c : K3Cfg} {layer expert : Int}

/-- A key in the model is the plain number. -/
theorem k3key_eq (hl : c.nLayers < 2 ^ 31) (he : c.nExperts < 2 ^ 31) (h : InModel c layer expert) :
    (k3key c layer expert : Int) = layer * c.nExperts + expert ∧ k3key c layer expert < c.nLayers * c.nExperts := by
  unfold InModel at h
  push Not at h
  obtain ⟨hl0, hlt, he0, helt⟩ := h
  have hnn : 0 ≤ layer * c.nExperts := Int.mul_nonneg hl0 (Int.natCast_nonneg _)
  have hrow : layer * c.nExperts + expert < c.nLayers * c.nExperts := by
    have hle : (layer + 1) * c.nExperts ≤ c.nLayers * c.nExperts :=
      Int.mul_le_mul_of_nonneg_right (by omega) (Int.natCast_nonneg _)
    rw [Int.add_mul, Int.one_mul] at hle
    omega
  have hmax : (c.nLayers * c.nExperts : Int) < 2 ^ 64 := by
    have hle : (c.nLayers * c.nExperts : Int) ≤ 2 ^ 31 * 2 ^ 31 :=
      Int.mul_le_mul (by omega) (by omega) (Int.natCast_nonneg _) (by decide)
    omega
  have hkey : (k3key c layer expert : Int) = layer * c.nExperts + expert := by
    unfold k3key
    rw [Int.emod_eq_of_lt (by omega) (by omega), Int.toNat_of_nonneg (by omega)]
  refine ⟨hkey, ?_⟩
  rw [← hkey] at hrow
  exact_mod_cast hrow

/-- **A key names its expert**: `k3_describe` takes apart what `k3key` put together. -/
theorem key_parts (hl : c.nLayers < 2 ^ 31) (he : c.nExperts < 2 ^ 31) (h : InModel c layer expert) :
    keyLayer c (k3key c layer expert) = layer ∧ keyExpert c (k3key c layer expert) = expert := by
  obtain ⟨hkey, -⟩ := k3key_eq hl he h
  unfold InModel at h
  push Not at h
  obtain ⟨hl0, hlt, he0, helt⟩ := h
  have hpos : (0 : Int) < c.nExperts := by omega
  have hdiv : ((k3key c layer expert / c.nExperts : Nat) : Int) = layer := by
    rw [Int.natCast_ediv, hkey, Int.add_comm, Int.add_mul_ediv_right _ _ hpos.ne', Int.ediv_eq_zero_of_lt he0 helt,
      Int.zero_add]
  have hmod : ((k3key c layer expert % c.nExperts : Nat) : Int) = expert := by
    rw [Int.natCast_emod, hkey, Int.add_comm, Int.add_mul_emod_self_right, Int.emod_eq_of_lt he0 helt]
  unfold keyLayer keyExpert toInt32
  rw [hdiv, hmod]
  exact ⟨Int.bmod_eq_of_le (by omega) (by omega), Int.bmod_eq_of_le (by omega) (by omega)⟩

end Keys

/-! ## The source -/

section Source

variable {s : K3StIndex} {c : K3Cfg} {reads : Nat → Serves s × Serves s}

/-- The payload of a direct read starts where the request lies in its first page. -/
theorem directRead_payloadOff (f : FileBytes) (k : Kernel f.size) (off nbytes bufcap : Int) (buf : Int → UInt8) :
    (directRead f k off nbytes bufcap 0 buf).payloadOff = 0 ∨
      (directRead f k off nbytes bufcap 0 buf).payloadOff = off - windowLo off := by
  unfold directRead
  dsimp only
  split
  · exact Or.inl rfl
  · exact Or.inr rfl

/-- Read through whichever descriptor. -/
theorem k3StReadAligned_payloadOff (s : K3St) (shard : Int) (k kd : Kernel (s.shard shard.toNat).size)
    (off nbytes bufcap : Int) (buf : Int → UInt8) :
    (k3StReadAligned s shard k kd off nbytes bufcap 0 buf).payloadOff = 0 ∨
      (k3StReadAligned s shard k kd off nbytes bufcap 0 buf).payloadOff = off - windowLo off := by
  unfold k3StReadAligned
  simp only
  split_ifs
  · exact Or.inl rfl
  · exact Or.inl rfl
  · exact Or.inl rfl
  · exact directRead_payloadOff _ kd off nbytes bufcap buf

/-- The payload starts inside the first page. -/
theorem k3LoadRead_payloadOff (reads : Nat → Serves s × Serves s) (ctx : Nat) (given : Vector UInt8 refBytes) (before : Nat → UInt8) (cap : Int) :
    0 ≤ (k3LoadRead s reads ctx given before cap).payloadOff ∧
      (k3LoadRead s reads ctx given before cap).payloadOff < engIoAlign := by
  have hzero : (0 : Int) ≤ 0 ∧ (0 : Int) < engIoAlign := by decide
  unfold k3LoadRead k3ExpertLoadDirect
  split
  · exact hzero
  · rcases k3StReadAligned_payloadOff s.toK3St (K3ExpertRef.ofBytes given).shard ((reads ctx).1 0 _)
      ((reads ctx).2 0 _) (K3ExpertRef.ofBytes given).off (K3ExpertRef.ofBytes given).nbytes cap
      (fun a => before a.toNat) with h | h
    · rw [h]
      exact hzero
    · rw [h]
      unfold windowLo engIoAlign
      omega

theorem k3Source_narrow : (k3Source s c reads).Narrow := by
  intro ctx key given buf cap
  obtain ⟨hlo, hhi⟩ := k3LoadRead_payloadOff reads ctx given buf cap
  have hpad : ((k3Source s c reads).load ctx key given buf cap).payloadOff =
      (k3LoadRead s reads ctx given buf cap).payloadOff := rfl
  unfold engIoAlign at hhi
  rw [hpad]
  unfold toInt32
  exact Int.bmod_eq_of_le (by omega) (by omega)

/-- An expert `k3_describe` accepts. -/
theorem k3Describe_ok {key : Nat} {r : K3ExpertRef} (h : k3ExpertRef s (keyLayer c key) (keyExpert c key) = .ok r)
    (ctx : Nat) (given : Vector UInt8 refBytes) :
    k3Describe s c ctx key given = { ctx := ctx, rc := 0, nbytes := r.nbytes, wrote := r.toBytes } := by
  unfold k3Describe
  dsimp only
  rw [refLeft_ok h, h]

/-- What a load leaves is what its read left. -/
theorem k3Source_load (reads : Nat → Serves s × Serves s) (ctx key : Nat) (given : Vector UInt8 refBytes) (before : Nat → UInt8) (cap : Int) :
    ((k3Source s c reads).load ctx key given before cap).payloadOff =
        (k3LoadRead s reads ctx given before cap).payloadOff ∧
      ∀ i : Nat, ((k3Source s c reads).load ctx key given before cap).buf i =
        (k3LoadRead s reads ctx given before cap).buf i := ⟨rfl, fun _ => rfl⟩

/-- A load of an accepted expert into a slot of the right size stays in it. -/
theorem loadDirect_inBuffer {r : K3ExpertRef} {a b c : Pair} {shard : Nat} (h : r.Accepted s a b c shard)
    (hn : 0 ≤ r.nbytes) (ks kd : Serves s) (buf : Mem) {cap : Int} (hroom : r.nbytes + 2 * engIoAlign ≤ cap)
    (hcap : cap < 2 ^ 63) : InBuffer (k3ExpertLoadDirect s ks kd r buf cap 0) cap := by
  intro _
  have hcount := h.loadDirect_count ks kd buf 0 hroom hcap
  obtain hrun | hsix := h.layout
  · unfold k3ExpertLoadDirect
    rw [hrun.contiguous]
    have hbound := (s.shard r.shard).bounded
    have hend := hrun.ends
    have hshard : (0 : Int) ≤ r.shard ∧ (r.shard : Int) < s.nshard := ⟨by omega, hrun.shard⟩
    exact (k3StReadAligned_delivers s.toK3St hshard (ks 0 _) (kd 0 _)
      ⟨hrun.start, by omega, hn, hroom, hcap⟩ 0 buf).inside
  · rw [hcount]
    unfold k3ExpertLoadDirect
    rw [hsix.scattered]
    refine ⟨le_refl _, ?_⟩
    unfold engIoAlign at hroom
    show 0 + r.nbytes ≤ cap
    omega

/-- **The load that `k3_describe` prepares is made**: in full, and inside the slot. -/
theorem k3Load_got (hs : s.Inside) {layer expert : Int} {r : K3ExpertRef} (href : k3ExpertRef s layer expert = .ok r)
    (hstore : r.Storable) {cap : Int} (hroom : r.nbytes + 2 * engIoAlign ≤ cap) (hcap : cap < 2 ^ 63)
    (ctx key : Nat) (before : Nat → UInt8) : (k3Load s reads ctx key r.toBytes before cap).got = r.nbytes := by
  obtain ⟨-, a, b, d, shard, hacc, -⟩ := k3ExpertRef_accepted hs href
  have hn : 0 ≤ r.nbytes := by
    have hmem : (a.pk, r.m1.pOff) ∈ r.places a b d := List.mem_cons_self ..
    have hplace := hacc.place_inside hmem
    have hsize := (hacc.inFile _ hmem).size
    simp only at hplace hsize
    omega
  have hread : k3LoadRead s reads ctx r.toBytes before cap =
      k3ExpertLoadDirect s (reads ctx).1 (reads ctx).2 r (fun a => before a.toNat) cap 0 := by
    unfold k3LoadRead
    rw [K3ExpertRef.ofBytes_toBytes hstore]
  have hgot : (k3Load s reads ctx key r.toBytes before cap).got =
      if InBuffer (k3LoadRead s reads ctx r.toBytes before cap) cap then
        (k3LoadRead s reads ctx r.toBytes before cap).count else -1 := rfl
  rw [hgot, hread, if_pos (loadDirect_inBuffer hacc hn _ _ _ hroom hcap)]
  exact hacc.loadDirect_count _ _ _ 0 hroom hcap

end Source

/-! ## The invariant -/

/-- What holds of the cache between calls, pins or none. -/
structure Sound (s : K3StIndex) (c : K3Cfg) (z : K3Cache) : Prop where
  quiet : Quiet z.gc
  content : Content z.gc
  honest : Honest z.gc
  src : ∃ reads, z.gc.src = k3Source s c reads
  keys : z.gc.cfg.nkeys = c.nLayers * c.nExperts
  slots : ∀ r ∈ probe s c, z.gc.cfg.slotBytes = r.nbytes
  probed : (probe s c).isSome = true
  sized : Sized z.gc.cfg z.gc
  synced : z.mirror = mirrorOf z.gc

section Sound

variable {s : K3StIndex} {c : K3Cfg} {z : K3Cache} {layer expert : Int}

/-- An expert of a MoE layer is in the model. -/
theorem IsMoe.inModel (hl : IsMoe c layer) (he : 0 ≤ expert ∧ expert < c.nExperts) : InModel c layer expert := by
  obtain ⟨hfirst, hlast⟩ := hl
  unfold InModel
  omega

theorem Sound.inRange (h : Sound s c z) (hr : Routed s c) (hin : InModel c layer expert) :
    z.gc.inRange (k3key c layer expert) := by
  unfold EngCache.inRange
  rw [h.keys]
  exact_mod_cast (k3key_eq hr.layers hr.experts hin).2

/-- What the cache's slots are sized by bounds every routed expert. -/
theorem Sound.expert_fits (h : Sound s c z) (hr : Routed s c) (hl : IsMoe c layer)
    (he : 0 ≤ expert ∧ expert < c.nExperts) :
    ∃ r, k3ExpertRef s (keyLayer c (k3key c layer expert)) (keyExpert c (k3key c layer expert)) = .ok r ∧
      k3ExpertRef s layer expert = .ok r ∧ Shaped c r ∧ r.Storable ∧ r.nbytes ≤ z.gc.cfg.slotBytes ∧
      r.nbytes + 2 * engIoAlign ≤ z.gc.stride ∧ z.gc.stride < 2 ^ 63 := by
  obtain ⟨r, href, hshape, hmax⟩ := hr.each layer expert hl he.1 he.2
  obtain ⟨r₀, hprobe⟩ := Option.isSome_iff_exists.mp h.probed
  obtain ⟨hkl, hke⟩ := key_parts hr.layers hr.experts (hl.inModel he)
  have hle := hmax r₀ (Option.mem_def.mpr hprobe)
  rw [← h.slots r₀ (Option.mem_def.mpr hprobe)] at hle
  have hsum := h.sized.exact_sum
  have hlt := h.sized.stride_lt
  have hpay := h.sized.payload
  have hroom := engCacheStrideFor_room (show 0 ≤ z.gc.cfg.slotBytes by omega)
  rw [← h.sized.stride] at hroom
  have hlow := hl.1
  have hhigh := hl.2
  have hnl := hr.layers
  have hne := hr.experts
  have hlayer : IsInt layer := ⟨by omega, by omega⟩
  have hexpert : IsInt expert := ⟨by omega, by omega⟩
  refine ⟨r, by rw [hkl, hke]; exact href, href, hshape, ?_, hle, by omega, hlt⟩
  refine k3ExpertRef_storable hr.inside hr.shards hlayer hexpert href ?_
  unfold engIoAlign at hsum
  omega

/-- The source supplies every expert of a MoE layer. -/
theorem Sound.supplies (h : Sound s c z) (hr : Routed s c) (hl : IsMoe c layer)
    (he : 0 ≤ expert ∧ expert < c.nExperts) : Supplies z.gc (k3key c layer expert) := by
  obtain ⟨r, hkey, href, -, hstore, hle, hroom, hcap⟩ := h.expert_fits hr hl he
  obtain ⟨reads, hsrc⟩ := h.src
  have hdesc : ∀ ctx given, z.gc.src.describe ctx (k3key c layer expert) given =
      { ctx := ctx, rc := 0, nbytes := r.nbytes, wrote := r.toBytes } := by
    intro ctx given
    rw [hsrc]
    exact k3Describe_ok hkey ctx given
  refine ⟨fun ctx given => ?_, fun ctx given => ?_, fun ctx given ctx' buf => ?_⟩
  · rw [hdesc]
  · rw [hdesc]
    exact hle
  · rw [hdesc, hsrc]
    exact k3Load_got hr.inside href hstore hroom hcap ctx' (k3key c layer expert) buf

/-! ## What is served -/

/-- Windows on the same bytes are the same. -/
theorem window_same {m m' : Mem} {p p' k : Int} {n : Nat} (h : SameBytes m p m' p' k) (hn : (n : Int) ≤ k) :
    window m' p' n = window m p n := by
  funext i
  unfold window
  split
  · next hi => rw [h i (Int.natCast_nonneg i) (by omega)]
  · rfl

/-- An expert is delivered to wherever its bytes are copied. -/
theorem delivered_copy {r : K3ExpertRef} {res : ReadResult} (hdel : Bind.Delivered s r res)
    (hinside : RegionsInside s r) {m : Mem} {p : Int} (hsame : SameBytes res.buf res.payloadOff m p r.nbytes)
    (count : Int) : Bind.Delivered s r { count := count, payloadOff := p, buf := m } := by
  simp only [Bind.Delivered, RegionsInside, EveryMat, K3ExpertQ.mats, fillQ, List.forall_mem_cons] at hdel hinside ⊢
  obtain ⟨⟨p1, c1, hp1, hc1, dp1, dc1⟩, ⟨p2, c2, hp2, hc2, dp2, dc2⟩, ⟨p3, c3, hp3, hc3, dp3, dc3⟩, -⟩ := hdel
  obtain ⟨⟨q1, e1, hq1, he1, i1, j1⟩, ⟨q2, e2, hq2, he2, i2, j2⟩, ⟨q3, e3, hq3, he3, i3, j3⟩, -⟩ := hinside
  obtain rfl : p1 = q1 := Option.some.inj (hp1.symm.trans hq1)
  obtain rfl : c1 = e1 := Option.some.inj (hc1.symm.trans he1)
  obtain rfl : p2 = q2 := Option.some.inj (hp2.symm.trans hq2)
  obtain rfl : c2 = e2 := Option.some.inj (hc2.symm.trans he2)
  obtain rfl : p3 = q3 := Option.some.inj (hp3.symm.trans hq3)
  obtain rfl : c3 = e3 := Option.some.inj (hc3.symm.trans he3)
  rw [Int.zero_add] at i1 j1 i2 j2 i3 j3
  exact ⟨⟨p1, c1, hp1, hc1, dp1.trans (hsame.part i1.1 i1.2), dc1.trans (hsame.part j1.1 j1.2)⟩,
    ⟨p2, c2, hp2, hc2, dp2.trans (hsame.part i2.1 i2.2), dc2.trans (hsame.part j2.1 j2.2)⟩,
    ⟨p3, c3, hp3, hc3, dp3.trans (hsame.part i3.1 i3.2), dc3.trans (hsame.part j3.1 j3.2)⟩,
    fun _ hmem => absurd hmem List.not_mem_nil⟩

/-- A buffer that an expert was delivered to is read as the checkpoint's expert. -/
theorem readQ_delivered {r : K3ExpertRef} (href : k3ExpertRef s layer expert = .ok r) (hs : s.Inside)
    (hshape : Shaped c r) {res : ReadResult} (hdel : Bind.Delivered s r res) :
    readQ c res.buf (fillQ res.payloadOff r) = checkpointExpert s c layer expert := by
  obtain ⟨⟨hlayer, hexpert⟩, a, b, d, shard, hacc, -⟩ := k3ExpertRef_accepted hs href
  -- the sizes of the reference are those of its tensors
  have hsizes : r.m1.pBytes = a.pk.nbytes ∧ r.m1.sBytes = a.sc.nbytes ∧ r.m2.pBytes = b.pk.nbytes ∧
      r.m2.sBytes = b.sc.nbytes ∧ r.m3.pBytes = d.pk.nbytes ∧ r.m3.sBytes = d.sc.nbytes := by
    obtain ⟨a', b', d', hr, ha, hb, hd⟩ := k3ExpertRef_ok href
    have hname := hacc.w1.pk
    have e1 : a'.pk = a.pk := Option.some.inj (ha.pk.symm.trans (by rw [← hlayer, ← hexpert]; exact hacc.w1.pk))
    have e2 : a'.sc = a.sc := Option.some.inj (ha.sc.symm.trans (by rw [← hlayer, ← hexpert]; exact hacc.w1.sc))
    have e3 : b'.pk = b.pk := Option.some.inj (hb.pk.symm.trans (by rw [← hlayer, ← hexpert]; exact hacc.w2.pk))
    have e4 : b'.sc = b.sc := Option.some.inj (hb.sc.symm.trans (by rw [← hlayer, ← hexpert]; exact hacc.w2.sc))
    have e5 : d'.pk = d.pk := Option.some.inj (hd.pk.symm.trans (by rw [← hlayer, ← hexpert]; exact hacc.w3.pk))
    have e6 : d'.sc = d.sc := Option.some.inj (hd.sc.symm.trans (by rw [← hlayer, ← hexpert]; exact hacc.w3.sc))
    rw [← e1, ← e2, ← e3, ← e4, ← e5, ← e6, hr]
    unfold makeRef
    split_ifs <;> exact ⟨rfl, rfl, rfl, rfl, rfl, rfl⟩
  obtain ⟨z1, z2, z3, z4, z5, z6⟩ := hsizes
  simp only [Bind.Delivered, EveryMat, K3ExpertQ.mats, fillQ, List.forall_mem_cons] at hdel
  obtain ⟨⟨p1, c1, hp1, hc1, dp1, dc1⟩, ⟨p2, c2, hp2, hc2, dp2, dc2⟩, ⟨p3, c3, hp3, hc3, dp3, dc3⟩, -⟩ := hdel
  obtain rfl : p1 = a.pk := Option.some.inj (hp1.symm.trans hacc.w1.pk)
  obtain rfl : c1 = a.sc := Option.some.inj (hc1.symm.trans hacc.w1.sc)
  obtain rfl : p2 = b.pk := Option.some.inj (hp2.symm.trans hacc.w2.pk)
  obtain rfl : c2 = b.sc := Option.some.inj (hc2.symm.trans hacc.w2.sc)
  obtain rfl : p3 = d.pk := Option.some.inj (hp3.symm.trans hacc.w3.pk)
  obtain rfl : c3 = d.sc := Option.some.inj (hc3.symm.trans hacc.w3.sc)
  have h1 := hshape.p1
  have h2 := hshape.s1
  have h3 := hshape.p2
  have h4 := hshape.s2
  have h5 := hshape.p3
  have h6 := hshape.s3
  rw [z1] at h1
  rw [z2] at h2
  rw [z3] at h3
  rw [z4] at h4
  rw [z5] at h5
  rw [z6] at h6
  unfold readQ checkpointExpert tensorBytes fillQ
  rw [← hlayer, ← hexpert, hp1, hc1, hp2, hc2, hp3, hc3]
  dsimp only
  rw [window_same dp1 h1, window_same dc1 h2, window_same dp2 h3, window_same dc2 h4, window_same dp3 h5,
    window_same dc3 h6]

/-- **A genuine entry is the checkpoint's expert.** -/
theorem Sound.entryQ_eq (h : Sound s c z) (hr : Routed s c) (hl : IsMoe c layer)
    (he : 0 ≤ expert ∧ expert < c.nExperts) {e : EngCacheEntry refBytes}
    (hgen : Genuine z.gc (k3key c layer expert) e) : entryQ c z.gc e = checkpointExpert s c layer expert := by
  obtain ⟨r, hkey, href, hshape, hstore, hle, hroom, hcap⟩ := h.expert_fits hr hl he
  obtain ⟨reads, hsrc⟩ := h.src
  obtain ⟨slot, off, buf, hdesc, hload, hbytes⟩ := hgen
  -- the metadata is the reference
  obtain ⟨ctx, given, -, hn, hw⟩ := h.honest _ hdesc
  rw [hsrc] at hn hw
  have hdescribed : (k3Source s c reads).describe ctx (k3key c layer expert) given =
      { ctx := ctx, rc := 0, nbytes := r.nbytes, wrote := r.toBytes } := k3Describe_ok hkey ctx given
  rw [hdescribed] at hn hw
  have hn : r.nbytes = e.nbytes := hn
  have hw : r.toBytes = e.slotMeta := hw
  -- the bytes are a load made with it
  obtain ⟨ctx', before, hgot, hoff, hbuf⟩ := h.honest _ hload
  rw [hsrc, ← hw] at hoff hbuf
  obtain ⟨hpad, hread⟩ := k3Source_load (c := c) reads ctx' (k3key c layer expert) r.toBytes before z.gc.stride
  rw [hpad] at hoff
  obtain ⟨hnonneg, -⟩ := k3LoadRead_payloadOff reads ctx' r.toBytes before z.gc.stride
  have hcall : k3LoadRead s reads ctx' r.toBytes before z.gc.stride =
      k3ExpertLoadDirect s (reads ctx').1 (reads ctx').2 r (fun a => before a.toNat) z.gc.stride 0 := by
    unfold k3LoadRead
    rw [K3ExpertRef.ofBytes_toBytes hstore]
  obtain ⟨-, ⟨hinside, -⟩, -, hdirect, -⟩ := expert_loads_agree hr.inside href
  obtain ⟨hfull, hcount⟩ := hdirect (reads ctx').1 (reads ctx').2 (fun a => before a.toNat) z.gc.stride 0
  have hdel := hfull (hcount hroom hcap)
  rw [← hcall] at hdel
  -- so the arena holds the expert where the entry says
  have hsame : SameBytes (k3LoadRead s reads ctx' r.toBytes before z.gc.stride).buf
      (k3LoadRead s reads ctx' r.toBytes before z.gc.stride).payloadOff z.gc.arena e.data r.nbytes := by
    intro j hj hlt
    obtain ⟨i, rfl⟩ := Int.eq_ofNat_of_zero_le hj
    rw [hoff] at hnonneg ⊢
    rw [hbytes i (hn ▸ hlt), ← hbuf, hread, Int.toNat_of_nonneg (Int.add_nonneg hnonneg (Int.natCast_nonneg i))]
  have hq := readQ_delivered href hr.inside hshape (delivered_copy hdel hinside hsame e.nbytes)
  unfold entryQ
  rw [← hw, K3ExpertRef.ofBytes_toBytes hstore]
  exact hq

/-! ## Calls keep it -/

/-- What a clean call of the generic cache leaves is sound again. -/
theorem Sound.engine (h : Sound s c z) (op : Storage.Cache.Op) (hclean : Clean z.gc op) :
    Sound s c (syncStats (Storage.Cache.applyOp z.gc op)) := by
  obtain ⟨hstride, hnslot⟩ := applyOp_slots h.quiet op
  have hcfg := applyOp_cfg h.quiet op
  refine
    { quiet := (applyOp_ok h.quiet op).1
      content := applyOp_content h.quiet h.content hclean
      honest := applyOp_honest h.honest op
      src := ?_
      keys := ?_
      slots := ?_
      probed := h.probed
      sized := ?_
      synced := rfl }
  · obtain ⟨reads, hsrc⟩ := h.src
    exact ⟨reads, (applyOp_src h.quiet op).trans hsrc⟩
  · show (Storage.Cache.applyOp z.gc op).cfg.nkeys = _
    rw [hcfg]
    exact h.keys
  · show ∀ r ∈ probe s c, (Storage.Cache.applyOp z.gc op).cfg.slotBytes = r.nbytes
    rw [hcfg]
    exact h.slots
  · show Sized (Storage.Cache.applyOp z.gc op).cfg (Storage.Cache.applyOp z.gc op)
    rw [hcfg]
    exact ⟨hstride.trans h.sized.stride, h.sized.payload, hnslot ▸ h.sized.slots, h.sized.exact_sum,
      hstride ▸ h.sized.stride_lt⟩

theorem Sound.narrow (h : Sound s c z) : z.gc.src.Narrow := by
  obtain ⟨reads, hsrc⟩ := h.src
  rw [hsrc]
  exact k3Source_narrow

theorem Sound.get (h : Sound s c z) (layer expert : Int) : Sound s c (cacheGet c z layer expert).2 := by
  unfold cacheGet
  split_ifs
  · exact h.engine (.get (k3key c layer expert)) (clean_get h.narrow _)
  · exact h

theorem Sound.prefetch (h : Sound s c z) (layer expert : Int) : Sound s c (k3CachePrefetch c z layer expert).1 :=
  h.engine (.get (k3key c layer expert)) (clean_get h.narrow _)

/-- Every key of a batch of a MoE layer is one of its experts. -/
theorem batchKeys_mem {ids : List Int} {k : Nat} (hk : k ∈ batchKeys c layer ids) :
    ∃ e : Int, (0 ≤ e ∧ e < c.nExperts) ∧ k = k3key c layer e := by
  obtain ⟨e, he, rfl⟩ := List.mem_map.mp hk
  exact ⟨e, of_decide_eq_true (List.mem_filter.mp he).2, rfl⟩

theorem Sound.getmany (h : Sound s c z) (hr : Routed s c) (hl : IsMoe c layer) (ids : List Int) :
    Sound s c (cacheGetmany c z layer ids).1 := by
  unfold cacheGetmany
  split_ifs
  · exact h
  · refine h.engine (.getMany (batchKeys c layer ids)) (clean_getMany h.narrow fun k hk _ => ?_)
    obtain ⟨e, he, rfl⟩ := batchKeys_mem hk
    exact h.supplies hr hl he

theorem Sound.pin (h : Sound s c z) (layer expert : Int) (pin : Bool) :
    Sound s c (k3CachePin c z layer expert pin).1 := by
  unfold k3CachePin
  split_ifs
  · have hstep := h.engine (.pin (k3key c layer expert) pin) trivial
    -- a pin moves no counter
    have hcounters : mirrorOf (engCachePin z.gc (k3key c layer expert) pin).1 = mirrorOf z.gc := by
      unfold engCachePin
      split_ifs
      · cases z.gc.slotOf (k3key c layer expert) <;> rfl
      · rfl
    exact { hstep with synced := h.synced.trans hcounters.symm }
  · exact h

/-- The calls the kernels make: a batch is of a MoE layer. -/
def MoeBatches (c : K3Cfg) (_ : K3Cache) : Op → Prop
  | .getmany layer _ => IsMoe c layer
  | _ => True

/-- **Every call keeps the cache sound.** -/
theorem Sound.applyOp (h : Sound s c z) (hr : Routed s c) (op : Op) (hop : MoeBatches c z op) :
    Sound s c (applyOp c z op) := by
  cases op with
  | get layer expert => exact h.get layer expert
  | getmany layer ids => exact h.getmany hr hop ids
  | resident layer expert => exact h
  | pin layer expert pin => exact h.pin layer expert pin
  | prefetch layer expert => exact h.prefetch layer expert
  | resetStats => exact h.engine .resetStats trivial

/-- A cache as `k3_cache_init` leaves it. -/
theorem k3CacheInit_sound {reads : Nat → Serves s × Serves s} {budgetBytes : Int} {arena : Int → UInt8}
    (hbudget : -2 ^ 63 ≤ budgetBytes ∧ budgetBytes < 2 ^ 63)
    (hinit : k3CacheInit s c reads budgetBytes arena = some z) :
    Sound s c z ∧ ∀ t, z.gc.pinned t = false := by
  unfold k3CacheInit at hinit
  obtain ⟨r, hprobe, hmap⟩ := Option.bind_eq_some_iff.mp hinit
  obtain ⟨gc, hcreate, rfl⟩ := Option.map_eq_some_iff.mp hmap
  obtain ⟨hhonest, hsrc, hcfg, hpins⟩ := engCacheCreate_honest hcreate
  obtain ⟨hquiet, hcontent⟩ := reaches_content hcreate .start
  have hsized := engCacheCreate_sized hbudget hcreate
  refine ⟨{ quiet := hquiet, content := hcontent, honest := hhonest, src := ⟨reads, hsrc⟩, keys := ?_, slots := ?_,
            probed := by rw [hprobe]; rfl, sized := ?_, synced := rfl }, fun t => ?_⟩
  · show gc.cfg.nkeys = _
    rw [hcfg]
    rfl
  · intro r' hr'
    obtain rfl : r = r' := Option.some.inj (hprobe.symm.trans hr')
    show gc.cfg.slotBytes = _
    rw [hcfg]
    rfl
  · show Sized gc.cfg gc
    rw [hcfg]
    exact hsized
  · show gc.pinned t = false
    rw [hpins]

/-! ## What is served -/

/-- What `get` returns for a routed expert is the checkpoint's. -/
theorem Sound.get_value (h : Sound s c z) (hr : Routed s c) (hl : IsMoe c layer)
    (he : 0 ≤ expert ∧ expert < c.nExperts) {q : Core.K3ExpertQ} (hq : (cacheGet c z layer expert).1 = some q) :
    q = checkpointExpert s c layer expert := by
  have hin := hl.inModel he
  have hnext := h.get layer expert
  unfold cacheGet at hq hnext
  rw [if_pos hin] at hq hnext
  obtain ⟨e, hget, rfl⟩ := Option.map_eq_some_iff.mp hq
  have hgen : Genuine (engCacheGet z.gc (k3key c layer expert)).1 (k3key c layer expert) e := by
    unfold engCacheGet at hget hnext ⊢
    rw [if_pos (h.inRange hr hin)] at hget hnext ⊢
    obtain ⟨slot, hslot, rfl⟩ := Option.map_eq_some_iff.mp hget
    have hquiet : Quiet (record z.gc (k3key c layer expert)) := Batch.congr h.quiet rfl rfl rfl rfl rfl
    exact (hnext.content slot _ (admitKey_slot hquiet hslot)).genuine
  exact hnext.entryQ_eq hr hl he hgen

theorem Sound.resident_value (h : Sound s c z) (hr : Routed s c) (hl : IsMoe c layer)
    (he : 0 ≤ expert ∧ expert < c.nExperts) {q : Core.K3ExpertQ} (hq : cacheResident c z layer expert = some q) :
    q = checkpointExpert s c layer expert := by
  unfold cacheResident at hq
  rw [if_pos (hl.inModel he)] at hq
  obtain ⟨e, hpeek, rfl⟩ := Option.map_eq_some_iff.mp hq
  unfold engCachePeek at hpeek
  rw [if_pos (h.inRange hr (hl.inModel he))] at hpeek
  obtain ⟨slot, hslot, rfl⟩ := Option.map_eq_some_iff.mp hpeek
  exact h.entryQ_eq hr hl he (h.content slot _ ((h.quiet.inverse _ slot).mp hslot)).genuine

/-- **`get` fails only where it must**: the expert is not resident and every slot is pinned. -/
theorem Sound.get_none (h : Sound s c z) (hr : Routed s c) (hl : IsMoe c layer)
    (he : 0 ≤ expert ∧ expert < c.nExperts) :
    (cacheGet c z layer expert).1 = none ↔
      cacheResident c z layer expert = none ∧ ∀ t < z.gc.nslot, z.gc.pinned t = true := by
  have hin := hl.inModel he
  have hrange := h.inRange hr hin
  have hget : (cacheGet c z layer expert).1 = none ↔ (engCacheGet z.gc (k3key c layer expert)).2 = none := by
    unfold cacheGet
    rw [if_pos hin]
    exact Option.map_eq_none_iff
  have hres : cacheResident c z layer expert = none ↔ z.gc.slotOf (k3key c layer expert) = none := by
    unfold cacheResident engCachePeek
    rw [if_pos hin, if_pos hrange, Option.map_eq_none_iff, Option.map_eq_none_iff]
  rw [hget, hres]
  constructor
  · intro hnone
    have habs : z.gc.slotOf (k3key c layer expert) = none := by
      cases hs : z.gc.slotOf (k3key c layer expert) with
      | none => rfl
      | some slot =>
          have hhit : (record z.gc (k3key c layer expert)).slotOf (k3key c layer expert) = some slot := hs
          unfold engCacheGet at hnone
          rw [if_pos hrange, admitKey_hit hhit] at hnone
          cases hnone
    refine ⟨habs, fun t ht => ?_⟩
    by_contra hpin
    -- an unpinned slot could have been given away
    have hfree : Free z.gc t := (h.quiet.mem_unpinned.mp (by
      unfold unpinned
      rw [Finset.mem_filter, Finset.mem_range]
      exact ⟨ht, by simpa using hpin⟩)).2
    have hserved := engCacheGet_serves hrange ⟨t, ht, hfree⟩ (h.supplies hr hl he)
    rw [hnone] at hserved
    cases hserved
  · rintro ⟨habs, hpins⟩
    have hfull : (admitDescribed (record z.gc (k3key c layer expert)) (k3key c layer expert)).1.pickVictim = none := by
      by_contra hsome
      obtain ⟨v, hv⟩ := Option.ne_none_iff_exists'.mp hsome
      obtain ⟨hlt, hfree⟩ := pickVictim_free hv
      have hunpinned : z.gc.pinned v = false := h.quiet.toIndex.unpinned (Or.inl hfree)
      rw [hpins v hlt] at hunpinned
      cases hunpinned
    unfold engCacheGet
    rw [if_pos hrange]
    rcases admitKey_cases (record z.gc (k3key c layer expert)) (k3key c layer expert) with
      ⟨slot, hs, -⟩ | ⟨-, -, heq⟩ | ⟨-, -, slot, hv, -⟩
    · have hs : z.gc.slotOf (k3key c layer expert) = some slot := hs
      rw [habs] at hs
      cases hs
    · rw [heq]
      rfl
    · rw [hfull] at hv
      cases hv

end Sound

/-! ## Whole runs -/

/-- **The cache serves the checkpoint.**  For a checkpoint that has its experts, a cache created with any budget
that is accepted, and any run of gets, prefetches, pins and counter resets, with batches of MoE layers in
between: every routed expert that `get` or `resident` returns is, byte for byte, the one the checkpoint has
under that layer and number; `get` fails only for an expert that is not resident while every slot is pinned;
and the counters in the struct are those of the cache behind it. -/
theorem cache_serves_checkpoint {s : K3StIndex} {c : K3Cfg} (hr : Routed s c) {reads : Nat → Serves s × Serves s}
    {budgetBytes : Int} (hbudget : -2 ^ 63 ≤ budgetBytes ∧ budgetBytes < 2 ^ 63) {arena : Int → UInt8}
    {z₀ z : K3Cache} (hinit : k3CacheInit s c reads budgetBytes arena = some z₀)
    (hrun : Reaches (step c) (MoeBatches c) z₀ z) :
    z.mirror = mirrorOf z.gc ∧
      ∀ layer expert : Int, IsMoe c layer → 0 ≤ expert ∧ expert < c.nExperts →
        (∀ q, (cacheGet c z layer expert).1 = some q → q = checkpointExpert s c layer expert) ∧
          (∀ q, cacheResident c z layer expert = some q → q = checkpointExpert s c layer expert) ∧
            ((cacheGet c z layer expert).1 = none ↔
              cacheResident c z layer expert = none ∧ ∀ t < z.gc.nslot, z.gc.pinned t = true) := by
  have hsound : Sound s c z := hrun.invariant (k3CacheInit_sound hbudget hinit).1 fun z op z' h hop hstep => by
    obtain rfl := Option.some.inj hstep
    exact h.applyOp hr op hop
  exact ⟨hsound.synced, fun layer expert hl he =>
    ⟨fun q hq => hsound.get_value hr hl he hq, fun q hq => hsound.resident_value hr hl he hq,
      hsound.get_none hr hl he⟩⟩

/-! ### One expert of 32 by 32 -/

/-- What is packed is 32 rows of 32 elements, with 32 scales: shape, offset and length.  The scales of `w1` lie in
front of everything, the rest follows. -/
def squareNames : List (String × List Int × Int × Int) :=
  [(expertName 0 0 "w1" "weight_packed", [32, 16], 32, 512),
    (expertName 0 0 "w1" "weight_scale", [32, 1], 0, 32),
    (expertName 0 0 "w2" "weight_packed", [32, 16], 544, 512),
    (expertName 0 0 "w2" "weight_scale", [32, 1], 1056, 32),
    (expertName 0 0 "w3" "weight_packed", [32, 16], 1088, 512),
    (expertName 0 0 "w3" "weight_scale", [32, 1], 1600, 32)]

theorem square_bounded : 1632 < 2 ^ 63 := by decide

def squareIndex : K3StIndex where
  nshard := 1
  shard := fun _ => { byte := UInt8.ofNat, size := 1632, bounded := square_bounded }
  dfd := some fun _ => 3
  find := fun name => (squareNames.lookup name).bind fun p => scanTensor 0 .u8 p.1 p.2.1 p.2.2

theorem square_no_mla : ∀ i ∈ ([] : List Nat), 1 ≤ i ∧ i ≤ 1 := by decide

/-- One MoE layer with one expert. -/
def squareCfg : K3Cfg where
  hidden := 1
  nLayers := 1
  vocab := 1
  kdaHeads := 1
  kdaHeadDim := 1
  convK := 1
  nHeads := 1
  qLora := 1
  kvLora := 1
  qkNope := 1
  qkRope := 1
  vHead := 1
  mlaOutGate := false
  nExperts := 1
  topk := 1
  nShared := 1
  latent := 32
  moeInter := 32
  moeRenorm := false
  latentNorm := false
  firstDense := 0
  denseInter := 1
  attnResBlock := 1
  fullAttn := []
  layers_pos := Nat.one_pos
  hidden_pos := Nat.one_pos
  vocab_pos := Nat.one_pos
  some_kda := Nat.one_pos
  in_range := square_no_mla
  topk_max := Core.maxTopk_pos
  topk_le := Nat.one_pos
  block_pos := Nat.one_pos
  conv_pos := Nat.one_pos

/-- Its reference: one run, the scales of `w1` first. -/
def squareRef : K3ExpertRef :=
  { layer := 0, expert := 0, shard := 0, off := 0, nbytes := 1632, contiguous := true
    m1 := ⟨32, 512, 0, 32, 32, 16, 1⟩, m2 := ⟨544, 512, 1056, 32, 32, 16, 1⟩
    m3 := ⟨1088, 512, 1600, 32, 32, 16, 1⟩ }

theorem squareIndex_ref : k3ExpertRef squareIndex 0 0 = .ok squareRef := by decide +kernel

theorem squareIndex_probe : probe squareIndex squareCfg = some squareRef := by decide +kernel

theorem squareIndex_inside : squareIndex.Inside := by
  have hall : ∀ x ∈ squareNames, 0 ≤ x.2.2.1 ∧ 0 ≤ x.2.2.2 ∧ x.2.2.1 + x.2.2.2 ≤ 1632 := by decide +kernel
  -- what is found was scanned
  have hfound : ∀ {name t}, squareIndex.find name = some t →
      ∃ p, (name, p) ∈ squareNames ∧ t.shard = 0 ∧ t.off = p.2.1 ∧ t.nbytes = p.2.2 := by
    intro name t h
    obtain ⟨p, hp, ht⟩ := Option.bind_eq_some_iff.mp h
    unfold scanTensor at ht
    split_ifs at ht
    obtain rfl := Option.some.inj ht
    obtain ⟨before, after, hnames, -⟩ := List.lookup_eq_some_iff.mp hp
    exact ⟨p, hnames ▸ List.mem_append_right before List.mem_cons_self, rfl, rfl, rfl⟩
  refine ⟨fun name t h => ?_, fun name t h => ?_⟩
  · obtain ⟨p, -, hshard, -⟩ := hfound h
    rw [hshard]
    decide
  · obtain ⟨p, hmem, -, hat, hlen⟩ := hfound h
    obtain ⟨hoff, hn, hend⟩ := hall _ hmem
    exact ⟨hat ▸ hoff, hlen ▸ hn, by rw [hat, hlen]; exact_mod_cast hend⟩

theorem squareIndex_routed : Routed squareIndex squareCfg where
  inside := squareIndex_inside
  shards := by decide
  layers := by decide
  experts := by decide
  each := by
    intro layer expert hl he0 helt
    obtain ⟨hfirst, hlast⟩ := hl
    have hcounts : (squareCfg.firstDense : Int) = 0 ∧ (squareCfg.nLayers : Int) = 1 ∧
        (squareCfg.nExperts : Int) = 1 := ⟨rfl, rfl, rfl⟩
    obtain rfl : layer = 0 := by omega
    obtain rfl : expert = 0 := by omega
    refine ⟨squareRef, squareIndex_ref, by constructor <;> decide, fun r₀ hr₀ => ?_⟩
    rw [squareIndex_probe] at hr₀
    obtain rfl := Option.some.inj hr₀
    exact le_refl _

/-- Two slots, the expert prefetched, its counters reset: what `get` returns is what the file has. -/
theorem square_cache_serves_checkpoint :
    ∃ z₀ z, k3CacheInit squareIndex squareCfg (fun _ => (fun _ _ => .whole _, fun _ _ => .bytewise _)) 24576
        (fun _ => 7) = some z₀ ∧
      Reaches (step squareCfg) (MoeBatches squareCfg) z₀ z ∧
      ∀ q, (cacheGet squareCfg z 0 0).1 = some q → q = checkpointExpert squareIndex squareCfg 0 0 := by
  have hsome : (k3CacheInit squareIndex squareCfg (fun _ => (fun _ _ => .whole _, fun _ _ => .bytewise _)) 24576
      (fun _ => 7)).isSome = true := by
    unfold k3CacheInit
    rw [squareIndex_probe]
    rfl
  obtain ⟨z₀, hz₀⟩ := Option.isSome_iff_exists.mp hsome
  have hmoe : IsMoe squareCfg 0 := ⟨by decide, by decide⟩
  have hrun : Reaches (step squareCfg) (MoeBatches squareCfg) z₀
      (applyOp squareCfg (applyOp squareCfg z₀ (.getmany 0 [0])) .resetStats) :=
    .next (i := .resetStats) (.next (i := .getmany 0 [0]) .start hmoe rfl) trivial rfl
  obtain ⟨-, hserved⟩ := cache_serves_checkpoint squareIndex_routed (by decide) hz₀ hrun
  exact ⟨z₀, _, hz₀, hrun, (hserved 0 0 hmoe ⟨by decide, by decide⟩).1⟩

end LlmEngine.Cache
