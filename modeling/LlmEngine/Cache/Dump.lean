/-
# LlmEngine.Cache.Dump — the request trace and the histogram on disk.

The cache records every request under its key.  `k3_cache_dump_trace` takes the keys apart again and writes
`(layer, expert)` pairs of `int32`s through a buffer of 1024, which `tools/sim_cache.py` reads back;
`k3_cache_dump_hist` lists the experts with a count.  After any run the file holds the requests of the run, in
their order, and the histogram counts them: what was prefetched in a batch, pinned or reset is not in it.

`fwrite` writes all it is given.  The model has the entries of the histogram, not the text around them.

* `dumpLoop_eq`: the buffer makes no difference, flushed or not.
* `dumpTrace_read`: `simPairs` gives back the pairs of the trace, member by member through the record format
  (`Lib.Record`).
* `Traced` is the state of the books after a list of requests.  One request books one pair (`Traced.request`);
  `Traced.applyOp` has a case for each call, and `run_traced` runs it.
* `Traced.hist_eq`: an entry of the histogram is the number of occurrences.

Layers and experts are `int`s, so a key splits into the pair it was made from (`keyPair_eq`).
-/
import LlmEngine.Cache.Serves
import LlmEngine.Lib.Record
import LlmEngine.Storage.CacheStats

namespace LlmEngine.Cache

open LlmEngine.Bind
open LlmEngine.Core (K3Cfg)
open LlmEngine.Lib
open LlmEngine.Storage
open LlmEngine.Storage.Cache

/-! ## The files -/

/-- `fwrite` of `int32_t`s. -/
def putInts (vs : List Int) : LittleEndian.Bytes := Record.encode (vs.map (Prod.mk 4))

/-- The two `int32_t`s of a request. -/
def keyPair (c : K3Cfg) (key : Nat) : Int × Int := (keyLayer c key, keyExpert c key)

/-- The loop of `k3_cache_dump_trace`: `buf` waits to be written behind `out`. -/
def dumpLoop (c : K3Cfg) : List Nat → List Int → LittleEndian.Bytes → LittleEndian.Bytes
  | [], buf, out => if buf = [] then out else out ++ putInts buf
  | key :: tr, buf, out =>
      let buf := buf ++ [(keyPair c key).1, (keyPair c key).2]
      if buf.length ≥ 1024 then dumpLoop c tr [] (out ++ putInts buf) else dumpLoop c tr buf out

/-- `k3_cache_dump_trace`: the bytes of the file, or `-1` for an empty trace. -/
def k3CacheDumpTrace (c : K3Cfg) (z : K3Cache) : Option LittleEndian.Bytes :=
  if z.gc.trace = [] then none else some (dumpLoop c z.gc.trace [] [])

/-- The entries `k3_cache_dump_hist` prints, in order; a count is a `uint32_t`. -/
def k3CacheDumpHist (c : K3Cfg) (z : K3Cache) : List ((Nat × Nat) × Nat) :=
  (List.range c.nLayers).flatMap fun L =>
    (List.range c.nExperts).filterMap fun e =>
      let k := L * c.nExperts + e
      let v := z.gc.hist k % 2 ^ 32
      if (k : Int) ≥ z.gc.cfg.nkeys then none else if v = 0 then none else some ((L, e), v)

/-- `np.fromfile(path, dtype=np.int32)`: the whole `int32`s of the file. -/
def fromFile (bs : LittleEndian.Bytes) : List Int := Record.decode (List.replicate (bs.length / 4) 4) bs

/-- `raw.reshape(-1, 2)`; an odd number of them ends the program. -/
def simPairs : List Int → Option (List (Int × Int))
  | [] => some []
  | [_] => none
  | layer :: expert :: raw => (simPairs raw).map ((layer, expert) :: ·)

/-! ## What is written is read back -/

theorem putInts_nil : putInts [] = [] := rfl

theorem putInts_append (vs ws : List Int) : putInts (vs ++ ws) = putInts vs ++ putInts ws := by
  unfold putInts Record.encode
  rw [List.map_append, List.flatMap_append]

/-- **Flushing makes no difference**: the file is the pairs of the trace one behind the other. -/
theorem dumpLoop_eq (c : K3Cfg) (tr : List Nat) (buf : List Int) (out : LittleEndian.Bytes) :
    dumpLoop c tr buf out = out ++ putInts (buf ++ tr.flatMap fun key => [(keyPair c key).1, (keyPair c key).2]) := by
  induction tr generalizing buf out with
  | nil =>
      rw [dumpLoop, List.flatMap_nil, List.append_nil]
      split_ifs with hbuf
      · rw [hbuf, putInts_nil, List.append_nil]
      · rfl
  | cons key tr ih =>
      rw [dumpLoop, List.flatMap_cons]
      split_ifs
      · rw [ih, List.nil_append, List.append_assoc, ← putInts_append, List.append_assoc]
      · rw [ih, List.append_assoc]

theorem toInt32_holds (v : Int) : Record.Holds 4 (toInt32 v) := by
  have hlo := Int.le_bmod (x := v) (m := 2 ^ 32) (by decide)
  have hhi := Int.bmod_lt (x := v) (m := 2 ^ 32) (by decide)
  unfold Record.Holds toInt32
  constructor <;> omega

theorem keyPair_holds (c : K3Cfg) (key : Nat) :
    Record.Holds 4 (keyPair c key).1 ∧ Record.Holds 4 (keyPair c key).2 := by
  unfold keyPair keyLayer keyExpert
  dsimp only
  constructor
  · apply toInt32_holds
  · apply toInt32_holds

theorem fromFile_putInts {vs : List Int} (h : ∀ v ∈ vs, Record.Holds 4 v) : fromFile (putInts vs) = vs := by
  have hfst : (vs.map (Prod.mk 4)).map Prod.fst = List.replicate vs.length 4 := by
    rw [List.map_map, ← List.map_const']
    rfl
  have hlen : (putInts vs).length / 4 = vs.length := by
    unfold putInts
    rw [Record.encode_length, hfst, List.sum_replicate_nat, Nat.mul_div_cancel _ (by decide)]
  unfold fromFile
  rw [hlen, ← hfst]
  unfold putInts
  rw [Record.decode_encode _ fun m hm => ?_, List.map_map]
  · exact List.map_id vs
  · obtain ⟨v, hv, rfl⟩ := List.mem_map.mp hm
    exact h v hv

theorem simPairs_flatMap (ps : List (Int × Int)) : simPairs (ps.flatMap fun p => [p.1, p.2]) = some ps := by
  induction ps with
  | nil => rfl
  | cons p ps ih =>
      rw [List.flatMap_cons]
      show (simPairs (ps.flatMap fun p => [p.1, p.2])).map _ = _
      rw [ih]
      rfl

/-- **The trace is read back**, pair by pair. -/
theorem dumpTrace_read {c : K3Cfg} {z : K3Cache} {file : LittleEndian.Bytes} (h : k3CacheDumpTrace c z = some file) :
    simPairs (fromFile file) = some (z.gc.trace.map (keyPair c)) := by
  unfold k3CacheDumpTrace at h
  split_ifs at h
  obtain rfl := Option.some.inj h
  have hread := simPairs_flatMap (z.gc.trace.map (keyPair c))
  rw [List.flatMap_map] at hread
  rw [dumpLoop_eq, List.nil_append, List.nil_append, fromFile_putInts, hread]
  intro v hv
  obtain ⟨key, -, hmem⟩ := List.mem_flatMap.mp hv
  obtain ⟨hlayer, hexpert⟩ := keyPair_holds c key
  rcases List.mem_pair.mp hmem with hv | hv
  · exact hv ▸ hlayer
  · exact hv ▸ hexpert

/-! ## One request -/

section Engine

variable {σ : Type} {m : Nat} {c : EngCache σ m}

/-- A request in the key space is recorded and counted, whatever comes of it. -/
theorem engCacheGet_recorded (h : Quiet c) {key : Nat} (hrange : c.inRange key) :
    (engCacheGet c key).1.trace = (record c key).trace ∧ (engCacheGet c key).1.hist = (record c key).hist := by
  have hq : Quiet (record c key) := Batch.congr h rfl rfl rfl rfl rfl
  have hbooked := admitKey_booked hq hrange
  unfold engCacheGet
  rw [if_pos hrange]
  exact ⟨hbooked.trace, hbooked.hist⟩

/-- A batch is not a request. -/
theorem engCacheGetMany_recorded (h : Quiet c) (keys : List Nat) :
    (engCacheGetMany c keys).1.trace = c.trace ∧ (engCacheGetMany c keys).1.hist = c.hist := by
  obtain ⟨n, hposted, -⟩ := engCacheGetMany_posted h keys
  have hasked := hposted.asked
  simp only [EngCache.asked, Prod.mk.injEq] at hasked
  obtain ⟨-, -, -, hhist, htrace⟩ := hasked
  exact ⟨htrace, hhist⟩

end Engine

/-! ## Runs -/

/-- What a call requests: `k3_cache_get` an expert in the model, and a prefetch whatever its key stands for. -/
def Op.requests (c : K3Cfg) : Op → List (Int × Int)
  | .get layer expert => if InModel c layer expert then [(layer, expert)] else []
  | .prefetch layer expert =>
      let key := k3key c layer expert
      if key < c.nLayers * c.nExperts then [keyPair c key] else []
  | _ => []

/-- The books of a cache after the requests `ps`. -/
structure Traced (c : K3Cfg) (z : K3Cache) (ps : List (Int × Int)) : Prop where
  quiet : Quiet z.gc
  keys : z.gc.cfg.nkeys = c.nLayers * c.nExperts
  wanted : z.gc.cfg.wantHist = true ∧ z.gc.cfg.wantTrace = true
  inKeys : ∀ k ∈ z.gc.trace, k < c.nLayers * c.nExperts
  pairs : z.gc.trace.map (keyPair c) = ps
  hist : ∀ k, z.gc.hist k = z.gc.trace.count k

section Traced

variable {c : K3Cfg} {z : K3Cache} {ps : List (Int × Int)}

/-- A call that keeps index, configuration, trace and histogram keeps the books. -/
theorem Traced.same (h : Traced c z ps) {z' : K3Cache} (hquiet : Quiet z'.gc) (hcfg : z'.gc.cfg = z.gc.cfg)
    (htrace : z'.gc.trace = z.gc.trace) (hhist : z'.gc.hist = z.gc.hist) : Traced c z' (ps ++ []) where
  quiet := hquiet
  keys := by rw [hcfg, h.keys]
  wanted := by rw [hcfg]; exact h.wanted
  inKeys := by rw [htrace]; exact h.inKeys
  pairs := by rw [htrace, h.pairs, List.append_nil]
  hist := by rw [htrace, hhist]; exact h.hist

/-- **A request is booked.** -/
theorem Traced.request (h : Traced c z ps) {key : Nat} (hkey : key < c.nLayers * c.nExperts) :
    Traced c (syncStats (engCacheGet z.gc key).1) (ps ++ [keyPair c key]) := by
  have hrange : z.gc.inRange key := by
    unfold EngCache.inRange
    rw [h.keys]
    exact_mod_cast hkey
  obtain ⟨htrace, hhist⟩ := engCacheGet_recorded h.quiet hrange
  have htrace : (engCacheGet z.gc key).1.trace = z.gc.trace ++ [key] :=
    htrace.trans (if_pos h.wanted.2)
  have hhist : (engCacheGet z.gc key).1.hist = Function.update z.gc.hist key (z.gc.hist key + 1) :=
    hhist.trans (if_pos h.wanted.1)
  have hcfg : (engCacheGet z.gc key).1.cfg = z.gc.cfg := applyOp_cfg h.quiet (.get key)
  refine
    { quiet := (applyOp_ok h.quiet (.get key)).1
      keys := (congrArg EngCacheCfg.nkeys hcfg).trans h.keys
      wanted := ?_
      inKeys := ?_
      pairs := ?_
      hist := fun k => ?_ }
  · show (engCacheGet z.gc key).1.cfg.wantHist = true ∧ (engCacheGet z.gc key).1.cfg.wantTrace = true
    rw [hcfg]
    exact h.wanted
  · show ∀ k ∈ (engCacheGet z.gc key).1.trace, k < c.nLayers * c.nExperts
    rw [htrace]
    intro k hk
    rcases List.mem_append.mp hk with hk | hk
    · exact h.inKeys k hk
    · rw [List.mem_singleton.mp hk]
      exact hkey
  · show (engCacheGet z.gc key).1.trace.map (keyPair c) = _
    rw [htrace, List.map_append, h.pairs]
    rfl
  · show (engCacheGet z.gc key).1.hist k = (engCacheGet z.gc key).1.trace.count k
    rw [htrace, hhist, List.count_append, List.count_singleton, ← h.hist]
    by_cases hk : k = key
    · rw [hk, Function.update_self, beq_self_eq_true, if_pos rfl]
    · rw [Function.update_of_ne hk, if_neg (by simpa using Ne.symm hk), Nat.add_zero]

/-- **Every call books its requests**, and nothing else. -/
theorem Traced.applyOp (h : Traced c z ps) (hl : c.nLayers < 2 ^ 31) (he : c.nExperts < 2 ^ 31) (op : Op) :
    Traced c (applyOp c z op) (ps ++ op.requests c) := by
  cases op with
  | get layer expert =>
      show Traced c (cacheGet c z layer expert).2 (ps ++ if InModel c layer expert then [(layer, expert)] else [])
      unfold cacheGet
      split_ifs with hin
      · obtain ⟨hlayer, hexpert⟩ := key_parts hl he hin
        have hparts : keyPair c (k3key c layer expert) = (layer, expert) := by
          unfold keyPair
          rw [hlayer, hexpert]
        rw [← hparts]
        exact h.request (k3key_eq hl he hin).2
      · exact h.same h.quiet rfl rfl rfl
  | getmany layer ids =>
      show Traced c (cacheGetmany c z layer ids).1 (ps ++ [])
      unfold cacheGetmany
      split_ifs
      · exact h.same h.quiet rfl rfl rfl
      · obtain ⟨htrace, hhist⟩ := engCacheGetMany_recorded h.quiet (batchKeys c layer ids)
        exact h.same (applyOp_ok h.quiet (.getMany (batchKeys c layer ids))).1
          (applyOp_cfg h.quiet (.getMany (batchKeys c layer ids))) htrace hhist
  | resident layer expert => exact h.same h.quiet rfl rfl rfl
  | pin layer expert pin =>
      show Traced c (k3CachePin c z layer expert pin).1 (ps ++ [])
      unfold k3CachePin
      split_ifs
      · have hbooks : (engCachePin z.gc (k3key c layer expert) pin).1.trace = z.gc.trace ∧
            (engCachePin z.gc (k3key c layer expert) pin).1.hist = z.gc.hist := by
          unfold engCachePin
          split_ifs
          · cases z.gc.slotOf (k3key c layer expert) <;> exact ⟨rfl, rfl⟩
          · exact ⟨rfl, rfl⟩
        exact h.same (applyOp_ok h.quiet (.pin (k3key c layer expert) pin)).1
          (applyOp_cfg h.quiet (.pin (k3key c layer expert) pin)) hbooks.1 hbooks.2
      · exact h.same h.quiet rfl rfl rfl
  | prefetch layer expert =>
      show Traced c (k3CachePrefetch c z layer expert).1
        (ps ++ if k3key c layer expert < c.nLayers * c.nExperts then [keyPair c (k3key c layer expert)] else [])
      split_ifs with hkey
      · exact h.request hkey
      · -- the generic cache turns the key away
        have hout : ¬ z.gc.inRange (k3key c layer expert) := by
          unfold EngCache.inRange
          rw [h.keys]
          exact_mod_cast hkey
        have hsame : (engCacheGet z.gc (k3key c layer expert)).1 = z.gc := by
          unfold engCacheGet
          rw [if_neg hout]
        have hleft : (k3CachePrefetch c z layer expert).1.gc = z.gc := hsame
        exact h.same (hleft.symm ▸ h.quiet) (by rw [hleft]) (by rw [hleft]) (by rw [hleft])
  | resetStats => exact h.same (applyOp_ok h.quiet .resetStats).1 rfl rfl rfl

theorem run_traced (hl : c.nLayers < 2 ^ 31) (he : c.nExperts < 2 ^ 31) (ops : List Op) (h : Traced c z ps) :
    Traced c (ops.foldl (applyOp c) z) (ps ++ ops.flatMap (Op.requests c)) := by
  induction ops generalizing z ps with
  | nil => exact (List.append_nil ps).symm ▸ h
  | cons op ops ih =>
      rw [List.foldl_cons, List.flatMap_cons, ← List.append_assoc]
      exact ih (h.applyOp hl he op)

theorem k3CacheInit_traced {s : K3StIndex} {reads : Nat → Serves s × Serves s} {budgetBytes : Int}
    {arena : Int → UInt8} (hinit : k3CacheInit s c reads budgetBytes arena = some z) : Traced c z [] := by
  unfold k3CacheInit at hinit
  obtain ⟨r, -, hmap⟩ := Option.bind_eq_some_iff.mp hinit
  obtain ⟨gc, hcreate, rfl⟩ := Option.map_eq_some_iff.mp hmap
  have hquiet := engCacheCreate_quiet hcreate
  unfold engCacheCreate at hcreate
  simp only at hcreate
  split_ifs at hcreate
  obtain rfl := Option.some.inj hcreate
  exact ⟨hquiet, rfl, ⟨rfl, rfl⟩, fun _ hk => absurd hk List.not_mem_nil, rfl, fun _ => rfl⟩

/-- The pair of a key in the key space. -/
theorem keyPair_eq (hl : c.nLayers < 2 ^ 31) (he : c.nExperts < 2 ^ 31) {key : Nat} (hkey : key < c.nLayers * c.nExperts) :
    keyPair c key = (((key / c.nExperts : Nat) : Int), ((key % c.nExperts : Nat) : Int)) := by
  have hpos : 0 < c.nExperts := Nat.pos_of_ne_zero fun h => by simp [h] at hkey
  have hdiv : key / c.nExperts < c.nLayers := (Nat.div_lt_iff_lt_mul hpos).mpr hkey
  have hmod : key % c.nExperts < c.nExperts := Nat.mod_lt key hpos
  unfold keyPair keyLayer keyExpert toInt32
  generalize key / c.nExperts = layer at hdiv ⊢
  generalize key % c.nExperts = expert at hmod ⊢
  rw [Int.bmod_eq_of_le (by omega) (by omega), Int.bmod_eq_of_le (by omega) (by omega)]

/-- **The histogram counts the requests** of each expert. -/
theorem Traced.hist_eq (h : Traced c z ps) (hl : c.nLayers < 2 ^ 31) (he : c.nExperts < 2 ^ 31) {L e : Nat}
    (hexp : e < c.nExperts) : z.gc.hist (L * c.nExperts + e) = ps.count ((L : Int), (e : Int)) := by
  rw [h.hist, ← h.pairs]
  simp only [List.count, List.countP_map]
  apply List.countP_congr
  intro key hkey
  rw [Function.comp_apply, keyPair_eq hl he (h.inKeys key hkey), beq_iff_eq, beq_iff_eq, Prod.mk.injEq, Nat.cast_inj,
    Nat.cast_inj]
  constructor
  · rintro rfl
    have hpos : 0 < c.nExperts := by omega
    refine ⟨?_, ?_⟩
    · rw [Nat.add_comm, Nat.add_mul_div_right _ _ hpos, Nat.div_eq_of_lt hexp, Nat.zero_add]
    · rw [Nat.add_comm, Nat.add_mul_mod_self_right, Nat.mod_eq_of_lt hexp]
  · rintro ⟨rfl, rfl⟩
    exact (Nat.div_add_mod' key c.nExperts).symm

end Traced

/-- **The dumps of a run.**  After any calls on a new cache, `tools/sim_cache.py` reads the requests of the run
from the trace, in their order, and the histogram lists the experts requested, with their counts.  A run
without requests dumps no trace. -/
theorem dump_of_run {s : K3StIndex} {c : K3Cfg} (hl : c.nLayers < 2 ^ 31) (he : c.nExperts < 2 ^ 31)
    {reads : Nat → Serves s × Serves s} {budgetBytes : Int} {arena : Int → UInt8} {z₀ : K3Cache}
    (hinit : k3CacheInit s c reads budgetBytes arena = some z₀) (ops : List Op) :
    (k3CacheDumpTrace c (ops.foldl (applyOp c) z₀)).bind (fun file => simPairs (fromFile file)) =
        (if ops.flatMap (Op.requests c) = [] then none else some (ops.flatMap (Op.requests c))) ∧
      k3CacheDumpHist c (ops.foldl (applyOp c) z₀) =
        (List.range c.nLayers).flatMap fun (L : Nat) => (List.range c.nExperts).filterMap fun (e : Nat) =>
          let v := (ops.flatMap (Op.requests c)).count ((L : Int), (e : Int)) % 2 ^ 32
          if v = 0 then none else some ((L, e), v) := by
  have hrun := run_traced hl he ops (k3CacheInit_traced hinit)
  rw [List.nil_append] at hrun
  generalize ops.foldl (applyOp c) z₀ = z at hrun ⊢
  generalize ops.flatMap (Op.requests c) = ps at hrun ⊢
  constructor
  · have hempty : z.gc.trace = [] ↔ ps = [] := by
      rw [← hrun.pairs, List.map_eq_nil_iff]
    by_cases htrace : z.gc.trace = []
    · have hnone : k3CacheDumpTrace c z = none := if_pos htrace
      rw [hnone, if_pos (hempty.mp htrace)]
      rfl
    · have hsome : k3CacheDumpTrace c z = some (dumpLoop c z.gc.trace [] []) := if_neg htrace
      rw [hsome, Option.bind_some, dumpTrace_read hsome, if_neg (mt hempty.mpr htrace), hrun.pairs]
  · unfold k3CacheDumpHist
    apply List.flatMap_congr
    intro L hL
    apply List.filterMap_congr
    intro e hexp
    rw [List.mem_range] at hL hexp
    -- every expert of the model has a key
    have hkey : ¬ ((L * c.nExperts + e : Nat) : Int) ≥ z.gc.cfg.nkeys := by
      have hrow : (L + 1) * c.nExperts ≤ c.nLayers * c.nExperts := Nat.mul_le_mul_right _ hL
      rw [Nat.add_mul, Nat.one_mul] at hrow
      rw [hrun.keys, not_le]
      exact_mod_cast (by omega : L * c.nExperts + e < c.nLayers * c.nExperts)
    dsimp only
    rw [if_neg hkey, hrun.hist_eq hl he hexp]

/-- Two requests, one of them a prefetch, and one for an expert that is not there. -/
theorem square_dump : ∃ z₀, k3CacheInit squareIndex squareCfg (fun _ => (fun _ _ => .whole _, fun _ _ => .bytewise _)) 24576
      (fun _ => 7) = some z₀ ∧
    (k3CacheDumpTrace squareCfg ([Op.get 0 0, .getmany 0 [0], .get 0 9, .resetStats, .prefetch 0 0].foldl
      (applyOp squareCfg) z₀)).bind (fun file => simPairs (fromFile file)) = some [(0, 0), (0, 0)] := by
  have hsome : (k3CacheInit squareIndex squareCfg (fun _ => (fun _ _ => .whole _, fun _ _ => .bytewise _)) 24576
      (fun _ => 7)).isSome = true := by
    unfold k3CacheInit
    rw [squareIndex_probe]
    rfl
  obtain ⟨z₀, hz₀⟩ := Option.isSome_iff_exists.mp hsome
  have hrun := (dump_of_run (by decide) (by decide) hz₀ [.get 0 0, .getmany 0 [0], .get 0 9, .resetStats, .prefetch 0 0]).1
  have hreq : [Op.get 0 0, .getmany 0 [0], .get 0 9, .resetStats, .prefetch 0 0].flatMap (Op.requests squareCfg) =
      [(0, 0), (0, 0)] := by decide +kernel
  rw [hreq] at hrun
  exact ⟨z₀, hz₀, hrun⟩

end LlmEngine.Cache
