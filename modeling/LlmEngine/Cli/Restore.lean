/-
# LlmEngine.Cli.Restore — restoring a saved conversation in `main` (`src/cli/k3_run.c`).

With `--load-state`, `main` peeks at the header, sizes every buffer from the run's own configuration
and parameters and the header's `nseq`, and then loads.  What the load writes is decided by the
header's sizes.  It is in place exactly when these agree with the run's.

The sizes a run goes by and the sizes the load goes by come from two places, and nothing compares them: `HdrAgrees`
lists what the load does not check, and `restored_safe_iff_header_agrees` says that nothing else is missing.

* What a load did is read off the blocks it wrote (`k3StateLoad_some`).
* `Went` collects what `main` has computed when it comes to the load; with it the sizes are exact, since a buffer
  was granted only where four times its floats is below `2 ^ 63`.
* A component is in place when every row of it lands in its own slice, inside the buffer (`RowsInPlace`).

The file is arbitrary: its header may hold any numbers.
-/
import LlmEngine.Cli.StateFile
import LlmEngine.Lib.Int64
import Mathlib.Data.Int.ModEq
import Mathlib.Tactic.Ring
import Mathlib.Tactic.Linarith

namespace LlmEngine.Cli.StateFile

open LlmEngine.Core (K3Cfg)
open LlmEngine.Lib (wrap32 wrap32_of_nonneg)
open LlmEngine.Lib.LittleEndian

/-! ## The buffers of a run -/

/-- `K3_MAX_PROMPT` and `K3_MAX_GEN`. -/
def maxPrompt : Nat := 32768

def maxGen : Nat := 4096

/-- The prompt's length, `--gen` and the number of bound layers, within what `main` accepts. -/
structure RunParams where
  np : Nat
  gen : Nat
  nBound : Nat
  np_pos : 0 < np
  np_le : np ≤ maxPrompt
  gen_le : gen ≤ maxGen

/-- `malloc(n * 4)` for a request `n` of four-byte elements: a negative count is converted to a huge
one, and nothing above `PTRDIFF_MAX` bytes is ever granted. -/
def granted (n : Int) : Bool := 0 ≤ n && 4 * n < 2 ^ 63

/-- What a restored run goes on with. -/
structure Restored where
  hd : Hdr
  kvCap : Int
  b : Buffers

/-- `main` with `--load-state`: the header, the buffers it allocates (`h`, `seq`, `ks`, `kvc`,
`ropec`), and the load. -/
def restore (c : K3Cfg) (p : RunParams) (f : File) (mem : Buf → Nat → BitVec 32) :
    Option Restored := do
  let hd ← k3StatePeek f
  let tmax := wrap32 (hd.nseq.toInt + p.np + p.gen + 1)
  let nMla := c.nMla p.nBound
  if granted (tmax * c.hidden) && granted (wrap32 (hd.nseq.toInt + p.np + p.gen + 8)) &&
      granted (c.kper * p.nBound) && granted (tmax * c.kvpp * nMla) &&
      granted (tmax * c.ropepp * nMla) then
    let b ← k3StateLoad f c hd { mem := mem, log := [] } p.nBound nMla tmax
    some { hd := hd, kvCap := tmax, b := b }
  else none

/-! ## What a load is to do -/

section Safe

variable (c : K3Cfg) (p : RunParams) (r : Restored)

/-- The number of elements `main` allocated for each buffer. -/
def capacity : Buf → Int
  | .seq => r.hd.nseq.toInt + p.np + p.gen + 8
  | .ks => c.kper * p.nBound
  | .kvc => c.nMla p.nBound * (r.kvCap * c.kvpp)
  | .ropec => c.nMla p.nBound * (r.kvCap * c.ropepp)

/-- The blocks of one cache are the occupied rows of its slices, as `forward` addresses them: slice
`mi` starts at `mi * kv_cap * pp` and `cached` rows of `pp` elements are written there, no more and
no fewer. -/
def RowsInPlace (buf : Buf) (pp : Nat) : Prop :=
  ∃ blocks : Nat → Block,
    r.b.log.filter (·.buf = buf) = (List.range (c.nMla p.nBound)).map blocks ∧
    ∀ mi < c.nMla p.nBound, ((blocks mi).len : Int) = r.hd.cached.toInt * pp ∧
      (0 < (blocks mi).len → ((blocks mi).off : Int) = mi * (r.kvCap * pp))

/-- **A restored state is safe**: `cached` lies within the sequence, every element written lies in
the buffer it was written to, and the rows are where `forward` will look for them. -/
structure Safe : Prop where
  cached_nonneg : 0 ≤ r.hd.cached.toInt
  cached_le : r.hd.cached.toInt ≤ r.hd.nseq.toInt
  inside : ∀ k ∈ r.b.log, ∀ i < k.len, (k.off + i : Int) < capacity c p r k.buf
  kv : RowsInPlace c p r .kvc c.kvpp
  rope : RowsInPlace c p r .ropec c.ropepp

/-- One cache's header field agrees with the run: the count of a slice is right, and so is the
distance between two slices where there are two. -/
def PpAgrees (nMla : Nat) (kvCap cached : Int) (field : BitVec 64) (pp : Nat) : Prop :=
  nMla = 0 ∨
    ((mulT (sizeT cached) (sizeT field.toInt) : Int) = cached * pp ∧
      (cached * pp = 0 ∨ nMla = 1 ∨ (mulT (sizeT kvCap) (sizeT field.toInt) : Int) = kvCap * pp))

/-- `kv_cap` for a header: `Tmax`, as a number. -/
def kvCapFor (hd : Hdr) : Int := hd.nseq.toInt + p.np + p.gen + 1

/-- **The header agrees with the run**: what `k3_state_load` does not check. -/
structure HdrAgrees (hd : Hdr) : Prop where
  cached_nonneg : 0 ≤ hd.cached.toInt
  cached_le : hd.cached.toInt ≤ hd.nseq.toInt
  kper : mulT (sizeT hd.kper.toInt) p.nBound ≤ c.kper * p.nBound
  kvpp : PpAgrees (c.nMla p.nBound) (kvCapFor p hd) hd.cached.toInt hd.kvpp c.kvpp
  ropepp : PpAgrees (c.nMla p.nBound) (kvCapFor p hd) hd.cached.toInt hd.ropepp c.ropepp

end Safe

/-! ## What a load did -/

/-- The block of slice `mi`. -/
def sliceBlock (buf : Buf) (kvCap cached : Int) (pp : BitVec 64) (mi : Nat) : Block :=
  ⟨buf, mulT (mulT mi (sizeT kvCap)) (sizeT pp.toInt), mulT (sizeT cached) (sizeT pp.toInt)⟩

theorem readInto_some {buf : Buf} {off n : Nat} {b b' : Buffers} {rest rest' : Bytes}
    (h : readInto buf off n b rest = some (b', rest')) :
    4 * n ≤ rest.length ∧ b'.log = b.log ++ [⟨buf, off, n⟩] := by
  unfold readInto at h
  cases hread : readWords n rest with
  | none =>
      rw [hread] at h
      cases h
  | some x =>
      rw [hread] at h
      obtain ⟨rfl, rfl⟩ := Prod.mk.inj (Option.some.inj h)
      exact ⟨(readWords_some hread).1, rfl⟩

theorem readSlices_log {buf : Buf} {kvCap cached : Int} {pp : BitVec 64} (left : Nat) :
    ∀ {mi : Nat} {b b' : Buffers} {rest rest' : Bytes},
    readSlices buf kvCap cached pp left mi b rest = some (b', rest') →
    b'.log = b.log ++ (List.range' mi left).map (sliceBlock buf kvCap cached pp) := by
  induction left with
  | zero =>
      intro mi b b' rest rest' h
      obtain ⟨rfl, rfl⟩ := Prod.mk.inj (Option.some.inj h)
      exact (List.append_nil _).symm
  | succ left ih =>
      intro mi b b' rest rest' h
      rw [readSlices] at h
      obtain ⟨⟨b₁, rest₁⟩, hread, htail⟩ := Option.bind_eq_some_iff.mp h
      rw [ih htail, (readInto_some hread).2, List.range'_succ, List.map_cons, List.append_assoc]
      rfl

/-- **A load that returns 0** passed the three refusals, found `nseq` ids, and wrote these blocks. -/
theorem k3StateLoad_some {f : File} {c : K3Cfg} {hd : Hdr} {b b' : Buffers} {nBound nMla : Nat}
    {kvCap : Int} (h : k3StateLoad f c hd b nBound nMla kvCap = some b') :
    hd.cached.toInt ≤ kvCap ∧ 4 * sizeT hd.nseq.toInt ≤ f.bytes.length ∧
      b'.log = b.log ++ ([⟨.seq, 0, sizeT hd.nseq.toInt⟩,
          ⟨.ks, 0, mulT (sizeT hd.kper.toInt) nBound⟩] ++
        (List.range' 0 nMla).map (sliceBlock .kvc kvCap hd.cached.toInt hd.kvpp) ++
        (List.range' 0 nMla).map (sliceBlock .ropec kvCap hd.cached.toInt hd.ropepp)) := by
  unfold k3StateLoad at h
  split_ifs at h with hfp hcount hcap
  obtain ⟨⟨b₁, rest₁⟩, hseq, h⟩ := Option.bind_eq_some_iff.mp h
  obtain ⟨⟨b₂, rest₂⟩, hks, h⟩ := Option.bind_eq_some_iff.mp h
  obtain ⟨⟨b₃, rest₃⟩, hkv, h⟩ := Option.bind_eq_some_iff.mp h
  obtain ⟨⟨b₄, rest₄⟩, hrope, h⟩ := Option.bind_eq_some_iff.mp h
  obtain rfl := Option.some.inj h
  obtain ⟨hlen, hlog₁⟩ := readInto_some hseq
  refine ⟨Int.not_lt.mp hcap, Nat.le_trans hlen (List.length_drop ▸ Nat.sub_le _ _), ?_⟩
  rw [readSlices_log nMla hrope, readSlices_log nMla hkv, (readInto_some hks).2, hlog₁]
  simp only [List.append_assoc, List.singleton_append]

/-! ## Sizes -/

theorem sizeT_of_nonneg {i : Int} (h : 0 ≤ i) (hlt : i < 2 ^ 64) : (sizeT i : Int) = i := by
  unfold sizeT
  rw [Int.emod_eq_of_lt h hlt, Int.toNat_of_nonneg h]

/-- A negative count is a huge one. -/
theorem sizeT_of_neg {i : Int} (h : i < 0) (hge : -2 ^ 63 ≤ i) : 2 ^ 63 ≤ sizeT i := by
  unfold sizeT
  omega

theorem granted_iff {n : Int} : granted n = true ↔ 0 ≤ n ∧ 4 * n < 2 ^ 63 := by
  simp only [granted, Bool.and_eq_true, decide_eq_true_eq]

/-- The slices of a cache: all counts are right, and so is every slice's start, as soon as the count
of one and the distance of two are. -/
theorem slices_agree (nMla K C pp x : Nat) (hfit : nMla * (K * pp) < 2 ^ 64) :
    (∀ mi < nMla, mulT C x = C * pp ∧ (0 < mulT C x → mulT (mulT mi K) x = mi * (K * pp))) ↔
      (nMla = 0 ∨ (mulT C x = C * pp ∧ (C * pp = 0 ∨ nMla = 1 ∨ mulT K x = K * pp))) := by
  have hmul : ∀ mi, mulT (mulT mi K) x = mi * mulT K x % 2 ^ 64 := by
    intro mi
    unfold mulT
    rw [Nat.mod_mul_mod, Nat.mul_mod_mod, Nat.mul_assoc]
  constructor
  · intro h
    by_cases h0 : nMla = 0
    · exact .inl h0
    · obtain ⟨hlen, _⟩ := h 0 (by omega)
      refine .inr ⟨hlen, ?_⟩
      by_cases hC : C * pp = 0
      · exact .inl hC
      · by_cases h1 : nMla = 1
        · exact .inr (.inl h1)
        · -- the second slice starts one slice in
          have hoff := (h 1 (by omega)).2 (by omega)
          rw [hmul, Nat.one_mul, Nat.one_mul, mulT, Nat.mod_mod] at hoff
          exact .inr (.inr hoff)
  · intro h mi hmi
    rcases h with h0 | ⟨hlen, hdist⟩
    · omega
    · refine ⟨hlen, fun hpos => ?_⟩
      rw [hmul]
      rcases hdist with hC | h1 | hK
      · omega
      · obtain rfl : mi = 0 := by omega
        rw [Nat.zero_mul, Nat.zero_mod, Nat.zero_mul]
      · rw [hK]
        apply Nat.mod_eq_of_lt
        calc mi * (K * pp) ≤ nMla * (K * pp) := Nat.mul_le_mul_right _ (Nat.le_of_lt hmi)
          _ < 2 ^ 64 := hfit

/-! ## Refused or safe -/

section Restored

variable {c : K3Cfg} {p : RunParams} {f : File} {mem : Buf → Nat → BitVec 32} {r : Restored}

/-- What a restore that went through has established. -/
structure Went (c : K3Cfg) (p : RunParams) (r : Restored) : Prop where
  nseq_nonneg : 0 ≤ r.hd.nseq.toInt
  kvCap_eq : r.kvCap = kvCapFor p r.hd
  kvCap_nonneg : 0 ≤ r.kvCap
  kvCap_lt : r.kvCap < 2 ^ 32
  cached_le : r.hd.cached.toInt ≤ r.kvCap
  kv_fits : 4 * (r.kvCap * c.kvpp * c.nMla p.nBound) < 2 ^ 63
  rope_fits : 4 * (r.kvCap * c.ropepp * c.nMla p.nBound) < 2 ^ 63
  log : r.b.log = [⟨.seq, 0, sizeT r.hd.nseq.toInt⟩,
      ⟨.ks, 0, mulT (sizeT r.hd.kper.toInt) p.nBound⟩] ++
    (List.range' 0 (c.nMla p.nBound)).map (sliceBlock .kvc r.kvCap r.hd.cached.toInt r.hd.kvpp) ++
    (List.range' 0 (c.nMla p.nBound)).map (sliceBlock .ropec r.kvCap r.hd.cached.toInt r.hd.ropepp)

/-- The header a restore goes by is the file's. -/
theorem restore_peek (h : restore c p f mem = some r) : k3StatePeek f = some r.hd := by
  unfold restore at h
  obtain ⟨hd, hpeek, h⟩ := Option.bind_eq_some_iff.mp h
  simp only at h
  split_ifs at h
  obtain ⟨b, _, h⟩ := Option.bind_eq_some_iff.mp h
  obtain rfl := Option.some.inj h
  exact hpeek

theorem restore_went (h : restore c p f mem = some r) : Went c p r := by
  unfold restore at h
  obtain ⟨hd, _, h⟩ := Option.bind_eq_some_iff.mp h
  simp only at h
  split_ifs at h with hgrant
  obtain ⟨b, hload, h⟩ := Option.bind_eq_some_iff.mp h
  obtain rfl := Option.some.inj h
  simp only [Bool.and_eq_true, granted_iff] at hgrant
  obtain ⟨⟨⟨⟨hh, hseq⟩, hks⟩, hkv⟩, hrope⟩ := hgrant
  obtain ⟨hcached, hlen, hlog⟩ := k3StateLoad_some hload
  have hint := BitVec.toInt_lt (x := hd.nseq)
  have hint' := BitVec.le_toInt (x := hd.nseq)
  have hnp := p.np_le
  have hgen := p.gen_le
  simp only [maxPrompt, maxGen] at hnp hgen
  have hnseq : 0 ≤ hd.nseq.toInt := by
    by_contra hneg
    have := sizeT_of_neg (i := hd.nseq.toInt) (by omega) (by omega)
    have := f.len_lt
    omega
  have hhidden : (0 : Int) < c.hidden := by exact_mod_cast c.hidden_pos
  have hcap : 0 ≤ wrap32 (hd.nseq.toInt + p.np + p.gen + 1) := nonneg_of_mul_nonneg_left hh.1 hhidden
  have hwrap := wrap32_of_nonneg (by omega) (by omega) hcap
  exact ⟨hnseq, hwrap, hcap, by show wrap32 _ < _; omega, hcached, hkv.2, hrope.2, by rw [hlog]; rfl⟩

/-- One cache of a restore that went through. -/
theorem rowsInPlace_iff (hw : Went c p r) {buf : Buf} {pp : Nat} {field : BitVec 64}
    (hfit : 4 * (r.kvCap * pp * c.nMla p.nBound) < 2 ^ 63)
    (hlog : r.b.log.filter (·.buf = buf) = (List.range (c.nMla p.nBound)).map
      (sliceBlock buf r.kvCap r.hd.cached.toInt field))
    (hcached : 0 ≤ r.hd.cached.toInt) :
    RowsInPlace c p r buf pp ↔
      PpAgrees (c.nMla p.nBound) r.kvCap r.hd.cached.toInt field pp := by
  have hcapT := sizeT_of_nonneg hw.kvCap_nonneg (by have := hw.kvCap_lt; omega)
  have hcachedT := sizeT_of_nonneg hcached (by have := hw.cached_le; have := hw.kvCap_lt; omega)
  have hagree := slices_agree (c.nMla p.nBound) (sizeT r.kvCap) (sizeT r.hd.cached.toInt) pp
    (sizeT field.toInt) (by
      zify
      rw [hcapT]
      calc (c.nMla p.nBound : Int) * (r.kvCap * pp)
          = r.kvCap * pp * c.nMla p.nBound := by ring
        _ < 2 ^ 64 := by omega)
  have hcount : (mulT (sizeT r.hd.cached.toInt) (sizeT field.toInt) : Int)
        = r.hd.cached.toInt * pp ↔
      mulT (sizeT r.hd.cached.toInt) (sizeT field.toInt) = sizeT r.hd.cached.toInt * pp := by
    rw [← Nat.cast_inj (R := Int), Nat.cast_mul, hcachedT]
  have hstart : ∀ mi n : Nat, (n : Int) = mi * (r.kvCap * pp) ↔ n = mi * (sizeT r.kvCap * pp) := by
    intro mi n
    rw [← Nat.cast_inj (R := Int), Nat.cast_mul, Nat.cast_mul, hcapT]
  have hzero : r.hd.cached.toInt * pp = 0 ↔ sizeT r.hd.cached.toInt * pp = 0 := by
    rw [← Nat.cast_inj (R := Int), Nat.cast_mul, hcachedT, Nat.cast_zero]
  have hdist := hstart 1 (mulT (sizeT r.kvCap) (sizeT field.toInt))
  rw [Nat.cast_one, one_mul, one_mul] at hdist
  unfold PpAgrees
  rw [hcount, hzero, hdist, ← hagree]
  constructor
  · rintro ⟨blocks, hmap, hrows⟩ mi hmi
    have heq : sliceBlock buf r.kvCap r.hd.cached.toInt field mi = blocks mi :=
      List.map_inj_left.mp (hlog.symm.trans hmap) mi (List.mem_range.mpr hmi)
    have hrow := hrows mi hmi
    rw [← heq] at hrow
    exact ⟨hcount.mp hrow.1, fun hpos => (hstart mi _).mp (hrow.2 hpos)⟩
  · intro h
    exact ⟨_, hlog, fun mi hmi =>
      ⟨hcount.mpr (h mi hmi).1, fun hpos => (hstart mi _).mpr ((h mi hmi).2 hpos)⟩⟩

/-- The blocks of each cache, out of the log. -/
theorem Went.filter_kvc (hw : Went c p r) : r.b.log.filter (·.buf = .kvc) =
    (List.range (c.nMla p.nBound)).map
      (sliceBlock .kvc r.kvCap r.hd.cached.toInt r.hd.kvpp) := by
  rw [hw.log, List.range_eq_range']
  simp [List.filter_map, sliceBlock, Function.comp_def]

theorem Went.filter_ropec (hw : Went c p r) : r.b.log.filter (·.buf = .ropec) =
    (List.range (c.nMla p.nBound)).map
      (sliceBlock .ropec r.kvCap r.hd.cached.toInt r.hd.ropepp) := by
  rw [hw.log, List.range_eq_range']
  simp [List.filter_map, sliceBlock, Function.comp_def]

/-- Rows in place are inside their cache. -/
theorem RowsInPlace.inside (hw : Went c p r) {buf : Buf} {pp : Nat}
    (hrows : RowsInPlace c p r buf pp) {k : Block} (hk : k ∈ r.b.log) (hbuf : k.buf = buf)
    {i : Nat} (hi : i < k.len) : (k.off + i : Int) < c.nMla p.nBound * (r.kvCap * pp) := by
  obtain ⟨blocks, hmap, hin⟩ := hrows
  have hmem : k ∈ r.b.log.filter (·.buf = buf) :=
    List.mem_filter.mpr ⟨hk, decide_eq_true hbuf⟩
  rw [hmap] at hmem
  obtain ⟨mi, hmi, rfl⟩ := List.mem_map.mp hmem
  have hmi' := List.mem_range.mp hmi
  obtain ⟨hlen, hoff⟩ := hin mi hmi'
  have hrow : r.hd.cached.toInt * pp ≤ r.kvCap * pp :=
    mul_le_mul_of_nonneg_right hw.cached_le (Int.natCast_nonneg pp)
  have hslice : ((mi + 1 : Nat) : Int) * (r.kvCap * pp) ≤ c.nMla p.nBound * (r.kvCap * pp) :=
    mul_le_mul_of_nonneg_right (by exact_mod_cast hmi') (by omega)
  push_cast at hslice
  rw [hoff (by omega)]
  linarith [show (i : Int) < (blocks mi).len by exact_mod_cast hi]

/-- **Refused or safe, up to the header.** A state file that is peeked and loaded leaves a safe state
exactly when its header agrees with the run: `cached` within the sequence, `kper` no larger than
the configuration's, and `kvpp` and `ropepp` giving the configuration's counts and distances. -/
theorem restored_safe_iff_header_agrees (h : restore c p f mem = some r) :
    Safe c p r ↔ HdrAgrees c p (Hdr.ofBytes f.bytes) := by
  have hw := restore_went h
  rw [← k3StatePeek_some (restore_peek h)]
  constructor
  · intro hsafe
    refine ⟨hsafe.cached_nonneg, hsafe.cached_le, ?_,
      hw.kvCap_eq ▸ (rowsInPlace_iff hw hw.kv_fits hw.filter_kvc hsafe.cached_nonneg).mp hsafe.kv,
      hw.kvCap_eq ▸ (rowsInPlace_iff hw hw.rope_fits hw.filter_ropec hsafe.cached_nonneg).mp
        hsafe.rope⟩
    -- the last float written to `ks` lies in it
    by_contra hlt
    have hlast := hsafe.inside ⟨.ks, 0, mulT (sizeT r.hd.kper.toInt) p.nBound⟩
      (by rw [hw.log]; simp) (c.kper * p.nBound) (Nat.not_le.mp hlt)
    simp only [capacity] at hlast
    push_cast at hlast
    omega
  · intro hagrees
    have hkv := (rowsInPlace_iff hw hw.kv_fits hw.filter_kvc hagrees.cached_nonneg).mpr
      (hw.kvCap_eq ▸ hagrees.kvpp)
    have hrope := (rowsInPlace_iff hw hw.rope_fits hw.filter_ropec hagrees.cached_nonneg).mpr
      (hw.kvCap_eq ▸ hagrees.ropepp)
    refine ⟨hagrees.cached_nonneg, hagrees.cached_le, fun k hk i hi => ?_, hkv, hrope⟩
    have hmem := hk
    rw [hw.log] at hk
    rcases List.mem_append.mp hk with hk | hk
    · rcases List.mem_append.mp hk with hk | hk
      · rcases List.mem_cons.mp hk with rfl | hk
        · have hseq := sizeT_of_nonneg hw.nseq_nonneg
            (by have := BitVec.toInt_lt (x := r.hd.nseq); omega)
          simp only [capacity] at *
          omega
        · obtain rfl := List.mem_singleton.mp hk
          have hks := hagrees.kper
          simp only [capacity] at *
          zify at hi hks
          omega
      · obtain ⟨mi, _, rfl⟩ := List.mem_map.mp hk
        exact hkv.inside hw hmem rfl hi
    · obtain ⟨mi, _, rfl⟩ := List.mem_map.mp hk
      exact hrope.inside hw hmem rfl hi

end Restored

theorem second_of_two : ∀ i ∈ [2], 1 ≤ i ∧ i ≤ 2 := by decide

/-- Two layers of width one, the second an MLA layer. -/
def tinyCfg : K3Cfg where
  hidden := 1
  nLayers := 2
  vocab := 1
  kdaHeads := 1
  kdaHeadDim := 1
  convK := 1
  nHeads := 1
  qLora := 1
  kvLora := 1
  qkNope := 1
  qkRope := 1
  vHead := 1
  mlaOutGate := true
  nExperts := 1
  topk := 1
  nShared := 1
  latent := 1
  moeInter := 1
  moeRenorm := true
  latentNorm := true
  firstDense := 1
  denseInter := 1
  attnResBlock := 1
  fullAttn := [2]
  layers_pos := Nat.two_pos
  hidden_pos := Nat.one_pos
  vocab_pos := Nat.one_pos
  some_kda := Nat.one_lt_two
  in_range := second_of_two
  topk_max := LlmEngine.Core.maxTopk_pos
  topk_le := Nat.one_pos
  block_pos := Nat.one_pos
  conv_pos := Nat.one_pos

/-- One prompt id, nothing to generate, both layers bound. -/
def tinyRun : RunParams := ⟨1, 0, 2, by decide, by decide, by decide⟩

/-- The header of a state of two ids, one of them consumed, with `kper` as given. -/
def tinyHdr (kper : BitVec 64) : Hdr where
  magic := stateMagic
  version := stateVer
  fp := k3StateFp tinyCfg
  nBound := 2
  nMla := 1
  cached := 1
  nseq := 2
  kper := kper
  kvpp := 2
  ropepp := 1

/-- The file: the header, the two ids, and `floats`. -/
def tinyFile (kper : BitVec 64) (floats : List (BitVec 32)) (h : floats.length < 2 ^ 20) : File where
  bytes := (tinyHdr kper).bytes ++ putWords ([7, 8] ++ floats)
  len_lt := by
    rw [List.length_append, putWords_length, List.length_append]
    simp only [tinyHdr, Hdr.bytes, List.length_append, put_length, putWords_length, stateMagic,
      k3StateFp, List.length_cons, List.length_nil, List.length_map]
    omega

theorem tinyFile_peek (kper : BitVec 64) (floats : List (BitVec 32)) (h : floats.length < 2 ^ 20) :
    k3StatePeek (tinyFile kper floats h) = some (tinyHdr kper) :=
  k3StatePeek_bytes rfl rfl rfl rfl

/-- The header agrees: one float of state a layer, one KV row of two, one rope row of one. -/
theorem tiny_state_restored :
    ∃ r, restore tinyCfg tinyRun (tinyFile 1 [1, 2, 3, 4, 5] (by decide)) (fun _ _ => 0) = some r ∧
      Safe tinyCfg tinyRun r := by
  obtain ⟨r, hr⟩ := Option.isSome_iff_exists.mp (show (restore tinyCfg tinyRun
    (tinyFile 1 [1, 2, 3, 4, 5] (by decide)) (fun _ _ => 0)).isSome by decide +kernel)
  have hhd := k3StatePeek_some (tinyFile_peek 1 [1, 2, 3, 4, 5] (by decide))
  refine ⟨r, hr, (restored_safe_iff_header_agrees hr).mpr ?_⟩
  rw [← hhd]
  exact ⟨by decide, by decide, by decide, .inr ⟨by decide, .inr (.inl (by decide))⟩,
    .inr ⟨by decide, .inr (.inl (by decide))⟩⟩

/-- A header whose `kper` is one too large: the load returns 0 and has written past `ks`. -/
theorem kper_one_too_large_writes_past_ks :
    ∃ r, restore tinyCfg tinyRun (tinyFile 2 [1, 2, 3, 4, 5, 6, 7] (by decide)) (fun _ _ => 0)
        = some r ∧ ¬ Safe tinyCfg tinyRun r := by
  obtain ⟨r, hr⟩ := Option.isSome_iff_exists.mp (show (restore tinyCfg tinyRun
    (tinyFile 2 [1, 2, 3, 4, 5, 6, 7] (by decide)) (fun _ _ => 0)).isSome by decide +kernel)
  have hhd := Option.some.inj ((restore_peek hr).symm.trans (tinyFile_peek _ _ _))
  refine ⟨r, hr, fun hsafe => ?_⟩
  have hblock : (⟨.ks, 0, 4⟩ : Block) ∈ r.b.log := by
    rw [(restore_went hr).log, hhd]
    exact List.mem_append_left _ (List.mem_append_left _ (by decide))
  have hpast : ((0 : Nat) + (3 : Nat) : Int) < tinyCfg.kper * tinyRun.nBound :=
    hsafe.inside _ hblock 3 (by decide)
  exact absurd hpast (by decide)

end LlmEngine.Cli.StateFile
