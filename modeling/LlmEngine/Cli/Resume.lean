/-
# LlmEngine.Cli.Resume — a saved state is restored, and resuming is transparent.

The writer packs the occupied rows of each MLA layer's slice; the reader spreads them over slices of
its own capacity.  Read back under the same configuration, every id, every float of recurrent state
and every occupied row is where the restoring run looks for it, so the resumed run carries what the
saved one did.  Its first round feeds what was still pending and the new prompt, and it goes on as
one session would have.

* `load_saved` is the round trip: the file written is loaded whatever the restoring run's capacity, and every
  component is as it was.  Its only sizes are those the buffers have (`Sized`).
* `fresh_done`, `resumed_done`: what a finished run carries is that of feeding its ids, and a run that is entered
  with a proper prefix consumed goes on from there.  Both are instances of what the loop keeps
  (`Cli.GenerateSerial`).
* `saved_state_resumes` puts them together: the ids of the resumed run are those of one session over both prompts.

Rows at and above the occupied ones are not in the file, and the new run has other contents there; the forward
pass does not read them (`Cli.Forward`).
-/
import LlmEngine.Cli.Restore
import LlmEngine.Cli.GenerateSerial

namespace LlmEngine.Cli.StateFile

open LlmEngine.Core (K3Cfg)
open LlmEngine.Lib.LittleEndian
open LlmEngine.Lib.Buffer

/-! ## Slices out and in -/

theorem mulT_of_lt {a b : Nat} (h : a * b < 2 ^ 64) : mulT a b = a * b := Nat.mod_eq_of_lt h

theorem mulT_mod (a b : Nat) : mulT a (b % 2 ^ 64) = mulT a b := Nat.mul_mod_mod _ _ _

/-- Slice `mi` of a cache that fits in memory starts where it should. -/
theorem sliceStart {mi n cap pp : Nat} (h : mi < n) (hfit : n * (cap * pp) < 2 ^ 64) :
    mulT (mulT mi cap) pp = mi * (cap * pp) := by
  have hle : mi * (cap * pp) ≤ n * (cap * pp) := Nat.mul_le_mul_right _ (Nat.le_of_lt h)
  unfold mulT
  rw [Nat.mod_mul_mod, Nat.mul_assoc]
  exact Nat.mod_eq_of_lt (by omega)

/-- Its rows fit as well. -/
theorem sliceCount {mi n cap cached pp : Nat} (h : mi < n) (hcached : cached ≤ cap)
    (hfit : n * (cap * pp) < 2 ^ 64) : mulT cached pp = cached * pp := by
  apply mulT_of_lt
  calc cached * pp ≤ cap * pp := Nat.mul_le_mul_right _ hcached
    _ ≤ n * (cap * pp) := Nat.le_mul_of_pos_left _ (by omega)
    _ < 2 ^ 64 := hfit

/-- A read of words that are there writes them and nothing else. -/
theorem readInto_putWords (buf : Buf) (off : Nat) (b : Buffers) (xs : List (BitVec 32))
    (rest : Bytes) : ∃ b', readInto buf off xs.length b (putWords xs ++ rest) = some (b', rest) ∧
      b'.mem buf = overwrite (b.mem buf) off xs ∧ ∀ k ≠ buf, b'.mem k = b.mem k := by
  unfold readInto
  rw [readWords_putWords]
  refine ⟨_, rfl, if_pos rfl, fun k hk => if_neg hk⟩

/-- The rows of slices `mi, mi + 1, …` packed in sequence. -/
def packFrom (mem : Nat → BitVec 32) (cap cached pp mi left : Nat) : Bytes :=
  (List.range' mi left).flatMap fun k => putWords (slice mem (k * (cap * pp)) (cached * pp))

theorem packSlices_eq {mem : Nat → BitVec 32} {cap cached pp n : Nat} (hcached : cached ≤ cap)
    (hfit : n * (cap * pp) < 2 ^ 64) :
    packSlices mem cap cached pp n = packFrom mem cap cached pp 0 n := by
  unfold packSlices packFrom
  rw [List.range_eq_range']
  apply List.flatMap_congr
  intro k hk
  have hlt : k < n := by
    have := (List.mem_range'_1.mp hk).2
    omega
  rw [sliceStart hlt hfit, sliceCount hlt hcached hfit]

/-- **The rows are spread over the new slices.** -/
theorem readSlices_packFrom (buf : Buf) (src : Nat → BitVec 32) (cap₁ : Nat)
    {cap₂ cached pp n : Nat} {field : BitVec 64} (hfield : sizeT field.toInt = pp % 2 ^ 64) (hcap : cap₂ < 2 ^ 31)
    (hcached : cached ≤ cap₂) (hfit : n * (cap₂ * pp) < 2 ^ 64) (rest : Bytes) (left : Nat) :
    ∀ {mi : Nat} (b : Buffers), mi + left = n →
    ∃ b', readSlices buf cap₂ cached field left mi b
        (packFrom src cap₁ cached pp mi left ++ rest) = some (b', rest) ∧
      (∀ k ≠ buf, b'.mem k = b.mem k) ∧
      (∀ i < mi * (cap₂ * pp), b'.mem buf i = b.mem buf i) ∧
      (∀ k, mi ≤ k → k < n → ∀ j < cached * pp,
        b'.mem buf (k * (cap₂ * pp) + j) = src (k * (cap₁ * pp) + j)) := by
  induction left with
  | zero =>
      intro mi b hn
      exact ⟨b, rfl, fun _ _ => rfl, fun _ _ => rfl, fun k hle hlt => absurd hlt (by omega)⟩
  | succ left ih =>
      intro mi b hn
      have hlt : mi < n := by omega
      have hrow : cached * pp ≤ cap₂ * pp := Nat.mul_le_mul_right _ hcached
      have hnext : (mi + 1) * (cap₂ * pp) = mi * (cap₂ * pp) + cap₂ * pp := Nat.succ_mul _ _
      obtain ⟨b₁, hread, hmem, hother⟩ := readInto_putWords buf (mi * (cap₂ * pp)) b
        (slice src (mi * (cap₁ * pp)) (cached * pp)) (packFrom src cap₁ cached pp (mi + 1) left ++ rest)
      obtain ⟨b', hslices, hother', hbelow, hrows⟩ := ih b₁ (show mi + 1 + left = n by omega)
      refine ⟨b', ?_, fun k hk => (hother' k hk).trans (hother k hk), fun i hi => ?_,
        fun k hle hk j hj => ?_⟩
      · have hcapT : sizeT (cap₂ : Int) = cap₂ := by unfold sizeT; omega
        have hcachedT : sizeT (cached : Int) = cached := by unfold sizeT; omega
        have hpack : packFrom src cap₁ cached pp mi (left + 1) = putWords (slice src
            (mi * (cap₁ * pp)) (cached * pp)) ++ packFrom src cap₁ cached pp (mi + 1) left := by
          unfold packFrom
          rw [List.range'_succ, List.flatMap_cons]
        rw [readSlices, hfield, hcapT, hcachedT, mulT_mod, mulT_mod, sliceStart hlt hfit,
          sliceCount hlt hcached hfit, hpack, List.append_assoc]
        rw [slice_length] at hread
        rw [hread]
        exact hslices
      · rw [hbelow i (by omega), hmem, overwrite_below _ _ hi]
      · by_cases hkmi : k = mi
        · -- this slice was written here, and the later ones lie above it
          subst hkmi
          rw [hbelow _ (by omega), hmem, overwrite_slice _ _ _ _ hj]
        · exact hrows k (by omega) hk j hj

/-! ## The round trip -/

theorem toInt32_ofNat {n : Nat} (h : n < 2 ^ 31) : (BitVec.ofNat 32 n).toInt = n := by
  rw [BitVec.toInt_eq_toNat_of_lt, BitVec.toNat_ofNat, Nat.mod_eq_of_lt (by omega)]
  rw [BitVec.toNat_ofNat, Nat.mod_eq_of_lt (by omega)]
  omega

theorem sizeT_toInt64_ofNat (n : Nat) : sizeT (BitVec.ofNat 64 n).toInt = n % 2 ^ 64 := by
  unfold sizeT
  have hmod : (BitVec.ofNat 64 n).toInt % ((2 ^ 64 : Nat) : Int) = (n : Int) % ((2 ^ 64 : Nat) : Int) := by
    rw [BitVec.toInt_ofNat', Int.bmod_emod]
  rw [show (2 : Int) ^ 64 = ((2 ^ 64 : Nat) : Int) by rfl, hmod]
  omega

/-- A carried state whose counts are C `int`s and whose buffers fit in memory. -/
structure Sized (c : K3Cfg) (nBound cap nseq cached : Nat) : Prop where
  nBound_lt : nBound < 2 ^ 31
  nseq_lt : nseq < 2 ^ 31
  cap_lt : cap < 2 ^ 31
  cached_le : cached ≤ cap
  ks : c.kper * nBound < 2 ^ 64
  kv : c.nMla nBound * (cap * c.kvpp) < 2 ^ 64
  rope : c.nMla nBound * (cap * c.ropepp) < 2 ^ 64

/-- What a saved state is, in buffers with `cap₁` rows a slice, and again in buffers with `cap₂`: the
ids, the recurrent state, and every occupied row at its own slice's stride. -/
structure Restores (c : K3Cfg) (nBound cap₁ cap₂ nseq cached : Nat)
    (mem mem' : Buf → Nat → BitVec 32) : Prop where
  seq : ∀ i < nseq, mem' .seq i = mem .seq i
  ks : ∀ i < c.kper * nBound, mem' .ks i = mem .ks i
  kv : ∀ mi < c.nMla nBound, ∀ p < cached, ∀ e < c.kvpp,
    mem' .kvc (mi * (cap₂ * c.kvpp) + (p * c.kvpp + e))
      = mem .kvc (mi * (cap₁ * c.kvpp) + (p * c.kvpp + e))
  rope : ∀ mi < c.nMla nBound, ∀ p < cached, ∀ e < c.ropepp,
    mem' .ropec (mi * (cap₂ * c.ropepp) + (p * c.ropepp + e))
      = mem .ropec (mi * (cap₁ * c.ropepp) + (p * c.ropepp + e))

theorem K3Cfg.nMla_le (c : K3Cfg) (nl : Nat) : c.nMla nl ≤ nl := by
  unfold Core.K3Cfg.nMla
  calc ((List.range nl).filter c.isMla).length ≤ (List.range nl).length := List.length_filter_le _ _
    _ = nl := List.length_range

section RoundTrip

variable {c : K3Cfg} {nBound cap₁ cap₂ nseq cached : Nat} {mem : Buf → Nat → BitVec 32} {f : File}

theorem k3StateSave_bytes (hf : k3StateSave c mem nseq nBound (c.nMla nBound) cap₁ cached = some f) :
    f.bytes = savedBytes c mem nseq nBound (c.nMla nBound) cap₁ cached := by
  unfold k3StateSave at hf
  split_ifs at hf
  obtain rfl := Option.some.inj hf
  rfl

/-- Peek returns the header that was written. -/
theorem peek_saved (hf : k3StateSave c mem nseq nBound (c.nMla nBound) cap₁ cached = some f) :
    k3StatePeek f = some (savedHdr c nseq nBound (c.nMla nBound) cached) :=
  k3StatePeek_bytes (k3StateSave_bytes hf) rfl rfl rfl

/-- A row's element within its slice. -/
theorem row_lt {cached pp p e : Nat} (hp : p < cached) (he : e < pp) : p * pp + e < cached * pp := by
  have hsucc : (p + 1) * pp ≤ cached * pp := Nat.mul_le_mul_right _ hp
  rw [Nat.succ_mul] at hsucc
  omega

/-- **The round trip.** The file written is loaded, whatever the restoring run's capacity, and every
saved component is restored; ids beyond the saved ones are left alone. -/
theorem load_saved (h₁ : Sized c nBound cap₁ nseq cached) (h₂ : Sized c nBound cap₂ nseq cached)
    (hf : k3StateSave c mem nseq nBound (c.nMla nBound) cap₁ cached = some f) (b : Buffers) :
    ∃ b', k3StateLoad f c (savedHdr c nseq nBound (c.nMla nBound) cached) b nBound
        (c.nMla nBound) cap₂ = some b' ∧
      Restores c nBound cap₁ cap₂ nseq cached mem b'.mem ∧
      ∀ i, nseq ≤ i → b'.mem .seq i = b.mem .seq i := by
  have hnMla : c.nMla nBound < 2 ^ 31 := Nat.lt_of_le_of_lt (K3Cfg.nMla_le c nBound) h₁.nBound_lt
  have hcap₂ := h₂.cap_lt
  have hcachedInt : (savedHdr c nseq nBound (c.nMla nBound) cached).cached.toInt = cached :=
    toInt32_ofNat (Nat.lt_of_le_of_lt h₂.cached_le h₂.cap_lt)
  have hdrop : f.bytes.drop hdrSize = putWords (slice (mem .seq) 0 nseq) ++
      (putWords (slice (mem .ks) 0 (c.kper * nBound)) ++
        (packFrom (mem .kvc) cap₁ cached c.kvpp 0 (c.nMla nBound) ++
          (packFrom (mem .ropec) cap₁ cached c.ropepp 0 (c.nMla nBound) ++ []))) := by
    rw [k3StateSave_bytes hf, savedBytes, packSlices_eq h₁.cached_le h₁.kv,
      packSlices_eq h₁.cached_le h₁.rope, mulT_of_lt h₁.ks, List.append_nil]
    exact List.drop_left' (Hdr.bytes_length rfl rfl)
  -- the four reads, each of which takes its words off the front and leaves the other buffers alone
  obtain ⟨b₁, hseq, hseqMem, hseqOther⟩ := readInto_putWords .seq 0 b (slice (mem .seq) 0 nseq)
    (putWords (slice (mem .ks) 0 (c.kper * nBound)) ++
      (packFrom (mem .kvc) cap₁ cached c.kvpp 0 (c.nMla nBound) ++
        (packFrom (mem .ropec) cap₁ cached c.ropepp 0 (c.nMla nBound) ++ [])))
  obtain ⟨b₂, hks, hksMem, hksOther⟩ := readInto_putWords .ks 0 b₁
    (slice (mem .ks) 0 (c.kper * nBound))
    (packFrom (mem .kvc) cap₁ cached c.kvpp 0 (c.nMla nBound) ++
      (packFrom (mem .ropec) cap₁ cached c.ropepp 0 (c.nMla nBound) ++ []))
  obtain ⟨b₃, hkv, hkvOther, _, hkvRows⟩ := readSlices_packFrom .kvc (mem .kvc) cap₁
    (sizeT_toInt64_ofNat c.kvpp) h₂.cap_lt h₂.cached_le h₂.kv
    (packFrom (mem .ropec) cap₁ cached c.ropepp 0 (c.nMla nBound) ++ []) (c.nMla nBound) b₂
    (Nat.zero_add _)
  obtain ⟨b₄, hrope, hropeOther, _, hropeRows⟩ := readSlices_packFrom .ropec (mem .ropec) cap₁
    (sizeT_toInt64_ofNat c.ropepp) h₂.cap_lt h₂.cached_le h₂.rope []
    (c.nMla nBound) b₃ (Nat.zero_add _)
  rw [slice_length] at hseq hks
  refine ⟨b₄, ?_, ⟨fun i hi => ?_, fun i hi => ?_, fun mi hmi p hp e he => ?_,
    fun mi hmi p hp e he => ?_⟩, fun i hi => ?_⟩
  · -- the checks of the load pass: what the header says was computed from the same configuration
    have hnseqT : sizeT (savedHdr c nseq nBound (c.nMla nBound) cached).nseq.toInt = nseq := by
      rw [savedHdr, toInt32_ofNat h₁.nseq_lt]
      have := h₁.nseq_lt
      unfold sizeT
      omega
    have hkperT : mulT (sizeT (savedHdr c nseq nBound (c.nMla nBound) cached).kper.toInt) nBound
        = c.kper * nBound := by
      rw [savedHdr, sizeT_toInt64_ofNat, mulT, Nat.mod_mul_mod]
      exact Nat.mod_eq_of_lt h₁.ks
    have hfp : ¬ k3StateFp c ≠ (savedHdr c nseq nBound (c.nMla nBound) cached).fp := fun h => h rfl
    have hcounts : ¬ ((savedHdr c nseq nBound (c.nMla nBound) cached).nBound.toInt ≠ nBound ∨
        (savedHdr c nseq nBound (c.nMla nBound) cached).nMla.toInt ≠ c.nMla nBound) := by
      rintro (h | h)
      · exact h (toInt32_ofNat h₁.nBound_lt)
      · exact h (toInt32_ofNat hnMla)
    have hroom : ¬ (savedHdr c nseq nBound (c.nMla nBound) cached).cached.toInt > cap₂ := by
      have := h₂.cached_le
      omega
    unfold k3StateLoad
    rw [if_neg hfp, if_neg hcounts, if_neg hroom, hdrop, hnseqT, hkperT, hcachedInt]
    simp only [hseq, Option.bind_eq_bind, Option.bind_some, hks]
    show (readSlices .kvc cap₂ cached (BitVec.ofNat 64 c.kvpp) (c.nMla nBound) 0 b₂ _).bind _ = _
    rw [hkv, Option.bind_some]
    show (readSlices .ropec cap₂ cached (BitVec.ofNat 64 c.ropepp) (c.nMla nBound) 0 b₃ _).bind _ = _
    rw [hrope]
    rfl
  · rw [hropeOther _ (by decide), hkvOther _ (by decide), hksOther _ (by decide), hseqMem]
    have hread := overwrite_slice (b.mem .seq) (mem .seq) 0 0 hi
    rw [Nat.zero_add] at hread
    exact hread
  · rw [hropeOther _ (by decide), hkvOther _ (by decide), hksMem]
    have hread := overwrite_slice (b₁.mem .ks) (mem .ks) 0 0 hi
    rw [Nat.zero_add] at hread
    exact hread
  · rw [hropeOther _ (by decide)]
    exact hkvRows mi (Nat.zero_le mi) hmi _ (row_lt hp he)
  · exact hropeRows mi (Nat.zero_le mi) hmi _ (row_lt hp he)
  · rw [hropeOther _ (by decide), hkvOther _ (by decide), hksOther _ (by decide), hseqMem]
    exact overwrite_above _ _ (by rw [slice_length]; omega)

end RoundTrip

/-! ## Resuming -/

/-- One position of every MLA layer: its KV row and its rope row. -/
abbrev Row := List (List (BitVec 32) × List (BitVec 32))

/-- What the buffers carry, as `forward` reads them: the recurrent state of the bound layers, and
row `p` of slice `mi` at `mi * kv_cap * pp + p * pp`. -/
def carriedOf (c : K3Cfg) (nBound cap : Nat) (mem : Buf → Nat → BitVec 32) (cached : Nat) :
    Carried (List (BitVec 32)) Row where
  ks := slice (mem .ks) 0 (c.kper * nBound)
  rows p := (List.range (c.nMla nBound)).map fun mi =>
    (slice (mem .kvc) (mi * (cap * c.kvpp) + p * c.kvpp) c.kvpp,
      slice (mem .ropec) (mi * (cap * c.ropepp) + p * c.ropepp) c.ropepp)
  cached := cached

/-- The restored buffers carry what the saved ones did. -/
theorem Restores.same {c : K3Cfg} {nBound cap₁ cap₂ nseq cached : Nat}
    {mem mem' : Buf → Nat → BitVec 32} (h : Restores c nBound cap₁ cap₂ nseq cached mem mem') :
    (carriedOf c nBound cap₂ mem' cached).Same (carriedOf c nBound cap₁ mem cached) := by
  refine ⟨?_, rfl, fun p hp => ?_⟩
  · apply slice_congr
    intro j hj
    rw [Nat.zero_add]
    exact h.ks j hj
  · apply List.map_congr_left
    intro mi hmi
    have hmi' := List.mem_range.mp hmi
    congr 1
    · apply slice_congr
      intro e he
      rw [Nat.add_assoc, Nat.add_assoc]
      exact h.kv mi hmi' p hp e he
    · apply slice_congr
      intro e he
      rw [Nat.add_assoc, Nat.add_assoc]
      exact h.rope mi hmi' p hp e he

section Resume

variable {κ ρ κd ρd : Type} (fw : Forward κ ρ)
  {draft : Nat → Carried κd ρd → List Tok → Pass κd ρd}

/-- **A finished fresh run** has emitted serial decode's ids, and its state is that of feeding a
prefix of the prompt and these ids, one short of all where any id was generated. -/
theorem fresh_done (hdraft : ∀ n z ids, (draft n z ids).ok = true) {prompt : List Tok}
    (hprompt : 1 ≤ prompt.length) {gen spec : Nat} {draftTrunk : Bool} {junk : Nat → Tok}
    {z : Carried κ ρ} {dz : Carried κd ρd} (hz : z.cached = 0) (hdz : dz.cached = 0) {g : Nat}
    (hg : gen ≤ g) {s : GenState κ ρ κd ρd}
    (hs : rounds (freshCfg prompt gen spec draftTrunk) (withDraft fw draft)
      (GenState.start (freshCfg prompt gen spec draftTrunk) (overwrite junk 0 prompt) z dz) g
      = some s) :
    s.out = fw.serialIds z prompt gen ∧ slice s.seq 0 s.T = prompt ++ s.out ∧ s.w.cached < s.T ∧
      s.w.Same (fw.feedAll z ((prompt ++ s.out).take s.w.cached)) := by
  have hin : Enters (freshCfg prompt gen spec draftTrunk) z dz :=
    fresh_enters hprompt gen spec draftTrunk hz hdz
  obtain ⟨s', hs', _, hinv, hout⟩ := rounds_done fw hdraft (overwrite junk 0 prompt) hin hg
  obtain rfl : s' = s := Option.some.inj (hs'.symm.trans hs)
  rw [fresh_pending prompt gen spec draftTrunk junk dz hz] at hout
  have hat := hinv.at_serial
  have hlen : s'.out.length = gen := by rw [hout, fw.serialIds_length]; rfl
  have hsame : s'.w.Same (fw.serialState z prompt gen) := by
    have hstate := hat.same
    rw [fresh_pending prompt gen spec draftTrunk junk dz hz, hlen] at hstate
    exact hstate
  have hseq := hat.seq
  rw [fresh_seq] at hseq
  have hTlen : s'.T = prompt.length + s'.out.length := by
    have := congrArg List.length hseq
    rw [slice_length, List.length_append] at this
    exact this
  refine ⟨hout, hseq, ?_, ?_⟩
  · rcases gen with _ | n
    · have hcached : s'.w.cached = z.cached := hsame.cached
      omega
    · have hcached := hsame.cached
      rw [fw.serialState_cached] at hcached
      omega
  · rcases gen with _ | n
    · have hcached : s'.w.cached = z.cached := hsame.cached
      rw [hcached, hz, List.take_zero]
      exact hsame
    · have hcached := hsame.cached
      rw [fw.serialState_cached, hz, Nat.zero_add] at hcached
      have hfed : (prompt ++ s'.out).take s'.w.cached = prompt ++ fw.serialIds z prompt n := by
        rw [hcached, List.take_length_add_append, hout]
        exact congrArg _ (fw.serialIds_take n 1 z prompt)
      rw [hfed, ← fw.serialState_succ]
      exact hsame

/-- A run with `--load-state`: `prior` restored ids before the prompt. -/
def resumeCfg (prior : Nat) (prompt : List Tok) (gen spec : Nat) (draftTrunk : Bool) : GenCfg :=
  { gen := gen, np := prompt.length, prior := prior, spec := spec, draftTrunk := draftTrunk,
    loadState := true }

/-- **A resumed run goes on.** Entered with a state that has consumed a proper prefix of `ids`, where
`ids` are the restored ids and the new prompt, it generates what a session fed all of `ids` would. -/
theorem resumed_done (hdraft : ∀ n z ids, (draft n z ids).ok = true) {ids prompt : List Tok}
    {prior gen spec : Nat} {draftTrunk : Bool} {seq : Nat → Tok} {z w : Carried κ ρ}
    {dz : Carried κd ρd} (hdz : dz.cached = 0) (hlen : ids.length = prior + prompt.length)
    (hseq : slice seq 0 (prior + prompt.length) = ids) (hcached : w.cached < ids.length)
    (hw : w.Same (fw.feedAll z (ids.take w.cached))) {g : Nat} (hg : gen ≤ g) :
    pendingAt (GenState.start (resumeCfg prior prompt gen spec draftTrunk) seq w dz)
        = ids.drop w.cached ∧
      ∃ s, rounds (resumeCfg prior prompt gen spec draftTrunk) (withDraft fw draft)
          (GenState.start (resumeCfg prior prompt gen spec draftTrunk) seq w dz) g = some s ∧
        running (resumeCfg prior prompt gen spec draftTrunk) g s = false ∧
        s.out = fw.serialIds z ids gen := by
  have hin : Enters (resumeCfg prior prompt gen spec draftTrunk) w dz :=
    ⟨by show w.cached < prior + prompt.length; omega, hdz, fun h => absurd h (by simp [resumeCfg])⟩
  have hpending : pendingAt (GenState.start (resumeCfg prior prompt gen spec draftTrunk) seq w dz)
      = ids.drop w.cached := by
    show slice seq w.cached (prior + prompt.length - w.cached) = ids.drop w.cached
    have hsplit := slice_add seq 0 w.cached (prior + prompt.length - w.cached)
    rw [show w.cached + (prior + prompt.length - w.cached) = prior + prompt.length by omega, hseq,
      Nat.zero_add] at hsplit
    rw [hsplit, List.drop_left' (slice_length _ _ _)]
  obtain ⟨s, hs, hdone, _, hout⟩ := rounds_done fw hdraft seq hin hg
  refine ⟨hpending, s, hs, hdone, ?_⟩
  have hne : ids.drop w.cached ≠ [] := by
    intro hnil
    have := congrArg List.length hnil
    rw [List.length_drop, List.length_nil] at this
    omega
  rw [hout, hpending, (Forward.Same.serial fw _ hw _).1, ← fw.serialIds_fed z _ hne,
    List.take_append_drop]
  rfl

end Resume

section Session

variable {κd ρd : Type}

/-- A fresh run of `gen` ids from `z`, over in `s`; the drafter is whatever it was. -/
def FreshRunEnds (fw : Forward (List (BitVec 32)) Row)
    (draft : Nat → Carried κd ρd → List Tok → Pass κd ρd) (z : Carried (List (BitVec 32)) Row)
    (prompt : List Tok) (gen : Nat) (s : GenState (List (BitVec 32)) Row κd ρd) : Prop :=
  ∃ spec draftTrunk junk, ∃ dz : Carried κd ρd, ∃ g, dz.cached = 0 ∧ gen ≤ g ∧
    rounds (freshCfg prompt gen spec draftTrunk) (withDraft fw draft)
      (GenState.start (freshCfg prompt gen spec draftTrunk) (overwrite junk 0 prompt) z dz) g
      = some s

/-- The buffers a run hands to the save: its sequence and what its models' passes left. -/
structure HoldsRun (c : K3Cfg) (nBound cap : Nat) (mem : Buf → Nat → BitVec 32)
    (s : GenState (List (BitVec 32)) Row κd ρd) : Prop where
  seq : slice (mem .seq) 0 s.T = slice s.seq 0 s.T
  state : (carriedOf c nBound cap mem s.w.cached).Same s.w

end Session

/-- **A saved state round-trips, and resuming is transparent.** The file `k3_state_save` wrote is
peeked and loaded under the same configuration and layer counts, whatever the two capacities, and
every saved component is restored.  If it was saved at the end of a run of `gen₁` ids, the run
resumed with a continuation prompt `p` feeds at step 0 exactly what was not yet consumed, and
generates the ids of one session fed the prompt, the `gen₁` ids and `p`. -/
theorem saved_state_resumes {c : K3Cfg} {nBound cap₁ cap₂ nseq cached : Nat}
    {mem : Buf → Nat → BitVec 32} {f : File} (h₁ : Sized c nBound cap₁ nseq cached)
    (h₂ : Sized c nBound cap₂ nseq cached)
    (hf : k3StateSave c mem nseq nBound (c.nMla nBound) cap₁ cached = some f) (b : Buffers) :
    ∃ hd b', k3StatePeek f = some hd ∧ hd.nseq.toInt = nseq ∧ hd.cached.toInt = cached ∧
      k3StateLoad f c hd b nBound (c.nMla nBound) cap₂ = some b' ∧
      Restores c nBound cap₁ cap₂ nseq cached mem b'.mem ∧
      ∀ {κd ρd : Type} (fw : Forward (List (BitVec 32)) Row)
        (draft₁ draft₂ : Nat → Carried κd ρd → List Tok → Pass κd ρd),
        (∀ n z ids, (draft₁ n z ids).ok = true) → (∀ n z ids, (draft₂ n z ids).ok = true) →
      ∀ (z : Carried (List (BitVec 32)) Row) (prompt : List Tok) (gen₁ : Nat)
        (s₁ : GenState (List (BitVec 32)) Row κd ρd),
        z.cached = 0 → 1 ≤ prompt.length → FreshRunEnds fw draft₁ z prompt gen₁ s₁ →
        HoldsRun c nBound cap₁ mem s₁ → nseq = s₁.T → cached = s₁.w.cached →
      ∀ (p : List Tok) (gen₂ spec₂ : Nat) (draftTrunk₂ : Bool) (dz : Carried κd ρd) (g : Nat),
        dz.cached = 0 → gen₂ ≤ g → slice (b.mem .seq) nseq p.length = p →
        let c₂ := resumeCfg nseq p gen₂ spec₂ draftTrunk₂
        let s₀ := GenState.start c₂ (b'.mem .seq) (carriedOf c nBound cap₂ b'.mem cached) dz
        c₂.kvCap = cap₂ →
        s₁.out = fw.serialIds z prompt gen₁ ∧
        pendingAt s₀ = (prompt ++ s₁.out ++ p).drop cached ∧
        ∃ s₂, rounds c₂ (withDraft fw draft₂) s₀ g = some s₂ ∧ running c₂ g s₂ = false ∧
          s₂.out = fw.serialIds z (prompt ++ s₁.out ++ p) gen₂ := by
  obtain ⟨b', hload, hrest, habove⟩ := load_saved h₁ h₂ hf b
  refine ⟨_, b', peek_saved hf, toInt32_ofNat h₁.nseq_lt,
    toInt32_ofNat (Nat.lt_of_le_of_lt h₁.cached_le h₁.cap_lt), hload, hrest, ?_⟩
  rintro κd ρd fw draft₁ draft₂ hok₁ hok₂ z prompt gen₁ s₁ hz hprompt
    ⟨spec, draftTrunk, junk, dz₁, g₁, hdz₁, hg₁, hs₁⟩ hholds rfl rfl p gen₂ spec₂ draftTrunk₂ dz g hdz
    hg hp c₂ s₀ _
  obtain ⟨hout, hseq, hlt, hstate⟩ := fresh_done fw hok₁ hprompt hz hdz₁ hg₁ hs₁
  have hlen : s₁.T = (prompt ++ s₁.out).length := by rw [← hseq, slice_length]
  -- the saved ids are restored below the new prompt, which is left in place
  have hids : slice (b'.mem .seq) 0 (s₁.T + p.length) = prompt ++ s₁.out ++ p := by
    have hfront : slice (b'.mem .seq) 0 s₁.T = slice (mem .seq) 0 s₁.T := by
      apply slice_congr
      intro j hj
      rw [Nat.zero_add]
      exact hrest.seq j hj
    have hback : slice (b'.mem .seq) s₁.T p.length = slice (b.mem .seq) s₁.T p.length := by
      apply slice_congr
      intro j _
      exact habove _ (Nat.le_add_right _ _)
    rw [slice_add, Nat.zero_add, hfront, hback, hp, hholds.seq, hseq]
  have hw : (carriedOf c nBound cap₂ b'.mem s₁.w.cached).Same
      (fw.feedAll z ((prompt ++ s₁.out ++ p).take s₁.w.cached)) := by
    rw [List.take_append_of_le_length (by omega)]
    exact (hrest.same.trans hholds.state).trans hstate
  obtain ⟨hpending, hrun⟩ := resumed_done fw hok₂ hdz
    (show (prompt ++ s₁.out ++ p).length = s₁.T + p.length by rw [List.length_append, ← hlen]) hids
    (show (carriedOf c nBound cap₂ b'.mem s₁.w.cached).cached < _ by
      show s₁.w.cached < _
      rw [List.length_append]
      omega) hw hg
  exact ⟨hout, hpending, hrun⟩

/-- A model over the tiny configuration's buffers: two floats of recurrent state, and one MLA layer
with a KV row of two and a rope row of one. -/
def tinyModel : Forward (List (BitVec 32)) Row :=
  .ofStep fun ks live t => (ks.map (· + t), [([t, t + 1], [t])], t + BitVec.ofNat 32 live.length)

def silentDraft (_ : Nat) (z : Carried Unit Unit) (_ : List Tok) : Pass Unit Unit :=
  { ok := true, ks := z.ks, rows := z.rows, args := [0] }

/-- The buffers after feeding the one prompt id 1, which the model continues with 1. -/
def tinyMem : Buf → Nat → BitVec 32
  | .seq => fun _ => 1
  | .ks => fun _ => 1
  | .kvc => fun i => BitVec.ofNat 32 (i + 1)
  | .ropec => fun _ => 1

/-- The run that generates the one id, and where it ends. -/
def tinyEnd : Option (GenState (List (BitVec 32)) Row Unit Unit) :=
  rounds (freshCfg [1] 1 0 false) (withDraft tinyModel silentDraft)
    (GenState.start (freshCfg [1] 1 0 false) (overwrite (fun _ => 0) 0 [1])
      { ks := [0, 0], rows := fun _ => [], cached := 0 }
      { ks := (), rows := fun _ => (), cached := 0 }) 1

/-- One id is generated and saved; the run is resumed with the id 5 and generates two more. -/
theorem tiny_session_resumed :
    ∃ f hd b' s₂, k3StateSave tinyCfg tinyMem 2 2 1 3 1 = some f ∧ k3StatePeek f = some hd ∧
      k3StateLoad f tinyCfg hd { mem := fun _ _ => 5, log := [] } 2 1 6 = some b' ∧
      rounds (resumeCfg 2 [5] 2 0 false) (withDraft tinyModel silentDraft)
        (GenState.start (resumeCfg 2 [5] 2 0 false) (b'.mem .seq) (carriedOf tinyCfg 2 6 b'.mem 1)
          { ks := (), rows := fun _ => (), cached := 0 }) 2 = some s₂ ∧
      s₂.out = [7, 10] := by
  have hsized : ∀ cap, 1 ≤ cap → cap < 10 → Sized tinyCfg 2 cap 2 1 := by
    intro cap hle hlt
    have hn : tinyCfg.nMla 2 = 1 := by decide
    refine ⟨by decide, by decide, by omega, hle, by decide, ?_, ?_⟩
    · rw [hn, show tinyCfg.kvpp = 2 by rfl]
      omega
    · rw [hn, show tinyCfg.ropepp = 1 by rfl]
      omega
  obtain ⟨f, hf⟩ := Option.isSome_iff_exists.mp
    (show (k3StateSave tinyCfg tinyMem 2 2 (tinyCfg.nMla 2) 3 1).isSome by decide +kernel)
  obtain ⟨hd, b', hpeek, _, _, hload, _, hresume⟩ := saved_state_resumes (hsized 3 (by decide)
    (by decide)) (hsized 6 (by decide) (by decide)) hf { mem := fun _ _ => 5, log := [] }
  have hend : tinyEnd.isSome := by decide
  have hholds : HoldsRun tinyCfg 2 3 tinyMem (tinyEnd.get hend) := by
    refine ⟨by rfl, by rfl, by rfl, fun q hq => ?_⟩
    obtain rfl : q = 0 := Nat.lt_one_iff.mp hq
    rfl
  obtain ⟨_, _, s₂, hs₂, _, hout⟩ := hresume tinyModel silentDraft silentDraft (fun _ _ _ => rfl)
    (fun _ _ _ => rfl) { ks := [0, 0], rows := fun _ => [], cached := 0 } [1] 1 (tinyEnd.get hend) rfl
    (by decide) ⟨0, false, fun _ => 0, { ks := (), rows := fun _ => (), cached := 0 }, 1, rfl,
      Nat.le_refl 1, (Option.some_get hend).symm⟩ hholds rfl rfl [5] 2 0 false
    { ks := (), rows := fun _ => (), cached := 0 } 2 rfl (Nat.le_refl 2) rfl rfl
  exact ⟨f, hd, b', s₂, hf, hpeek, hload, hs₂, hout⟩

end LlmEngine.Cli.StateFile
