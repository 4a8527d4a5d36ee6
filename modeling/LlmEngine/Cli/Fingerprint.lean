/-
# LlmEngine.Cli.Fingerprint — what the state fingerprint separates (`k3_state_fp`, `src/cli/k3_run.c`).

A state file names its architecture by twelve scalars, the number of bound layers and the number of
MLA layers among them.  The scalars fix every size.  Which layers are the MLA layers is a list of the
configuration that the header has no field for: two configurations that list equally many but other
layers are told apart by nothing, and each restored KV slice then goes to another layer's slot.

`SameMeaning` is what a restored state needs of the two configurations: equal sizes, and each bound layer in the
role and with the slice it had.  With the scalars equal that comes down to the same layers being listed
(`sameMeaning_of_layerMap`).

* `load_isSome_iff`: when a state saved under one configuration is accepted under another.
* `accepted_keeps_meaning_iff`: what is accepted keeps its meaning, exactly when the two do not agree on scalars,
  counts and room while listing other layers.

The scalars go into the file as C `int`s; that the ones compared are below `2 ^ 31` (`FpInts`) is what makes equal
fingerprints equal scalars.
-/
import LlmEngine.Cli.Resume

namespace LlmEngine.Cli.StateFile

open LlmEngine.Core (K3Cfg)
open LlmEngine.Lib.LittleEndian
open LlmEngine.Lib.Buffer

/-! ## The scalars -/

/-- The fields `k3_state_fp` copies. -/
def fpScalars (c : K3Cfg) : List Nat :=
  [c.hidden, c.nLayers, c.vocab, c.kdaHeads, c.kdaHeadDim, c.convK, c.nHeads, c.qkNope, c.qkRope,
    c.vHead, c.nExperts, c.topk]

/-- They are C `int`s. -/
def FpInts (c : K3Cfg) : Prop := ∀ x ∈ fpScalars c, x < 2 ^ 31

instance (c : K3Cfg) : Decidable (FpInts c) :=
  inferInstanceAs (Decidable (∀ x ∈ fpScalars c, x < 2 ^ 31))

theorem ofNat32_injective_on {xs : List Nat} :
    ∀ {ys : List Nat}, (∀ x ∈ xs, x < 2 ^ 31) → (∀ y ∈ ys, y < 2 ^ 31) →
      xs.map (BitVec.ofNat 32) = ys.map (BitVec.ofNat 32) → xs = ys := by
  induction xs with
  | nil =>
      intro ys _ _ h
      exact (List.map_eq_nil_iff.mp h.symm).symm
  | cons x xs ih =>
      intro ys hxs hys h
      cases ys with
      | nil => exact absurd h (List.cons_ne_nil _ _)
      | cons y ys =>
          obtain ⟨hhead, htail⟩ := List.cons.inj h
          have hx := hxs x List.mem_cons_self
          have hy := hys y List.mem_cons_self
          have hxy := congrArg BitVec.toNat hhead
          rw [BitVec.toNat_ofNat, BitVec.toNat_ofNat, Nat.mod_eq_of_lt (by omega),
            Nat.mod_eq_of_lt (by omega)] at hxy
          rw [hxy, ih (fun z hz => hxs z (List.mem_cons_of_mem _ hz))
            (fun z hz => hys z (List.mem_cons_of_mem _ hz)) htail]

/-- **Equal fingerprints are equal scalars.** -/
theorem k3StateFp_eq_iff {c₁ c₂ : K3Cfg} (h₁ : FpInts c₁) (h₂ : FpInts c₂) :
    k3StateFp c₁ = k3StateFp c₂ ↔ fpScalars c₁ = fpScalars c₂ :=
  ⟨ofNat32_injective_on h₁ h₂, fun h => congrArg (List.map (BitVec.ofNat 32)) h⟩

/-! ## What a saved component means -/

/-- `mla_slot[L]`: the cache slice of layer `L`, numbered over the MLA layers in order. -/
def mlaSlot (c : K3Cfg) (L : Nat) : Option Nat := if c.isMla L then some (c.nMla L) else none

/-- **Two runs give every saved component the same meaning**: the sizes per layer and per position,
the role of every bound layer, and the slice it owns. -/
structure SameMeaning (c₁ c₂ : K3Cfg) (nBound₁ nBound₂ : Nat) : Prop where
  bound : nBound₁ = nBound₂
  kper : c₁.kper = c₂.kper
  kvpp : c₁.kvpp = c₂.kvpp
  ropepp : c₁.ropepp = c₂.ropepp
  role : ∀ L < nBound₁, c₁.isMla L = c₂.isMla L
  slot : ∀ L < nBound₁, mlaSlot c₁ L = mlaSlot c₂ L

/-- The two configurations list the same layers among the first `nBound`, one-based. -/
def SameLayerMap (c₁ c₂ : K3Cfg) (nBound : Nat) : Prop :=
  ∀ i, 1 ≤ i → i ≤ nBound → (i ∈ c₁.fullAttn ↔ i ∈ c₂.fullAttn)

theorem isMla_iff (c : K3Cfg) (L : Nat) : c.isMla L = true ↔ L + 1 ∈ c.fullAttn := by
  unfold Core.K3Cfg.isMla
  rw [List.any_eq_true]
  constructor
  · rintro ⟨i, hi, heq⟩
    rwa [← eq_of_beq heq]
  · intro h
    exact ⟨L + 1, h, beq_self_eq_true _⟩

section Meaning

variable {c₁ c₂ : K3Cfg} {nBound : Nat}

/-- The layer map is the role of the bound layers. -/
theorem sameLayerMap_iff :
    SameLayerMap c₁ c₂ nBound ↔ ∀ L < nBound, c₁.isMla L = c₂.isMla L := by
  constructor
  · intro h L hL
    rw [Bool.eq_iff_iff, isMla_iff, isMla_iff]
    exact h (L + 1) (Nat.le_add_left 1 L) hL
  · intro h i hpos hle
    have hrole := h (i - 1) (by omega)
    rw [Bool.eq_iff_iff, isMla_iff, isMla_iff, Nat.sub_add_cancel hpos] at hrole
    exact hrole

/-- The roles below a layer decide how many MLA layers there are below it. -/
theorem nMla_congr (h : ∀ L < nBound, c₁.isMla L = c₂.isMla L) {L : Nat} (hL : L ≤ nBound) :
    c₁.nMla L = c₂.nMla L := by
  unfold Core.K3Cfg.nMla
  congr 1
  apply List.filter_congr
  intro i hi
  exact h i (Nat.lt_of_lt_of_le (List.mem_range.mp hi) hL)

/-- **Equal scalars and equal layer maps give equal meanings.** -/
theorem sameMeaning_of_layerMap (hscalars : fpScalars c₁ = fpScalars c₂)
    (hmap : SameLayerMap c₁ c₂ nBound) : SameMeaning c₁ c₂ nBound nBound := by
  have hrole := sameLayerMap_iff.mp hmap
  simp only [fpScalars, List.cons.injEq, and_true] at hscalars
  obtain ⟨-, -, -, hheads, hdim, hconv, hnh, hnope, hrope, hv, -, -⟩ := hscalars
  refine ⟨rfl, ?_, ?_, hrope, hrole, fun L hL => ?_⟩
  · unfold Core.K3Cfg.kper Core.K3Cfg.kdaWidth
    rw [hheads, hdim, hconv]
  · unfold Core.K3Cfg.kvpp
    rw [hnh, hnope, hv]
  · unfold mlaSlot
    rw [hrole L hL, nMla_congr hrole (Nat.le_of_lt hL)]

end Meaning

/-! ## When a saved state is accepted -/

theorem readInto_isSome (buf : Buf) (off : Nat) (b : Buffers) {n : Nat} {rest : Bytes}
    (h : 4 * n ≤ rest.length) :
    ∃ b', readInto buf off n b rest = some (b', rest.drop (4 * n)) := by
  unfold readInto readWords
  rw [if_pos h]
  exact ⟨_, rfl⟩

/-- Slices are read as long as there are bytes; where they go plays no part. -/
theorem readSlices_isSome (buf : Buf) (kvCap cached : Int) (pp : BitVec 64) {n : Nat}
    (hn : mulT (sizeT cached) (sizeT pp.toInt) = n) (left : Nat) :
    ∀ (mi : Nat) (b : Buffers) {rest : Bytes}, left * (4 * n) ≤ rest.length →
      ∃ b', readSlices buf kvCap cached pp left mi b rest = some (b', rest.drop (left * (4 * n))) := by
  induction left with
  | zero =>
      intro mi b rest _
      rw [Nat.zero_mul, List.drop_zero]
      exact ⟨b, rfl⟩
  | succ left ih =>
      intro mi b rest h
      rw [Nat.succ_mul] at h ⊢
      obtain ⟨b₁, hread⟩ := readInto_isSome buf (mulT (mulT mi (sizeT kvCap)) (sizeT pp.toInt)) b
        (show 4 * n ≤ rest.length by omega)
      have hlen : left * (4 * n) ≤ (rest.drop (4 * n)).length := by
        rw [List.length_drop]
        omega
      obtain ⟨b', hrest⟩ := ih (mi + 1) b₁ hlen
      refine ⟨b', ?_⟩
      rw [readSlices, hn, hread]
      simp only [Option.bind_eq_bind, Option.bind_some]
      rw [hrest, List.drop_drop, Nat.add_comm]

theorem packSlices_length (mem : Nat → BitVec 32) (cap cached pp nMla : Nat) :
    (packSlices mem cap cached pp nMla).length = nMla * (4 * mulT cached pp) := by
  unfold packSlices
  rw [List.length_flatMap]
  simp only [putWords_length, slice_length, List.map_const', List.length_range,
    List.sum_replicate_nat]

section Accepted

variable {c₁ c₂ : K3Cfg} {nBound₁ cap₁ nseq cached : Nat} {mem : Buf → Nat → BitVec 32} {f : File}

/-- **When a state saved under `c₁` is accepted under `c₂`**: the scalars, the two layer counts and
the room are all that is looked at. -/
theorem load_isSome_iff (b : Buffers) (nBound₂ : Nat) (cap₂ : Int) (h₁ : FpInts c₁) (h₂ : FpInts c₂) (hnb : nBound₁ < 2 ^ 31)
    (hseq : nseq < 2 ^ 31) (hcached : cached < 2 ^ 31)
    (hf : k3StateSave c₁ mem nseq nBound₁ (c₁.nMla nBound₁) cap₁ cached = some f) :
    (k3StateLoad f c₂ (savedHdr c₁ nseq nBound₁ (c₁.nMla nBound₁) cached) b nBound₂
        (c₂.nMla nBound₂) cap₂).isSome ↔
      fpScalars c₁ = fpScalars c₂ ∧ nBound₁ = nBound₂ ∧ c₁.nMla nBound₁ = c₂.nMla nBound₂ ∧
        (cached : Int) ≤ cap₂ := by
  have hnMla : c₁.nMla nBound₁ < 2 ^ 31 := Nat.lt_of_le_of_lt (K3Cfg.nMla_le c₁ nBound₁) hnb
  have hnbInt : (savedHdr c₁ nseq nBound₁ (c₁.nMla nBound₁) cached).nBound.toInt = nBound₁ :=
    toInt32_ofNat hnb
  have hmlaInt : (savedHdr c₁ nseq nBound₁ (c₁.nMla nBound₁) cached).nMla.toInt = c₁.nMla nBound₁ :=
    toInt32_ofNat hnMla
  have hcInt : (savedHdr c₁ nseq nBound₁ (c₁.nMla nBound₁) cached).cached.toInt = cached :=
    toInt32_ofNat hcached
  have hfp : (savedHdr c₁ nseq nBound₁ (c₁.nMla nBound₁) cached).fp = k3StateFp c₁ := rfl
  unfold k3StateLoad
  rw [hnbInt, hmlaInt, hcInt, hfp, ← k3StateFp_eq_iff h₁ h₂]
  constructor
  · intro h
    split_ifs at h with hne hcount hroom
    · exact absurd h Bool.false_ne_true
    · exact absurd h Bool.false_ne_true
    · exact absurd h Bool.false_ne_true
    · exact ⟨(not_not.mp hne).symm, by omega, by omega, by omega⟩
  · rintro ⟨heq, rfl, hmla, hle⟩
    rw [if_neg (fun h => h heq.symm), if_neg (by omega), if_neg (by omega)]
    -- what is left is to find the bytes: the file holds exactly what the header announces
    have hnseqT : sizeT (savedHdr c₁ nseq nBound₁ (c₁.nMla nBound₁) cached).nseq.toInt = nseq := by
      rw [savedHdr, toInt32_ofNat hseq]
      unfold sizeT
      omega
    have hkperT : mulT (sizeT (savedHdr c₁ nseq nBound₁ (c₁.nMla nBound₁) cached).kper.toInt) nBound₁
        = mulT c₁.kper nBound₁ := by
      rw [savedHdr, sizeT_toInt64_ofNat, mulT, mulT, Nat.mod_mul_mod]
    have hcachedT : sizeT (cached : Int) = cached := by
      unfold sizeT
      omega
    have hpp : ∀ pp : Nat, mulT (sizeT (cached : Int)) (sizeT (BitVec.ofNat 64 pp).toInt)
        = mulT cached pp := fun pp => by rw [hcachedT, sizeT_toInt64_ofNat, mulT_mod]
    have hlen : (f.bytes.drop hdrSize).length = 4 * nseq + (4 * mulT c₁.kper nBound₁ +
        (c₁.nMla nBound₁ * (4 * mulT cached c₁.kvpp) +
          c₁.nMla nBound₁ * (4 * mulT cached c₁.ropepp))) := by
      rw [k3StateSave_bytes hf, savedBytes, List.drop_left' (Hdr.bytes_length rfl rfl)]
      simp only [List.length_append, putWords_length, slice_length, packSlices_length]
    rw [hnseqT, hkperT, ← hmla]
    generalize f.bytes.drop hdrSize = rest at hlen
    obtain ⟨b₁, hread₁⟩ := readInto_isSome .seq 0 b (show 4 * nseq ≤ rest.length by omega)
    have hlen₁ : (rest.drop (4 * nseq)).length = rest.length - 4 * nseq := List.length_drop
    generalize rest.drop (4 * nseq) = rest₁ at hread₁ hlen₁
    obtain ⟨b₂, hread₂⟩ := readInto_isSome .ks 0 b₁
      (show 4 * mulT c₁.kper nBound₁ ≤ rest₁.length by omega)
    have hlen₂ : (rest₁.drop (4 * mulT c₁.kper nBound₁)).length
        = rest₁.length - 4 * mulT c₁.kper nBound₁ := List.length_drop
    generalize rest₁.drop (4 * mulT c₁.kper nBound₁) = rest₂ at hread₂ hlen₂
    obtain ⟨b₃, hread₃⟩ := readSlices_isSome .kvc cap₂ cached (BitVec.ofNat 64 c₁.kvpp) (hpp c₁.kvpp)
      (c₁.nMla nBound₁) 0 b₂ (show _ ≤ rest₂.length by omega)
    have hlen₃ : (rest₂.drop (c₁.nMla nBound₁ * (4 * mulT cached c₁.kvpp))).length
        = rest₂.length - c₁.nMla nBound₁ * (4 * mulT cached c₁.kvpp) := List.length_drop
    generalize rest₂.drop (c₁.nMla nBound₁ * (4 * mulT cached c₁.kvpp)) = rest₃ at hread₃ hlen₃
    obtain ⟨b₄, hread₄⟩ := readSlices_isSome .ropec cap₂ cached (BitVec.ofNat 64 c₁.ropepp)
      (hpp c₁.ropepp) (c₁.nMla nBound₁) 0 b₃ (show _ ≤ rest₃.length by omega)
    simp only [hread₁, hread₂, Option.bind_eq_bind, Option.bind_some]
    show ((readSlices .kvc cap₂ cached (BitVec.ofNat 64 c₁.kvpp) (c₁.nMla nBound₁) 0 b₂ _).bind
      _).isSome
    rw [hread₃, Option.bind_some]
    show ((readSlices .ropec cap₂ cached (BitVec.ofNat 64 c₁.ropepp) (c₁.nMla nBound₁) 0 b₃ _).bind
      _).isSome
    rw [hread₄]
    rfl

/-- **What the fingerprint separates.** A state saved under `c₁` and offered to a run under `c₂`
keeps its meaning if accepted, exactly when the two do not agree on the scalars, the counts and the
room while listing other layers. -/
theorem accepted_keeps_meaning_iff (h₁ : FpInts c₁) (h₂ : FpInts c₂) (hnb : nBound₁ < 2 ^ 31)
    (hseq : nseq < 2 ^ 31) (hcached : cached < 2 ^ 31)
    (hf : k3StateSave c₁ mem nseq nBound₁ (c₁.nMla nBound₁) cap₁ cached = some f) {hd : Hdr}
    (hpeek : k3StatePeek f = some hd) (b : Buffers) (nBound₂ : Nat) (cap₂ : Int) :
    (∀ b', k3StateLoad f c₂ hd b nBound₂ (c₂.nMla nBound₂) cap₂ = some b' →
        SameMeaning c₁ c₂ nBound₁ nBound₂) ↔
      (fpScalars c₁ = fpScalars c₂ → nBound₁ = nBound₂ → c₁.nMla nBound₁ = c₂.nMla nBound₂ →
        (cached : Int) ≤ cap₂ → SameLayerMap c₁ c₂ nBound₁) := by
  obtain rfl : hd = savedHdr c₁ nseq nBound₁ (c₁.nMla nBound₁) cached :=
    Option.some.inj (hpeek.symm.trans (peek_saved hf))
  have haccept := load_isSome_iff b nBound₂ cap₂ h₁ h₂ hnb hseq hcached hf
  constructor
  · intro h hscalars hbound hmla hroom
    obtain ⟨b', hload⟩ := Option.isSome_iff_exists.mp (haccept.mpr ⟨hscalars, hbound, hmla, hroom⟩)
    exact sameLayerMap_iff.mpr (h b' hload).role
  · intro h b' hload
    obtain ⟨hscalars, hbound, hmla, hroom⟩ := haccept.mp (Option.isSome_iff_exists.mpr ⟨b', hload⟩)
    have hmap := h hscalars hbound hmla hroom
    subst hbound
    exact sameMeaning_of_layerMap hscalars hmap

end Accepted

/-- The tiny configuration with the first layer the MLA layer. -/
def tinySwapped : K3Cfg :=
  { tinyCfg with fullAttn := [1], some_kda := by decide, in_range := by decide }

/-- The tiny configuration with other widths where no state is kept. -/
def tinyWider : K3Cfg := { tinyCfg with qLora := 2, moeInter := 2, denseInter := 3, mlaOutGate := false }

/-- A state keeps its meaning under a configuration that differs outside the fingerprint. -/
theorem tiny_state_keeps_meaning :
    ∃ f hd, k3StateSave tinyCfg tinyMem 2 2 (tinyCfg.nMla 2) 3 1 = some f ∧ k3StatePeek f = some hd ∧
      (k3StateLoad f tinyWider hd { mem := fun _ _ => 0, log := [] } 2 (tinyWider.nMla 2) 6).isSome ∧
      tinyWider ≠ tinyCfg ∧ SameMeaning tinyCfg tinyWider 2 2 := by
  obtain ⟨f, hf⟩ := Option.isSome_iff_exists.mp
    (show (k3StateSave tinyCfg tinyMem 2 2 (tinyCfg.nMla 2) 3 1).isSome by decide +kernel)
  have hints₁ : FpInts tinyCfg := by decide
  have hints₂ : FpInts tinyWider := by decide
  have hsome := (load_isSome_iff { mem := fun _ _ => 0, log := [] } 2 6 hints₁ hints₂ (by decide) (by decide) (by decide)
    hf).mpr ⟨rfl, rfl, rfl, by decide⟩
  obtain ⟨b', hload⟩ := Option.isSome_iff_exists.mp hsome
  have hother : tinyWider ≠ tinyCfg := fun h => absurd (congrArg Core.K3Cfg.qLora h) (by decide)
  exact ⟨f, _, hf, peek_saved hf, hsome, hother,
    (accepted_keeps_meaning_iff hints₁ hints₂ (by decide) (by decide) (by decide) hf
      (peek_saved hf) _ 2 6).mpr (fun _ _ _ _ _ _ _ => Iff.rfl) b' hload⟩

/-- **Two layer maps, one fingerprint.** A state whose second layer is MLA is accepted by a run
whose first layer is: the recurrent layer's slot takes the attention rows. -/
theorem swapped_layers_accepted :
    ∃ f hd b', FpInts tinyCfg ∧ FpInts tinySwapped ∧
      k3StateSave tinyCfg tinyMem 2 2 (tinyCfg.nMla 2) 3 1 = some f ∧ k3StatePeek f = some hd ∧
      k3StateLoad f tinySwapped hd { mem := fun _ _ => 0, log := [] } 2 (tinySwapped.nMla 2) 6
        = some b' ∧
      ¬ SameMeaning tinyCfg tinySwapped 2 2 := by
  obtain ⟨f, hf⟩ := Option.isSome_iff_exists.mp
    (show (k3StateSave tinyCfg tinyMem 2 2 (tinyCfg.nMla 2) 3 1).isSome by decide +kernel)
  have hints₁ : FpInts tinyCfg := by decide
  have hints₂ : FpInts tinySwapped := by decide
  obtain ⟨b', hload⟩ := Option.isSome_iff_exists.mp
    ((load_isSome_iff { mem := fun _ _ => 0, log := [] } 2 6 hints₁ hints₂ (by decide) (by decide) (by decide) hf).mpr ⟨rfl, rfl, rfl, by decide⟩)
  refine ⟨f, _, b', hints₁, hints₂, hf, peek_saved hf, hload, fun h => ?_⟩
  exact absurd (h.role 0 (by decide)) (by decide)

end LlmEngine.Cli.StateFile
