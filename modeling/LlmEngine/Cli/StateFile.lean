/-
# LlmEngine.Cli.StateFile — the conversation state on disk (`K3StateHdr`, `src/cli/k3_run.c`).

A header of 96 bytes, the ids of the sequence, the recurrent state of every bound layer, then the
occupied KV rows and the occupied rope rows of every MLA layer.  `k3_state_save` packs the occupied
rows; `k3_state_load` spreads them over slices of the restoring run's own capacity.

Sizes are computed in `size_t`: a C `int` or `int64_t` is converted modulo `2^64` and products wrap.
The blocks a load wrote are kept as a list, so that a write out of place can be seen.

The header is a C structure copied to the file as it stands, so its bytes are its members, least significant first
(`Hdr.bytes`), and reading it back gives the members written (`Hdr.ofBytes_bytes`).

* `k3StatePeek` reads the header alone and checks the magic and the version.
* `k3StateLoad` compares the fingerprint, the counts and the room, and then reads block after block; a file that is
  too short fails there, with the blocks so far written.
* `k3StateSave` writes the header, the ids, the states and the packed rows.

What a load may write, and where, is the subject of `Cli.Restore`; that a saved state comes back, of `Cli.Resume`;
and which configurations accept it, of `Cli.Fingerprint`.
-/
import LlmEngine.Core.Config
import LlmEngine.Cli.Forward
import LlmEngine.Lib.LittleEndian
import Mathlib.Data.List.GetD

namespace LlmEngine.Cli.StateFile

open LlmEngine.Core (K3Cfg)
open LlmEngine.Lib.LittleEndian
open LlmEngine.Lib.Buffer

/-- Conversion to `size_t`. -/
def sizeT (i : Int) : Nat := (i % 2 ^ 64).toNat

/-- A product in `size_t`. -/
def mulT (a b : Nat) : Nat := a * b % 2 ^ 64

/-! ## The header -/

/-- `K3StateHdr`. -/
structure Hdr where
  magic : Bytes
  version : BitVec 32
  fp : List (BitVec 32)
  nBound : BitVec 32
  nMla : BitVec 32
  cached : BitVec 32
  nseq : BitVec 32
  kper : BitVec 64
  kvpp : BitVec 64
  ropepp : BitVec 64

/-- `sizeof(K3StateHdr)`. -/
def hdrSize : Nat := 96

/-- `K3_STATE_MAGIC`, "K3ST". -/
def stateMagic : Bytes := [75, 51, 83, 84]

/-- `K3_STATE_VER`. -/
def stateVer : BitVec 32 := 1

/-- `k3_state_fp`. -/
def k3StateFp (c : K3Cfg) : List (BitVec 32) :=
  [c.hidden, c.nLayers, c.vocab, c.kdaHeads, c.kdaHeadDim, c.convK, c.nHeads, c.qkNope, c.qkRope,
    c.vHead, c.nExperts, c.topk].map (BitVec.ofNat 32)

/-- The header's bytes, field by field in the order and at the offsets of the C structure. -/
def Hdr.bytes (hd : Hdr) : Bytes :=
  hd.magic ++ putWords (hd.version :: (hd.fp ++ [hd.nBound, hd.nMla, hd.cached, hd.nseq])) ++
    put 8 hd.kper.toNat ++ put 8 hd.kvpp.toNat ++ put 8 hd.ropepp.toNat

/-- A 32-bit field at a byte offset. -/
def field32 (bs : Bytes) (off : Nat) : BitVec 32 := word 32 4 (bs.drop off)

def field64 (bs : Bytes) (off : Nat) : BitVec 64 := word 64 8 (bs.drop off)

/-- The structure `fread` fills from the first 96 bytes. -/
def Hdr.ofBytes (bs : Bytes) : Hdr where
  magic := bs.take 4
  version := field32 bs 4
  fp := (List.range 12).map fun i => field32 bs (8 + 4 * i)
  nBound := field32 bs 56
  nMla := field32 bs 60
  cached := field32 bs 64
  nseq := field32 bs 68
  kper := field64 bs 72
  kvpp := field64 bs 80
  ropepp := field64 bs 88

/-- The 32-bit fields after the magic, in order. -/
def Hdr.words (hd : Hdr) : List (BitVec 32) :=
  hd.version :: (hd.fp ++ [hd.nBound, hd.nMla, hd.cached, hd.nseq])

/-- The 64-bit fields at the end. -/
def Hdr.tail (hd : Hdr) : Bytes := put 8 hd.kper.toNat ++ put 8 hd.kvpp.toNat ++ put 8 hd.ropepp.toNat

section HdrRoundTrip

variable {hd : Hdr} (hm : hd.magic.length = 4) (hf : hd.fp.length = 12) (rest : Bytes)

theorem Hdr.bytes_eq : hd.bytes ++ rest = hd.magic ++ (putWords hd.words ++ (hd.tail ++ rest)) := by
  simp only [Hdr.bytes, Hdr.words, Hdr.tail, List.append_assoc]

include hf in
theorem Hdr.words_length : hd.words.length = 17 := by
  rw [Hdr.words, List.length_cons, List.length_append, hf]
  rfl

include hm hf in
theorem Hdr.field32_words {i : Nat} (hi : i < 17) :
    field32 (hd.bytes ++ rest) (4 + 4 * i) = hd.words.getD i 0 := by
  rw [field32, Hdr.bytes_eq, ← List.drop_drop, List.drop_left' hm,
    word_putWords_drop _ _ (by rw [Hdr.words_length hf]; exact hi)]

include hm hf in
theorem Hdr.drop_tail : (hd.bytes ++ rest).drop 72 = hd.tail ++ rest := by
  have hlen : (hd.magic ++ putWords hd.words).length = 72 := by
    rw [List.length_append, putWords_length, Hdr.words_length hf, hm]
  rw [Hdr.bytes_eq, ← List.append_assoc, List.drop_left' hlen]

include hm hf in
theorem Hdr.bytes_length : hd.bytes.length = hdrSize := by
  have htail := congrArg List.length (Hdr.drop_tail hm hf [])
  simp only [List.append_nil, List.length_drop, Hdr.tail, List.length_append, put_length] at htail
  show hd.bytes.length = 96
  omega

include hm hf in
/-- **The header read back is the header written.** -/
theorem Hdr.ofBytes_bytes : Hdr.ofBytes (hd.bytes ++ rest) = hd := by
  have hw : ∀ i < 17, field32 (hd.bytes ++ rest) (4 + 4 * i) = hd.words.getD i 0 := fun i hi =>
    Hdr.field32_words hm hf rest hi
  have hfp : ∀ i < 12, hd.words.getD (i + 1) 0 = hd.fp.getD i 0 := fun i hi => by
    rw [Hdr.words, List.getD_cons_succ, List.getD_append _ _ _ _ (by omega)]
  have hlast : ∀ i, hd.words.getD (13 + i) 0
      = [hd.nBound, hd.nMla, hd.cached, hd.nseq].getD i 0 := fun i => by
    rw [Hdr.words, show 13 + i = 12 + i + 1 by omega, List.getD_cons_succ,
      List.getD_append_right _ _ _ _ (by omega), hf, Nat.add_sub_cancel_left]
  have htail := Hdr.drop_tail hm hf rest
  have hkper : field64 (hd.bytes ++ rest) 72 = hd.kper := by
    rw [field64, htail, Hdr.tail, List.append_assoc, List.append_assoc]
    exact word_put (by decide) _ _
  have hkvpp : field64 (hd.bytes ++ rest) 80 = hd.kvpp := by
    rw [field64, show 80 = 72 + 8 by rfl, ← List.drop_drop, htail, Hdr.tail, List.append_assoc,
      List.append_assoc, drop_put]
    exact word_put (by decide) _ _
  have hropepp : field64 (hd.bytes ++ rest) 88 = hd.ropepp := by
    rw [field64, show 88 = 72 + 8 + 8 by rfl, ← List.drop_drop, ← List.drop_drop, htail, Hdr.tail,
      List.append_assoc, List.append_assoc, drop_put, drop_put]
    exact word_put (by decide) _ _
  have hmagic : (hd.bytes ++ rest).take 4 = hd.magic := by
    rw [Hdr.bytes_eq, List.take_left' hm]
  have hfps : ((List.range 12).map fun i => field32 (hd.bytes ++ rest) (8 + 4 * i)) = hd.fp := by
    apply List.ext_getElem
    · rw [List.length_map, List.length_range, hf]
    · intro i hi hi'
      rw [List.getElem_map, List.getElem_range, show 8 + 4 * i = 4 + 4 * (i + 1) by omega,
        hw (i + 1) (by omega), hfp i (by omega), List.getD_eq_getElem _ _ hi']
  have hver : field32 (hd.bytes ++ rest) 4 = hd.version := hw 0 (by decide)
  have hnb : field32 (hd.bytes ++ rest) 56 = hd.nBound := (hw 13 (by decide)).trans (hlast 0)
  have hnm : field32 (hd.bytes ++ rest) 60 = hd.nMla := (hw 14 (by decide)).trans (hlast 1)
  have hca : field32 (hd.bytes ++ rest) 64 = hd.cached := (hw 15 (by decide)).trans (hlast 2)
  have hns : field32 (hd.bytes ++ rest) 68 = hd.nseq := (hw 16 (by decide)).trans (hlast 3)
  rw [Hdr.ofBytes, hmagic, hver, hfps, hnb, hnm, hca, hns, hkper, hkvpp, hropepp]

end HdrRoundTrip

/-! ## Peek and load -/

/-- A file: its length is an `off_t`. -/
structure File where
  bytes : Bytes
  len_lt : bytes.length < 2 ^ 63

/-- `k3_state_peek`. -/
def k3StatePeek (f : File) : Option Hdr :=
  if f.bytes.length < hdrSize then none
  else
    let hd := Hdr.ofBytes f.bytes
    if hd.magic ≠ stateMagic then none
    else if hd.version ≠ stateVer then none
    else some hd

theorem k3StatePeek_some {f : File} {hd : Hdr} (h : k3StatePeek f = some hd) :
    hd = Hdr.ofBytes f.bytes := by
  unfold k3StatePeek at h
  simp only at h
  split_ifs at h
  exact (Option.some.inj h).symm

/-- A well-formed header at the front of a file is what peek returns. -/
theorem k3StatePeek_bytes {f : File} {hd : Hdr} {rest : Bytes} (hbytes : f.bytes = hd.bytes ++ rest)
    (hm : hd.magic = stateMagic) (hv : hd.version = stateVer) (hf : hd.fp.length = 12) :
    k3StatePeek f = some hd := by
  have hm4 : hd.magic.length = 4 := by rw [hm]; rfl
  have hlen := Hdr.bytes_length hm4 hf
  unfold k3StatePeek
  rw [hbytes, if_neg (by rw [List.length_append, hlen]; omega), Hdr.ofBytes_bytes hm4 hf]
  simp only [hm, hv, ne_eq, not_true_eq_false, if_false]

/-- The buffers `main` hands to a load. -/
inductive Buf
  | seq | ks | kvc | ropec
  deriving DecidableEq, Repr

/-- `len` elements written from element `off` of a buffer on. -/
structure Block where
  buf : Buf
  off : Nat
  len : Nat
  deriving DecidableEq, Repr

/-- The contents of the four buffers, and the blocks written to them. -/
structure Buffers where
  mem : Buf → Nat → BitVec 32
  log : List Block

/-- `fread(dst, 4, n, f)`, which has to deliver everything. -/
def readInto (buf : Buf) (off n : Nat) (b : Buffers) (rest : Bytes) : Option (Buffers × Bytes) := do
  let (xs, rest) ← readWords n rest
  some ({ mem := fun b' => if b' = buf then overwrite (b.mem b') off xs else b.mem b',
          log := b.log ++ [⟨buf, off, n⟩] }, rest)

/-- `for (mi < n_mla)`: `cached` rows of `pp` floats into each slice of `kvCap` rows; `left` slices
remain. -/
def readSlices (buf : Buf) (kvCap cached : Int) (pp : BitVec 64) :
    Nat → Nat → Buffers → Bytes → Option (Buffers × Bytes)
  | 0, _, b, rest => some (b, rest)
  | left + 1, mi, b, rest => do
      let off := mulT (mulT mi (sizeT kvCap)) (sizeT pp.toInt)
      let n := mulT (sizeT cached) (sizeT pp.toInt)
      let (b, rest) ← readInto buf off n b rest
      readSlices buf kvCap cached pp left (mi + 1) b rest

/-- `k3_state_load`: 0 is `some`, with the buffers as it leaves them. -/
def k3StateLoad (f : File) (c : K3Cfg) (hd : Hdr) (b : Buffers) (nBound nMla : Nat) (kvCap : Int) :
    Option Buffers := do
  if k3StateFp c ≠ hd.fp then none
  else if hd.nBound.toInt ≠ nBound ∨ hd.nMla.toInt ≠ nMla then none
  else if hd.cached.toInt > kvCap then none
  else
    let rest := f.bytes.drop hdrSize
    let (b, rest) ← readInto .seq 0 (sizeT hd.nseq.toInt) b rest
    let (b, rest) ← readInto .ks 0 (mulT (sizeT hd.kper.toInt) nBound) b rest
    let (b, rest) ← readSlices .kvc kvCap hd.cached.toInt hd.kvpp nMla 0 b rest
    let (b, _) ← readSlices .ropec kvCap hd.cached.toInt hd.ropepp nMla 0 b rest
    some b

/-! ## Save -/

/-- `for (mi < n_mla)`: the occupied rows of each slice. -/
def packSlices (mem : Nat → BitVec 32) (kvCap cached pp : Nat) (nMla : Nat) : Bytes :=
  (List.range nMla).flatMap fun mi =>
    putWords (slice mem (mulT (mulT mi kvCap) pp) (mulT cached pp))

/-- The header `k3_state_save` writes, with the sizes `main` passes it. -/
def savedHdr (c : K3Cfg) (nseq nBound nMla cached : Nat) : Hdr where
  magic := stateMagic
  version := stateVer
  fp := k3StateFp c
  nBound := BitVec.ofNat 32 nBound
  nMla := BitVec.ofNat 32 nMla
  cached := BitVec.ofNat 32 cached
  nseq := BitVec.ofNat 32 nseq
  kper := BitVec.ofNat 64 c.kper
  kvpp := BitVec.ofNat 64 c.kvpp
  ropepp := BitVec.ofNat 64 c.ropepp

/-- The bytes `k3_state_save` writes. -/
def savedBytes (c : K3Cfg) (b : Buf → Nat → BitVec 32) (nseq nBound nMla kvCap cached : Nat) :
    Bytes :=
  (savedHdr c nseq nBound nMla cached).bytes ++
    (putWords (slice (b .seq) 0 nseq) ++ (putWords (slice (b .ks) 0 (mulT c.kper nBound)) ++
      (packSlices (b .kvc) kvCap cached c.kvpp nMla ++
        packSlices (b .ropec) kvCap cached c.ropepp nMla)))

/-- `k3_state_save`.  A file longer than an `off_t` cannot be written. -/
def k3StateSave (c : K3Cfg) (b : Buf → Nat → BitVec 32) (nseq nBound nMla kvCap cached : Nat) :
    Option File :=
  if h : (savedBytes c b nseq nBound nMla kvCap cached).length < 2 ^ 63 then
    some ⟨savedBytes c b nseq nBound nMla kvCap cached, h⟩
  else none

end LlmEngine.Cli.StateFile
