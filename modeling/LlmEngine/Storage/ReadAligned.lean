/-
# LlmEngine.Storage.ReadAligned — direct and buffered reads deliver the same payload.

`file_read_aligned` (`src/storage/file.c`) and `k3_st_read_aligned` (`src/io/k3_st.c`) whole, their
read loops included.  Through the `O_DIRECT` descriptor the window is widened to whole pages, its
tail may lie past the end of the file, and the payload count is recomputed from the raw count and the
pad; without one the request is read as it is.  Either way, and however the kernel chunks the reads,
a caller finds the file's bytes at `payload_off` and is told how many there are.

* `Asked` are the requests in question: not negative, inside 63 bits, with a buffer that has room for two pages
  more.
* `Asked.window`: the widened window starts on the page of the request, covers it, and ends within the buffer.
* `Delivers` says what arrives, and the direct and the buffered path both meet it (`direct_delivers`,
  `buffered_delivers`); the theorem about both readers is their conjunction.
* A read that returns all it was asked for has brought it, wherever the request lies (`k3StReadAligned_full`).

The offsets are `int64_t`.  Rounding up `off + nbytes` may pass `2 ^ 63`; the length of the window is
a difference and comes out right all the same, because the sums wrap at a multiple of the page.
-/
import LlmEngine.Lib.ReadLoop
import LlmEngine.Storage.File

namespace LlmEngine.Storage

open LlmEngine.Lib

/-- What a `read_aligned` call leaves behind: its return value, `*payload_off`, and the buffer. -/
structure ReadResult where
  count : Int
  payloadOff : Int
  buf : Int → UInt8

/-- `pread_all`, and the buffered loop of `k3_st_read_aligned`. -/
def preadAll (f : FileBytes) (k : Kernel f.size) (nbytes off : Int) (dst : Int → UInt8) :
    Int × (Int → UInt8) :=
  readLoop f k off nbytes 0 0 dst

/-- `off & ~(ENG_IO_ALIGN - 1)`. -/
def windowLo (off : Int) : Int := off / engIoAlign * engIoAlign

/-- `hi - lo`, with `hi = (off + nbytes + ENG_IO_ALIGN - 1) & ~(ENG_IO_ALIGN - 1)`. -/
def windowLen (off nbytes : Int) : Int :=
  wrap64 (wrap64 (off + nbytes + engIoAlign - 1) / engIoAlign * engIoAlign - windowLo off)

/-- The direct path, the same in both functions: `ENG_IO_ALIGN` and `K3_ST_ALIGN` are 4096. -/
def directRead (f : FileBytes) (k : Kernel f.size) (off nbytes bufcap payloadOff : Int)
    (buf : Int → UInt8) : ReadResult :=
  let lo := windowLo off
  let len := windowLen off nbytes
  let pad := off - lo
  if len > bufcap then { count := 0, payloadOff := payloadOff, buf := buf }
  else
    let r := readLoop f k lo len 0 0 buf
    { count := if r.1 ≥ pad + nbytes then nbytes else if r.1 > pad then r.1 - pad else 0
      payloadOff := pad
      buf := r.2 }

/-- `FileCtx`: `dfd < 0` when no direct descriptor was obtained. -/
structure FileCtx where
  file : FileBytes
  dfd : Int

/-- `file_read_aligned`; `k` and `kd` are how the kernel serves the two descriptors. -/
def FileCtx.readAligned (c : FileCtx) (k kd : Kernel c.file.size) (off nbytes bufcap payloadOff : Int)
    (buf : Int → UInt8) : ReadResult :=
  if off < 0 ∨ nbytes < 0 then { count := 0, payloadOff := payloadOff, buf := buf }
  else if c.dfd < 0 then
    if bufcap < nbytes then { count := 0, payloadOff := 0, buf := buf }
    else
      let r := preadAll c.file k nbytes off buf
      { count := r.1, payloadOff := 0, buf := r.2 }
  else directRead c.file kd off nbytes bufcap payloadOff buf

/-- `K3St`, the part reads use: `dfd` is `NULL` when direct I/O is off. -/
structure K3St where
  nshard : Int
  shard : Nat → FileBytes
  dfd : Option (Nat → Int)

/-- `k3_st_read_aligned`. -/
def k3StReadAligned (s : K3St) (shard : Int) (k kd : Kernel (s.shard shard.toNat).size)
    (off nbytes bufcap payloadOff : Int) (buf : Int → UInt8) : ReadResult :=
  if shard < 0 ∨ shard ≥ s.nshard then { count := 0, payloadOff := payloadOff, buf := buf }
  else
    let dfd := match s.dfd with
      | some d => d shard.toNat
      | none => -1
    if dfd < 0 then
      if bufcap < nbytes then { count := 0, payloadOff := 0, buf := buf }
      else
        let r := preadAll (s.shard shard.toNat) k nbytes off buf
        { count := r.1, payloadOff := 0, buf := r.2 }
    else directRead (s.shard shard.toNat) kd off nbytes bufcap payloadOff buf

/-! ## The window -/

/-- What every call here is promised: a request of `int64_t` values, and a buffer with room for the
request and two pages. -/
structure Asked (off nbytes bufcap : Int) : Prop where
  off_nonneg : 0 ≤ off
  off_lt : off < 2 ^ 63
  nbytes_nonneg : 0 ≤ nbytes
  room : nbytes + 2 * engIoAlign ≤ bufcap
  cap_lt : bufcap < 2 ^ 63

/-- **The widened window**, wrapping included: it starts on the page of the request, covers it, and
fits the buffer. -/
theorem Asked.window {off nbytes bufcap : Int} (h : Asked off nbytes bufcap) :
    windowLen off nbytes = alignUp (off + nbytes) engIoAlign - windowLo off ∧ 0 ≤ windowLo off ∧
      windowLo off ≤ off ∧ off - windowLo off + nbytes ≤ windowLen off nbytes ∧
      windowLen off nbytes ≤ bufcap := by
  obtain ⟨hoff, hofflt, hn, hroom, hcap⟩ := h
  have hlen : windowLen off nbytes = alignUp (off + nbytes) engIoAlign - windowLo off := by
    unfold windowLen windowLo alignUp engIoAlign at *
    by_cases hbig : off + nbytes + 4096 - 1 < 2 ^ 63
    · rw [wrap64_of_range (i := off + nbytes + 4096 - 1) (by omega) (by omega)]
      exact wrap64_of_range (by omega) (by omega)
    · -- the sum has wrapped once; the difference wraps back
      rw [wrap64_above (i := off + nbytes + 4096 - 1) (by omega) (by omega)]
      have hback : (off + nbytes + 4096 - 1 - 2 ^ 64) / 4096 * 4096 - off / 4096 * 4096 =
          ((off + nbytes + 4096 - 1) / 4096 * 4096 - off / 4096 * 4096) - 2 ^ 64 := by omega
      rw [hback, wrap64_turn]
      exact wrap64_of_range (by omega) (by omega)
  rw [hlen]
  unfold windowLo alignUp engIoAlign at *
  omega

/-! ## The payload -/

/-- The call delivered: it returns how much of the request lies inside the file, these bytes of the
file are at `payload_off`, and nothing outside the buffer was written. -/
structure Delivers (f : FileBytes) (off nbytes bufcap : Int) (buf : Int → UInt8) (r : ReadResult) :
    Prop where
  count : r.count = min nbytes (max 0 (f.size - off))
  bytes : ∀ i, 0 ≤ i → i < r.count → r.buf (r.payloadOff + i) = f.byte (off + i).toNat
  inside : 0 ≤ r.payloadOff ∧ r.payloadOff + r.count ≤ bufcap
  outside : ∀ p, p < 0 ∨ bufcap ≤ p → r.buf p = buf p

section Delivers

variable {off nbytes bufcap : Int} (f : FileBytes) (k : Kernel f.size)

theorem buffered_delivers (h : Asked off nbytes bufcap) (buf : Int → UInt8) :
    Delivers f off nbytes bufcap buf
      { count := (preadAll f k nbytes off buf).1, payloadOff := 0, buf := (preadAll f k nbytes off buf).2 } := by
  obtain ⟨hoff, hofflt, hn, hroom, hcap⟩ := h
  have hreach : f.reach off nbytes = min nbytes (max 0 (f.size - off)) := rfl
  unfold preadAll
  rw [readLoop_eq f k hoff hofflt 0 0 buf (le_refl 0) (by rw [hreach]; omega)]
  unfold engIoAlign at hroom
  refine ⟨hreach, fun i hlo hhi => ?_, ⟨le_refl 0, ?_⟩, fun p hp => ?_⟩
  · simp only at hhi ⊢
    rw [zero_add, if_pos ⟨hlo, hhi⟩]
  · simp only [hreach]
    omega
  · simp only
    rw [if_neg (by omega)]

/-- The direct read: what lies before the payload is the pad, what lies after it is dropped by the
count. -/
theorem direct_delivers (h : Asked off nbytes bufcap) (payloadOff : Int) (buf : Int → UInt8) :
    Delivers f off nbytes bufcap buf (directRead f k off nbytes bufcap payloadOff buf) := by
  obtain ⟨-, hlo, hle, hcover, hfits⟩ := h.window
  obtain ⟨hoff, hofflt, hn, hroom, hcap⟩ := h
  have hreach : f.reach (windowLo off) (windowLen off nbytes) =
      min (windowLen off nbytes) (max 0 (f.size - windowLo off)) := rfl
  unfold directRead
  simp only
  rw [if_neg (by omega), readLoop_eq f k hlo (by omega) 0 0 buf (le_refl 0) (by rw [hreach]; omega)]
  have hcount : (if f.reach (windowLo off) (windowLen off nbytes) ≥ off - windowLo off + nbytes then nbytes
      else if f.reach (windowLo off) (windowLen off nbytes) > off - windowLo off then
        f.reach (windowLo off) (windowLen off nbytes) - (off - windowLo off)
      else 0) = min nbytes (max 0 (f.size - off)) := by
    rw [hreach]
    split_ifs <;> omega
  refine ⟨hcount, fun i hi hlt => ?_, ⟨?_, ?_⟩, fun p hp => ?_⟩
  · simp only [hcount] at hlt
    simp only
    rw [if_pos (by omega)]
    congr 2
    omega
  · simp only
    omega
  · simp only [hcount]
    omega
  · simp only
    rw [if_neg (by omega)]

end Delivers

theorem FileCtx.readAligned_delivers (c : FileCtx) (k kd : Kernel c.file.size) {off nbytes bufcap : Int}
    (h : Asked off nbytes bufcap) (payloadOff : Int) (buf : Int → UInt8) :
    Delivers c.file off nbytes bufcap buf (c.readAligned k kd off nbytes bufcap payloadOff buf) := by
  have hoff := h.off_nonneg
  have hn := h.nbytes_nonneg
  have hroom := h.room
  unfold engIoAlign at hroom
  unfold FileCtx.readAligned
  rw [if_neg (by omega)]
  split_ifs
  · omega
  · exact buffered_delivers c.file k h buf
  · exact direct_delivers c.file kd h payloadOff buf

theorem k3StReadAligned_delivers (s : K3St) {shard : Int} (hshard : 0 ≤ shard ∧ shard < s.nshard)
    (k kd : Kernel (s.shard shard.toNat).size) {off nbytes bufcap : Int} (h : Asked off nbytes bufcap)
    (payloadOff : Int) (buf : Int → UInt8) :
    Delivers (s.shard shard.toNat) off nbytes bufcap buf
      (k3StReadAligned s shard k kd off nbytes bufcap payloadOff buf) := by
  have hroom := h.room
  unfold engIoAlign at hroom
  unfold k3StReadAligned
  rw [if_neg (by omega)]
  simp only
  split_ifs
  · omega
  · exact buffered_delivers _ k h buf
  · exact direct_delivers _ kd h payloadOff buf

/-! ## What is reported whole has arrived -/

section Full

variable {off nbytes bufcap payloadOff : Int}

theorem directRead_full (f : FileBytes) (k : Kernel f.size) (hoff : 0 ≤ off) (hlt : off < 2 ^ 63)
    (buf : Int → UInt8) (hfull : nbytes ≤ (directRead f k off nbytes bufcap payloadOff buf).count) :
    SameBytes f.mem off (directRead f k off nbytes bufcap payloadOff buf).buf
      (directRead f k off nbytes bufcap payloadOff buf).payloadOff nbytes := by
  by_cases hn : nbytes ≤ 0
  · exact fun j hj hjn => absurd hjn (by omega)
  · unfold directRead at hfull ⊢
    have hlo : 0 ≤ windowLo off ∧ windowLo off ≤ off := by
      unfold windowLo engIoAlign
      omega
    simp only at hfull ⊢
    by_cases hcap : windowLen off nbytes > bufcap
    · rw [if_pos hcap] at hfull
      exact absurd hfull hn
    · rw [if_neg hcap] at hfull ⊢
      simp only at hfull ⊢
      have hread : off - windowLo off + nbytes ≤
          (readLoop f k (windowLo off) (windowLen off nbytes) 0 0 buf).1 := by
        split_ifs at hfull <;> omega
      have hpart : SameBytes f.mem (windowLo off + (off - windowLo off))
          (readLoop f k (windowLo off) (windowLen off nbytes) 0 0 buf).2 (0 + (off - windowLo off)) nbytes :=
        (readLoop_covers f k hlo.1 (by omega) buf hread).part (by omega) (le_refl _)
      rwa [add_sub_cancel, zero_add] at hpart

/-- **A read that returns all it was asked for has brought it**, by either descriptor and whatever the
room. -/
theorem k3StReadAligned_full (s : K3St) {shard : Int} (k kd : Kernel (s.shard shard.toNat).size)
    (hoff : 0 ≤ off) (hlt : off < 2 ^ 63) (buf : Int → UInt8)
    (hfull : nbytes ≤ (k3StReadAligned s shard k kd off nbytes bufcap payloadOff buf).count) :
    SameBytes (s.shard shard.toNat).mem off (k3StReadAligned s shard k kd off nbytes bufcap payloadOff buf).buf
      (k3StReadAligned s shard k kd off nbytes bufcap payloadOff buf).payloadOff nbytes := by
  by_cases hn : nbytes ≤ 0
  · exact fun j hj hjn => absurd hjn (by omega)
  · revert hfull
    unfold k3StReadAligned
    simp only
    split_ifs
    · exact fun hfull => absurd hfull hn
    · exact fun hfull => absurd hfull hn
    · exact readLoop_covers _ k hoff hlt buf
    · exact directRead_full _ kd hoff hlt buf

end Full

/-- The storage backend as the streamer sees it. -/
def FileCtx.storage (c : FileCtx) : EngStorage :=
  { byte := c.file.byte, size := c.file.size, direct := decide (0 ≤ c.dfd) }

/-- The window the streamer reasons with is the one that is read, and its payload rule gives the value
that is returned. -/
theorem FileCtx.readAligned_window (c : FileCtx) (k kd : Kernel c.file.size) {off nbytes bufcap : Int}
    (h : Asked off nbytes bufcap) (payloadOff : Int) (buf : Int → UInt8) :
    (fileReadAligned c.storage off nbytes bufcap).refused = false ∧
      (c.readAligned k kd off nbytes bufcap payloadOff buf).payloadOff =
        (fileReadAligned c.storage off nbytes bufcap).pad ∧
      (c.readAligned k kd off nbytes bufcap payloadOff buf).count =
        (fileReadAligned c.storage off nbytes bufcap).payload nbytes
          (c.file.reach (fileReadAligned c.storage off nbytes bufcap).lo
            (fileReadAligned c.storage off nbytes bufcap).len).toNat := by
  have hdel := (c.readAligned_delivers k kd h payloadOff buf).count
  obtain ⟨hlen, hlo, hle, hcover, hfits⟩ := h.window
  obtain ⟨hoff, hofflt, hn, hroom, hcap⟩ := h
  rw [hlen] at hcover hfits
  have hroom' : ¬ bufcap < nbytes := by
    unfold engIoAlign at hroom
    omega
  rw [hdel]
  by_cases hd : c.dfd < 0
  · -- without a direct descriptor the window is the request itself
    have hwin : fileReadAligned c.storage off nbytes bufcap =
        { refused := false, lo := off.toNat, len := nbytes.toNat, pad := 0 } := by
      unfold fileReadAligned FileCtx.storage
      rw [if_neg (by omega), if_pos (by simpa using hd), if_neg hroom']
    rw [hwin]
    refine ⟨rfl, ?_, ?_⟩
    · unfold FileCtx.readAligned
      rw [if_neg (by omega), if_pos hd, if_neg hroom']
      rfl
    · unfold ReadWindow.payload FileBytes.reach
      simp only [Bool.false_eq_true, if_false]
      split_ifs <;> omega
  · -- with one it is widened to pages, and the payload starts at the padding
    have hwin : fileReadAligned c.storage off nbytes bufcap =
        { refused := false, lo := (windowLo off).toNat,
          len := (alignUp (off + nbytes) engIoAlign - windowLo off).toNat,
          pad := (off - windowLo off).toNat } := by
      unfold fileReadAligned FileCtx.storage
      rw [if_neg (by omega), if_neg (by simpa using hd)]
      exact if_neg (by unfold windowLo at hfits; omega)
    rw [hwin]
    refine ⟨rfl, ?_, ?_⟩
    · unfold FileCtx.readAligned directRead
      rw [if_neg (by omega), if_neg hd]
      simp only
      rw [if_neg (by omega)]
      show off - windowLo off = ((off - windowLo off).toNat : Int)
      omega
    · unfold ReadWindow.payload FileBytes.reach
      simp only [Bool.false_eq_true, if_false]
      split_ifs <;> omega

/-- **One payload, two ways to read it.**  For every file, request and buffer with room for two pages
more, however the kernel chunks the reads of either descriptor: the window fits the buffer, and
`file_read_aligned` and `k3_st_read_aligned` deliver the same bytes with a direct descriptor and
without. -/
theorem read_aligned_same_payload {off nbytes bufcap : Int} (h : Asked off nbytes bufcap)
    (payloadOff : Int) (buf : Int → UInt8) :
    windowLen off nbytes ≤ bufcap ∧
      (∀ (c : FileCtx) (k kd : Kernel c.file.size),
        Delivers c.file off nbytes bufcap buf (c.readAligned k kd off nbytes bufcap payloadOff buf)) ∧
      ∀ (s : K3St) (shard : Int), 0 ≤ shard ∧ shard < s.nshard →
        ∀ k kd : Kernel (s.shard shard.toNat).size,
          Delivers (s.shard shard.toNat) off nbytes bufcap buf
            (k3StReadAligned s shard k kd off nbytes bufcap payloadOff buf) :=
  ⟨h.window.2.2.2.2, fun c k kd => c.readAligned_delivers k kd h payloadOff buf,
    fun s _ hshard k kd => k3StReadAligned_delivers s hshard k kd h payloadOff buf⟩

/-- The file of the next example: six bytes, the byte at `i` being `i`. -/
def sixBytes : FileBytes := { byte := UInt8.ofNat, size := 6, bounded := by decide }

/-- Ten bytes from offset 4 of six, one byte at a time: two bytes, at offset 4 of the direct buffer
and at the start of the other. -/
theorem sixBytes_same_payload :
    Asked 4 10 8202 ∧
      (FileCtx.readAligned ⟨sixBytes, 3⟩ (.bytewise 6) (.bytewise 6) 4 10 8202 0 (fun _ => 0)).count = 2 ∧
      (FileCtx.readAligned ⟨sixBytes, -1⟩ (.bytewise 6) (.bytewise 6) 4 10 8202 0 (fun _ => 0)).count = 2 := by
  have hask : Asked 4 10 8202 := ⟨by decide, by decide, by decide, by decide, by decide⟩
  obtain ⟨-, hfile, -⟩ := read_aligned_same_payload hask 0 (fun _ => 0)
  exact ⟨hask, (hfile ⟨sixBytes, 3⟩ (.bytewise 6) (.bytewise 6)).count,
    (hfile ⟨sixBytes, -1⟩ (.bytewise 6) (.bytewise 6)).count⟩

end LlmEngine.Storage
