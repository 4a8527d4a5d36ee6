/-
# LlmEngine.Storage.File — the pread-backed storage backend (`src/storage/file.c`).

`file_read_aligned` widens a request outward to whole 4096-byte pages when a direct descriptor
exists, and reads exactly the request otherwise.  Either way the backend loops over `pread`, whose
chunks are of any positive length.  The model splits the function at that loop:

* `fileReadAligned` is everything computed before it: which bytes of the file go where, or a refusal;
* a `Job` of the streamer is the loop in progress (`Storage.Streamer`);
* `ReadWindow.payload` is the value returned after it, from the number of bytes that came.

How many bytes each `pread` delivers, and when it gives up, is left to whoever drives the job.

A window that was not refused holds its payload and fits the buffer it was sized for
(`fileReadAligned_fits`), and a full return means the payload was covered (`payload_full`).  The function with
its loop, on 64-bit offsets, is `Storage.ReadAligned`, which also shows that the window is the one used here.
-/
import Mathlib.Tactic.Ring
import Mathlib.Tactic.Linarith

namespace LlmEngine.Storage

/-- `ENG_IO_ALIGN`. -/
def engIoAlign : Int := 4096

/-- `align_up(v, a) = (v + a - 1) & ~(a - 1)`; `a` is a power of two at every call. -/
def alignUp (v a : Int) : Int := (v + a - 1) / a * a

/-- A file behind two descriptors: `direct` says that the `O_DIRECT` one was obtained. -/
structure EngStorage where
  byte : Nat → UInt8
  size : Nat
  direct : Bool

/-- What the read loop of one `read_aligned` call covers: `len` bytes of the file from `lo` on,
landing at the start of the buffer, with the payload `pad` bytes in. -/
structure ReadWindow where
  refused : Bool
  lo : Nat
  len : Nat
  pad : Nat
  deriving DecidableEq, Repr

/-- The early returns of `file_read_aligned`: no byte is read and `*payload_off` stays 0. -/
def ReadWindow.refuse : ReadWindow := { refused := true, lo := 0, len := 0, pad := 0 }

/-- `file_read_aligned` up to its read loop. -/
def fileReadAligned (st : EngStorage) (off nbytes bufcap : Int) : ReadWindow :=
  if off < 0 ∨ nbytes < 0 then .refuse
  else if st.direct = false then
    if bufcap < nbytes then .refuse
    else { refused := false, lo := off.toNat, len := nbytes.toNat, pad := 0 }
  else
    let lo := off / engIoAlign * engIoAlign
    let hi := alignUp (off + nbytes) engIoAlign
    if hi - lo > bufcap then .refuse
    else { refused := false, lo := lo.toNat, len := (hi - lo).toNat, pad := (off - lo).toNat }

/-- The value `file_read_aligned` returns once its loop has delivered `got` bytes. -/
def ReadWindow.payload (w : ReadWindow) (nbytes : Int) (got : Nat) : Int :=
  if w.refused then 0
  else if (got : Int) ≥ w.pad + nbytes then nbytes
  else if got > w.pad then (got : Int) - w.pad
  else 0

theorem alignUp_ge (v : Int) : v ≤ alignUp v engIoAlign := by
  unfold alignUp engIoAlign
  omega

/-- A window that was not refused holds its payload and fits the buffer it was sized for. -/
theorem fileReadAligned_fits {st : EngStorage} {off nbytes cap : Int}
    (h : (fileReadAligned st off nbytes cap).refused = false) :
    0 ≤ off ∧ 0 ≤ nbytes ∧
      ((fileReadAligned st off nbytes cap).lo + (fileReadAligned st off nbytes cap).pad : Int) = off ∧
      ((fileReadAligned st off nbytes cap).pad + nbytes : Int) ≤ (fileReadAligned st off nbytes cap).len ∧
      ((fileReadAligned st off nbytes cap).len : Int) ≤ cap := by
  unfold fileReadAligned at *
  by_cases hneg : off < 0 ∨ nbytes < 0
  · rw [if_pos hneg] at h
    simp [ReadWindow.refuse] at h
  · rw [if_neg hneg] at h ⊢
    push Not at hneg
    obtain ⟨hoff, hn⟩ := hneg
    by_cases hd : st.direct = false
    · rw [if_pos hd] at h ⊢
      by_cases hc : cap < nbytes
      · rw [if_pos hc] at h
        simp [ReadWindow.refuse] at h
      · rw [if_neg hc]
        refine ⟨hoff, hn, ?_, ?_, ?_⟩ <;> simp only <;> omega
    · rw [if_neg hd] at h ⊢
      by_cases hc : alignUp (off + nbytes) engIoAlign - off / engIoAlign * engIoAlign > cap
      · simp only [if_pos hc, ReadWindow.refuse] at h
        simp at h
      · simp only [if_neg hc]
        have hhi := alignUp_ge (off + nbytes)
        have hlo : 0 ≤ off / engIoAlign * engIoAlign ∧ off / engIoAlign * engIoAlign ≤ off := by
          unfold engIoAlign
          omega
        refine ⟨hoff, hn, ?_, ?_, ?_⟩ <;> omega

/-- A refusal covers nothing, so it never writes and leaves the payload offset at 0. -/
theorem fileReadAligned_refused {st : EngStorage} {off nbytes cap : Int}
    (h : (fileReadAligned st off nbytes cap).refused = true) :
    fileReadAligned st off nbytes cap = .refuse := by
  unfold fileReadAligned at *
  by_cases hneg : off < 0 ∨ nbytes < 0
  · rw [if_pos hneg]
  · rw [if_neg hneg] at h ⊢
    by_cases hd : st.direct = false
    · rw [if_pos hd] at h ⊢
      by_cases hc : cap < nbytes
      · rw [if_pos hc]
      · rw [if_neg hc] at h
        simp at h
    · rw [if_neg hd] at h ⊢
      by_cases hc : alignUp (off + nbytes) engIoAlign - off / engIoAlign * engIoAlign > cap
      · simp only [if_pos hc]
      · simp only [if_neg hc] at h
        simp at h

/-- **A full return means the payload was covered**: every byte of the request lies among the
`got` bytes delivered, `pad` in, and comes from the file offset it was asked for. -/
theorem payload_full {st : EngStorage} {off nbytes cap : Int} {got : Nat}
    (h : (fileReadAligned st off nbytes cap).payload nbytes got = nbytes) :
    ∀ i < nbytes.toNat, (fileReadAligned st off nbytes cap).pad + i < got ∧
      (fileReadAligned st off nbytes cap).lo + ((fileReadAligned st off nbytes cap).pad + i)
        = off.toNat + i := by
  intro i hi
  cases hr : (fileReadAligned st off nbytes cap).refused with
  | true =>
      simp only [ReadWindow.payload, hr, if_true] at h
      omega
  | false =>
      obtain ⟨hoff, hn, hlo, _, _⟩ := fileReadAligned_fits hr
      simp only [ReadWindow.payload, hr, Bool.false_eq_true, if_false] at h
      refine ⟨?_, by omega⟩
      split at h
      · omega
      · split at h <;> omega

end LlmEngine.Storage
