/-
# LlmEngine.Storage.Streamer — the pinned-prefix block streamer (`src/storage/streamer.c`).

Blocks `0 .. npin-1` are pinned in buffers of their own; the rest pass through a ring of `nslot`
uniform slots carved out of one arena.  One reader thread may load the next block while the caller
computes on the current one.  The two parties share the mutex-protected record `StreamIO`
(`busy`/`done`/`block`/`slot`/`result`), the arena bytes and `slot_pad`; `block_of`, `slot_of` and
`ring` are touched by the caller only.

The model is a machine in the sense of `Lib.Machine`.  A `Choice` is one atomic move of one party:
a critical section, one `pread` delivering a chunk, the end of a read, or the code between two such
points that touches nothing the other party does.  A list of choices is an interleaving, and the
outcome of every individual read is one of the choices.

`State.live` and `State.ret` are history variables: the pointers whose validity `streamer.h` still
promises (a pinned block's for ever, a ring block's until the next `get` of an unpinned block) and
the value the last `get` returned.  No step reads them.

Construction comes first (`engStreamerCreate`): the sizing loop settles how many blocks are pinned and how
many slots there are.  The rounds of that loop are `Storage.StreamerRounds`, what they owe the caller
`Storage.StreamerSound`.
-/
import LlmEngine.Lib.Machine
import LlmEngine.Storage.File

namespace LlmEngine.Storage.Streamer

open LlmEngine.Storage

/-! ## Construction -/

structure EngBlock where
  off : Int
  nbytes : Int
  deriving DecidableEq, Repr, Inhabited

/-- The fields of `EngStreamerCfg` that decide the geometry; `name`, `hugepages` and `quiet` only
reach diagnostics and the allocator's page size. -/
structure EngStreamerCfg where
  blocks : List EngBlock
  budgetBytes : Int
  extraBytes : Int
  ringWant : Int
  async : Bool

/-- The part of `struct EngStreamer` fixed at construction; `hasIo` is `s->io != NULL`. -/
structure EngStreamer where
  store : EngStorage
  blk : List EngBlock
  npin : Nat
  nslot : Nat
  slotBytes : Int
  extraBytes : Int
  hasIo : Bool

namespace EngStreamer

def nblocks (s : EngStreamer) : Nat := s.blk.length

def block (s : EngStreamer) (b : Nat) : EngBlock := s.blk.getD b default

/-- Byte `i` of block `b` as the container stores it. -/
def blockByte (s : EngStreamer) (b i : Nat) : UInt8 := s.store.byte ((s.block b).off.toNat + i)

end EngStreamer

/-- The largest block that still streams once the first `npin` are pinned. -/
def largestStreaming (blk : List EngBlock) (npin : Nat) : Int :=
  (blk.drop npin).foldl (fun big b => if b.nbytes > big then b.nbytes else big) 0

/-- The ring slot one sizing pass asks for. -/
def ringSlotFor (blk : List EngBlock) (extra : Int) (npin : Nat) : Int :=
  let big := largestStreaming blk npin
  -- everything pinned: the ring is still sized for the last block
  let big := if big = 0 then (blk.getD (blk.length - 1) default).nbytes else big
  alignUp (alignUp big engIoAlign + engIoAlign + extra) engIoAlign

/-- `while (ring > 1 && ring * rs > budget) ring--`. -/
def dropSlots (rs budget : Int) : Nat → Nat
  | 0 => 0
  | 1 => 1
  | n + 2 => if ((n + 2 : Nat) : Int) * rs > budget then dropSlots rs budget (n + 1) else n + 2

/-- Bytes one pinned block costs. -/
def pinNeed (extra : Int) (b : EngBlock) : Int := alignUp b.nbytes engIoAlign + engIoAlign + extra

/-- The greedy prefix: how many leading blocks fit beside the `sp` bytes already spent. -/
def pinPrefix (budget extra : Int) : List EngBlock → Int → Nat × Int
  | [], sp => (0, sp)
  | b :: bs, sp =>
      if sp + pinNeed extra b > budget then (0, sp)
      else
        let r := pinPrefix budget extra bs (sp + pinNeed extra b)
        (r.1 + 1, r.2)

structure Sizing where
  ringSlot : Int
  npin : Nat
  ring : Nat
  spent : Int
  deriving DecidableEq, Repr

/-- The sizing loop: at most `passes` rounds, stopping early at a fixed point. -/
def sizingLoop (blk : List EngBlock) (budget extra : Int) (ringWant : Nat) : Nat → Sizing → Sizing
  | 0, z => z
  | passes + 1, z =>
      let rs := ringSlotFor blk extra z.npin
      let ring := dropSlots rs budget ringWant
      let p := pinPrefix budget extra blk ((ring : Int) * rs)
      if rs = z.ringSlot ∧ p.1 = z.npin then { z with ring := ring, spent := p.2 }
      else sizingLoop blk budget extra ringWant passes
        { ringSlot := rs, npin := p.1, ring := ring, spent := p.2 }

/-- `eng_streamer_create`, allocations succeeding.  `threadOk` is the outcome of `pthread_create`;
a reader that cannot be started leaves the streamer synchronous. -/
def engStreamerCreate (store : EngStorage) (cfg : EngStreamerCfg) (threadOk : Bool) :
    Option EngStreamer :=
  if cfg.blocks = [] then none
  else
    let extra := if cfg.extraBytes > 0 then cfg.extraBytes else 0
    let ringWant := if cfg.ringWant > 0 then cfg.ringWant.toNat else 2
    let z := sizingLoop cfg.blocks cfg.budgetBytes extra ringWant 4
      { ringSlot := 0, npin := 0, ring := ringWant, spent := 0 }
    if z.ringSlot ≤ 0 ∨ (z.ring : Int) * z.ringSlot > cfg.budgetBytes then none
    else some
      { store := store
        blk := cfg.blocks
        npin := z.npin
        nslot := z.ring
        slotBytes := z.ringSlot
        extraBytes := extra
        -- the two-slot rule
        hasIo := cfg.async && decide (z.ring ≥ 2) && threadOk }

/-! ## Runtime state -/

/-- The buffers a block can be read into: a pinned block's own allocation, or the arena. -/
inductive Buf where
  | pin (b : Nat)
  | arena
  deriving DecidableEq, Repr

/-- What `eng_streamer_get` hands out: `base` and the scratch area `*extra`. -/
structure BlockPtr where
  buf : Buf
  base : Nat
  extra : Int
  deriving DecidableEq, Repr

/-- One `load_block` call inside its read loop. -/
structure Job where
  block : Nat
  dst : Buf
  start : Nat
  win : ReadWindow
  got : Nat
  deriving DecidableEq, Repr

/-- `StreamIO` without the thread handle, the mutex and `stop`, which only `destroy` sets. -/
structure StreamIO where
  busy : Bool
  done : Bool
  block : Nat
  slot : Nat
  /-- `result == 0` -/
  result : Bool
  deriving DecidableEq, Repr

/-- Where the caller stands inside its current call. -/
inductive CallerPc where
  | idle
  /-- `get` of a pinned block, first touch: inside `load_block` -/
  | pinLoad (b : Nat) (job : Job)
  /-- `io_collect`, before the mutex is taken -/
  | collect (b : Nat)
  /-- `io_collect`, inside `pthread_cond_wait` -/
  | waiting (b : Nat)
  /-- `get` after `io_collect` returned 0 -/
  | scan (b : Nat)
  /-- `get`, synchronous miss: inside `load_block` -/
  | ringLoad (b slot : Nat) (job : Job)
  /-- `prefetch`, before the mutex is taken -/
  | request (b : Nat)
  deriving DecidableEq, Repr

/-- Where the reader thread stands inside one round of `io_main`. -/
inductive ReaderPc where
  | idle
  | reading (slot : Nat) (job : Job)
  /-- `load_block` returned (`rc == 0`), result not yet posted -/
  | posting (rc : Bool)
  deriving DecidableEq, Repr

structure State where
  mem : Buf → Nat → UInt8
  blockOf : Nat → Option Nat
  slotOf : Nat → Option Nat
  slotPad : Nat → Nat
  pinPad : Nat → Nat
  ring : Nat
  io : StreamIO
  hits : Nat
  misses : Nat
  bytesRead : Nat
  caller : CallerPc
  reader : ReaderPc
  live : List (Nat × BlockPtr)
  ret : Option (Int × Option BlockPtr)

/-- The state `eng_streamer_create` leaves behind; the buffers hold whatever the allocator gave. -/
def State.init (mem : Buf → Nat → UInt8) : State :=
  { mem := mem
    blockOf := fun _ => none
    slotOf := fun _ => none
    slotPad := fun _ => 0
    pinPad := fun _ => 0
    ring := 0
    io := { busy := false, done := false, block := 0, slot := 0, result := true }
    hits := 0
    misses := 0
    bytesRead := 0
    caller := .idle
    reader := .idle
    live := []
    ret := none }

inductive Call where
  | get (b : Int)
  | prefetch (b : Int)
  deriving DecidableEq, Repr

/-- One atomic move. -/
inductive Choice where
  /-- the caller, between calls, enters `c` -/
  | call (c : Call)
  /-- the caller takes the next step of its call -/
  | caller
  /-- a `pread` of the caller's read delivers `r` bytes -/
  | callerPread (r : Nat)
  /-- the reader takes its next step -/
  | reader
  /-- a `pread` of the reader's read delivers `r` bytes -/
  | readerPread (r : Nat)
  deriving DecidableEq, Repr

/-! ## `load_block` -/

namespace Job

/-- Enter `load_block`: the window is fixed before the first `pread`. -/
def enter (s : EngStreamer) (b : Nat) (dst : Buf) (start : Nat) (cap : Int) : Job :=
  { block := b
    dst := dst
    start := start
    win := fileReadAligned s.store (s.block b).off (s.block b).nbytes cap
    got := 0 }

/-- `load_block` returns 0: the read delivered the whole block. -/
def ok (s : EngStreamer) (j : Job) : Bool :=
  decide (j.win.payload (s.block j.block).nbytes j.got = (s.block j.block).nbytes)

/-- The bytes one `pread` of `r` bytes leaves in memory. -/
def store (s : EngStreamer) (j : Job) (r : Nat) (mem : Buf → Nat → UInt8) : Buf → Nat → UInt8 :=
  fun buf o =>
    if buf = j.dst ∧ j.start + j.got ≤ o ∧ o < j.start + j.got + r then
      s.store.byte (j.win.lo + (o - j.start))
    else mem buf o

/-- A `pread` delivers a positive chunk of what is left of the window, and never past the end of
the file. -/
def canRead (s : EngStreamer) (j : Job) (r : Nat) : Bool :=
  decide (0 < r ∧ j.got + r ≤ j.win.len ∧ j.win.lo + j.got + r ≤ s.store.size)

end Job

/-! ## The caller -/

namespace State

/-- `get` returns `p` for block `b`. -/
def returns (st : State) (b : Nat) (p : Option BlockPtr) : State :=
  { st with
    caller := .idle
    ret := some (b, p)
    live := match p with
      | some q => (b, q) :: st.live
      | none => st.live }

def pinnedPtr (s : EngStreamer) (st : State) (b : Nat) : BlockPtr :=
  { buf := .pin b
    base := st.pinPad b
    extra := st.pinPad b + alignUp (s.block b).nbytes engIoAlign }

/-- Offset of ring slot `slot` in the arena. -/
def slotBase (s : EngStreamer) (slot : Nat) : Nat := slot * s.slotBytes.toNat

def slotPtr (s : EngStreamer) (st : State) (b slot : Nat) : BlockPtr :=
  { buf := .arena
    base := slotBase s slot + st.slotPad slot
    extra := slotBase s slot + st.slotPad slot + alignUp (s.block b).nbytes engIoAlign }

/-- The first ring slot whose `block_of` entry is `b`. -/
def findSlot (s : EngStreamer) (st : State) (b : Nat) : Option Nat :=
  (List.range s.nslot).find? fun i => decide (st.blockOf i = some b)

/-- Take the slot under the ring cursor: advance the cursor, forget the block that was there. -/
def takeSlot (s : EngStreamer) (st : State) : State :=
  { st with
    ring := (st.ring + 1) % s.nslot
    slotOf := match st.blockOf st.ring with
      | some old => Function.update st.slotOf old none
      | none => st.slotOf
    blockOf := Function.update st.blockOf st.ring none }

/-- `block_of[slot] = b; slot_of[b] = slot; misses++`. -/
def publish (st : State) (b slot : Nat) : State :=
  { st with
    blockOf := Function.update st.blockOf slot (some b)
    slotOf := Function.update st.slotOf b (some slot)
    misses := st.misses + 1 }

end State

/-- Entering `eng_streamer_get`. -/
def enterGet (s : EngStreamer) (st : State) (b : Int) : State :=
  if b < 0 ∨ b ≥ s.nblocks then { st with ret := some (b, none) }
  else if b.toNat < s.npin then
    match st.slotOf b.toNat with
    | none =>
        let cap := pinNeed s.extraBytes (s.block b.toNat)
        { st with caller := .pinLoad b.toNat (Job.enter s b.toNat (.pin b.toNat) 0 cap) }
    | some _ =>
        { st with hits := st.hits + 1 }.returns b.toNat (some (st.pinnedPtr s b.toNat))
  else
    { st with
      caller := .collect b.toNat
      live := st.live.filter fun e => decide (e.1 < s.npin) }

/-- Entering `eng_streamer_prefetch`. -/
def enterPrefetch (s : EngStreamer) (st : State) (b : Int) : State :=
  if b < 0 ∨ b ≥ s.nblocks then st
  else if b.toNat < s.npin then st
  else if s.hasIo = false then st
  else
    match st.findSlot s b.toNat with
    | some _ => st
    | none => { st with caller := .request b.toNat }

/-- The tail of `io_collect` once `done` is set, and of the `get` it was called from. -/
def collectDone (s : EngStreamer) (st : State) (b : Nat) : State :=
  if st.io.result then
    let st' := { (st.publish b st.io.slot) with io := { st.io with done := false } }
    st'.returns b (some (st'.slotPtr s b st.io.slot))
  else { st with io := { st.io with done := false } }.returns b none

/-- `get` after `io_collect` found nothing: a resident block is a hit, anything else a
synchronous read into the slot under the cursor. -/
def scanRing (s : EngStreamer) (st : State) (b : Nat) : State :=
  match st.findSlot s b with
  | some slot => { st with hits := st.hits + 1 }.returns b (some (st.slotPtr s b slot))
  | none =>
      { st.takeSlot s with
        caller := .ringLoad b st.ring
          (Job.enter s b .arena (State.slotBase s st.ring) s.slotBytes) }

/-- The critical section of `eng_streamer_prefetch`. -/
def issueRequest (s : EngStreamer) (st : State) (b : Nat) : State :=
  if st.io.busy ∨ st.io.done ∨ (st.slotOf b).isSome then { st with caller := .idle }
  else
    { st.takeSlot s with
      io := { st.io with block := b, slot := st.ring, done := false, busy := true }
      caller := .idle }

/-- The caller's next step inside its call. -/
def callerStep (s : EngStreamer) (st : State) : Option State :=
  match st.caller with
  | .idle => none
  | .pinLoad b job =>
      if job.ok s then
        let st' := { st with
          pinPad := Function.update st.pinPad b job.win.pad
          slotOf := Function.update st.slotOf b (some b)
          misses := st.misses + 1
          bytesRead := st.bytesRead + (s.block b).nbytes.toNat }
        some (st'.returns b (some (st'.pinnedPtr s b)))
      else some (st.returns b none)
  | .collect b =>
      if s.hasIo = true ∧ (st.io.busy ∨ st.io.done) ∧ st.io.block = b then
        if st.io.done then some (collectDone s st b) else some { st with caller := .waiting b }
      else some { st with caller := .scan b }
  | .waiting b => if st.io.done then some (collectDone s st b) else none
  | .scan b => some (scanRing s st b)
  | .ringLoad b slot job =>
      if job.ok s then
        let st' := { (st.publish b slot) with
          slotPad := Function.update st.slotPad slot job.win.pad
          bytesRead := st.bytesRead + (s.block b).nbytes.toNat }
        some (st'.returns b (some (st'.slotPtr s b slot)))
      else some (st.returns b none)
  | .request b => some (issueRequest s st b)

def callerPread (s : EngStreamer) (st : State) (r : Nat) : Option State :=
  match st.caller with
  | .pinLoad b job =>
      if job.canRead s r then
        some { st with
          mem := job.store s r st.mem
          caller := .pinLoad b { job with got := job.got + r } }
      else none
  | .ringLoad b slot job =>
      if job.canRead s r then
        some { st with
          mem := job.store s r st.mem
          caller := .ringLoad b slot { job with got := job.got + r } }
      else none
  | _ => none

/-! ## The reader thread -/

/-- `io_main`, one step at a time. -/
def readerStep (s : EngStreamer) (st : State) : Option State :=
  match st.reader with
  | .idle =>
      if s.hasIo = true ∧ st.io.busy then
        some { st with
          reader := .reading st.io.slot
            (Job.enter s st.io.block .arena (State.slotBase s st.io.slot) s.slotBytes) }
      else none
  | .reading slot job =>
      if job.ok s then
        some { st with
          slotPad := Function.update st.slotPad slot job.win.pad
          bytesRead := st.bytesRead + (s.block job.block).nbytes.toNat
          reader := .posting true }
      else some { st with reader := .posting false }
  | .posting rc =>
      some { st with
        io := { st.io with result := rc, done := true, busy := false }
        reader := .idle }

def readerPread (s : EngStreamer) (st : State) (r : Nat) : Option State :=
  match st.reader with
  | .reading slot job =>
      if job.canRead s r then
        some { st with
          mem := job.store s r st.mem
          reader := .reading slot { job with got := job.got + r } }
      else none
  | _ => none

/-- The whole machine: any call may be entered between calls, either party may move. -/
def step (s : EngStreamer) (st : State) : Choice → Option State
  | .call c =>
      if st.caller = .idle then
        match c with
        | .get b => some (enterGet s st b)
        | .prefetch b => some (enterPrefetch s st b)
      else none
  | .caller => callerStep s st
  | .callerPread r => callerPread s st r
  | .reader => readerStep s st
  | .readerPread r => readerPread s st r

end LlmEngine.Storage.Streamer
