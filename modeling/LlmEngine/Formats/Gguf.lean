/-
# LlmEngine.Formats.Gguf — the GGUF container (`src/formats/gguf.c`).

A header of counted metadata entries and tensor descriptors, walked with a cursor whose `bad` flag
latches: a read past the end sets it and delivers zero, and so does every read after it.
`parse_header` looks at the flag between the fields and returns 1 when it is set ("the blob was too
small"), -1 on a file that is malformed whatever follows, and 0.  `gguf_open` reads a prefix of the
file, parses it, and on a 1 reads a longer prefix and parses again.

The `Gguf` record is the state of the walk and keeps what an abandoned attempt left in it.  A pointer
into the header blob is its offset there.  A copied name is its bytes; comparing it the way `strcmp`
does stops at the first NUL.

The readers are computations over the walk (`Parse`), which stop with one of the two verdicts:

    rd, rdStr, takeSpan, skipBytes, poolAdd      one read, one string, a step over a payload, a copied name
    readKv, readTensor                           one row of either table
    readCounts, placeData                        what stands before the tables, and what is computed behind them
    parseBody, parseHeader                       the header, `ggufOpen` the file

Lengths are `uint64_t`, and products of them wrap around; what this leaves of the checks is the subject of
`Formats.GgufHostile`.
-/
import LlmEngine.Lib.LittleEndian
import LlmEngine.Lib.Walk
import LlmEngine.Tensor.Dtype

namespace LlmEngine.Formats

open LlmEngine.Lib
open LlmEngine.Lib.LittleEndian
open LlmEngine.Lib.Walk
open LlmEngine.Tensor

/-! ## Data -/

/-- `GgufType`. -/
inductive GgufType
  | uint8 | int8 | uint16 | int16 | uint32 | int32 | float32 | bool | string | array | uint64
  | int64 | float64
  deriving DecidableEq, Repr

/-- The stored number of a type. -/
def GgufType.toNat : GgufType → Nat
  | .uint8 => 0
  | .int8 => 1
  | .uint16 => 2
  | .int16 => 3
  | .uint32 => 4
  | .int32 => 5
  | .float32 => 6
  | .bool => 7
  | .string => 8
  | .array => 9
  | .uint64 => 10
  | .int64 => 11
  | .float64 => 12

/-- The cast of a stored number, with a case for each enumerator. -/
def GgufType.ofU32 (v : BitVec 32) : Option GgufType :=
  match v.toNat with
  | 0 => some .uint8
  | 1 => some .int8
  | 2 => some .uint16
  | 3 => some .int16
  | 4 => some .uint32
  | 5 => some .int32
  | 6 => some .float32
  | 7 => some .bool
  | 8 => some .string
  | 9 => some .array
  | 10 => some .uint64
  | 11 => some .int64
  | 12 => some .float64
  | _ => none

/-- `scalar_size`. -/
def scalarSize : GgufType → Nat
  | .uint8 | .int8 | .bool => 1
  | .uint16 | .int16 => 2
  | .uint32 | .int32 | .float32 => 4
  | .uint64 | .int64 | .float64 => 8
  | .string | .array => 0

/-- `gguf_dtype`; `none` is `ENG_DT_INVALID`. -/
def ggufDtype (t : BitVec 32) : Option EngDType :=
  match t.toNat with
  | 0 => some .f32
  | 1 => some .f16
  | 2 => some .q4_0
  | 3 => some .q4_1
  | 6 => some .q5_0
  | 7 => some .q5_1
  | 8 => some .q8_0
  | 9 => some .q8_1
  | 10 => some .q2_k
  | 11 => some .q3_k
  | 12 => some .q4_k
  | 13 => some .q5_k
  | 14 => some .q6_k
  | 15 => some .q8_k
  | 24 => some .i8
  | 25 => some .i16
  | 26 => some .i32
  | 27 => some .i64
  | 28 => some .f64
  | 30 => some .bf16
  | _ => none

/-- A pointer into the blob and a length. -/
structure Span where
  off : Nat
  len : Nat
  deriving DecidableEq, Repr

/-- `GgufKV`.  `str` is `NULL` (`none`) for everything but a string. -/
structure GgufKV where
  key : Bytes
  type : GgufType
  i : Int
  f : Float
  str : Option Span
  arrType : GgufType
  arrLen : Int
  arrData : Nat

/-- A `calloc`ed entry with its key and its type set. -/
def GgufKV.blank (key : Bytes) (type : GgufType) : GgufKV :=
  { key := key, type := type, i := 0, f := 0, str := none, arrType := .uint8, arrLen := 0,
    arrData := 0 }

/-- `GgufTensor`. -/
structure GgufTensor where
  name : Bytes
  shape : List Int
  ggmlType : BitVec 32
  dtype : EngDType
  relOff : Int
  fileOff : Int
  nbytes : Int
  deriving DecidableEq, Repr

/-- `Gguf`.  `kv` and `t` are the entries filled so far. -/
structure Gguf where
  version : BitVec 32
  nTensors : Int
  nKv : Int
  blob : Bytes
  strcap : Int
  strused : Int
  kv : List GgufKV
  t : List GgufTensor
  alignment : Int
  dataStart : Int
  dataBytes : Int
  fileSize : Int

/-- `memset(g, 0, sizeof *g)`, then the file's size. -/
def Gguf.zero (fileSize : Int) : Gguf :=
  { version := 0, nTensors := 0, nKv := 0, blob := [], strcap := 0, strused := 0, kv := [], t := [],
    alignment := 0, dataStart := 0, dataBytes := 0, fileSize := fileSize }

/-- `strcmp(a, b) == 0` for a copied name `a` and a literal `b` that holds no NUL. -/
def strEq (a b : Bytes) : Bool := a.takeWhile (· ≠ 0) == b

/-! ## The cursor -/

/-- `Cur`: where it stands in the blob, and the latch. -/
structure Cur where
  pos : Nat
  bad : Bool
  deriving DecidableEq, Repr

/-- The record being filled and the cursor. -/
structure Walk where
  g : Gguf
  c : Cur

/-- The two ways a walk is given up: `return 1` and `return -1`. -/
inductive Stop
  | short | malformed
  deriving DecidableEq, Repr

/-- The body of `parse_header`: it ends with a value or is given up, and leaves the record. -/
abbrev Parse := EStateM Stop Walk

/-- `c->bad = 1`. -/
def Walk.latch (s : Walk) : Walk := { s with c := { s.c with bad := true } }

/-- `c->p += n`. -/
def Walk.advance (s : Walk) (n : Nat) : Walk := { s with c := { s.c with pos := s.c.pos + n } }

/-- `n` bytes are there to be read. -/
def Walk.Has (s : Walk) (n : Nat) : Prop := s.c.bad = false ∧ s.c.pos + n ≤ s.g.blob.length

instance (s : Walk) (n : Nat) : Decidable (s.Has n) :=
  inferInstanceAs (Decidable (s.c.bad = false ∧ s.c.pos + n ≤ s.g.blob.length))

/-- `rd`. -/
def rd (n : Nat) : Parse (BitVec 64) := fun s =>
  if s.Has n then .ok (word 64 n (s.g.blob.drop s.c.pos)) (s.advance n) else .ok 0 s.latch

def rdU8 : Parse (BitVec 8) := do return (← rd 1).setWidth 8

def rdU16 : Parse (BitVec 16) := do return (← rd 2).setWidth 16

def rdU32 : Parse (BitVec 32) := do return (← rd 4).setWidth 32

def rdU64 : Parse (BitVec 64) := rd 8

/-- The next `n` bytes, left where they are.  After a failure the result is a `NULL` that nothing
looks at. -/
def takeSpan (n : Nat) : Parse Span := fun s =>
  if s.Has n then .ok ⟨s.c.pos, n⟩ (s.advance n) else .ok ⟨0, 0⟩ s.latch

/-- `rd_str`. -/
def rdStr : Parse Span := do
  let n ← rdU64
  takeSpan n.toNat

/-- `if (c.bad) return 1;`. -/
def checkBad : Parse Unit := fun s => if s.c.bad then .error .short s else .ok () s

/-- `if (p) return e;` for a condition on values already read. -/
def refuseIf (p : Prop) [Decidable p] (e : Stop) : Parse Unit := fun s =>
  if p then .error e s else .ok () s

/-- Assignments to fields of the record. -/
def onG (f : Gguf → Gguf) : Parse Unit := fun s => .ok () { s with g := f s.g }

/-- A look at the record. -/
def askG {α : Type} (f : Gguf → α) : Parse α := fun s => .ok (f s.g) s

/-- Where the cursor stands. -/
def getPos : Parse Nat := fun s => .ok s.c.pos s

/-- `c.p += need` behind its bound. -/
def skipBytes (need : Nat) : Parse Unit := fun s =>
  if s.c.pos + need ≤ s.g.blob.length then .ok () (s.advance need) else .error .short s

/-- `pool_add`. -/
def poolAdd (sp : Span) : Parse Bytes := fun s =>
  if s.g.strused + sp.len + 1 > s.g.strcap then .error .malformed s
  else .ok ((s.g.blob.drop sp.off).take sp.len)
    { s with g := { s.g with strused := s.g.strused + sp.len + 1 } }

/-- A name: the string, and its copy in the pool. -/
def readName : Parse Bytes := do
  let sp ← rdStr
  checkBad
  poolAdd sp

/-! ## Metadata -/

/-- The payload of an array of `n` elements is walked over: fixed-width elements in one multiply, in
`uint64_t`; strings one by one.  Nothing else is supported. -/
def skipPayload (ty : GgufType) (n : BitVec 64) : Parse Unit :=
  if scalarSize ty > 0 then skipBytes (BitVec.ofNat 64 (scalarSize ty) * n).toNat
  else if ty = .string then do
    let _ ← times (do let _ ← rdStr; checkBad) n.toInt.toNat
  else throw .malformed

/-- An array value: where its payload lies. -/
def readArray (k : GgufKV) : Parse GgufKV := do
  let ty ← rdU32
  let n ← rdU64
  checkBad
  let pos ← getPos
  match GgufType.ofU32 ty with
  | none => throw .malformed
  | some ty => do
      skipPayload ty n
      return { k with arrType := ty, arrLen := n.toInt, arrData := pos }

/-- The value of an entry, by its type. -/
def readValue (k : GgufKV) : Parse GgufKV :=
  match k.type with
  | .uint8 => do return { k with i := (← rdU8).toNat }
  | .int8 => do return { k with i := (← rdU8).toInt }
  | .uint16 => do return { k with i := (← rdU16).toNat }
  | .int16 => do return { k with i := (← rdU16).toInt }
  | .uint32 => do return { k with i := (← rdU32).toNat }
  | .int32 => do return { k with i := (← rdU32).toInt }
  | .uint64 => do return { k with i := (← rdU64).toInt }
  | .int64 => do return { k with i := (← rdU64).toInt }
  | .bool => do return { k with i := if (← rdU8) ≠ 0 then 1 else 0 }
  | .float32 => do return { k with f := (Float32.ofBits (UInt32.ofBitVec (← rdU32))).toFloat }
  | .float64 => do return { k with f := Float.ofBits (UInt64.ofBitVec (← rdU64)) }
  | .string => do return { k with str := some (← rdStr) }
  | .array => readArray k

/-- One metadata entry. -/
def readKv : Parse Unit := do
  let key ← readName
  let ty ← rdU32
  match GgufType.ofU32 ty with
  | none => throw .malformed
  | some ty => do
      let k ← readValue (.blank key ty)
      checkBad
      onG fun g => { g with kv := g.kv ++ [k] }

/-! ## Tensor table -/

/-- `GGUF_MAX_DIMS`. -/
def ggufMaxDims : Int := 4

/-- One tensor descriptor. -/
def readTensor : Parse Unit := do
  let name ← readName
  let nDims ← rdU32
  checkBad
  refuseIf (nDims.toInt < 1 ∨ nDims.toInt > ggufMaxDims) .malformed
  let shape ← times rdU64 nDims.toNat
  let ty ← rdU32
  let relOff ← rdU64
  checkBad
  match ggufDtype ty with
  | none => throw .malformed
  | some dt => do
      refuseIf (engTensorNbytes dt (shape.map BitVec.toInt) < 0) .malformed
      onG fun g => { g with t := g.t ++
        [{ name := name, shape := shape.map BitVec.toInt, ggmlType := ty, dtype := dt,
           relOff := relOff.toInt, fileOff := 0,
           nbytes := engTensorNbytes dt (shape.map BitVec.toInt) }] }

/-! ## Alignment and the data section -/

/-- "general.alignment". -/
def alignmentKey : Bytes :=
  [103, 101, 110, 101, 114, 97, 108, 46, 97, 108, 105, 103, 110, 109, 101, 110, 116]

/-- The alignment the metadata asks for, or the default. -/
def alignmentOf (kv : List GgufKV) : Int :=
  match kv.find? fun k => strEq k.key alignmentKey with
  | none => 32
  | some k => if k.i > 0 then k.i else 32

/-- `a & (a - 1)` is not zero, in 64 bits. -/
def notPow2 (a : Int) : Bool := BitVec.ofInt 64 a &&& BitVec.ofInt 64 (a - 1) ≠ 0

/-- `(hdr_end + a - 1) & ~(a - 1)`. -/
def roundUp (hdrEnd a : Int) : Int :=
  (BitVec.ofInt 64 (hdrEnd + a - 1) &&& ~~~ BitVec.ofInt 64 (a - 1)).toInt

/-- `data_bytes`, with one more tensor counted in. -/
def growBytes (d : Int) (t : GgufTensor) : Int :=
  if wrap64 (t.relOff + t.nbytes) > d then wrap64 (t.relOff + t.nbytes) else d

/-- The last loop of `parse_header`: each tensor's place in the file, checked against its size. -/
def placeTensors : List GgufTensor → Parse (List GgufTensor)
  | [] => pure []
  | t :: ts => do
      let fileOff ← askG fun g => wrap64 (g.dataStart + t.relOff)
      let fileSize ← askG Gguf.fileSize
      refuseIf (wrap64 (fileOff + t.nbytes) > fileSize) .malformed
      onG fun g => { g with dataBytes := growBytes g.dataBytes t }
      let ts ← placeTensors ts
      return { t with fileOff := fileOff } :: ts

/-- Everything after the two tables. -/
def placeData : Parse Unit := do
  onG fun g => { g with alignment := alignmentOf g.kv }
  let a ← askG Gguf.alignment
  refuseIf (a ≤ 0 ∨ notPow2 a) .malformed
  let hdrEnd ← getPos
  onG fun g => { g with dataStart := roundUp hdrEnd a }
  let ts ← placeTensors (← askG Gguf.t)
  onG fun g => { g with t := ts }

/-! ## The header -/

/-- "GGUF". -/
def ggufMagic : Bytes := [71, 71, 85, 70]

/-- The counts are implausible. -/
def CountsBad (nTensors nKv : BitVec 64) : Prop :=
  nTensors.toInt < 0 ∨ nTensors.toInt > 2 ^ 22 ∨ nKv.toInt < 0 ∨ nKv.toInt > 2 ^ 20

instance (nTensors nKv : BitVec 64) : Decidable (CountsBad nTensors nKv) :=
  inferInstanceAs (Decidable (_ ∨ _))

/-- The fixed fields, the two `calloc`s and `pool_init`; the bounds of the two loops. -/
def readCounts : Parse (Nat × Nat) := do
  let blob ← askG Gguf.blob
  refuseIf (blob.length < 24) .short
  refuseIf (blob.take 4 ≠ ggufMagic) .malformed
  skipBytes 4
  let version ← rdU32
  onG fun g => { g with version := version }
  refuseIf (version ≠ 2 ∧ version ≠ 3) .malformed
  let nTensors ← rdU64
  let nKv ← rdU64
  onG fun g => { g with nTensors := nTensors.toInt, nKv := nKv.toInt }
  checkBad
  refuseIf (CountsBad nTensors nKv) .malformed
  onG fun g => { g with
    kv := [], t := [], strused := 0, strcap := g.blob.length + nKv.toInt + nTensors.toInt + 2 }
  return (nKv.toInt.toNat, nTensors.toInt.toNat)

/-- `parse_header`, on a blob at its start. -/
def parseBody : Parse Unit := do
  let counts ← readCounts
  let _ ← times readKv counts.1
  let _ ← times readTensor counts.2
  placeData

/-- The return codes 0, 1 and -1. -/
inductive Rc
  | ok | short | malformed
  deriving DecidableEq, Repr

/-- `parse_header`. -/
def parseHeader (g : Gguf) : Rc × Gguf :=
  match parseBody ⟨g, ⟨0, false⟩⟩ with
  | .ok _ s => (.ok, s.g)
  | .error .short s => (.short, s.g)
  | .error .malformed s => (.malformed, s.g)

/-! ## Open -/

/-- `GGUF_HDR_FIRST` and `GGUF_HDR_MAX`. -/
def hdrFirst : Nat := 8 * 2 ^ 20

def hdrMax : Nat := 256 * 2 ^ 20

/-- A file: its length is an `off_t`. -/
structure File where
  bytes : Bytes
  len_lt : bytes.length < 2 ^ 63

/-- The next prefix: `want *= 4`, within the file and within the cap. -/
def grow (f : File) (want : Nat) : Nat := min (min (want * 4) f.bytes.length) hdrMax

/-- The grow-and-retry loop: the prefix of `want` bytes is read and parsed. -/
def openLoop (f : File) (g : Gguf) (want : Nat) (hwant : 0 < want) : Option Gguf :=
  match parseHeader { g with blob := f.bytes.take want } with
  | (.ok, g) => some g
  | (.malformed, _) => none
  | (.short, g) =>
      if h : want ≥ hdrMax ∨ want ≥ f.bytes.length then none
      else openLoop f { g with kv := [], t := [] } (grow f want) (by unfold grow hdrMax at *; omega)
  termination_by hdrMax - want
  decreasing_by
    unfold grow hdrMax at *
    omega

/-- `gguf_open`. -/
def ggufOpen (f : File) : Option Gguf :=
  if h : f.bytes.length < 24 then none
  else openLoop f (Gguf.zero f.bytes.length) (min hdrFirst f.bytes.length)
    (by unfold hdrFirst; omega)

/-! ## Accessors -/

/-- `gguf_find`. -/
def ggufFind (g : Gguf) (key : Bytes) : Option GgufKV := g.kv.find? fun k => strEq k.key key

/-- `gguf_tensor`. -/
def ggufTensor (g : Gguf) (name : Bytes) : Option GgufTensor :=
  g.t.find? fun t => strEq t.name name

/-- `kv_is_int`. -/
def kvIsInt (k : GgufKV) : Bool :=
  match k.type with
  | .uint8 | .int8 | .uint16 | .int16 | .uint32 | .int32 | .uint64 | .int64 | .bool => true
  | _ => false

/-- `gguf_i64`. -/
def ggufI64 (g : Gguf) (key : Bytes) : Option Int :=
  (ggufFind g key).bind fun k => if kvIsInt k then some k.i else none

/-- The bytes a span of the blob stands for. -/
def Gguf.text (g : Gguf) (sp : Span) : Bytes := (g.blob.drop sp.off).take sp.len

/-- `gguf_str`. -/
def ggufStr (g : Gguf) (key : Bytes) : Option Bytes :=
  (ggufFind g key).bind fun k => if k.type = .string then k.str.map g.text else none

/-- The walk of `gguf_arr_str`: skip `i` strings and read one. -/
def arrWalk (g : Gguf) : Nat → Cur → Option Span
  | i, c =>
      match rdStr ⟨g, c⟩ with
      | .error _ _ => none
      | .ok sp s =>
          if s.c.bad then none
          else
            match i with
            | 0 => some sp
            | i + 1 => arrWalk g i s.c

/-- `gguf_arr_str`. -/
def ggufArrStr (g : Gguf) (k : GgufKV) (i : Nat) : Option Bytes :=
  if k.type ≠ .array ∨ k.arrType ≠ .string then none
  else if (i : Int) ≥ k.arrLen then none
  else (arrWalk g i ⟨k.arrData, false⟩).map g.text

end LlmEngine.Formats
