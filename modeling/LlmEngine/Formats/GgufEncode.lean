/-
# LlmEngine.Formats.GgufEncode — the format, as a writer sees it.

A header value with its well-formedness in its types, its bytes, and what it means for a parsed record
to hold it.  The writer is stated here independently of the parser: little-endian words, strings
behind a 64-bit length and no terminator, counts before tables.

* `Scalar` and `Value` are the types of the metadata, an array being of one scalar type or of strings; `Entry` and
  `TensorDesc` are the rows of the two tables.
* A `Header` is the two tables with a version.  What it requires, of lengths, names and dimensions, are fields of
  these structures.
* `Header.Fits` says that the tensors lie in a file of a given size.
* `Holds` and `HoldsHeader` are what a reader has to deliver: every value as the accessors return it, every
  tensor with its size and place.

`Formats.GgufRoundTrip` proves that the parser does.
-/
import LlmEngine.Formats.GgufWalk

namespace LlmEngine.Formats

open LlmEngine.Lib
open LlmEngine.Lib.LittleEndian
open LlmEngine.Lib.Walk
open LlmEngine.Tensor

/-! ## Values -/

/-- A value of fixed width. -/
inductive Scalar
  | uint8 (v : BitVec 8) | int8 (v : BitVec 8)
  | uint16 (v : BitVec 16) | int16 (v : BitVec 16)
  | uint32 (v : BitVec 32) | int32 (v : BitVec 32)
  | uint64 (v : BitVec 64) | int64 (v : BitVec 64)
  | float32 (v : BitVec 32) | float64 (v : BitVec 64)
  | bool (b : Bool)
  deriving DecidableEq, Repr

namespace Scalar

def type : Scalar → GgufType
  | uint8 _ => .uint8
  | int8 _ => .int8
  | uint16 _ => .uint16
  | int16 _ => .int16
  | uint32 _ => .uint32
  | int32 _ => .int32
  | uint64 _ => .uint64
  | int64 _ => .int64
  | float32 _ => .float32
  | float64 _ => .float64
  | bool _ => .bool

/-- The number that is stored. -/
def bits : Scalar → Nat
  | uint8 v | int8 v => v.toNat
  | uint16 v | int16 v => v.toNat
  | uint32 v | int32 v | float32 v => v.toNat
  | uint64 v | int64 v | float64 v => v.toNat
  | bool b => b.toNat

/-- The integer it stands for; a `UINT64` is taken in two's complement. -/
def int : Scalar → Int
  | uint8 v => v.toNat
  | int8 v => v.toInt
  | uint16 v => v.toNat
  | int16 v => v.toInt
  | uint32 v => v.toNat
  | int32 v => v.toInt
  | uint64 v | int64 v => v.toInt
  | bool b => b.toNat
  | float32 _ | float64 _ => 0

def float : Scalar → Float
  | float32 v => (Float32.ofBits (UInt32.ofBitVec v)).toFloat
  | float64 v => Float.ofBits (UInt64.ofBitVec v)
  | _ => 0

/-- Its bytes. -/
def enc (v : Scalar) : Bytes := put (scalarSize v.type) v.bits

end Scalar

/-- The value of an entry. -/
inductive Value
  | scalar (v : Scalar)
  | string (s : Bytes)
  | array (ty : GgufType) (fixed : 0 < scalarSize ty) (elems : List { v : Scalar // v.type = ty })
  | strings (elems : List Bytes)

/-- A string: its length, its bytes, no terminator. -/
def encStr (s : Bytes) : Bytes := put 8 s.length ++ s

namespace Value

def type : Value → GgufType
  | scalar v => v.type
  | string _ => .string
  | array _ _ _ | strings _ => .array

/-- The elements of an array, one after the other. -/
def payload : Value → Bytes
  | array _ _ elems => elems.flatMap fun v => v.val.enc
  | strings elems => elems.flatMap encStr
  | _ => []

def enc : Value → Bytes
  | scalar v => v.enc
  | string s => encStr s
  | array ty h elems => put 4 ty.toNat ++ (put 8 elems.length ++ (array ty h elems).payload)
  | strings elems => put 4 GgufType.string.toNat ++ (put 8 elems.length ++ (strings elems).payload)

/-- The integer a reader finds, 0 where there is none. -/
def int : Value → Int
  | scalar v => v.int
  | _ => 0

end Value

/-- A metadata entry. -/
structure Entry where
  key : Bytes
  value : Value
  noNul : 0 ∉ key

def Entry.enc (e : Entry) : Bytes :=
  encStr e.key ++ (put 4 e.value.type.toNat ++ e.value.enc)

/-- A tensor descriptor whose shape is expressible: whole blocks in a row, a size that fits. -/
structure TensorDesc where
  name : Bytes
  shape : List Nat
  ggmlType : BitVec 32
  relOff : Nat
  dtype : EngDType
  supported : ggufDtype ggmlType = some dtype
  rank_pos : 1 ≤ shape.length
  rank_le : shape.length ≤ 4
  dims_lt : ∀ d ∈ shape, d < 2 ^ 63
  whole : (engDtypeInfo dtype).blockElems ∣ shape.headD 1
  elems_lt : exactElems (shape.map Int.ofNat) < 2 ^ 63
  bytes_lt : exactBytes dtype (shape.map Int.ofNat) < 2 ^ 63
  off_lt : relOff < 2 ^ 63

namespace TensorDesc

def enc (t : TensorDesc) : Bytes :=
  encStr t.name ++ (put 4 t.shape.length ++ (t.shape.flatMap (put 8) ++
    (put 4 t.ggmlType.toNat ++ put 8 t.relOff)))

/-- The size, exactly. -/
def bytes (t : TensorDesc) : Int := exactBytes t.dtype (t.shape.map Int.ofNat)

/-- The descriptor as the reader is to deliver it, the data section starting at `dataStart`. -/
def read (t : TensorDesc) (dataStart : Int) : GgufTensor where
  name := t.name
  shape := t.shape.map Int.ofNat
  ggmlType := t.ggmlType
  dtype := t.dtype
  relOff := t.relOff
  fileOff := dataStart + t.relOff
  nbytes := t.bytes

end TensorDesc

/-- The alignment a list of entries asks for. -/
def entriesAlignment (kv : List Entry) : Int :=
  match kv.find? fun e => e.key == alignmentKey with
  | none => 32
  | some e => e.value.int

theorem version_three : (3 : BitVec 32) = 2 ∨ (3 : BitVec 32) = 3 := .inr rfl

/-- A header. -/
structure Header where
  version : BitVec 32
  kv : List Entry
  tensors : List TensorDesc
  version_ok : version = 2 ∨ version = 3
  kv_le : kv.length ≤ 2 ^ 20
  tensors_le : tensors.length ≤ 2 ^ 22
  pow2 : ∃ k ≤ 62, entriesAlignment kv = 2 ^ k

namespace Header

variable (h : Header)

/-- Its bytes. -/
def enc : Bytes :=
  ggufMagic ++ (put 4 h.version.toNat ++ (put 8 h.tensors.length ++ (put 8 h.kv.length ++
    (h.kv.flatMap Entry.enc ++ h.tensors.flatMap TensorDesc.enc))))

/-- Its end, rounded up to the alignment. -/
def dataStart : Int :=
  (h.enc.length + entriesAlignment h.kv - 1) / entriesAlignment h.kv * entriesAlignment h.kv

/-- Every tensor ends within a file of `n` bytes. -/
def Fits (n : Nat) : Prop := ∀ t ∈ h.tensors, h.dataStart + t.relOff + t.bytes ≤ n

end Header

/-! ## What a reader is to deliver -/

/-- A parsed entry holds `e`: key, type, value, and the contents behind its pointers. -/
structure Holds (g : Gguf) (e : Entry) (k : GgufKV) : Prop where
  key : k.key = e.key
  type : k.type = e.value.type
  int : k.i = e.value.int
  float : k.f = match e.value with
    | .scalar v => v.float
    | _ => 0
  str : k.str.map g.text = match e.value with
    | .string s => some s
    | _ => none
  array : ∀ ty fixed elems, e.value = .array ty fixed elems → k.arrType = ty ∧
    k.arrLen = elems.length ∧ g.text ⟨k.arrData, scalarSize ty * elems.length⟩ = e.value.payload
  strings : ∀ elems, e.value = .strings elems → k.arrType = .string ∧ k.arrLen = elems.length ∧
    ∀ i, ggufArrStr g k i = elems[i]?

/-- A parsed record holds the header `h`. -/
structure HoldsHeader (g : Gguf) (h : Header) : Prop where
  version : g.version = h.version
  nKv : g.nKv = h.kv.length
  nTensors : g.nTensors = h.tensors.length
  kv : List.Forall₂ (Holds g) h.kv g.kv
  t : g.t = h.tensors.map (·.read h.dataStart)
  alignment : g.alignment = entriesAlignment h.kv
  dataStart : g.dataStart = h.dataStart
  find : ∀ key, Option.Rel (Holds g) (h.kv.find? fun e => e.key == key) (ggufFind g key)
  tensor : ∀ name, ggufTensor g name =
    (h.tensors.find? fun t => t.name.takeWhile (· ≠ 0) == name).map (·.read h.dataStart)

end LlmEngine.Formats
