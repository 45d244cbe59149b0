/-
The stream operators of `NetworkByteBuffer.h`.

Each supported type has one `operator<<` and one `operator>>`; vectors and pairs of
supported types are supported.  `put` and `get` are the two operators at a type, by
recursion on the type.  A vector is written as the low 32 bits of its length and
then its items.  Values are read into fresh variables, so that a vector read is
the vector and not added to another.

The members for narrow integers, `bool` and `float` that only these operators use
are here too.
-/
import RailwayDB.Core.NetworkByteBuffer

namespace RailwayDB

namespace NetworkByteBuffer

/-! ### One byte -/

/-- The common body of the one-byte `add` members: `buf[icursor] = ch`. -/
def addByte (sb : NetworkByteBuffer) (ch : Byte) : Except Fault NetworkByteBuffer :=
  sb.append [ch]

/-- The common body of the one-byte `get` members: `buf[ocursor]`. -/
def getByte (sb : NetworkByteBuffer) : Except Fault (Byte × NetworkByteBuffer) :=
  (sb.read 1).map fun r => (r.1.headD 0, r.2)

def addBool (sb : NetworkByteBuffer) (b : Bool) : Except Fault NetworkByteBuffer :=
  sb.addByte (if b then 1 else 0)

/-- Any byte but zero is true. -/
def getBool (sb : NetworkByteBuffer) : Except Fault (Bool × NetworkByteBuffer) :=
  sb.getByte.map fun r => (r.1 != 0, r.2)

def addUInt8 (sb : NetworkByteBuffer) (i : BitVec 8) : Except Fault NetworkByteBuffer :=
  sb.addByte i.toFin

def getUInt8 (sb : NetworkByteBuffer) : Except Fault (BitVec 8 × NetworkByteBuffer) :=
  sb.getByte.map fun r => (BitVec.ofFin r.1, r.2)

def addInt8 (sb : NetworkByteBuffer) (i : BitVec 8) : Except Fault NetworkByteBuffer :=
  sb.addByte i.toFin

def getInt8 (sb : NetworkByteBuffer) : Except Fault (BitVec 8 × NetworkByteBuffer) :=
  sb.getByte.map fun r => (BitVec.ofFin r.1, r.2)

/-! ### Two and four bytes -/

def addUInt16 (sb : NetworkByteBuffer) (i : BitVec 16) : Except Fault NetworkByteBuffer :=
  sb.addRaw 2 i.toNat

def getUInt16 (sb : NetworkByteBuffer) : Except Fault (BitVec 16 × NetworkByteBuffer) :=
  (sb.getRaw 2).map fun r => (BitVec.ofNat 16 r.1, r.2)

def addInt16 (sb : NetworkByteBuffer) (i : BitVec 16) : Except Fault NetworkByteBuffer :=
  sb.addRaw 2 i.toNat

def getInt16 (sb : NetworkByteBuffer) : Except Fault (BitVec 16 × NetworkByteBuffer) :=
  (sb.getRaw 2).map fun r => (BitVec.ofNat 16 r.1, r.2)

/-- A `float` is written as its bit pattern. -/
def addFloat (sb : NetworkByteBuffer) (f : BitVec 32) : Except Fault NetworkByteBuffer :=
  sb.addRaw 4 f.toNat

def getFloat (sb : NetworkByteBuffer) : Except Fault (BitVec 32 × NetworkByteBuffer) :=
  (sb.getRaw 4).map fun r => (BitVec.ofNat 32 r.1, r.2)

end NetworkByteBuffer

/-! ### The types that can be written -/

inductive BufferType where
  | bool
  | int8
  | int16
  | int32
  | int64
  | uint8
  | uint16
  | uint32
  | uint64
  | float
  | double
  | string
  | vector (item : BufferType)
  | pair (first second : BufferType)
  deriving DecidableEq

namespace BufferType

/-- The values of a type.  Integers and floating-point numbers are their bits. -/
def Val : BufferType → Type
  | .bool => Bool
  | .int8 => BitVec 8
  | .int16 => BitVec 16
  | .int32 => BitVec 32
  | .int64 => BitVec 64
  | .uint8 => BitVec 8
  | .uint16 => BitVec 16
  | .uint32 => BitVec 32
  | .uint64 => BitVec 64
  | .float => BitVec 32
  | .double => BitVec 64
  | .string => List Byte
  | .vector item => List item.Val
  | .pair first second => first.Val × second.Val

open NetworkByteBuffer

/-- `sbuf << val`. -/
def put : (t : BufferType) → NetworkByteBuffer → t.Val → Except Fault NetworkByteBuffer
  | .bool, sbuf, val => sbuf.addBool val
  | .int8, sbuf, val => sbuf.addInt8 val
  | .int16, sbuf, val => sbuf.addInt16 val
  | .int32, sbuf, val => sbuf.addInt32 val
  | .int64, sbuf, val => sbuf.addInt64 val
  | .uint8, sbuf, val => sbuf.addUInt8 val
  | .uint16, sbuf, val => sbuf.addUInt16 val
  | .uint32, sbuf, val => sbuf.addUInt32 val
  | .uint64, sbuf, val => sbuf.addUInt64 val
  | .float, sbuf, val => sbuf.addFloat val
  | .double, sbuf, val => sbuf.addDouble val
  | .string, sbuf, val => sbuf.addSTLString val
  | .vector item, sbuf, val => do
      let size : BitVec 32 := BitVec.ofNat 32 (List.length val)
      let sbuf ← sbuf.addUInt32 size
      List.foldlM (put item) sbuf val
  | .pair first second, sbuf, val => do
      let sbuf ← put first sbuf val.1
      put second sbuf val.2

/-- The loop of the vector's `operator>>`. -/
def getItems {α : Type} (get : NetworkByteBuffer → Except Fault (α × NetworkByteBuffer)) :
    Nat → NetworkByteBuffer → Except Fault (List α × NetworkByteBuffer)
  | 0, sbuf => .ok ([], sbuf)
  | n + 1, sbuf => do
      let (item, sbuf) ← get sbuf
      let (items, sbuf) ← getItems get n sbuf
      .ok (item :: items, sbuf)

/-- `sbuf >> val`. -/
def get : (t : BufferType) → NetworkByteBuffer → Except Fault (t.Val × NetworkByteBuffer)
  | .bool, sbuf => sbuf.getBool
  | .int8, sbuf => sbuf.getInt8
  | .int16, sbuf => sbuf.getInt16
  | .int32, sbuf => sbuf.getInt32
  | .int64, sbuf => sbuf.getInt64
  | .uint8, sbuf => sbuf.getUInt8
  | .uint16, sbuf => sbuf.getUInt16
  | .uint32, sbuf => sbuf.getUInt32
  | .uint64, sbuf => sbuf.getUInt64
  | .float, sbuf => sbuf.getFloat
  | .double, sbuf => sbuf.getDouble
  | .string, sbuf => sbuf.getSTLString
  | .vector item, sbuf => do
      let (size, sbuf) ← sbuf.getUInt32
      getItems (get item) size.toNat sbuf
  | .pair first second, sbuf => do
      let (val₁, sbuf) ← get first sbuf
      let (val₂, sbuf) ← get second sbuf
      .ok ((val₁, val₂), sbuf)

end BufferType

/-- A value of a supported type. -/
abbrev BufferValue : Type := Σ t : BufferType, t.Val

namespace BufferValue

/-- `sbuf << val₁ << val₂ << …`. -/
def putAll (sbuf : NetworkByteBuffer) (vals : List BufferValue) :
    Except Fault NetworkByteBuffer :=
  vals.foldlM (fun sbuf val => val.1.put sbuf val.2) sbuf

/-- `sbuf >> val₁ >> val₂ >> …`, for variables of the given types. -/
def getAll : List BufferType → NetworkByteBuffer →
    Except Fault (List BufferValue × NetworkByteBuffer)
  | [], sbuf => .ok ([], sbuf)
  | t :: types, sbuf => do
      let (val, sbuf) ← t.get sbuf
      let (vals, sbuf) ← getAll types sbuf
      .ok (⟨t, val⟩ :: vals, sbuf)

end BufferValue

end RailwayDB
