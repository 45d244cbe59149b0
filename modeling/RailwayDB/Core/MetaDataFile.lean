/-
`MetaManager.cpp`: the file that carries the next block id and the attribute sizes
from one session to the next.

`store` writes the id, the number of indices and then index, count and bytes of each
to a byte buffer and the buffer to the file; `load` reads them in that order into a
fresh object.  The bytes are exact rationals here and have no eight bytes of their own,
so this buffer keeps its fields whole and counts the bytes they take: a field that
would bring it past 2^32 bytes is refused, as by the byte buffer.

The sizes are kept in an unordered map, which is walked in an order of its own at every
`store`; `Enumeration` is such an order.
-/
import RailwayDB.Core.MetaDataManager

namespace RailwayDB

/-- What one `<<` writes. -/
inductive FileField where
  | uint64 (i : BitVec 64)
  | uint32 (i : BitVec 32)
  | double (d : ℚ)

/-- `sizeof` the field. -/
def FileField.size : FileField → Nat
  | .uint64 _ => 8
  | .uint32 _ => 4
  | .double _ => 8

/-- A byte buffer by its fields; one that is read, by those not read yet. -/
structure FieldBuffer where
  fields : List FileField

namespace FieldBuffer

def new : FieldBuffer := ⟨[]⟩

def size (sbuf : FieldBuffer) : Nat := (sbuf.fields.map FileField.size).sum

def put (sbuf : FieldBuffer) (field : FileField) : Except Fault FieldBuffer :=
  if sbuf.size + field.size ≤ 2 ^ 32 then .ok ⟨sbuf.fields ++ [field]⟩
  else .error (.runtimeError "Buffer exceeds maximum size")

def getUInt64 : FieldBuffer → Except Fault (BitVec 64 × FieldBuffer)
  | ⟨.uint64 i :: fields⟩ => .ok (i, ⟨fields⟩)
  | _ => .error (.undefined .bufferOverrun)

def getUInt32 : FieldBuffer → Except Fault (BitVec 32 × FieldBuffer)
  | ⟨.uint32 i :: fields⟩ => .ok (i, ⟨fields⟩)
  | _ => .error (.undefined .bufferOverrun)

def getDouble : FieldBuffer → Except Fault (ℚ × FieldBuffer)
  | ⟨.double d :: fields⟩ => .ok (d, ⟨fields⟩)
  | _ => .error (.undefined .bufferOverrun)

end FieldBuffer

namespace SchemaStats

/-- `indexToCountAndBytesPair`. -/
abbrev Entry : Type := Σ _ : Nat, BitVec 32 × ℚ

/-- An order in which the map is walked. -/
structure Enumeration where
  order : List Entry → List Entry
  perm : ∀ entries, (order entries).Perm entries

/-- The body of the loop of `operator<<`. -/
def writeEntry (sbuf : FieldBuffer) (entry : Entry) : Except Fault FieldBuffer := do
  let sbuf ← sbuf.put (.uint32 (BitVec.ofNat 32 entry.1))
  let sbuf ← sbuf.put (.uint32 entry.2.1)
  sbuf.put (.double entry.2.2)

/-- `sbuf << stats`. -/
def write (walk : Enumeration) (sbuf : FieldBuffer) (stats : SchemaStats) :
    Except Fault FieldBuffer := do
  let size : BitVec 32 := BitVec.ofNat 32 stats.indexToCountAndBytes.entries.length
  let sbuf ← sbuf.put (.uint32 size)
  (walk.order stats.indexToCountAndBytes.entries).foldlM writeEntry sbuf

/-- The loop of `operator>>`. -/
def readEntries : Nat → FieldBuffer → SchemaStats → Except Fault (SchemaStats × FieldBuffer)
  | 0, sbuf, stats => .ok (stats, sbuf)
  | numStats + 1, sbuf, stats => do
      let (index, sbuf) ← sbuf.getUInt32
      let (count, sbuf) ← sbuf.getUInt32
      let (bytes, sbuf) ← sbuf.getDouble
      readEntries numStats sbuf
        ⟨stats.indexToCountAndBytes.insert index.toNat (count, bytes)⟩

/-- `sbuf >> stats`. -/
def read (sbuf : FieldBuffer) (stats : SchemaStats) : Except Fault (SchemaStats × FieldBuffer) := do
  let (numStats, sbuf) ← sbuf.getUInt32
  readEntries numStats.toNat sbuf stats

end SchemaStats

namespace MetaDataManager

/-- `store()`, with what is in the file afterwards. -/
def storeFile (walk : SchemaStats.Enumeration) (meta_ : MetaDataManager) :
    Except Fault FieldBuffer := do
  let buf ← FieldBuffer.new.put (.uint64 (BitVec.ofNat 64 meta_.nextBlockId))
  meta_.schemaStats.write walk buf

/-- `MetaDataManager(storageDir)` where the file is there: `load()` into a fresh object. -/
def loadFile (buf : FieldBuffer) : Except Fault MetaDataManager := do
  let (nextBlockId, buf) ← buf.getUInt64
  let (schemaStats, _) ← SchemaStats.read buf .new
  .ok { nextBlockId := nextBlockId.toNat, schemaStats := schemaStats }

end MetaDataManager

end RailwayDB
