/-
`SchemaStats.h` and `MetaManager.cpp`: the next block id and the sizes of the
attribute values seen, with what `store` leaves on disk for the next session.

The counts are 32-bit; the byte sums are doubles in the source and exact rationals
here.  `nextBlockId_` is a 64-bit number: it is kept as the number of ids handed out
from zero, and an id is that number modulo 2^64.  The file is the pair `store` wrote
last; its encoding is left out.
-/
import RailwayDB.Core.Types
import Mathlib.Data.List.AList
import Mathlib.Algebra.Order.Field.Rat

namespace RailwayDB

/-- `SchemaStats`: per attribute index a count and a sum of bytes. -/
structure SchemaStats where
  indexToCountAndBytes : AList fun _ : Nat => BitVec 32 × ℚ

namespace SchemaStats

/-- `SchemaStats()`. -/
def new : SchemaStats := ⟨∅⟩

def getAvgSize (stats : SchemaStats) (index : Nat) : Except Fault ℚ :=
  match stats.indexToCountAndBytes.lookup index with
  | none => .error (.runtimeError ("SchemaStats index " ++ toString index ++ " not found."))
  | some (count, bytes) => if count = 0 then .ok 0 else .ok (bytes / count.toNat)

def incrCountAndBytes (stats : SchemaStats) (index : Nat) (bytes : ℚ) : SchemaStats :=
  ⟨stats.indexToCountAndBytes.insert index
    (match stats.indexToCountAndBytes.lookup index with
      | none => (1, bytes)
      | some (count, sum) => (count + 1, sum + bytes))⟩

end SchemaStats

structure MetaDataManager where
  nextBlockId : Nat
  schemaStats : SchemaStats

namespace MetaDataManager

/-- The id `nextBlockId_++` gives. -/
def blockId (meta_ : MetaDataManager) : BlockId := Fin.ofNat (2 ^ 64) meta_.nextBlockId

/-- `MetaDataManager(storageDir)`: what the file says, when there is one. -/
def load (file : Option MetaDataManager) : MetaDataManager :=
  file.getD { nextBlockId := 0, schemaStats := .new }

/-- What `store` writes. -/
def store (meta_ : MetaDataManager) : MetaDataManager :=
  { meta_ with nextBlockId := meta_.nextBlockId % 2 ^ 64 }

end MetaDataManager

end RailwayDB
