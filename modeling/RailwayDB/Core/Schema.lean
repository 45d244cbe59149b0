/-
`Schema.h` and `Attribute.h`: the names and types of the attributes an edge
carries.

Texts are byte strings.  A schema numbers its attributes from zero; the map from
names to numbers keeps the first of two equal names.
-/
import RailwayDB.Lib.Bytes
import RailwayDB.Core.Types

namespace RailwayDB

/-- `std::string`. -/
abbrev Text := List Byte

instance lawfulBEq_text : LawfulBEq Text := inferInstance

/-- `Attribute::DataType`, without the `UNDEFINED` no schema entry has. -/
inductive DataType where
  | int64
  | double
  | string
  deriving DecidableEq, Repr

structure Attribute where
  name : Text
  type : DataType
  deriving DecidableEq, Repr

/-- The attributes in index order. -/
structure Schema where
  attributes : List Attribute
  deriving DecidableEq, Repr

namespace Schema

def names (schema : Schema) : List Text := schema.attributes.map Attribute.name

/-- `nameToIndex_.find(name)->second`. -/
def getIndex (schema : Schema) (name : Text) : Except Fault Nat :=
  if name ∈ schema.names then .ok (schema.names.idxOf name)
  else .error (.undefined .missingKey)

end Schema

end RailwayDB
