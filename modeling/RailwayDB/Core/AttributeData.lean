/-
`AttributeData.h` and `AttributeData.cpp`: the values an edge carries.

The fields are a hash map from attribute indices to values, here the list of its
entries in the order of enumeration.  That order follows from the order in which the
keys came in, and assigning to a key that is there does not change it.

A value may have another type than its attribute has in the schema (there is a `TODO`
at `InteractionGraph::addEdge`): reading it through `boost::get` throws.  The size of
such a value is counted here as that of its own type.
-/
import RailwayDB.Core.NeighborList
import RailwayDB.Core.NetworkByteBuffer
import RailwayDB.Core.Schema
import Mathlib.Data.List.Nodup

namespace RailwayDB

/-- `boost::variant<int64_t, double, std::string>`; a double is its bit pattern. -/
inductive Value where
  | int64 (i : BitVec 64)
  | double (d : BitVec 64)
  | string (s : Text)
  deriving DecidableEq, Repr

namespace Value

def type : Value → DataType
  | .int64 _ => .int64
  | .double _ => .double
  | .string _ => .string

/-- `getTypeValue`. -/
def ofType : DataType → Value
  | .int64 => .int64 0
  | .double => .double 0
  | .string => .string []

/-- `getSerializedSizeOf` of a value. -/
def serializedSize : Value → Nat
  | .int64 _ => 8
  | .double _ => 8
  | .string s => 4 + s.length

def write (sbuf : NetworkByteBuffer) : Value → Except Fault NetworkByteBuffer
  | .int64 i => sbuf.addInt64 i
  | .double d => sbuf.addDouble d
  | .string s => sbuf.addSTLString s

/-- A value of the type asked for. -/
def read (sbuf : NetworkByteBuffer) : DataType → Except Fault (Value × NetworkByteBuffer)
  | .int64 => sbuf.getInt64.map fun r => (.int64 r.1, r.2)
  | .double => sbuf.getDouble.map fun r => (.double r.1, r.2)
  | .string => sbuf.getSTLString.map fun r => (.string r.1, r.2)

/-- The number without its sign. -/
def magnitude (d : BitVec 64) : Nat := d.toNat % 2 ^ 63

def isNaN (d : BitVec 64) : Bool := 0x7ff0000000000000 < magnitude d

/-- `value==other`.  A NaN is not equal to itself, and the two zeros are equal. -/
def equals : Value → Value → Bool
  | .int64 i, .int64 j => i = j
  | .double d, .double e =>
      !isNaN d && !isNaN e && (d = e || (magnitude d = 0 && magnitude e = 0))
  | .string s, .string t => s = t
  | _, _ => false

end Value

/-- The type of the attribute with an index. -/
def Schema.typeAt (schema : Schema) (index : Nat) : Option DataType :=
  schema.attributes[index]?.map Attribute.type

structure AttributeData (schema : Schema) where
  fields : List (Nat × Value)
  nodup : (fields.map Prod.fst).Nodup

namespace AttributeData

variable {schema : Schema}

@[ext] theorem ext {a b : AttributeData schema} (h : a.fields = b.fields) : a = b := by
  cases a
  cases b
  simp only at h
  subst h
  rfl

instance : DecidableEq (AttributeData schema) := fun a b =>
  decidable_of_iff (a.fields = b.fields) ⟨ext, fun h => h ▸ rfl⟩

/-- No fields: `newAttributeData(unordered_set<string>())`. -/
def empty (schema : Schema) : AttributeData schema := ⟨[], List.nodup_nil⟩

/-- `fields_.emplace(index, value)`: a key that is there keeps its value. -/
def emplace (data : AttributeData schema) (index : Nat) (value : Value) : AttributeData schema :=
  if h : index ∈ data.fields.map Prod.fst then data
  else
    ⟨data.fields ++ [(index, value)], by
      rw [List.map_append, List.map_singleton]
      exact List.nodup_append_comm.mp (List.nodup_cons.mpr ⟨h, data.nodup⟩)⟩

/-- Assigning to a key that is there. -/
def assign (data : AttributeData schema) (index : Nat) (value : Value) : AttributeData schema :=
  ⟨data.fields.map fun f => if f.1 = index then (index, value) else f, by
    have hkeys : (data.fields.map fun f => if f.1 = index then (index, value) else f).map Prod.fst
        = data.fields.map Prod.fst := by
      rw [List.map_map]
      refine List.map_congr_left ?_
      intro f _
      show (if f.1 = index then (index, value) else f).1 = f.1
      split_ifs with hf
      · exact hf.symm
      · rfl
    rw [hkeys]
    exact data.nodup⟩

/-- `fields_[index] = value`: a key that is absent comes in. -/
def setAttribute (data : AttributeData schema) (index : Nat) (value : Value) :
    AttributeData schema :=
  (data.emplace index value).assign index value

/-- `fields_.find(index)`. -/
def find? (data : AttributeData schema) (index : Nat) : Option Value :=
  (data.fields.find? fun f => f.1 = index).map Prod.snd

/-- `fields_.find(index)->second`. -/
def getAttribute (data : AttributeData schema) (index : Nat) : Except Fault Value :=
  match data.find? index with
  | some value => .ok value
  | none => .error (.undefined .missingKey)

/-- `schema.getAttributes().at(index).getType()`. -/
def typeOf (schema : Schema) (index : Nat) : Except Fault DataType :=
  match schema.typeAt index with
  | some type => .ok type
  | none => .error (.undefined .outOfRange)

/-- `operator==`. -/
def equals (data other : AttributeData schema) : Bool :=
  data.fields.length = other.fields.length &&
    data.fields.all fun f =>
      match other.find? f.1 with
      | none => false
      | some value => f.2.equals value

/-- One name of `AttributeData(schema, attributes)`. -/
def emplaceName (data : AttributeData schema) (name : Text) :
    Except Fault (AttributeData schema) := do
  let index ← schema.getIndex name
  let type ← typeOf schema index
  return data.emplace index (Value.ofType type)

/-- `AttributeData(schema, attributes)`. -/
def ofNames (schema : Schema) (attributes : List Text) : Except Fault (AttributeData schema) :=
  attributes.foldlM emplaceName (empty schema)

/-- `AttributeData(schema)`: every attribute, in index order. -/
def new (schema : Schema) : AttributeData schema :=
  ⟨schema.attributes.zipIdx.map fun a => (a.2, Value.ofType a.1.type), by
    rw [List.map_map]
    show (schema.attributes.zipIdx.map Prod.snd).Nodup
    rw [List.zipIdx_map_snd]
    exact List.nodup_range'⟩

/-- `setAttributes(other)`: the fields both have are taken over. -/
def setAttributes (data other : AttributeData schema) : AttributeData schema :=
  ⟨data.fields.map fun f => (f.1, (other.find? f.1).getD f.2), by
    rw [List.map_map]
    exact data.nodup⟩

instance : SerializedSize (AttributeData schema) where
  getSerializedSizeOf data := (data.fields.map fun f => f.2.serializedSize).sum

/-- `boost::get` of a field at the type the schema gives it. -/
def getTyped (schema : Schema) (f : Nat × Value) : Except Fault Value := do
  let type ← typeOf schema f.1
  if f.2.type = type then return f.2 else throw .badGet

/-- `getFieldSize(index)` of a field. -/
def getFieldSize (schema : Schema) (f : Nat × Value) : Except Fault Nat :=
  (getTyped schema f).map Value.serializedSize

/-- One field of `operator<<`. -/
def writeField (schema : Schema) (sbuf : NetworkByteBuffer) (f : Nat × Value) :
    Except Fault NetworkByteBuffer := do
  let value ← getTyped schema f
  Value.write sbuf value

/-- `operator<<(NetworkByteBuffer &, AttributeData const &)`. -/
def write (sbuf : NetworkByteBuffer) (data : AttributeData schema) :
    Except Fault NetworkByteBuffer :=
  data.fields.foldlM (writeField schema) sbuf

/-- The loop of `operator>>`: each field is assigned the value of its type that comes next. -/
def readFields : List (Nat × Value) → AttributeData schema → NetworkByteBuffer →
    Except Fault (AttributeData schema × NetworkByteBuffer)
  | [], data, sbuf => .ok (data, sbuf)
  | f :: fields, data, sbuf => do
      let type ← typeOf schema f.1
      let (value, sbuf) ← Value.read sbuf type
      readFields fields (data.setAttribute f.1 value) sbuf

/-- `operator>>(NetworkByteBuffer &, AttributeData &)`. -/
def read (sbuf : NetworkByteBuffer) (data : AttributeData schema) :
    Except Fault (AttributeData schema × NetworkByteBuffer) :=
  readFields data.fields data sbuf

end AttributeData

end RailwayDB
