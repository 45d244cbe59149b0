/-
Time slices and how they are stored.

A slice says which attributes are kept together for the blocks of a stretch of
time.  Its parts are attribute sets; a set is the list of its members in the order
the writer enumerates them, and reading it back inserts them in that order.
-/
import RailwayDB.Core.NetworkByteBuffer
import RailwayDB.Core.Schema
import RailwayDB.Core.Timestamp

namespace RailwayDB

/-- `std::vector<std::unordered_set<std::string>>`. -/
abbrev Partitioning := List (List Text)

/-- The end time is exclusive. -/
structure TimeSlicedPartitioning (T : Type) where
  startTime : T
  endTime : T
  partitioning : Partitioning
  deriving DecidableEq, Repr

namespace TimeSlicedPartitioning

variable {T : Type} [Preorder T] [Timestamp T]

/-- `TimeSlicedPartitioning()`. -/
def new : TimeSlicedPartitioning T :=
  ⟨Timestamp.negInfinity, Timestamp.infinity, []⟩

/-- One part: its size, then its names. -/
def writePart (sbuf : NetworkByteBuffer) (attributes : List Text) :
    Except Fault NetworkByteBuffer := do
  let sbuf ← sbuf.addUInt32 (BitVec.ofNat 32 attributes.length)
  attributes.foldlM (fun sbuf name => sbuf.addSTLString name) sbuf

/-- `operator<<(NetworkByteBuffer &, TimeSlicedPartitioning const &)`. -/
def write (sbuf : NetworkByteBuffer) (tparting : TimeSlicedPartitioning T) :
    Except Fault NetworkByteBuffer := do
  let sbuf ← sbuf.addDouble (Timestamp.toBits tparting.startTime)
  let sbuf ← sbuf.addDouble (Timestamp.toBits tparting.endTime)
  let sbuf ← sbuf.addUInt32 (BitVec.ofNat 32 tparting.partitioning.length)
  tparting.partitioning.foldlM writePart sbuf

/-- The inner loop of `operator>>`. -/
def readNames : Nat → NetworkByteBuffer → List Text →
    Except Fault (List Text × NetworkByteBuffer)
  | 0, sbuf, attributes => .ok (attributes, sbuf)
  | nAttributes + 1, sbuf, attributes => do
      let (name, sbuf) ← sbuf.getSTLString
      readNames nAttributes sbuf (if name ∈ attributes then attributes else attributes ++ [name])

/-- The outer loop of `operator>>`: each part goes behind the parts there are. -/
def readParts : Nat → NetworkByteBuffer → Partitioning →
    Except Fault (Partitioning × NetworkByteBuffer)
  | 0, sbuf, partitioning => .ok (partitioning, sbuf)
  | nParts + 1, sbuf, partitioning => do
      let (nAttributes, sbuf) ← sbuf.getUInt32
      let (attributes, sbuf) ← readNames nAttributes.toNat sbuf []
      readParts nParts sbuf (partitioning ++ [attributes])

/-- `operator>>(NetworkByteBuffer &, TimeSlicedPartitioning &)`: the bounds are replaced, the
parts are added to those the target has. -/
def read (sbuf : NetworkByteBuffer) (tparting : TimeSlicedPartitioning T) :
    Except Fault (TimeSlicedPartitioning T × NetworkByteBuffer) := do
  let (startTime, sbuf) ← sbuf.getDouble
  let (endTime, sbuf) ← sbuf.getDouble
  let (nParts, sbuf) ← sbuf.getUInt32
  let (partitioning, sbuf) ← readParts nParts.toNat sbuf tparting.partitioning
  return (⟨Timestamp.ofBits startTime, Timestamp.ofBits endTime, partitioning⟩, sbuf)

/-- The bytes `addPartitioning` puts. -/
def serialize (tparting : TimeSlicedPartitioning T) : Except Fault (List Byte) := do
  let dataBuf ← write NetworkByteBuffer.new tparting
  return dataBuf.contents

/-- Reading a stored value into a target. -/
def deserialize (value : List Byte) (tparting : TimeSlicedPartitioning T) :
    Except Fault (TimeSlicedPartitioning T) :=
  (read (NetworkByteBuffer.ofBytes value) tparting).map Prod.fst

end TimeSlicedPartitioning

end RailwayDB
