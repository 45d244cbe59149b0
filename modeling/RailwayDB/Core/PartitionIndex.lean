/-
`PartitionIndex.cpp`, up to the rewriting of blocks: the stored slices, the cache
over them, and the lookups.

The store maps the key of an end time to the bytes of a slice.  The cache is a
`std::map` from end times to decoded slices, and a list of timestamps in least
recently used order.  Each cache entry carries an iterator into that list, so list
nodes have identities: a node is a number that is never used twice, and an
iterator is the number of the node it points at.  Erasing or comparing an iterator
whose node is gone is undefined.
-/
import RailwayDB.Lib.SortedMap
import RailwayDB.Core.Keys
import RailwayDB.Core.TimeSlicedPartitioning
import Mathlib.Data.List.Lex

namespace RailwayDB

/-- A decoded slice and its place in the list. -/
structure PartitioningAndIter (T : Type) where
  partitioning : TimeSlicedPartitioning T
  iter : Nat
  deriving DecidableEq, Repr

structure PartitionIndex (T : Type) [Preorder T] where
  partitioningBufferSize : Nat
  edgeSchema : Schema
  lruList : List (Nat × T)
  /-- The next node number. -/
  nextNode : Nat
  cache : SortedMap T (PartitioningAndIter T)
  removedPartitionings : List (TimeSlicedPartitioning T)
  db : SortedMap (List Byte) (List Byte)

namespace PartitionIndex

variable {T : Type} [Preorder T] [Timestamp T]

/-! ### The store -/

/-- `db_->Put`. -/
def addPartitioning (idx : PartitionIndex T) (partitioning : TimeSlicedPartitioning T) :
    Except Fault (PartitionIndex T) := do
  let key ← PartitionIndex.key partitioning.endTime
  let data ← partitioning.serialize
  return { idx with db := idx.db.insert key data }

/-- `PartitionIndex(conf)` on a storage directory without a partition store. -/
def new (partitioningBufferSize : Nat) (edgeSchema : Schema) : Except Fault (PartitionIndex T) :=
  addPartitioning
    { partitioningBufferSize := partitioningBufferSize, edgeSchema := edgeSchema, lruList := [],
      nextNode := 0, cache := ⟨[], .nil⟩, removedPartitionings := [], db := .empty }
    { (TimeSlicedPartitioning.new : TimeSlicedPartitioning T) with
      partitioning := [edgeSchema.names.dedup] }

/-- `PartitionIndex(conf)` on a directory that has one. -/
def reopen (partitioningBufferSize : Nat) (edgeSchema : Schema)
    (db : SortedMap (List Byte) (List Byte)) : PartitionIndex T :=
  { partitioningBufferSize := partitioningBufferSize, edgeSchema := edgeSchema, lruList := [],
    nextNode := 0, cache := ⟨[], .nil⟩, removedPartitionings := [], db := db }

/-! ### The list of recent lookups -/

/-- `lruList_.erase(iter)`: the node must be there. -/
def eraseNode (idx : PartitionIndex T) (iter : Nat) : Except Fault (PartitionIndex T) :=
  if iter ∈ idx.lruList.map Prod.fst then
    .ok { idx with lruList := idx.lruList.filter fun node => node.1 ≠ iter }
  else .error (.undefined .danglingIterator)

/-- `lruList_.push_front(time)`. -/
def pushFront (idx : PartitionIndex T) (time : T) : PartitionIndex T :=
  { idx with lruList := (idx.nextNode, time) :: idx.lruList, nextNode := idx.nextNode + 1 }

variable [DecidableLE T] [DecidableLT T]

/-- Delete the slice under its end time and forget it. -/
def initiatePartitioningRemoval (idx : PartitionIndex T)
    (partitioning : TimeSlicedPartitioning T) : Except Fault (PartitionIndex T) := do
  let idx := { idx with removedPartitionings := idx.removedPartitionings ++ [partitioning] }
  let key ← PartitionIndex.key partitioning.endTime
  let idx := { idx with db := idx.db.erase key }
  match idx.cache.find? partitioning.endTime with
  | none => return idx
  | some partingAndIter =>
      let idx ← idx.eraseNode partingAndIter.iter
      return { idx with cache := idx.cache.erase partitioning.endTime }

def completePartitioningRemovals (idx : PartitionIndex T) : PartitionIndex T :=
  { idx with removedPartitionings := [] }

/-! ### Lookup -/

/-- A cache hit: the entry found moves to the front, under the sought time. -/
def touch (idx : PartitionIndex T) (key time : T) (partingAndIter : PartitioningAndIter T) :
    Except Fault (PartitionIndex T) := do
  if partingAndIter.iter ∉ idx.lruList.map Prod.fst then
    throw (.undefined .danglingIterator)
  if some partingAndIter.iter ≠ idx.lruList.head?.map Prod.fst then
    let idx ← idx.eraseNode partingAndIter.iter
    let iter := idx.nextNode
    let idx := idx.pushFront time
    return { idx with cache := idx.cache.insert key { partingAndIter with iter := iter } }
  else return idx

/-- The key of the entry `Seek` stops at, and the value read: that of the next entry when the
sought time is the end time found. -/
def seekDB (idx : PartitionIndex T) (time : T) : Except Fault (T × List Byte) := do
  let searchKey ← PartitionIndex.key time
  match idx.db.lowerBound searchKey with
  | [] => throw .timeSlicedPartitionNotFound
  | (foundKey, value) :: rest =>
      let (bits, _) ← (NetworkByteBuffer.ofBytes foundKey).getDouble
      let endTime : T := Timestamp.ofBits bits
      if TimeEq endTime time then
        match rest with
        | [] => throw .timeSlicedPartitionNotFound
        | (_, value) :: _ => return (endTime, value)
      else return (endTime, value)

/-- Drop the oldest node when the list is over its size. -/
def evict (idx : PartitionIndex T) : PartitionIndex T :=
  if idx.partitioningBufferSize < idx.lruList.length then
    match idx.lruList.getLast? with
    | none => idx
    | some (_, t) => { idx with lruList := idx.lruList.dropLast, cache := idx.cache.erase t }
  else idx

/-- The way through the store: decode into the entry under the end time found. -/
def fetch (idx : PartitionIndex T) (time : T) :
    Except Fault (TimeSlicedPartitioning T × PartitionIndex T) := do
  let (endTime, value) ← idx.seekDB time
  let partitioning := ((idx.cache.find? endTime).map PartitioningAndIter.partitioning).getD .new
  let partitioning ← TimeSlicedPartitioning.deserialize value partitioning
  let iter := idx.nextNode
  let idx := idx.pushFront endTime
  let idx := { idx with cache := idx.cache.insert endTime ⟨partitioning, iter⟩ }
  let idx := idx.evict
  -- `return partingAndIter.partitioning` reads the entry again.
  match idx.cache.find? endTime with
  | some partingAndIter => return (partingAndIter.partitioning, idx)
  | none => throw (.undefined .danglingReference)

def getTimeSlicedPartitioning (idx : PartitionIndex T) (time : T) :
    Except Fault (TimeSlicedPartitioning T × PartitionIndex T) :=
  match idx.cache.lowerBound time with
  | (key, partingAndIter) :: _ =>
      let partitioning := partingAndIter.partitioning
      if partitioning.startTime ≤ time ∧ time < partitioning.endTime then
        (idx.touch key time partingAndIter).map fun idx => (partitioning, idx)
      else idx.fetch time
  | [] => idx.fetch time

/-- A block being rewritten is still encoded as the slice that is going away says. -/
def getTimeSlicedPartitioningForBlockDeserialization (idx : PartitionIndex T) (time : T) :
    Except Fault (TimeSlicedPartitioning T × PartitionIndex T) :=
  match idx.removedPartitionings.find? fun p => p.startTime ≤ time ∧ time < p.endTime with
  | some partitioning => .ok (partitioning, idx)
  | none => idx.getTimeSlicedPartitioning time

/-- The `do .. while (time < endTime)` loop. -/
def getTimeSlicedPartitionings (idx : PartitionIndex T) (time endTime : T) :
    (fuel : Nat) → Except Fault (List (TimeSlicedPartitioning T) × PartitionIndex T)
  | 0 => .error .outOfFuel
  | fuel + 1 => do
      let (partitioning, idx) ← idx.getTimeSlicedPartitioning time
      if partitioning.endTime < endTime then
        let (results, idx) ←
          getTimeSlicedPartitionings idx partitioning.endTime endTime fuel
        return (partitioning :: results, idx)
      else return ([partitioning], idx)

end PartitionIndex

/-! ### The index as the blocks see it -/

/-- The members of the partition index that blocks are split, read and rewritten with. -/
class SliceIndex (P : Type) (T : outParam Type) where
  getTimeSlicedPartitioning : P → T → Except Fault (TimeSlicedPartitioning T × P)
  getTimeSlicedPartitioningForBlockDeserialization :
    P → T → Except Fault (TimeSlicedPartitioning T × P)
  addPartitioning : P → TimeSlicedPartitioning T → Except Fault P
  initiatePartitioningRemoval : P → TimeSlicedPartitioning T → Except Fault P
  completePartitioningRemovals : P → P
  /-- A new object over the same store, with a `partitioningBufferSize`. -/
  reopen : Nat → P → P

instance {T : Type} [Preorder T] [Timestamp T] [DecidableLE T] [DecidableLT T] :
    SliceIndex (PartitionIndex T) T where
  getTimeSlicedPartitioning := PartitionIndex.getTimeSlicedPartitioning
  getTimeSlicedPartitioningForBlockDeserialization :=
    PartitionIndex.getTimeSlicedPartitioningForBlockDeserialization
  addPartitioning := PartitionIndex.addPartitioning
  initiatePartitioningRemoval := PartitionIndex.initiatePartitioningRemoval
  completePartitioningRemovals := PartitionIndex.completePartitioningRemovals
  reopen partitioningBufferSize idx :=
    PartitionIndex.reopen partitioningBufferSize idx.edgeSchema idx.db

end RailwayDB
