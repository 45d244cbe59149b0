/-
`IntervalQueryIndex.cpp` and the rest of `PartitionIndex.cpp`: finding the blocks
with edges in a range, and rewriting them when the slices change.

The R-tree is a library.  What is used of it is that a query visits every entry
whose closed interval meets the closed range asked for, in some order; it may visit
others too, and entries more than once.  A range given backwards it refuses.
-/
import RailwayDB.Core.BlockManager

namespace RailwayDB

/-- `SpatialIndex::ISpatialIndex::intersectsWithQuery`. -/
structure RTree (T : Type) [LE T] where
  visit : List (IntervalData T) → T → T → List (IntervalData T)
  mem_of_visit : ∀ entries a b e, e ∈ visit entries a b → e ∈ entries
  visit_of_meets : ∀ entries a b e, e ∈ entries → e.intervalStart ≤ b → a ≤ e.intervalEnd →
    e ∈ visit entries a b

open Storage

variable {P T : Type} {schema : Schema} [Preorder T] [DecidableLE T] [DecidableLT T] [DecidableEq T]
  [Timestamp T] [BlockTime T] [SliceIndex P T]

namespace IntervalQueryIndex

/-- `Iterator::findNext`: the entries left are those from the next match on. -/
def findNext (startTime endTime : T) :
    List (IntervalData T) → Storage P T schema (List (IntervalData T))
  | [] => pure []
  | e :: rest =>
      if e.intervalEnd < startTime ∨ endTime ≤ e.intervalStart then findNext startTime endTime rest
      else if e.intervalStart < startTime ∧ endTime ≤ e.intervalEnd then do
        -- The range lies within the list, so the block has to be read.
        let block ← BlockManager.getBlock e.id
        match block.neigs.lookup e.vertex with
        | none => throw (.assertFailed .findNextVertex)
        | some nlist =>
            if nlist.hasEdgesInRange startTime endTime then pure (e :: rest)
            else findNext startTime endTime rest
      else pure (e :: rest)

/-- `Region::initialize`, on the side that is time. -/
def checkRegion (startTime endTime : T) : Except Fault Unit :=
  if endTime < startTime ∧
      ¬ (TimeEq startTime BlockTime.maxValue ∨ TimeEq endTime BlockTime.lowest) then
    .error (.illegalArgument ("Region::initialize: Low point has larger coordinates than High "
      ++ "point. Neither point is infinity."))
  else .ok ()

/-- `rtidx_->intersectsWithQuery(*region, visitor)`. -/
def intersectsWithQuery (rtree : RTree T) (startTime endTime : T) :
    Storage P T schema (List (IntervalData T)) := do
  ofResult (checkRegion startTime endTime)
  return rtree.visit (← get).iqIndex startTime endTime

def query (rtree : RTree T) (startTime endTime : T) :
    Storage P T schema (List (IntervalData T)) := do
  findNext startTime endTime (← intersectsWithQuery rtree startTime endTime)

/-- `Iterator::next`. -/
def next (startTime endTime : T) :
    List (IntervalData T) → Storage P T schema (List (IntervalData T))
  | [] => throw (.assertFailed .iteratorValid)
  | _ :: rest => findNext startTime endTime rest

/-- `BatchVisitor` has a set of the vertices it has visited; their order is that of the set, and
nothing depends on it. -/
def queryBatch (rtree : RTree T) (startTime endTime : T) : Storage P T schema (List VertexId) := do
  return ((← intersectsWithQuery rtree startTime endTime).map IntervalData.vertex).dedup

/-- One list of `indexBlock`. -/
def interval (id : BlockId) (vertex : VertexId) (nlist : NeighborList T (AttributeData schema)) :
    Except Fault (IntervalData T) := do
  if nlist.headVertex ≠ vertex then throw (.assertFailed .indexBlockHead)
  let oldestEdge ← nlist.getOldestEdge
  let newestEdge ← nlist.getNewestEdge
  return ⟨id, nlist.headVertex, oldestEdge.time, newestEdge.time⟩

def indexBlock (block : Block T (AttributeData schema)) : Storage P T schema Unit := do
  let intervals ← ofResult (block.neigs.entries.mapM fun e => interval block.id e.1 e.2)
  modify fun g => { g with iqIndex := g.iqIndex ++ intervals }

end IntervalQueryIndex

namespace PartitionIndex

/-! ### Rewriting blocks -/

/-- Blocks that are stored under new ids. -/
def addSubBlocks : List (Block T (AttributeData schema)) → Storage P T schema (List BlockId)
  | [] => pure []
  | block :: blocks => do
      let block ← BlockManager.addBlock block
      let rest ← addSubBlocks blocks
      return block.id :: rest

/-- `(int)n` for a number of elements. -/
def toInt (n : Nat) : Int := (n : Int).bmod 4294967296

/-- A value of `int` arithmetic, from `INT_MIN` to `INT_MAX`. -/
def intOf (z : Int) : Except Fault Int :=
  if -2147483648 ≤ z ∧ z ≤ 2147483647 then .ok z else .error (.undefined .intOverflow)

def numReplace (subBlocks newBlocks : Nat) : Int := toInt (min subBlocks (newBlocks - 1))

def numAdd (subBlocks newBlocks : Nat) : Except Fault Int := do
  let newSubs ← intOf (toInt newBlocks - 1)
  let more ← intOf (newSubs - toInt subBlocks)
  return max 0 more

def numRemove (subBlocks newBlocks : Nat) : Except Fault Int := do
  let blocks ← intOf (1 + toInt subBlocks)
  let fewer ← intOf (blocks - toInt newBlocks)
  return max 0 fewer

/-- A new sub-block takes over the id of an old one. -/
def replaceSubBlock (subBlocks : List BlockId) (newBlocks : List (Block T (AttributeData schema)))
    (i : Nat) : Storage P T schema (List (Block T (AttributeData schema))) := do
  let id ← ofResult (elementAt subBlocks i)
  let block ← ofResult (elementAt newBlocks (i + 1))
  let block := { block with id := id }
  BlockManager.updateBlock block
  return newBlocks.set (i + 1) block

/-- A new sub-block beyond the old ones. -/
def addSubBlock (subBlocks : List BlockId) (newBlocks : List (Block T (AttributeData schema)))
    (i : Nat) : Storage P T schema (List (Block T (AttributeData schema))) := do
  let block ← ofResult (elementAt newBlocks (i + subBlocks.length + 1))
  let block ← BlockManager.addBlock block
  return newBlocks.set (i + subBlocks.length + 1) block

/-- An old sub-block beyond the new ones. -/
def removeSubBlock (subBlocks : List BlockId) (newBlocks : Nat) (_ : Unit) (i : Nat) :
    Storage P T schema Unit := do
  let id ← ofResult (elementAt subBlocks (i + newBlocks - 1))
  BlockManager.removeBlock id

/-- The loops of `replaceBlocks`, and the new master after them. -/
def replaceCounted (masterBlock : Block T (AttributeData schema))
    (newBlocks : List (Block T (AttributeData schema))) (replaces adds removes : Nat) :
    Storage P T schema Unit := do
  let subBlocks := masterBlock.subBlocks
  let newBlocks ← (List.range replaces).foldlM (replaceSubBlock subBlocks) newBlocks
  let newBlocks ← (List.range adds).foldlM (addSubBlock subBlocks) newBlocks
  (List.range removes).foldlM (removeSubBlock subBlocks newBlocks.length) ()
  let newMaster ← ofResult (elementAt newBlocks 0)
  BlockManager.updateBlock { newMaster with
    id := masterBlock.id, subBlocks := newMaster.subBlocks ++ (newBlocks.drop 1).map Block.id }

def replaceBlocks (masterBlock : Block T (AttributeData schema))
    (newBlocks : List (Block T (AttributeData schema))) : Storage P T schema Unit := do
  if newBlocks.isEmpty then throw (.assertFailed .replaceBlocksMaster)
  let subBlocks := masterBlock.subBlocks
  let replaces := numReplace subBlocks.length newBlocks.length
  let adds ← ofResult (numAdd subBlocks.length newBlocks.length)
  let removes ← ofResult (numRemove subBlocks.length newBlocks.length)
  replaceCounted masterBlock newBlocks replaces.toNat adds.toNat removes.toNat

/-- `updateBlocks` for one block id that comes up for the first time. -/
def rewriteBlock (startTime endTime : T) (id : BlockId) : Storage P T schema Unit := do
  let masterBlock ← BlockManager.getBlock id
  let partitioningTimestamp ← ofResult masterBlock.getPartitioningTimestamp
  if partitioningTimestamp < startTime ∨ endTime ≤ partitioningTimestamp then return ()
  else do
    let recombMaster ← masterBlock.recombineBlock
    let newBlocks ← onIndex recombMaster.partitionBlock
    replaceBlocks masterBlock newBlocks

/-- The loop of `updateBlocks`: the iterator moves on before the block is looked at. -/
def updateLoop (startTime endTime : T) :
    Nat → List (IntervalData T) → List BlockId → Storage P T schema Unit
  | _, [], _ => pure ()
  | 0, _ :: _, _ => throw .outOfFuel
  | fuel + 1, e :: rest, seenIds => do
      let it ← IntervalQueryIndex.findNext startTime endTime rest
      if e.id ∈ seenIds then updateLoop startTime endTime fuel it seenIds
      else do
        rewriteBlock startTime endTime e.id
        updateLoop startTime endTime fuel it (e.id :: seenIds)

def updateBlocks (rtree : RTree T) (startTime endTime : T) : Storage P T schema Unit := do
  let it ← IntervalQueryIndex.query rtree startTime endTime
  updateLoop startTime endTime it.length it []

/-- `updateBlocks` over the slices of a sequence. -/
def updateSlices (rtree : RTree T) : List (TimeSlicedPartitioning T) → Storage P T schema Unit
  | [] => pure ()
  | partitioning :: rest => do
      updateBlocks rtree partitioning.startTime partitioning.endTime
      updateSlices rtree rest

/-! ### Replacing slices -/

def getPartitioningAttributeCount (parting : Partitioning) : Nat := parting.flatten.dedup.length

/-- Each slice starts where the one before it ends. -/
def contiguous : List (TimeSlicedPartitioning T) → Bool
  | s :: s' :: rest => TimeEq s'.startTime s.endTime && contiguous (s' :: rest)
  | _ => true

/-- The exception with its text. -/
def refuse {α : Type} (description : String) : Storage P T schema α :=
  throw (.timeSlicedPartitionReplacement description)

/-- The checks of `replaceTimeSlicedPartitioning`. -/
def checkReplacement (schema : Schema) (toBeReplaced : TimeSlicedPartitioning T)
    (replacement : List (TimeSlicedPartitioning T)) : Option String :=
  match replacement.head?, replacement.getLast? with
  | some first, some last =>
      if ¬ TimeEq toBeReplaced.startTime first.startTime then
        some ("start time of the time slice to be replaced does not match that "
          ++ "of the replacement time slice sequence")
      else if ¬ TimeEq toBeReplaced.endTime last.endTime then
        some ("end time of the time slice to be replaced does not match that "
          ++ "of the replacement time slice sequence")
      else if ¬ contiguous replacement then
        some "replacement time slice sequence is not contigious in time"
      else if ∃ parting ∈ replacement,
          getPartitioningAttributeCount parting.partitioning ≠ schema.attributes.length then
        some "replacement partitioning has missing attributes"
      else none
  | _, _ => some "replacement time slice sequence is empty"

/-- The checks of `replaceTimeSlicedPartitionings`. -/
def checkReplaced (schema : Schema) (toBeReplaced : List (TimeSlicedPartitioning T))
    (replacement : TimeSlicedPartitioning T) : Option String :=
  match toBeReplaced.head?, toBeReplaced.getLast? with
  | some first, some last =>
      if ¬ TimeEq first.startTime replacement.startTime then
        some ("start time of the time slice sequence to be replaced does not "
          ++ "match that of the replacement time slice")
      else if ¬ TimeEq last.endTime replacement.endTime then
        some ("end time of the time slice sequence to be replaced does not "
          ++ "match that of the replacement time slice")
      else if ¬ contiguous toBeReplaced then
        some "replacement time slice sequence is not contigious in time"
      else if getPartitioningAttributeCount replacement.partitioning
          ≠ schema.attributes.length then
        some "replacement partitioning has missing attributes"
      else none
  | _, _ => some "time slice sequence to be replaced is empty"

/-- A change of the partition index for each slice of a sequence. -/
def forSlices (f : P → TimeSlicedPartitioning T → Except Fault P) :
    List (TimeSlicedPartitioning T) → Storage P T schema Unit
  | [] => pure ()
  | partitioning :: rest => do
      onIndex fun partIndex => (f partIndex partitioning).map fun p => ((), p)
      forSlices f rest

/-- What both calls do once the checks have passed: the blocks are brought up to date over the
ranges `updated`. -/
def replaceSlices (rtree : RTree T) (removed added updated : List (TimeSlicedPartitioning T)) :
    Storage P T schema Unit := do
  forSlices SliceIndex.initiatePartitioningRemoval removed
  forSlices SliceIndex.addPartitioning added
  updateSlices rtree updated
  modify fun g => { g with partIndex := SliceIndex.completePartitioningRemovals g.partIndex }

def replaceTimeSlicedPartitioning (rtree : RTree T) (toBeReplaced : TimeSlicedPartitioning T)
    (replacement : List (TimeSlicedPartitioning T)) : Storage P T schema Unit :=
  match checkReplacement schema toBeReplaced replacement with
  | some description => refuse description
  | none => replaceSlices rtree [toBeReplaced] replacement replacement

def replaceTimeSlicedPartitionings (rtree : RTree T)
    (toBeReplaced : List (TimeSlicedPartitioning T)) (replacement : TimeSlicedPartitioning T) :
    Storage P T schema Unit :=
  match checkReplaced schema toBeReplaced replacement with
  | some description => refuse description
  | none => replaceSlices rtree toBeReplaced [replacement] toBeReplaced

end PartitionIndex

end RailwayDB
