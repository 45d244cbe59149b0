/-
`HistoricalGraph.cpp` and `FocusedIntervalQueryIndex.cpp`: storing a block with its
indices, and going through the edges of a vertex in a range of time.

A store iterator is a snapshot: it is the list of the entries it has still to
visit.  The query looks at the attribute sizes only through whole numbers of bytes,
and a score is a double; a score that comes out as NaN is `none`, which compares
below nothing and above nothing.
-/
import RailwayDB.Core.IntervalQueryIndex
import Mathlib.Data.Rat.Floor

namespace RailwayDB

open Storage

variable {P T : Type} {schema : Schema} [LinearOrder T] [Timestamp T] [BlockTime T]
  [SliceIndex P T]

namespace FocusedIntervalQueryIndex

/-! ### The index -/

/-- `dataBuf << pair<BlockId, Timestamp>(block.id(), start)`. -/
def data (id : BlockId) (start : T) : Except Fault (List Byte) := do
  let dataBuf := NetworkByteBuffer.ofSize 16
  let dataBuf ← dataBuf.addUInt64 (BitVec.ofFin id)
  let dataBuf ← dataBuf.addDouble (Timestamp.toBits start)
  return dataBuf.contents

/-- The entry of one list. -/
def indexList (id : BlockId) (nlist : NeighborList T (AttributeData schema)) :
    Except Fault (List Byte × List Byte) := do
  let oldestEdge ← nlist.getOldestEdge
  let newestEdge ← nlist.getNewestEdge
  let key ← key nlist.headVertex newestEdge.time
  let data ← data id oldestEdge.time
  return (key, data)

/-- One turn of the loop: `db_->Put`. -/
def putList (id : BlockId) (nlist : NeighborList T (AttributeData schema)) :
    Storage P T schema Unit := do
  let (key, data) ← ofResult (indexList id nlist)
  modify fun g => { g with fiqIndex := g.fiqIndex.insert key data }

def indexLists (id : BlockId) :
    List (Sigma fun _ : VertexId => NeighborList T (AttributeData schema)) →
      Storage P T schema Unit
  | [] => pure ()
  | e :: rest => do
      putList id e.2
      indexLists id rest

def indexBlock (block : Block T (AttributeData schema)) : Storage P T schema Unit :=
  indexLists block.id block.neigs.entries

/-! ### Its iterator -/

/-- What `readCurrents` reads. -/
structure Currents (T : Type) where
  vertex : VertexId
  endTime : T
  block : BlockId
  startTime : T
  deriving DecidableEq, Repr

structure Iterator (T : Type) where
  vertex : VertexId
  rangeStart : T
  rangeEnd : T
  /-- The entries from the current one on. -/
  dbIter : List (List Byte × List Byte)
  currents : Option (Currents T)
  deriving DecidableEq

namespace Iterator

def readCurrents (entry : List Byte × List Byte) : Except Fault (Currents T) := do
  let (vertex, keyBuffer) ← (NetworkByteBuffer.ofBytes entry.1).getUInt64
  let (endTime, _) ← keyBuffer.getDouble
  let (block, valueBuffer) ← (NetworkByteBuffer.ofBytes entry.2).getUInt64
  let (startTime, _) ← valueBuffer.getDouble
  return ⟨vertex.toFin, Timestamp.ofBits endTime, block.toFin, Timestamp.ofBits startTime⟩

/-- The iterator at a position of the store. -/
def at_ (it : Iterator T) (dbIter : List (List Byte × List Byte)) : Except Fault (Iterator T) :=
  match dbIter with
  | [] => .ok { it with dbIter := [] }
  | entry :: _ =>
      (readCurrents entry).map fun c => { it with dbIter := dbIter, currents := some c }

/-- `Iterator(db, vertex, start, end)`. -/
def new (db : SortedMap (List Byte) (List Byte)) (vertex : VertexId) (start stop : T) :
    Except Fault (Iterator T) := do
  let target ← key vertex start
  at_ { vertex := vertex, rangeStart := start, rangeEnd := stop, dbIter := [], currents := none }
    (db.lowerBound target)

/-- The current entry, when the iterator is valid. -/
def valid? (it : Iterator T) : Option (Currents T) :=
  match it.dbIter, it.currents with
  | _ :: _, some c => if c.vertex = it.vertex ∧ c.startTime < it.rangeEnd then some c else none
  | _, _ => none

def next (it : Iterator T) : Except Fault (Iterator T) :=
  if it.valid?.isNone then .error (.assertFailed .iteratorValid) else it.at_ it.dbIter.tail

end Iterator

end FocusedIntervalQueryIndex

namespace HistoricalGraph

/-! ### Storing a block -/

/-- Store the sub-blocks; their ids. -/
def addSubBlocks : List (Block T (AttributeData schema)) → Storage P T schema (List BlockId) :=
  PartitionIndex.addSubBlocks

def addBlock (block : Block T (AttributeData schema)) : Storage P T schema Unit := do
  let newBlocks ← onIndex block.partitionBlock
  match newBlocks with
  | master :: sub :: subs => do
      let ids ← addSubBlocks (sub :: subs)
      let master ← BlockManager.addBlock { master with subBlocks := master.subBlocks ++ ids }
      IntervalQueryIndex.indexBlock master
      FocusedIntervalQueryIndex.indexBlock master
  | _ => throw (.assertFailed .addBlockSubBlocks)

/-! ### The vertices with edges in a range -/

structure VertexIterator (T : Type) where
  /-- `it_`: the entries from the current one on, and its range. -/
  it : List (IntervalData T)
  startTime : T
  endTime : T
  vertices : List VertexId
  last : Option VertexId

namespace VertexIterator

def isValid (vi : VertexIterator T) : Bool := !vi.it.isEmpty

/-- Take the vertex `it_` is at. -/
def take (vi : VertexIterator T) : VertexIterator T :=
  match vi.it with
  | [] => vi
  | e :: _ => { vi with last := some e.vertex, vertices := e.vertex :: vi.vertices }

/-- `VertexIterator(it)`. -/
def new (startTime endTime : T) (it : List (IntervalData T)) : VertexIterator T :=
  take { it := it, startTime := startTime, endTime := endTime, vertices := [], last := none }

/-- `do it_->next() while (it_->isValid() && vertices_.count(it_->getVertex())>0)`.  Each turn
leaves an entry behind. -/
def skip (startTime endTime : T) (vertices : List VertexId) :
    Nat → List (IntervalData T) → Storage P T schema (List (IntervalData T))
  | 0, _ => throw .outOfFuel
  | fuel + 1, it => do
      let it ← IntervalQueryIndex.next startTime endTime it
      match it with
      | [] => pure []
      | e :: rest =>
          if e.vertex ∈ vertices then skip startTime endTime vertices fuel (e :: rest)
          else pure (e :: rest)

def next (vi : VertexIterator T) : Storage P T schema (VertexIterator T) := do
  if vi.isValid then do
    let it ← skip vi.startTime vi.endTime vi.vertices vi.it.length vi.it
    return take { vi with it := it }
  else throw (.assertFailed .iteratorValid)

def getVertexId (vi : VertexIterator T) : Except Fault VertexId :=
  match vi.last with
  | none => .error (.undefined .uninitialized)
  | some vertex => .ok vertex

/-- Go through the vertices to the end. -/
def results : Nat → VertexIterator T → Storage P T schema (List VertexId)
  | fuel, vi =>
      if vi.isValid then
        match fuel with
        | 0 => throw .outOfFuel
        | fuel + 1 => do
            let vertex ← ofResult vi.getVertexId
            let vi ← vi.next
            let rest ← results fuel vi
            return vertex :: rest
      else pure []

end VertexIterator

/-- `intervalQuery`, gone through to the end: there are no more vertices than entries. -/
def intervalQuery (rtree : RTree T) (startTime endTime : T) :
    Storage P T schema (List VertexId) := do
  let it ← IntervalQueryIndex.query rtree startTime endTime
  VertexIterator.results it.length (.new startTime endTime it)

def intervalQueryBatch (rtree : RTree T) (startTime endTime : T) :
    Storage P T schema (List VertexId) :=
  IntervalQueryIndex.queryBatch rtree startTime endTime

/-! ### The edges of a vertex -/

/-- `FocusedIntervalQuery`. -/
structure FocusedIntervalQuery (T : Type) where
  headVertex : VertexId
  startTime : T
  endTime : T
  attributeNames : List Text

structure EdgeIterator (T : Type) where
  done : Bool
  currentEdgeIndex : Nat
  currentNumEdges : Nat
  partitioning : TimeSlicedPartitioning T
  partitionIndices : List Nat
  it : FocusedIntervalQueryIndex.Iterator T
  queryAttributes : List Text

namespace EdgeIterator

/-- `numberOfEdgesInABlock`. -/
def numberOfEdgesInABlock : Nat := 24

/-- `stats.getAvgSize(schema.getIndex(attr))`, as a `size_t`. -/
def getAttributeSize (schema : Schema) (stats : SchemaStats) (attr : Text) : Except Fault Nat := do
  let index ← schema.getIndex attr
  let size ← stats.getAvgSize index
  if size.floor.toNat < 2 ^ 64 then return size.floor.toNat
  else throw (.undefined .intOverflow)

def getPartitionSize (schema : Schema) (stats : SchemaStats) (attrs : List Text) :
    Except Fault Nat :=
  attrs.foldlM (fun totalSize attr => do
    return (totalSize + (← getAttributeSize schema stats attr)) % 2 ^ 64) 0

/-- A part's score, a double: `none` is no number and `⊤` is infinity. -/
abbrev Score := Option (WithTop ℚ)

/-- `bytes / partitionSize` for doubles; without a size it is no number or infinity. -/
def share (bytes partitionSize : Nat) : Score :=
  if partitionSize = 0 then if bytes = 0 then none else some ⊤
  else some ((bytes / partitionSize : ℚ) : WithTop ℚ)

/-- One attribute's share of a part's score. -/
def addScore (schema : Schema) (stats : SchemaStats) (partitionSize : Nat) (score : Score)
    (attr : Text) : Except Fault Score := do
  let size ← getAttributeSize schema stats attr
  return Option.map₂ (· + ·) score (share (size * numberOfEdgesInABlock % 2 ^ 64) partitionSize)

/-- The attributes of a part that the query still lacks. -/
def wanted (queryAttributes selectedAttributes part : List Text) : List Text :=
  part.filter fun attr => attr ∉ selectedAttributes ∧ attr ∈ queryAttributes

def partitionScore (schema : Schema) (stats : SchemaStats)
    (queryAttributes selectedAttributes part : List Text) : Except Fault Score := do
  let partitionSize ← getPartitionSize schema stats part
  (wanted queryAttributes selectedAttributes part).foldlM (addScore schema stats partitionSize)
    (some 0)

/-- `parting[i]`. -/
def partAt (parting : Partitioning) (i : Nat) : Except Fault (List Text) :=
  match parting[i]? with
  | some part => .ok part
  | none => .error (.undefined .outOfRange)

/-- `partitionScore > bestPartitionScore`. -/
def better (score best : Score) : Bool :=
  match score, best with
  | some s, some b => b < s
  | _, _ => false

/-- One part against the best so far. -/
def considerPart (schema : Schema) (stats : SchemaStats) (parting : Partitioning)
    (queryAttributes selectedAttributes : List Text) (best : Nat × Score) (i : Nat) :
    Except Fault (Nat × Score) := do
  let part ← partAt parting i
  let score ← partitionScore schema stats queryAttributes selectedAttributes part
  return if better score best.2 then (i, score) else best

/-- The loop of `recomputePartitionIndices`.  Every turn uses up a part, so more turns than parts
read past the end of the partitioning. -/
def selectParts (schema : Schema) (stats : SchemaStats) (ω : SetOrder) (parting : Partitioning)
    (queryAttributes : List Text) :
    (fuel : Nat) → (selectedAttributes : List Text) → (unusedPartitions : List Nat) →
      Except Fault (List Nat)
  | fuel, selectedAttributes, unusedPartitions =>
      if selectedAttributes.length = queryAttributes.length then .ok []
      else
        match fuel with
        | 0 => .error .outOfFuel
        | fuel + 1 => do
            let (best, _) ← (ω.order unusedPartitions).foldlM
              (considerPart schema stats parting queryAttributes selectedAttributes)
              (parting.length, some ((-1 : ℚ) : WithTop ℚ))
            let part ← partAt parting best
            let selectedAttributes :=
              selectedAttributes ++ (wanted queryAttributes selectedAttributes part).dedup
            let rest ← selectParts schema stats ω parting queryAttributes fuel selectedAttributes
              (unusedPartitions.filter fun i => i ≠ best)
            return best :: rest

def recomputePartitionIndices (schema : Schema) (stats : SchemaStats) (ω : SetOrder)
    (parting : Partitioning) (queryAttributes : List Text) : Except Fault (List Nat) :=
  selectParts schema stats ω parting queryAttributes (parting.length + 1) []
    (List.range parting.length)

/-- The partitioning of a block and the parts to read, kept while the blocks stay in one slice. -/
def usePartitioning (ω : SetOrder) (ei : EdgeIterator T) (partitioningTimestamp : T) :
    Storage P T schema (EdgeIterator T) := do
  if ei.partitionIndices = [] ∨ partitioningTimestamp < ei.partitioning.startTime ∨
      ei.partitioning.endTime ≤ partitioningTimestamp then do
    let partitioning ←
      onIndex fun p => SliceIndex.getTimeSlicedPartitioning p partitioningTimestamp
    let indices ← ofResult (recomputePartitionIndices schema (← get).metaData.schemaStats ω
      partitioning.partitioning ei.queryAttributes)
    return { ei with partitioning := partitioning, partitionIndices := indices }
  else return ei

/-- `block.getNeighborLists().find(vertex)->second`. -/
def listOf (block : Block T (AttributeData schema)) (vertex : VertexId) :
    Except Fault (NeighborList T (AttributeData schema)) :=
  match block.neigs.lookup vertex with
  | some nlist => .ok nlist
  | none => .error (.undefined .missingKey)

/-- The first edge of a list in the range, and whether it is past its end. -/
def enterList (ei : EdgeIterator T) (nlist : NeighborList T (AttributeData schema)) :
    Except Fault (EdgeIterator T) :=
  let index := (nlist.edges.takeWhile fun e => e.time < ei.it.rangeStart).length
  match nlist.edges[index]? with
  | none => .error (.assertFailed .edgeIteratorInList)
  | some edge =>
      .ok { ei with
        currentEdgeIndex := index
        currentNumEdges := nlist.edges.length
        done := ei.done || decide (ei.it.rangeEnd ≤ edge.time) }

def initFromBlock (ω : SetOrder) (ei : EdgeIterator T)
    (c : FocusedIntervalQueryIndex.Currents T) : Storage P T schema (EdgeIterator T) := do
  let block ← BlockManager.getBlock c.block
  let partitioningTimestamp ← ofResult block.getPartitioningTimestamp
  let ei ← usePartitioning ω ei partitioningTimestamp
  let nlist ← ofResult (listOf block c.vertex)
  ofResult (ei.enterList nlist)

/-- Start on the block the index iterator is at, when it is at one. -/
def initIfValid (ω : SetOrder) (ei : EdgeIterator T) : Storage P T schema (EdgeIterator T) :=
  match ei.it.valid? with
  | some c => initFromBlock ω ei c
  | none => pure ei

/-- `EdgeIterator(fiqIndex_.query(..), &bman_, query)`. -/
def new (ω : SetOrder) (query : FocusedIntervalQuery T) :
    Storage P T schema (EdgeIterator T) := do
  let it ← ofResult (FocusedIntervalQueryIndex.Iterator.new (← get).fiqIndex query.headVertex
    query.startTime query.endTime)
  initIfValid ω
    { done := false, currentEdgeIndex := 0, currentNumEdges := 0, partitioning := .new,
      partitionIndices := [], it := it, queryAttributes := query.attributeNames.dedup }

/-- The index entry the iterator is at, when the iterator is valid. -/
def valid? (ei : EdgeIterator T) : Option (FocusedIntervalQueryIndex.Currents T) :=
  if ei.done then none else ei.it.valid?

/-- The edge at the current position. -/
def getEdge (ei : EdgeIterator T) (c : FocusedIntervalQueryIndex.Currents T) :
    Storage P T schema (NLEdge T (AttributeData schema)) := do
  let block ← BlockManager.getBlock c.block
  let nlist ← ofResult (listOf block c.vertex)
  ofResult (nlist.getNthOldestEdge ei.currentEdgeIndex)

def next (ω : SetOrder) (ei : EdgeIterator T) (c : FocusedIntervalQueryIndex.Currents T) :
    Storage P T schema (EdgeIterator T) := do
  let ei := { ei with currentEdgeIndex := ei.currentEdgeIndex + 1 }
  if ei.currentEdgeIndex < ei.currentNumEdges then do
    let edge ← ei.getEdge c
    return { ei with done := ei.done || decide (ei.it.rangeEnd ≤ edge.time) }
  else do
    let it ← ofResult ei.it.next
    initIfValid ω { ei with it := it }

/-- Collect the queried attributes of an edge from the sub-blocks of the parts in use. -/
def collectParts (vertex : VertexId) (k : Nat) (subBlocks : List BlockId) :
    List Nat → AttributeData schema → Storage P T schema (AttributeData schema)
  | [], data => pure data
  | i :: rest, data => do
      match subBlocks[i]? with
      | none => throw (.assertFailed .edgeIteratorSubBlockIndex)
      | some id => do
          let block ← BlockManager.getBlock id
          let others ← ofResult (block.dataAt vertex k)
          collectParts vertex k subBlocks rest (data.setAttributes others)

def getEdgeData (ei : EdgeIterator T) (c : FocusedIntervalQueryIndex.Currents T) :
    Storage P T schema (AttributeData schema) := do
  let data ← ofResult (AttributeData.ofNames schema ei.queryAttributes)
  let masterBlock ← BlockManager.getBlock c.block
  if masterBlock.partition ≠ -1 then throw (.assertFailed .edgeIteratorMaster)
  else if masterBlock.subBlocks = [] then throw (.assertFailed .masterSubBlocks)
  else collectParts c.vertex ei.currentEdgeIndex masterBlock.subBlocks ei.partitionIndices data

/-- What a caller sees of an edge. -/
structure Found (T : Type) (schema : Schema) where
  toVertex : VertexId
  time : T
  data : AttributeData schema

/-- Go through the edges to the end: at each, its other end, its time and its data. -/
def results (ω : SetOrder) : Nat → EdgeIterator T → Storage P T schema (List (Found T schema))
  | fuel, ei =>
      match ei.valid?, fuel with
      | none, _ => pure []
      | some _, 0 => throw .outOfFuel
      | some c, fuel + 1 => do
          let edge ← ei.getEdge c
          let data ← ei.getEdgeData c
          let ei ← ei.next ω c
          let rest ← results ω fuel ei
          return ⟨edge.toVertex, edge.time, data⟩ :: rest

end EdgeIterator

/-- `focusedIntervalQuery`, gone through to the end. -/
def focusedIntervalQuery (ω : SetOrder) (query : FocusedIntervalQuery T) (fuel : Nat) :
    Storage P T schema (List (EdgeIterator.Found T schema)) := do
  let ei ← EdgeIterator.new ω query
  EdgeIterator.results ω fuel ei

end HistoricalGraph

end RailwayDB
