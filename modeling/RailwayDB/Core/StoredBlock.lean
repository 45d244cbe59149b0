/-
The part of `Block.cpp` that splits a block by attributes, joins it again, and
writes and reads it.

A block that goes to the store is split into a master block, which has the edges
without their data, and one sub-block for each part of the partitioning that is in
force at the middle of the block's time span.  What is written of a sub-block are
values without names: the reader looks the partitioning up again to know what they
are.

Data objects have addresses because `Block::addEdge` compares them.  They are only
ever compared within one block, so the objects a block gets are numbered from zero.
The order in which a hash map of lists is gone through is that of its entries.
-/
import RailwayDB.Core.AttributeData
import RailwayDB.Core.Block
import RailwayDB.Core.PartitionIndex

namespace RailwayDB

/-- An edge without its direction. -/
structure EdgeTriplet (T : Type) where
  lowId : VertexId
  highId : VertexId
  tm : T
  deriving DecidableEq, Repr

/-- `EdgeTriplet(id1, id2, tm)`. -/
def EdgeTriplet.of {T : Type} (id1 id2 : VertexId) (tm : T) : EdgeTriplet T :=
  ⟨min id1 id2, max id1 id2, tm⟩

namespace AttributeData

variable {schema : Schema}

/-- One turn of the loop that copies the attributes of a part. -/
def copyAttribute (source sdata : AttributeData schema) (attrb : Text) :
    Except Fault (AttributeData schema) := do
  let attrbIdx ← schema.getIndex attrb
  let value ← source.getAttribute attrbIdx
  return sdata.setAttribute attrbIdx value

/-- The data a sub-block keeps of an edge. -/
def select (source : AttributeData schema) (attributes : List Text) :
    Except Fault (AttributeData schema) := do
  let sdata ← ofNames schema attributes
  attributes.foldlM source.copyAttribute sdata

end AttributeData

namespace Block

variable {T : Type}

section Timestamps

variable {D : Type} [Preorder T] [DecidableLE T] [DecidableLT T] [DecidableEq T] [BlockTime T]

def updateMinMax (acc : T × T) (nlist : NeighborList T D) : Except Fault (T × T) := do
  let oldestEdge ← nlist.getOldestEdge
  let newestEdge ← nlist.getNewestEdge
  return (if oldestEdge.time < acc.1 then oldestEdge.time else acc.1,
    if acc.2 < newestEdge.time then newestEdge.time else acc.2)

def findMinMaxTimestamps (block : Block T D) : Except Fault (T × T) :=
  block.neigs.entries.foldlM (fun acc e => updateMinMax acc e.2)
    (BlockTime.maxValue, BlockTime.zero)

def getPartitioningTimestamp (block : Block T D) : Except Fault T :=
  block.findMinMaxTimestamps.map fun r => BlockTime.midpoint r.1 r.2

end Timestamps

variable {schema : Schema}

/-- The data objects made so far, by edge. -/
abbrev Shared (T : Type) (schema : Schema) :=
  List (EdgeTriplet T × SharedPtr (AttributeData schema))

/-- The object an edge has already, or a new one. -/
def share [DecidableEq T] (read : Shared T schema) (etrip : EdgeTriplet T)
    (make : Except Fault (AttributeData schema)) :
    Except Fault (SharedPtr (AttributeData schema) × Shared T schema) :=
  match read.lookup etrip with
  | some sdata => .ok (sdata, read)
  | none => make.map fun data => (⟨read.length, data⟩, (etrip, ⟨read.length, data⟩) :: read)

section Partition

variable [Preorder T] [DecidableLE T] [DecidableLT T] [DecidableEq T]

/-- `for (vIdNListPair : getNeighborLists()) for (edge : neighborList.getEdges())`, with the
position of the edge in its list. -/
def forEdges {β : Type} (block : Block T (AttributeData schema))
    (f : β → VertexId → NLEdge T (AttributeData schema) × Nat → Except Fault β) (init : β) :
    Except Fault β :=
  block.neigs.entries.foldlM
    (fun acc e => e.2.edges.zipIdx.foldlM (fun acc edge => f acc e.1 edge) acc) init

/-- The edges with one empty data object. -/
def masterBlock (block : Block T (AttributeData schema)) :
    Except Fault (Block T (AttributeData schema)) :=
  let sdata : SharedPtr (AttributeData schema) := ⟨0, .empty schema⟩
  block.forEdges
    (fun acc headVertex edge => acc.addEdge headVertex edge.1.toVertex edge.1.time sdata)
    { Block.new with partition := -1 }

/-- One edge of a sub-block. -/
def addPart (attributes : List Text)
    (acc : Block T (AttributeData schema) × Shared T schema) (headVertex : VertexId)
    (edge : NLEdge T (AttributeData schema) × Nat) :
    Except Fault (Block T (AttributeData schema) × Shared T schema) := do
  let etrip := EdgeTriplet.of headVertex edge.1.toVertex edge.1.time
  let (sdata, read) ← share acc.2 etrip (edge.1.data.val.select attributes)
  let block ← acc.1.addEdge headVertex edge.1.toVertex edge.1.time sdata
  return (block, read)

/-- The edges with the attributes of one part.  `partition_` is an `int`. -/
def subBlock (block : Block T (AttributeData schema)) (i : Nat) (attributes : List Text) :
    Except Fault (Block T (AttributeData schema)) :=
  (block.forEdges (addPart attributes)
    ({ Block.new with partition := (BitVec.ofNat 32 i).toInt }, [])).map Prod.fst

/-- The blocks of a partitioning: the master block, then a sub-block for each part. -/
def partitionWith (block : Block T (AttributeData schema)) (part : Partitioning) :
    Except Fault (List (Block T (AttributeData schema))) := do
  let master ← block.masterBlock
  let subs ← part.zipIdx.mapM fun p => block.subBlock p.2 p.1
  return master :: subs

variable [BlockTime T]

def partitionBlock {P : Type} [SliceIndex P T] (block : Block T (AttributeData schema))
    (partitionIndex : P) : Except Fault (List (Block T (AttributeData schema)) × P) := do
  let partitioningTimestamp ← block.getPartitioningTimestamp
  let (tpart, partitionIndex) ←
    SliceIndex.getTimeSlicedPartitioning partitionIndex partitioningTimestamp
  let blocks ← block.partitionWith tpart.partitioning
  return (blocks, partitionIndex)

end Partition

/-! ### Writing -/

section Codec

variable [Preorder T] [DecidableLE T] [DecidableLT T] [DecidableEq T] [Timestamp T]

/-- `sbuf << subBlocks_`. -/
def writeIds (sbuf : NetworkByteBuffer) (ids : List BlockId) : Except Fault NetworkByteBuffer := do
  let sbuf ← sbuf.addUInt32 (BitVec.ofNat 32 ids.length)
  ids.foldlM (fun sbuf id => sbuf.addUInt64 (BitVec.ofFin id)) sbuf

/-- The data of an edge goes with the direction that comes first. -/
def writeData (partition : Int) (sbuf : NetworkByteBuffer) (written : List (EdgeTriplet T))
    (etrip : EdgeTriplet T) (data : AttributeData schema) :
    Except Fault (NetworkByteBuffer × List (EdgeTriplet T)) :=
  if partition = -1 then .ok (sbuf, written)
  else if etrip ∈ written then .ok (sbuf, written)
  else (AttributeData.write sbuf data).map fun sbuf => (sbuf, etrip :: written)

def writeEdge (partition : Int) (headVertex : VertexId)
    (acc : NetworkByteBuffer × List (EdgeTriplet T)) (edge : NLEdge T (AttributeData schema)) :
    Except Fault (NetworkByteBuffer × List (EdgeTriplet T)) := do
  let sbuf ← acc.1.addUInt64 (BitVec.ofFin edge.toVertex)
  let sbuf ← sbuf.addDouble (Timestamp.toBits edge.time)
  writeData partition sbuf acc.2 (EdgeTriplet.of headVertex edge.toVertex edge.time) edge.data.val

def writeList (partition : Int) (acc : NetworkByteBuffer × List (EdgeTriplet T))
    (headVertex : VertexId) (edges : List (NLEdge T (AttributeData schema))) :
    Except Fault (NetworkByteBuffer × List (EdgeTriplet T)) := do
  let sbuf ← acc.1.addUInt64 (BitVec.ofFin headVertex)
  let sbuf ← sbuf.addUInt32 (BitVec.ofNat 32 edges.length)
  edges.foldlM (writeEdge partition headVertex) (sbuf, acc.2)

variable [BlockTime T]

def serialize (block : Block T (AttributeData schema)) (sbuf : NetworkByteBuffer) :
    Except Fault NetworkByteBuffer := do
  let (minTimestamp, maxTimestamp) ← block.findMinMaxTimestamps
  let sbuf ← sbuf.addUInt64 (BitVec.ofFin block.id)
  let sbuf ← writeIds sbuf block.subBlocks
  let sbuf ← sbuf.addDouble (Timestamp.toBits minTimestamp)
  let sbuf ← sbuf.addDouble (Timestamp.toBits maxTimestamp)
  let sbuf ← sbuf.addInt32 (BitVec.ofInt 32 block.partition)
  let (sbuf, _) ← block.neigs.entries.foldlM
    (fun acc e => writeList block.partition acc e.1 e.2.edges) (sbuf, [])
  if block.partition = -1 ∧ block.subBlocks = [] then throw (.assertFailed .masterSubBlocks)
  return sbuf

/-! ### Reading -/

/-- `sbuf >> subBlocks_`. -/
def readIds : Nat → NetworkByteBuffer → Except Fault (List BlockId × NetworkByteBuffer)
  | 0, sbuf => .ok ([], sbuf)
  | n + 1, sbuf => do
      let (id, sbuf) ← sbuf.getUInt64
      let (ids, sbuf) ← readIds n sbuf
      return (id.toFin :: ids, sbuf)

/-- The data of an edge: read when it comes first, shared afterwards. -/
def readData (partition : Int) (attributes : List Text) (sbuf : NetworkByteBuffer)
    (read : Shared T schema) (etrip : EdgeTriplet T) :
    Except Fault (SharedPtr (AttributeData schema) × NetworkByteBuffer × Shared T schema) :=
  if partition = -1 then .ok (⟨0, .empty schema⟩, sbuf, read)
  else
    match read.lookup etrip with
    | some sdata => .ok (sdata, sbuf, read)
    | none => do
        let data ← AttributeData.ofNames schema attributes
        let (data, sbuf) ← AttributeData.read sbuf data
        let sdata := ⟨read.length, data⟩
        return (sdata, sbuf, (etrip, sdata) :: read)

def readEdge (attributes : List Text) (headVertex : VertexId)
    (block : Block T (AttributeData schema)) (sbuf : NetworkByteBuffer) (read : Shared T schema) :
    Except Fault (Block T (AttributeData schema) × NetworkByteBuffer × Shared T schema) := do
  let (toVertex, sbuf) ← sbuf.getUInt64
  let (tm, sbuf) ← sbuf.getDouble
  let tm : T := Timestamp.ofBits tm
  let etrip := EdgeTriplet.of headVertex toVertex.toFin tm
  let (sdata, sbuf, read) ← readData block.partition attributes sbuf read etrip
  let block ← block.addEdge headVertex toVertex.toFin tm sdata
  return (block, sbuf, read)

def readEdges (attributes : List Text) (headVertex : VertexId) :
    Nat → Block T (AttributeData schema) → NetworkByteBuffer → Shared T schema →
      Except Fault (Block T (AttributeData schema) × NetworkByteBuffer × Shared T schema)
  | 0, block, sbuf, read => .ok (block, sbuf, read)
  | nedges + 1, block, sbuf, read => do
      let (block, sbuf, read) ← readEdge attributes headVertex block sbuf read
      readEdges attributes headVertex nedges block sbuf read

/-- `while (sbuf.getNRemainingBytes()>0)`.  A turn reads twelve bytes or more, so there are fewer
turns than bytes. -/
def readLists (attributes : List Text) :
    Nat → Block T (AttributeData schema) → NetworkByteBuffer → Shared T schema →
      Except Fault (Block T (AttributeData schema) × NetworkByteBuffer)
  | fuel, block, sbuf, read =>
      if sbuf.getNRemainingBytes = 0 then .ok (block, sbuf)
      else
        match fuel with
        | 0 => .error .outOfFuel
        | fuel + 1 => do
            let (headVertex, sbuf) ← sbuf.getUInt64
            let (nedges, sbuf) ← sbuf.getUInt32
            let (block, sbuf, read) ←
              readEdges attributes headVertex.toFin nedges.toNat block sbuf read
            readLists attributes fuel block sbuf read

/-- `part[partition_]`.  A master block forms the reference and never reads through it. -/
def partOf (part : Partitioning) (partition : Int) : Except Fault (List Text) :=
  if partition = -1 then .ok []
  else if partition < 0 then .error (.undefined .outOfRange)
  else
    match part[partition.toNat]? with
    | some attributes => .ok attributes
    | none => .error (.undefined .outOfRange)

/-- What stands before the lists: the block without them, and the middle of its time span. -/
def readHeader (block : Block T (AttributeData schema)) (sbuf : NetworkByteBuffer) :
    Except Fault ((Block T (AttributeData schema) × T) × NetworkByteBuffer) := do
  let (id, sbuf) ← sbuf.getUInt64
  let (nIds, sbuf) ← sbuf.getUInt32
  let (ids, sbuf) ← readIds nIds.toNat sbuf
  let (minTimestamp, sbuf) ← sbuf.getDouble
  let (maxTimestamp, sbuf) ← sbuf.getDouble
  let (partition, sbuf) ← sbuf.getInt32
  let block := { block with
    id := id.toFin, subBlocks := block.subBlocks ++ ids, partition := partition.toInt }
  return ((block, BlockTime.midpoint (Timestamp.ofBits minTimestamp : T)
    (Timestamp.ofBits maxTimestamp)), sbuf)

/-- The lists, by the partitioning looked up for them. -/
def readBody (block : Block T (AttributeData schema)) (sbuf : NetworkByteBuffer)
    (part : Partitioning) : Except Fault (Block T (AttributeData schema) × NetworkByteBuffer) := do
  let attributes ← partOf part block.partition
  let (block, sbuf) ← readLists attributes sbuf.getNRemainingBytes block sbuf []
  if block.partition = -1 ∧ block.subBlocks = [] then throw (.assertFailed .masterSubBlocks)
  return (block, sbuf)

/-- `deserialize` into a fresh block. -/
def deserialize {P : Type} [SliceIndex P T] (sbuf : NetworkByteBuffer) (partitionIndex : P) :
    Except Fault ((Block T (AttributeData schema) × NetworkByteBuffer) × P) := do
  let ((block, blockTimestamp), sbuf) ← readHeader Block.new sbuf
  let (tpart, partitionIndex) ←
    SliceIndex.getTimeSlicedPartitioningForBlockDeserialization partitionIndex blockTimestamp
  let r ← readBody block sbuf tpart.partitioning
  return (r, partitionIndex)

end Codec

end Block

end RailwayDB
