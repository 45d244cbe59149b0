/-
`InteractionGraph.h` and `InteractionGraph.cpp`: the graph a program opens on a
storage directory.

The state has all parts of the graph, so a call that throws leaves what it had
changed by then.  `InMemoryGraph.cpp` and the write of `ExpirationMap.cpp` are here
once more step by step, because a block goes to the historical graph in the middle
of them and may be refused there.

A directory keeps the two stores of blocks and vertices, the indices and the file
`MetaDataManager::store` writes.  Everything else starts anew when the graph is
opened again.  The collector of query workloads is left out: nothing here reads it.
-/
import RailwayDB.Core.HistoricalGraph
import RailwayDB.Core.InMemoryGraph
import RailwayDB.Core.VertexManager

namespace RailwayDB

structure InteractionGraph (P T S : Type) [LinearOrder S] (vertexSchema edgeSchema : Schema) where
  vman : VertexManager vertexSchema
  hisg : HistoricalGraph P T edgeSchema
  memg : InMemoryGraph T S (AttributeData edgeSchema)
  lastTime : T
  /-- The file in the storage directory, when there is one. -/
  file : Option MetaDataManager
  /-- The address the next data object gets. -/
  nextAddr : Nat

/-- A call on the graph. -/
abbrev Session (P T S : Type) [LinearOrder S] (vertexSchema edgeSchema : Schema) :=
  EStateM Fault (InteractionGraph P T S vertexSchema edgeSchema)

namespace InteractionGraph

variable {P T S : Type} [LinearOrder T] [LinearOrder S] [Score S] [TimeScore T S] [Timestamp T]
  [BlockTime T] [SliceIndex P T] {vertexSchema edgeSchema : Schema} {α : Type}

/-! ### Calls on the parts -/

def ofResult (x : Except Fault α) : Session P T S vertexSchema edgeSchema α :=
  match x with
  | .ok a => pure a
  | .error e => throw e

def onVertices (x : VertexManager.Vertices vertexSchema α) :
    Session P T S vertexSchema edgeSchema α := fun g =>
  match x g.vman with
  | .ok a vman => .ok a { g with vman := vman }
  | .error e vman => .error e { g with vman := vman }

def onHistory (x : Storage P T edgeSchema α) : Session P T S vertexSchema edgeSchema α := fun g =>
  match x g.hisg with
  | .ok a hisg => .ok a { g with hisg := hisg }
  | .error e hisg => .error e { g with hisg := hisg }

def modifyMemory (f : InMemoryGraph T S (AttributeData edgeSchema) →
    InMemoryGraph T S (AttributeData edgeSchema)) : Session P T S vertexSchema edgeSchema Unit :=
  modify fun g => { g with memg := f g.memg }

/-! ### Opening -/

/-- `InteractionGraph(conf)` on a directory as another graph left it. -/
def reopen (conf : Conf) (g : InteractionGraph P T S vertexSchema edgeSchema) :
    InteractionGraph P T S vertexSchema edgeSchema :=
  { vman := .new conf.vertexDataBufferSize g.vman.db
    hisg :=
      { partIndex := SliceIndex.reopen conf.partitioningBufferSize g.hisg.partIndex
        bman := .new conf.blockBufferSize g.hisg.bman.db
        iqIndex := g.hisg.iqIndex
        fiqIndex := g.hisg.fiqIndex
        metaData := .load g.file }
    memg := .new conf
    lastTime := BlockTime.zero
    file := g.file
    nextAddr := g.nextAddr }

/-- `InteractionGraph(conf)` on an empty directory, over a new partition index. -/
def new (conf : Conf) (partIndex : P) : InteractionGraph P T S vertexSchema edgeSchema :=
  { vman := .new conf.vertexDataBufferSize .empty
    hisg :=
      { partIndex := partIndex
        bman := .new conf.blockBufferSize .empty
        iqIndex := []
        fiqIndex := .empty
        metaData := .load none }
    memg := .new conf
    lastTime := BlockTime.zero
    file := none
    nextAddr := 0 }

/-! ### Edges -/

/-- `histg_->addBlock(block)`, when there is a block. -/
def handOver (block : Option (Block T (AttributeData edgeSchema))) :
    Session P T S vertexSchema edgeSchema Unit :=
  match block with
  | none => pure ()
  | some block => onHistory (HistoricalGraph.addBlock block)

/-- One turn of the loops of `InMemoryGraph`. -/
def expire (ω : Oracle S) : Session P T S vertexSchema edgeSchema Unit := do
  let oldEdge ← ofResult (← get).memg.vfifo.getOldestEdge
  let (data, memg) ← ofResult ((← get).memg.removeEdge oldEdge)
  modifyMemory fun _ => memg
  let (block, expm) ← ofResult (memg.expm.addEdge ω oldEdge data)
  modifyMemory fun memg => { memg with expm := expm }
  handOver block
  modifyMemory fun memg => { memg with vfifo := memg.vfifo.popOldestEdge }

/-- The loop of `InMemoryGraph::addEdge` and of `InMemoryGraph::flush`, with the condition of
each. -/
def expireWhile (more : EdgeFIFO T → Bool) (ω : Nat → Oracle S) :
    Nat → Session P T S vertexSchema edgeSchema Unit
  | 0 => do if more (← get).memg.vfifo then throw .outOfFuel
  | fuel + 1 => do
      if more (← get).memg.vfifo then
        expire (ω fuel)
        expireWhile more ω fuel

/-- The hook that keeps track of data sizes. -/
def countSizes : List (Nat × Value) → Session P T S vertexSchema edgeSchema Unit
  | [] => pure ()
  | f :: fields => do
      let size ← ofResult (AttributeData.getFieldSize edgeSchema f)
      modify fun g =>
        { g with hisg := { g.hisg with metaData := { g.hisg.metaData with
          schemaStats := g.hisg.metaData.schemaStats.incrCountAndBytes f.1 size } } }
      countSizes fields

/-- `InMemoryGraph::addEdge`. -/
def remember (ω : Nat → Oracle S) (v u : VertexId) (ts : T)
    (data : SharedPtr (AttributeData edgeSchema)) : Session P T S vertexSchema edgeSchema Unit := do
  modifyMemory fun memg => memg.enter v u ts data
  expireWhile EdgeFIFO.hasExpiredEdges ω (← get).memg.vfifo.edges.length
  countSizes data.val.fields

/-- `AttributeCollector::add`, from an index on. -/
def collect {schema : Schema} (data : AttributeData schema) : Nat → List Value →
    AttributeData schema
  | _, [] => data
  | index, t :: tn => collect (data.setAttribute index t) (index + 1) tn

/-- `createVertex`. -/
def createVertex (id : VertexId) (vertexData : List Value) :
    Session P T S vertexSchema edgeSchema Unit :=
  onVertices (VertexManager.addVertex id (collect (.new vertexSchema) 0 vertexData))

def getVertexData (id : VertexId) :
    Session P T S vertexSchema edgeSchema (AttributeData vertexSchema) :=
  onVertices (VertexManager.getVertexData id)

/-- `addEdge` after its asserts. -/
def insertEdge (ω : Nat → Oracle S) (v u : VertexId) (time : T) (edgeData : List Value) :
    Session P T S vertexSchema edgeSchema Unit := do
  let _ ← getVertexData v
  let _ ← getVertexData u
  if edgeData.length ≠ edgeSchema.attributes.length then
    throw (.runtimeError "Edge does not have the correct data for the schema.")
  else do
    let addr := (← get).nextAddr
    modify fun g => { g with nextAddr := addr + 1 }
    remember ω v u time ⟨addr, collect (.new edgeSchema) 0 edgeData⟩

def addEdge (ω : Nat → Oracle S) (v u : VertexId) (time : T) (edgeData : List Value) :
    Session P T S vertexSchema edgeSchema Unit := do
  if v = u then throw (.assertFailed .addEdgeDistinctEndpoints)
  else if ¬ (← get).lastTime < time then throw (.assertFailed .addEdgeIncreasingTime)
  else do
    modify fun g => { g with lastTime := time }
    insertEdge ω v u time edgeData

/-! ### Flushing -/

/-- `expm_.flush()`: `while(size_>0) writeBlock()`. -/
def writeBlocks (ω : Nat → Oracle S) : Nat → Session P T S vertexSchema edgeSchema Unit
  | 0 => do if 0 < (← get).memg.expm.size then throw .outOfFuel
  | fuel + 1 => do
      if 0 < (← get).memg.expm.size then
        let (block, expm) ← ofResult ((← get).memg.expm.writeBlock (ω fuel))
        modifyMemory fun memg => { memg with expm := expm }
        handOver (some block)
        writeBlocks ω fuel

/-- `meta_.store()`. -/
def storeMetaData : Session P T S vertexSchema edgeSchema Unit :=
  modify fun g => { g with file := some g.hisg.metaData.store }

/-- `flush`; `fuel` bounds the blocks the expiration map writes. -/
def flush (ω ω' : Nat → Oracle S) (fuel : Nat) : Session P T S vertexSchema edgeSchema Unit := do
  expireWhile (fun fifo => !fifo.isEmpty) ω (← get).memg.vfifo.edges.length
  writeBlocks ω' fuel
  storeMetaData

/-! ### Queries and slices -/

def processIntervalQuery (rtree : RTree T) (startTime endTime : T) :
    Session P T S vertexSchema edgeSchema (List VertexId) :=
  onHistory (HistoricalGraph.intervalQuery rtree startTime endTime)

def processIntervalQueryBatch (rtree : RTree T) (startTime endTime : T) :
    Session P T S vertexSchema edgeSchema (List VertexId) :=
  onHistory (HistoricalGraph.intervalQueryBatch rtree startTime endTime)

def processFocusedIntervalQuery (ω : SetOrder) (query : HistoricalGraph.FocusedIntervalQuery T)
    (fuel : Nat) : Session P T S vertexSchema edgeSchema
      (List (HistoricalGraph.EdgeIterator.Found T edgeSchema)) :=
  onHistory (HistoricalGraph.focusedIntervalQuery ω query fuel)

/-- `getPartitionIndex().replaceTimeSlicedPartitioning(..)`. -/
def replaceTimeSlicedPartitioning (rtree : RTree T) (toBeReplaced : TimeSlicedPartitioning T)
    (replacement : List (TimeSlicedPartitioning T)) :
    Session P T S vertexSchema edgeSchema Unit :=
  onHistory (PartitionIndex.replaceTimeSlicedPartitioning rtree toBeReplaced replacement)

def replaceTimeSlicedPartitionings (rtree : RTree T)
    (toBeReplaced : List (TimeSlicedPartitioning T)) (replacement : TimeSlicedPartitioning T) :
    Session P T S vertexSchema edgeSchema Unit :=
  onHistory (PartitionIndex.replaceTimeSlicedPartitionings rtree toBeReplaced replacement)

end InteractionGraph

end RailwayDB
