/-
`BlockManager.cpp`: the store of blocks and the cache over it.

The calls run on the whole state of the historical graph, because reading a block
asks the partition index and handing out an id changes the meta data.  What a call
has changed before it throws stays changed.

As in the partition index, nodes of the list of recent reads are numbered, and an
iterator is the number of its node.  An entry whose read failed half way has no
iterator yet.
-/
import RailwayDB.Core.MetaDataManager
import RailwayDB.Core.StoredBlock

namespace RailwayDB

structure BlockAndIdIter (T : Type) (schema : Schema) where
  block : Block T (AttributeData schema)
  iter : Option Nat

structure BlockManager (T : Type) (schema : Schema) where
  blockBufferSize : Nat
  lruList : List (Nat × BlockId)
  /-- The next node number. -/
  nextNode : Nat
  cache : AList fun _ : BlockId => BlockAndIdIter T schema
  db : SortedMap (List Byte) (List Byte)

/-- An entry of the interval index: a neighbour list of a block and its time span. -/
structure IntervalData (T : Type) where
  id : BlockId
  vertex : VertexId
  intervalStart : T
  intervalEnd : T
  deriving DecidableEq, Repr

/-- `HistoricalGraph`, with the meta data it refers to. -/
structure HistoricalGraph (P T : Type) (schema : Schema) where
  partIndex : P
  bman : BlockManager T schema
  iqIndex : List (IntervalData T)
  fiqIndex : SortedMap (List Byte) (List Byte)
  metaData : MetaDataManager

/-- A call on the historical graph. -/
abbrev Storage (P T : Type) (schema : Schema) := EStateM Fault (HistoricalGraph P T schema)

namespace Storage

variable {P T : Type} {schema : Schema} {α : Type}

/-- A computation on values alone. -/
def ofResult (x : Except Fault α) : Storage P T schema α :=
  match x with
  | .ok a => pure a
  | .error e => throw e

/-- A call on the partition index. -/
def onIndex (f : P → Except Fault (α × P)) : Storage P T schema α := do
  let (a, partIndex) ← ofResult (f (← get).partIndex)
  modify fun g => { g with partIndex := partIndex }
  return a

def modifyBlocks (f : BlockManager T schema → BlockManager T schema) :
    Storage P T schema Unit :=
  modify fun g => { g with bman := f g.bman }

end Storage

namespace BlockManager

open Storage

variable {P T : Type} {schema : Schema}

/-- `BlockManager(conf, partitionIndex, meta)` over a store. -/
def new (blockBufferSize : Nat) (db : SortedMap (List Byte) (List Byte)) :
    BlockManager T schema :=
  { blockBufferSize := blockBufferSize, lruList := [], nextNode := 0, cache := ∅, db := db }

/-- `keyBuf << id`. -/
def key (id : BlockId) : Except Fault (List Byte) := do
  let keyBuf := NetworkByteBuffer.ofSize 8
  let keyBuf ← keyBuf.addUInt64 (BitVec.ofFin id)
  return keyBuf.contents

/-- `clear()`. -/
def clear (bman : BlockManager T schema) : BlockManager T schema :=
  { bman with lruList := [], cache := ∅ }

/-- `lruList_.erase(iter)`. -/
def eraseNode (bman : BlockManager T schema) (iter : Option Nat) :
    Except Fault (BlockManager T schema) :=
  match iter with
  | none => .error (.undefined .danglingIterator)
  | some node =>
      if node ∈ bman.lruList.map Prod.fst then
        .ok { bman with lruList := bman.lruList.filter fun n => n.1 ≠ node }
      else .error (.undefined .danglingIterator)

/-- `lruList_.push_front(id); blockAndIter.iter = lruList_.begin()`. -/
def pushFront (bman : BlockManager T schema) (id : BlockId)
    (block : Block T (AttributeData schema)) : BlockManager T schema :=
  { bman with
    lruList := (bman.nextNode, id) :: bman.lruList
    nextNode := bman.nextNode + 1
    cache := bman.cache.insert id ⟨block, some bman.nextNode⟩ }

/-- Drop the block read longest ago when there are too many. -/
def evict (bman : BlockManager T schema) : BlockManager T schema :=
  if bman.blockBufferSize < bman.lruList.length then
    match bman.lruList.getLast? with
    | none => bman
    | some (_, r) => { bman with lruList := bman.lruList.dropLast, cache := bman.cache.erase r }
  else bman

/-- A cache hit moves the block to the front. -/
def touch (bman : BlockManager T schema) (id : BlockId) (entry : BlockAndIdIter T schema) :
    Except Fault (BlockManager T schema) :=
  if entry.iter ≠ none ∧ entry.iter = bman.lruList.head?.map Prod.fst then .ok bman
  else (bman.eraseNode entry.iter).map fun bman => bman.pushFront id entry.block

/-- The block behind the reference that is returned. -/
def blockAt (bman : BlockManager T schema) (id : BlockId) :
    Except Fault (Block T (AttributeData schema)) :=
  match bman.cache.lookup id with
  | none => .error (.undefined .danglingReference)
  | some entry =>
      if entry.block.id = id then .ok entry.block else .error (.assertFailed .getBlockId)

variable [Preorder T] [DecidableLE T] [DecidableLT T] [DecidableEq T] [Timestamp T]
  [BlockTime T] [SliceIndex P T]

/-- The way through the store.  The entry is there before its block has been read. -/
def fetch (id : BlockId) : Storage P T schema Unit := do
  let key ← ofResult (key id)
  match (← get).bman.db.find? key with
  | none => throw (.blockNotFound id)
  | some value => do
      modifyBlocks fun bman => { bman with cache := bman.cache.insert id ⟨.new, none⟩ }
      let (block, _) ← onIndex (Block.deserialize (NetworkByteBuffer.ofBytes value))
      modifyBlocks fun bman => (bman.pushFront id block).evict

/-- The way through the cache. -/
def hit (id : BlockId) (entry : BlockAndIdIter T schema) : Storage P T schema Unit := do
  let bman ← ofResult ((← get).bman.touch id entry)
  modifyBlocks fun _ => bman

def getBlock (id : BlockId) : Storage P T schema (Block T (AttributeData schema)) := do
  match (← get).bman.cache.lookup id with
  | some entry => hit id entry
  | none => fetch id
  ofResult ((← get).bman.blockAt id)

/-- `db_->Put` of a block under its id. -/
def put (block : Block T (AttributeData schema)) : Storage P T schema Unit := do
  let key ← ofResult (key block.id)
  let dataBuf ← ofResult (block.serialize NetworkByteBuffer.new)
  modifyBlocks fun bman => { bman with db := bman.db.insert key dataBuf.contents }

/-- `addBlock(block)`: the block with the id it was given. -/
def addBlock (block : Block T (AttributeData schema)) :
    Storage P T schema (Block T (AttributeData schema)) := do
  let block := { block with id := (← get).metaData.blockId }
  modify fun g =>
    { g with metaData := { g.metaData with nextBlockId := g.metaData.nextBlockId + 1 } }
  put block
  return block

/-- `existingBlock = block` writes through to the cache, `addBlock(existingBlock, false)` to the
store. -/
def updateBlock (block : Block T (AttributeData schema)) : Storage P T schema Unit := do
  let _ ← getBlock block.id
  modifyBlocks fun bman =>
    match bman.cache.lookup block.id with
    | none => bman
    | some entry => { bman with cache := bman.cache.insert block.id { entry with block := block } }
  put block

/-- Take a removed block out of the cache. -/
def forget (bman : BlockManager T schema) (id : BlockId) : Except Fault (BlockManager T schema) :=
  match bman.cache.lookup id with
  | none => .ok bman
  | some entry =>
      (bman.eraseNode entry.iter).map fun bman => { bman with cache := bman.cache.erase id }

def removeBlock (id : BlockId) : Storage P T schema Unit := do
  let key ← ofResult (key id)
  modifyBlocks fun bman => { bman with db := bman.db.erase key }
  let bman ← ofResult ((← get).bman.forget id)
  modifyBlocks fun _ => bman

end BlockManager

namespace Block

open Storage

variable {P T : Type} {schema : Schema} [Preorder T] [DecidableLE T] [DecidableLT T] [DecidableEq T]
  [Timestamp T] [BlockTime T] [SliceIndex P T]

/-- `getNeighborLists().find(headVertex)->second.getEdges()[k].getData()`. -/
def dataAt (block : Block T (AttributeData schema)) (headVertex : VertexId) (k : Nat) :
    Except Fault (AttributeData schema) :=
  match block.neigs.lookup headVertex with
  | none => .error (.undefined .missingKey)
  | some nlist => (nlist.getNthOldestEdge k).map fun edge => edge.data.val

/-- Collect what the sub-blocks have of an edge. -/
def collect (headVertex : VertexId) (k : Nat) :
    List BlockId → AttributeData schema → Storage P T schema (AttributeData schema)
  | [], sdata => pure sdata
  | id :: ids, sdata => do
      let block ← BlockManager.getBlock id
      let others ← ofResult (block.dataAt headVertex k)
      collect headVertex k ids (sdata.setAttributes others)

/-- One edge of `recombineBlock`. -/
def recombineEdge (ids : List BlockId) (headVertex : VertexId)
    (acc : Block T (AttributeData schema) × Shared T schema)
    (edge : NLEdge T (AttributeData schema) × Nat) :
    Storage P T schema (Block T (AttributeData schema) × Shared T schema) := do
  let etrip := EdgeTriplet.of headVertex edge.1.toVertex edge.1.time
  match acc.2.lookup etrip with
  | some sdata => do
      let block ← ofResult (acc.1.addEdge headVertex edge.1.toVertex edge.1.time sdata)
      return (block, acc.2)
  | none => do
      let data ← collect headVertex edge.2 ids (AttributeData.new schema)
      let sdata := ⟨acc.2.length, data⟩
      let block ← ofResult (acc.1.addEdge headVertex edge.1.toVertex edge.1.time sdata)
      return (block, (etrip, sdata) :: acc.2)

def recombineBlock (master : Block T (AttributeData schema)) :
    Storage P T schema (Block T (AttributeData schema)) := do
  if master.subBlocks = [] then throw (.assertFailed .masterSubBlocks)
  let (block, _) ← master.neigs.entries.foldlM
    (fun acc e => e.2.edges.zipIdx.foldlM (recombineEdge master.subBlocks e.1) acc)
    ({ Block.new with partition := -1 }, [])
  return block

end Block

end RailwayDB
