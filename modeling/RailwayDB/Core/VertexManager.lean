/-
`VertexManager.cpp`: the data of the vertices, in a store with a cache over it.

What a call has changed before it throws stays changed.  An entry whose read failed
half way is there without an iterator, with the values of new data.
-/
import RailwayDB.Core.AttributeData
import RailwayDB.Lib.LruList
import RailwayDB.Lib.SortedMap

namespace RailwayDB

structure VertexManager (schema : Schema) where
  reqCount : Nat
  hitCount : Nat
  vertexDataBufferSize : Nat
  lru : LruCache VertexId (AttributeData schema)
  db : SortedMap (List Byte) (List Byte)

namespace VertexManager

variable {schema : Schema} {α : Type}

/-- A call on a vertex manager. -/
abbrev Vertices (schema : Schema) := EStateM Fault (VertexManager schema)

/-- `VertexManager(conf)` over a store. -/
def new (vertexDataBufferSize : Nat) (db : SortedMap (List Byte) (List Byte)) :
    VertexManager schema :=
  { reqCount := 0, hitCount := 0, vertexDataBufferSize := vertexDataBufferSize,
    lru := .empty, db := db }

def ofResult (x : Except Fault α) : Vertices schema α :=
  match x with
  | .ok a => pure a
  | .error e => throw e

/-- `keyBuf << id`. -/
def key (id : VertexId) : Except Fault (List Byte) := do
  let keyBuf := NetworkByteBuffer.ofSize 8
  let keyBuf ← keyBuf.addUInt64 (BitVec.ofFin id)
  return keyBuf.contents

/-- The way through the cache. -/
def hit (id : VertexId) (entry : LruEntry (AttributeData schema)) :
    Vertices schema (AttributeData schema) := do
  modify fun vman => { vman with hitCount := vman.hitCount + 1 }
  match (← get).lru.touch id entry with
  | none => throw (.undefined .danglingIterator)
  | some lru => do
      modify fun vman => { vman with lru := lru }
      return entry.data

/-- Drop the vertex read longest ago when there are too many. -/
def evict (vman : VertexManager schema) : VertexManager schema :=
  if vman.vertexDataBufferSize ≤ vman.lru.lruList.length then { vman with lru := vman.lru.popBack }
  else vman

/-- The data behind the reference that is returned. -/
def dataAt (vman : VertexManager schema) (id : VertexId) : Except Fault (AttributeData schema) :=
  match vman.lru.cache.lookup id with
  | none => .error (.undefined .danglingReference)
  | some entry => .ok entry.data

/-- The way through the store. -/
def fetch (id : VertexId) : Vertices schema (AttributeData schema) := do
  let key ← ofResult (key id)
  match (← get).db.find? key with
  | none => throw (.vertexNotFound id)
  | some value => do
      modify fun vman => { vman with lru := vman.lru.reserve id (AttributeData.new schema) }
      let (data, _) ←
        ofResult (AttributeData.read (NetworkByteBuffer.ofBytes value) (AttributeData.new schema))
      modify fun vman => { vman with lru := vman.lru.pushFront id data }
      modify evict
      ofResult ((← get).dataAt id)

def getVertexData (id : VertexId) : Vertices schema (AttributeData schema) := do
  modify fun vman => { vman with reqCount := vman.reqCount + 1 }
  match (← get).lru.cache.lookup id with
  | some entry => hit id entry
  | none => fetch id

/-- `db_->Get`, and `db_->Put` when the vertex is not there. -/
def store (id : VertexId) (data : AttributeData schema) : Vertices schema Unit := do
  let key ← ofResult (key id)
  match (← get).db.find? key with
  | some _ => throw (.vertexAlreadyExists id)
  | none => do
      let dataBuf ← ofResult (data.write NetworkByteBuffer.new)
      modify fun vman => { vman with db := vman.db.insert key dataBuf.contents }

def addVertex (id : VertexId) (data : AttributeData schema) : Vertices schema Unit := do
  if id ∈ (← get).lru.cache then throw (.vertexAlreadyExists id) else store id data

end VertexManager

end RailwayDB
