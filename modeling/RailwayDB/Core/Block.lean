/-
`Block.h` and the part of `Block.cpp` that fills a block.

A block is a map from head vertices to neighbour lists with a running count of the
bytes it will take: eight for its id, twelve for each list, sixteen for each edge of
a list, and the data of each edge once, whichever of its two directions came first.
`partition_` is not initialised by the source; blocks that are being filled never
read it.
-/
import RailwayDB.Core.NeighborList

namespace RailwayDB

structure Block (T D : Type) where
  id : BlockId
  partition : Int
  serializedSize : Nat
  subBlocks : List BlockId
  neigs : NeighborListMap T D

namespace Block

variable {T D : Type}

/-- `Block()`. -/
def new : Block T D :=
  { id := 0, partition := -1, serializedSize := 8, subBlocks := [], neigs := ∅ }

def getSerializedSize (block : Block T D) : Nat := block.serializedSize

def addNeighborList (block : Block T D) (id : VertexId) : Block T D :=
  if id ∈ block.neigs then block
  else
    { block with
      neigs := block.neigs.insert id ⟨id, []⟩
      serializedSize := block.serializedSize + 12 }

variable [Preorder T] [DecidableLE T] [DecidableLT T] [DecidableEq T] [SerializedSize D]

/-- What a block already holds of the data of an edge: the reverse direction shares it. -/
def sharedData (block : Block T D) (headVertex toVertex : VertexId) (tm : T) :
    Option (SharedPtr D) :=
  (block.neigs.lookup toVertex).bind fun nlist => nlist.getEdgeAttributeData headVertex tm

def addEdge (block : Block T D) (headVertex toVertex : VertexId) (tm : T) (data : SharedPtr D) :
    Except Fault (Block T D) := do
  let shared := block.sharedData headVertex toVertex tm
  match shared with
  | some sdata => if sdata.addr ≠ data.addr then throw (.assertFailed .blockAddEdgeSharedData)
  | none => pure ()
  let sdata := shared.getD data
  let block :=
    if shared.isNone then
      { block with serializedSize := block.serializedSize + getSerializedSizeOf sdata.val }
    else block
  let block := block.addNeighborList headVertex
  return { block with
    neigs := block.neigs.insert headVertex
      ⟨headVertex, block.neigs.edges headVertex ++ [⟨toVertex, tm, sdata⟩]⟩
    serializedSize := block.serializedSize + 16 }

/-- The bytes of data that go with an edge: they are taken off the count only when the other end
is a head of the block, and holds no other direction of the edge. -/
def removedData (block : Block T D) (headVertex : VertexId) (edge : NLEdge T D) : Nat :=
  match block.neigs.lookup edge.toVertex with
  | none => 0
  | some nlist =>
      if (nlist.getEdgeAttributeData headVertex edge.time).isNone then
        getSerializedSizeOf edge.data.val
      else 0

def removeNewestEdge (block : Block T D) (headVertex : VertexId) : Except Fault (Block T D) :=
  match block.neigs.lookup headVertex with
  | none => .error (.assertFailed .blockRemoveNewestEdgeHead)
  | some nlist => do
      let edge ← nlist.getNewestEdge
      let size := block.serializedSize - block.removedData headVertex edge - 16
      let nlist := nlist.removeNewestEdge
      if nlist.edges.isEmpty then
        return { block with
          neigs := block.neigs.erase headVertex
          serializedSize := size - 12 }
      else
        return { block with
          neigs := block.neigs.insert headVertex nlist
          serializedSize := size }

end Block

end RailwayDB
