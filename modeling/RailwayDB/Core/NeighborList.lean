/-
`NeighborList.h`, `Edge.h` and `EdgeFIFO.h`.

A neighbour list is the edges of one vertex, oldest first.  Every edge of the graph
stands in two lists, once for each end, and both share one data object.
`std::lower_bound` is the first position whose time is not earlier, which on a list
in time order is what its binary search finds.
-/
import RailwayDB.Core.Types
import Mathlib.Data.List.AList

namespace RailwayDB

/-- `getSerializedSizeOf` of an edge's data. -/
class SerializedSize (D : Type) where
  getSerializedSizeOf : D → Nat

export SerializedSize (getSerializedSizeOf)

/-- `NeighborList::Edge`. -/
structure NLEdge (T D : Type) where
  toVertex : VertexId
  time : T
  data : SharedPtr D
  deriving DecidableEq, Repr

/-- `UEdge`. -/
structure UEdge (T : Type) where
  firstVertex : VertexId
  secondVertex : VertexId
  time : T
  deriving DecidableEq, Repr

structure NeighborList (T D : Type) where
  headVertex : VertexId
  edges : List (NLEdge T D)
  deriving DecidableEq, Repr

variable {T D : Type}

namespace NeighborList

def getNthOldestEdge (nlist : NeighborList T D) (n : Nat) : Except Fault (NLEdge T D) :=
  match nlist.edges[n]? with
  | some edge => .ok edge
  | none => .error (.undefined .outOfRange)

def getOldestEdge (nlist : NeighborList T D) : Except Fault (NLEdge T D) :=
  match nlist.edges.head? with
  | some edge => .ok edge
  | none => .error (.undefined .outOfRange)

def getNewestEdge (nlist : NeighborList T D) : Except Fault (NLEdge T D) :=
  match nlist.edges.getLast? with
  | some edge => .ok edge
  | none => .error (.undefined .outOfRange)

def removeNewestEdge (nlist : NeighborList T D) : NeighborList T D :=
  { nlist with edges := nlist.edges.dropLast }

/-- The data of the edge to `toVertex` at `tm`, when the list has one. -/
def getEdgeAttributeData [Preorder T] [DecidableLT T] [DecidableEq T] (nlist : NeighborList T D)
    (toVertex : VertexId) (tm : T) : Option (SharedPtr D) :=
  (((nlist.edges.dropWhile fun e => e.time < tm).takeWhile fun e => e.time = tm).find?
    fun e => e.toVertex = toVertex).map NLEdge.data

def hasEdgesInRange [Preorder T] [DecidableLT T] (nlist : NeighborList T D) (start stop : T) :
    Bool :=
  match nlist.edges.dropWhile fun e => e.time < start with
  | [] => false
  | e :: _ => e.time < stop

end NeighborList

/-- `std::unordered_map<VertexId, NeighborList>`. -/
abbrev NeighborListMap (T D : Type) := AList fun _ : VertexId => NeighborList T D

/-- The edges under a key; a key that is absent has none. -/
def NeighborListMap.edges (m : NeighborListMap T D) (v : VertexId) : List (NLEdge T D) :=
  ((m.lookup v).map NeighborList.edges).getD []

/-- `NeighborList & nlist = lists[v]; nlist.headVertex() = v; nlist.addEdge(edge)`. -/
def NeighborListMap.addEdge (m : NeighborListMap T D) (v : VertexId) (edge : NLEdge T D) :
    NeighborListMap T D :=
  m.insert v ⟨v, m.edges v ++ [edge]⟩

/-- The number of edges in all lists. -/
def edgeTotal (m : NeighborListMap T D) : Nat := (m.entries.map fun e => e.2.edges.length).sum

/-- `EdgeFIFO`. -/
structure EdgeFIFO (T : Type) where
  windowSize : Nat
  edges : List (UEdge T)

namespace EdgeFIFO

def addEdge (fifo : EdgeFIFO T) (edge : UEdge T) : EdgeFIFO T :=
  { fifo with edges := fifo.edges ++ [edge] }

def isEmpty (fifo : EdgeFIFO T) : Bool := fifo.edges.isEmpty

def hasExpiredEdges (fifo : EdgeFIFO T) : Bool := fifo.windowSize < fifo.edges.length

def getOldestEdge (fifo : EdgeFIFO T) : Except Fault (UEdge T) :=
  match fifo.edges.head? with
  | some edge => .ok edge
  | none => .error (.undefined .outOfRange)

def popOldestEdge (fifo : EdgeFIFO T) : EdgeFIFO T := { fifo with edges := fifo.edges.tail }

end EdgeFIFO

end RailwayDB
