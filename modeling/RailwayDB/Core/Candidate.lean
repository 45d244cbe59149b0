/-
`Candidate.cpp`: a block in the making, as the number of edges taken from each list.

A candidate keeps counters beside the counts: its size in bytes, its edges, those
whose other direction is not taken (`outEdgeCount_`), how often each vertex is
present, the newest time of each list, and the pairs of heads with an edge between
them.  Counters are 64-bit unsigned; where the source decrements one that may be zero
the decrement wraps.

`SUEdge` is meant to be an unordered pair.  Its constructor stores `u` in both
members when `u <= v`, and the model keeps that.
-/
import RailwayDB.Core.Conf
import RailwayDB.Core.NeighborList
import RailwayDB.Core.PriorityQueue
import RailwayDB.Core.Score

namespace RailwayDB

structure SUEdge where
  u : VertexId
  v : VertexId
  deriving DecidableEq, Repr

/-- `SUEdge(u, v)`. -/
def SUEdge.of (u v : VertexId) : SUEdge := if v < u then ⟨v, u⟩ else ⟨u, u⟩

/-- `std::unordered_map<K, size_t>` with `m[k]++`, an absent key counting from zero. -/
def countUp {K : Type} [DecidableEq K] (m : AList fun _ : K => Nat) (k : K) :
    AList fun _ : K => Nat :=
  m.insert k (((m.lookup k).getD 0 + 1) % 2 ^ 64)

/-- `if (--m[k]==0) m.erase(k)`; an absent key counts as zero and wraps. -/
def countDown {K : Type} [DecidableEq K] (m : AList fun _ : K => Nat) (k : K) :
    AList fun _ : K => Nat :=
  let n := ((m.lookup k).getD 0 + (2 ^ 64 - 1)) % 2 ^ 64
  if n = 0 then m.erase k else m.insert k n

structure Candidate (T : Type) [LinearOrder T] where
  size : Nat
  edgeCount : Nat
  outEdgeCount : Nat
  presentVertices : AList fun _ : VertexId => Nat
  timestamps : PriorityQueue Tᵒᵈ VertexId
  numEdges : AList fun _ : VertexId => Nat
  internalEdges : AList fun _ : SUEdge => Nat

namespace Candidate

variable {T D : Type} [LinearOrder T]

/-- `Candidate()`. -/
def new : Candidate T :=
  { size := 8, edgeCount := 0, outEdgeCount := 0, presentVertices := ∅,
    timestamps := .new PriorityQueue.unbounded, numEdges := ∅, internalEdges := ∅ }

def getSerializedSize (c : Candidate T) : Nat := c.size

def getEdgeCount (c : Candidate T) (headVertex : VertexId) : Nat :=
  (c.numEdges.lookup headVertex).getD 0

def getNewestTime (c : Candidate T) : Except Fault T :=
  c.timestamps.getTopItem.map fun item => OrderDual.ofDual item.1

/-- `map.getNeighborLists().find(v)->second`. -/
def findList (lists : NeighborListMap T D) (v : VertexId) : Except Fault (NeighborList T D) :=
  match lists.lookup v with
  | some nlist => .ok nlist
  | none => .error (.undefined .missingKey)

/-- The backward scan of `hasReverseEdge` over the edges at one time, from a position on. -/
def scanReverse (nlist : NeighborList T D) (headVertex : VertexId) (time : T) :
    Nat → Except Fault Bool
  | 0 => do
      let oedge ← nlist.getNthOldestEdge 0
      return time = oedge.time ∧ oedge.toVertex = headVertex
  | i + 1 => do
      let oedge ← nlist.getNthOldestEdge (i + 1)
      if time ≠ oedge.time then return false
      else if oedge.toVertex = headVertex then return true
      else scanReverse nlist headVertex time i

def hasReverseEdge (c : Candidate T) (lists : NeighborListMap T D) (headVertex : VertexId)
    (edge : NLEdge T D) : Except Fault Bool :=
  match c.numEdges.lookup edge.toVertex with
  | none => .ok false
  | some n => do
      let nlist ← findList lists edge.toVertex
      let oldest ← nlist.getOldestEdge
      let oedge ← nlist.getNthOldestEdge (n - 1)
      if oldest.time ≤ edge.time then
        if edge.time < oedge.time then return true
        else scanReverse nlist headVertex edge.time (n - 1)
      else return false

variable [SerializedSize D]

/-- The body of the loop that takes one more edge. -/
def takeEdge (lists : NeighborListMap T D) (headVertex : VertexId) (nlist : NeighborList T D)
    (c : Candidate T) (j : Nat) : Except Fault (Candidate T) := do
  let c := { c with size := c.size + 16 }
  let edge ← nlist.getNthOldestEdge j
  let c := { c with presentVertices := countUp c.presentVertices edge.toVertex }
  let found ← c.hasReverseEdge lists headVertex edge
  let c ←
    if found then
      if c.outEdgeCount = 0 then throw (.assertFailed .candidateOutEdgeCount)
      else pure { c with
        outEdgeCount := c.outEdgeCount - 1
        internalEdges := countUp c.internalEdges (SUEdge.of headVertex edge.toVertex) }
    else pure { c with outEdgeCount := c.outEdgeCount + 1 }
  let c := { c with edgeCount := c.edgeCount + 1 }
  if found then return c
  else return { c with size := c.size + getSerializedSizeOf edge.data.val }

/-- The body of the loop that gives one edge back. -/
def dropEdge (lists : NeighborListMap T D) (headVertex : VertexId) (nlist : NeighborList T D)
    (c : Candidate T) (j : Nat) : Except Fault (Candidate T) := do
  let c := { c with size := c.size - 16 }
  let edge ← nlist.getNthOldestEdge j
  let c := { c with presentVertices := countDown c.presentVertices edge.toVertex }
  let found ← c.hasReverseEdge lists headVertex edge
  let c ←
    if found then
      pure { c with
        outEdgeCount := c.outEdgeCount + 1
        internalEdges := countDown c.internalEdges (SUEdge.of headVertex edge.toVertex) }
    else
      if c.outEdgeCount = 0 then throw (.assertFailed .candidateOutEdgeCount)
      else pure { c with outEdgeCount := c.outEdgeCount - 1 }
  let c := { c with edgeCount := c.edgeCount - 1 }
  if found then return c
  else return { c with size := c.size - getSerializedSizeOf edge.data.val }

/-- The two loops of `setEdgeCount`. -/
def moveEdges (lists : NeighborListMap T D) (headVertex : VertexId) (nlist : NeighborList T D)
    (c : Candidate T) (cn n : Nat) : Except Fault (Candidate T) :=
  if cn < n then (List.range' cn (n - cn)).foldlM (takeEdge lists headVertex nlist) c
  else (List.range' n (cn - n)).reverse.foldlM (dropEdge lists headVertex nlist) c

/-- The end of `setEdgeCount`: the entries of the head itself. -/
def setHead (headVertex : VertexId) (nlist : NeighborList T D) (c : Candidate T) (cn n : Nat) :
    Except Fault (Candidate T) :=
  let c :=
    if cn = 0 then
      { c with size := c.size + 12, presentVertices := c.presentVertices.insert headVertex 1 }
    else c
  if n = 0 then
    .ok { c with
      numEdges := c.numEdges.erase headVertex
      timestamps := c.timestamps.removeItem headVertex
      size := c.size - 12
      presentVertices := countDown c.presentVertices headVertex }
  else
    (nlist.getNthOldestEdge (n - 1)).map fun newest =>
      { c with
        numEdges := c.numEdges.insert headVertex n
        timestamps := c.timestamps.updateItem (OrderDual.toDual newest.time) headVertex }

def setEdgeCount (lists : NeighborListMap T D) (c : Candidate T) (headVertex : VertexId)
    (n : Nat) : Except Fault (Candidate T) :=
  let cn := c.getEdgeCount headVertex
  if cn = n then .ok c
  else do
    let nlist ← findList lists headVertex
    let c ← moveEdges lists headVertex nlist c cn n
    if c.edgeCount < c.outEdgeCount then throw (.assertFailed .candidateEdgeCount)
    setHead headVertex nlist c cn n

variable {S : Type} [LinearOrder S] [Score S]

open Score in
def getLocality (c : Candidate T) (metric : LocalityMetric) : S :=
  let rConductance := sub (ofNat 1) (div (ofNat c.outEdgeCount) (ofNat c.edgeCount))
  let nlistCount := c.numEdges.keys.length
  let cohesiveness :=
    if nlistCount = 1 then half
    else div (ofNat c.internalEdges.keys.length)
      (mul (mul half (ofNat nlistCount)) (sub (ofNat nlistCount) (ofNat 1)))
  match metric with
  | .rccMixed => mul rConductance cohesiveness
  | .rConductance => rConductance
  | .cohesiveness => cohesiveness

end Candidate

end RailwayDB
