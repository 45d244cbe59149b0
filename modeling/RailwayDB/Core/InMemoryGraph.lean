/-
`InMemoryGraph.cpp`: the window of recent edges in front of the expiration map.

An edge enters two neighbour lists and the queue of the window.  When the window is
full its oldest edge moves on to the expiration map.  The calls return the blocks
that were handed to the historical graph while they ran, in order.  The hook that
counts data sizes is with the interaction graph.
-/
import RailwayDB.Core.ExpirationMap

namespace RailwayDB

structure InMemoryGraph (T S D : Type) [LinearOrder S] where
  vfifo : EdgeFIFO T
  expm : ExpirationMap T S D
  neigLists : NeighborListMap T D

namespace InMemoryGraph

variable {T S D : Type} [LinearOrder T] [LinearOrder S] [Score S] [TimeScore T S] [SerializedSize D]

/-- `InMemoryGraph(conf, hisg, stats)`. -/
def new (conf : Conf) : InMemoryGraph T S D :=
  { vfifo := ⟨conf.windowSize, []⟩, expm := .new conf, neigLists := ∅ }

/-- One half of `removeEdge`: the oldest edge of `v` must be the one to `u` at `tm`. -/
def removeFrom (lists : NeighborListMap T D) (v u : VertexId) (tm : T) :
    Except Fault (SharedPtr D × NeighborListMap T D) :=
  match lists.edges v with
  | [] => .error (.undefined .outOfRange)
  | oldest :: rest =>
      if oldest.toVertex ≠ u then .error (.assertFailed .removeEdgeToVertex)
      else if oldest.time ≠ tm then .error (.assertFailed .removeEdgeTime)
      else .ok (oldest.data, if rest.isEmpty then lists.erase v else lists.insert v ⟨v, rest⟩)

def removeEdge (g : InMemoryGraph T S D) (edge : UEdge T) :
    Except Fault (SharedPtr D × InMemoryGraph T S D) := do
  let (data, lists) ← removeFrom g.neigLists edge.firstVertex edge.secondVertex edge.time
  let (_, lists) ← removeFrom lists edge.secondVertex edge.firstVertex edge.time
  return (data, { g with neigLists := lists })

/-- Move the oldest edge of the window to the expiration map. -/
def expire (ω : Oracle S) (g : InMemoryGraph T S D) :
    Except Fault (Option (Block T D) × InMemoryGraph T S D) := do
  let oldEdge ← g.vfifo.getOldestEdge
  let (data, g) ← g.removeEdge oldEdge
  let (block, expm) ← g.expm.addEdge ω oldEdge data
  return (block, { g with expm := expm, vfifo := g.vfifo.popOldestEdge })

/-- The loop both `addEdge` and `flush` have, with the condition of each.  Every turn takes one edge
out of the window. -/
def expireWhile (more : EdgeFIFO T → Bool) (ω : Nat → Oracle S) (g : InMemoryGraph T S D) :
    Nat → Except Fault (List (Block T D) × InMemoryGraph T S D)
  | 0 => if more g.vfifo then .error .outOfFuel else .ok ([], g)
  | fuel + 1 =>
      if more g.vfifo then do
        let (block, g) ← g.expire (ω fuel)
        let (blocks, g) ← expireWhile more ω g fuel
        return (block.toList ++ blocks, g)
      else .ok ([], g)

/-- The edge as it stands in the window before anything is moved on. -/
def enter (g : InMemoryGraph T S D) (v u : VertexId) (ts : T) (data : SharedPtr D) :
    InMemoryGraph T S D :=
  let lists := NeighborListMap.addEdge g.neigLists v ⟨u, ts, data⟩
  let lists := NeighborListMap.addEdge lists u ⟨v, ts, data⟩
  { g with neigLists := lists, vfifo := g.vfifo.addEdge ⟨v, u, ts⟩ }

/-- `addEdge`, with `while(vfifo_.hasExpiredEdges())`. -/
def addEdge (ω : Nat → Oracle S) (g : InMemoryGraph T S D) (v u : VertexId) (ts : T)
    (data : SharedPtr D) : Except Fault (List (Block T D) × InMemoryGraph T S D) :=
  let g := g.enter v u ts data
  g.expireWhile EdgeFIFO.hasExpiredEdges ω g.vfifo.edges.length

/-- `while(!vfifo_.isEmpty())`. -/
def drain (ω : Nat → Oracle S) (g : InMemoryGraph T S D) :
    Except Fault (List (Block T D) × InMemoryGraph T S D) :=
  g.expireWhile (fun fifo => !fifo.isEmpty) ω g.vfifo.edges.length

/-- `flush` as far as it got after at most so many blocks of the expiration map. -/
def flushTurns (ω ω' : Nat → Oracle S) (g : InMemoryGraph T S D) (turns : Nat) :
    Except Fault (List (Block T D) × InMemoryGraph T S D) := do
  let (blocks, g) ← g.drain ω
  let (more, expm) ← g.expm.flushTurns ω' turns
  return (blocks ++ more, { g with expm := expm })

/-- `flush`; `fuel` bounds the blocks the expiration map writes. -/
def flush (ω ω' : Nat → Oracle S) (g : InMemoryGraph T S D) (fuel : Nat) :
    Except Fault (List (Block T D) × InMemoryGraph T S D) := do
  let r ← g.flushTurns ω ω' fuel
  if r.2.expm.size = 0 then return r else throw .outOfFuel

end InMemoryGraph

end RailwayDB
