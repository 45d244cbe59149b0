/-
`ExpSetupHelper.cpp`, the traversals: `dfs` and `bfs` over the edges of a time range.

Both go through the edges of a focused interval query and ask of each other end whether
it was visited.  They are given here as written, with the test as it stands and with
the query `bfs` runs at every turn.  The edges are fetched one by one while the
traversal goes on, since a recursive call changes the buffers of the graph in between.

Beside the visited set the heads of the queries run are noted, in order.  The counts of
edges and fields are not used by anything and left out.
-/
import RailwayDB.Core.InteractionGraph
import Mathlib.Data.Finset.Insert

namespace RailwayDB.ExpSetupHelper

open HistoricalGraph (FocusedIntervalQuery EdgeIterator)
open InteractionGraph (onHistory)

/-- The visited set, and the heads of the queries run. -/
structure Visits where
  visited : Finset VertexId
  queries : List VertexId
  deriving DecidableEq

namespace Visits

def insert (visits : Visits) (v : VertexId) : Visits :=
  { visits with visited := Insert.insert v visits.visited }

/-- A query is run for this vertex. -/
def note (visits : Visits) (v : VertexId) : Visits :=
  { visits with queries := visits.queries ++ [v] }

end Visits

variable {P T S : Type} [LinearOrder T] [LinearOrder S] [Timestamp T] [BlockTime T]
  [SliceIndex P T]
  {vertexSchema edgeSchema : Schema} {α : Type}

/-- `for (; iqIt.isValid(); iqIt.next())` with this body. -/
def forEdges (ω : SetOrder)
    (body : EdgeIterator.Found T edgeSchema → α → Session P T S vertexSchema edgeSchema α) :
    Nat → EdgeIterator T → α → Session P T S vertexSchema edgeSchema α
  | fuel, iqIt, a =>
      match iqIt.valid?, fuel with
      | none, _ => pure a
      | some _, 0 => throw .outOfFuel
      | some c, fuel + 1 => do
          let edge ← onHistory (iqIt.getEdge c)
          let data ← onHistory (iqIt.getEdgeData c)
          let a ← body ⟨edge.toVertex, edge.time, data⟩ a
          let iqIt ← onHistory (iqIt.next ω c)
          forEdges ω body fuel iqIt a

/-- `for (auto iqIt = graph->processFocusedIntervalQuery(query); ..)`. -/
def forQuery (ω : SetOrder) (query : FocusedIntervalQuery T) (edgeFuel : Nat)
    (body : EdgeIterator.Found T edgeSchema → α → Session P T S vertexSchema edgeSchema α) (a : α) :
    Session P T S vertexSchema edgeSchema α := do
  let iqIt ← onHistory (EdgeIterator.new ω query)
  forEdges ω body edgeFuel iqIt a

/-- `edgeFuel` bounds the edges of a query and `fuel` the depth of the recursion. -/
def dfs (ω : SetOrder) (edgeFuel : Nat) :
    Nat → FocusedIntervalQuery T → Visits → Session P T S vertexSchema edgeSchema Visits
  | 0, _, _ => throw .outOfFuel
  | fuel + 1, query, visits =>
      forQuery ω query edgeFuel
        (fun found visits =>
          -- `search != visited.end()`
          if found.toVertex ∈ visits.visited then
            dfs ω edgeFuel fuel { query with headVertex := found.toVertex } visits
          else pure visits)
        ((visits.insert query.headVertex).note query.headVertex)

/-- The body of the loop over the edges in `bfs`. -/
def bfsEdge (found : EdgeIterator.Found T edgeSchema) (state : List VertexId × Visits) :
    Session P T S vertexSchema edgeSchema (List VertexId × Visits) :=
  if found.toVertex ∈ state.2.visited then
    pure (state.1 ++ [found.toVertex], state.2.insert found.toVertex)
  else pure state

/-- The loop over the queue.  The query for the vertex taken from it is made and not run. -/
def bfsLoop (ω : SetOrder) (edgeFuel : Nat) (query : FocusedIntervalQuery T) :
    Nat → List VertexId → Visits → Session P T S vertexSchema edgeSchema Visits
  | fuel, q, visits =>
      match q, fuel with
      | [], _ => pure visits
      | _ :: _, 0 => throw .outOfFuel
      | _ :: q, fuel + 1 => do
          let (q, visits) ← forQuery ω query edgeFuel bfsEdge (q, visits.note query.headVertex)
          bfsLoop ω edgeFuel query fuel q visits

def bfs (ω : SetOrder) (edgeFuel fuel : Nat) (query : FocusedIntervalQuery T) :
    Session P T S vertexSchema edgeSchema Visits :=
  bfsLoop ω edgeFuel query fuel [query.headVertex] ⟨{query.headVertex}, []⟩

end RailwayDB.ExpSetupHelper
