/-
`QueryCollector.h` and `QueryCollector.cpp`: the workloads a graph collects from the
queries it is asked, and what the optimizer reads in them.

The attributes of a schema lie in one vector, so their addresses are in the order of
their positions, and a position stands for the pointer.  What `std::hash` makes of
pointers and names is a parameter.  The workloads are collected by the hash maps of
`Core/HashedWorkload.lean`; `read` is a workload as the solvers see it, through its
attributes, its summaries and their counts.
-/
import RailwayDB.Core.HashedWorkload
import RailwayDB.Core.InteractionGraph
import RailwayDB.Core.QueryWorkload
import RailwayDB.Lib.SortedMap

namespace RailwayDB

open Common (AttributePtr)

/-! ### Pointers -/

namespace Schema

/-- `&attributes_[index]`. -/
abbrev Pointer (schema : Schema) := Fin schema.attributes.length

def pointers (schema : Schema) : List schema.Pointer := List.finRange schema.attributes.length

def nameAt (schema : Schema) (i : schema.Pointer) : Text := schema.attributes[i].name

/-- What a pointer points at. -/
def deref (schema : Schema) (i : schema.Pointer) : AttributePtr :=
  { schema.attributes[i] with index := i }

/-- `getAttributes()`, by address. -/
def attributePtrs (schema : Schema) : List AttributePtr := schema.pointers.map schema.deref

end Schema

/-! ### Collecting -/

/-- `typedef uint64_t BucketId`. -/
abbrev BucketId := Fin (2 ^ 64)

/-- The hashes of pointers and of names. -/
structure Hashes (schema : Schema) where
  ptrHash : schema.Pointer → BitVec 64
  nameHash : Text → BitVec 64

/-- `QueryWorkload` over the attributes of a schema. -/
abbrev CollectedWorkload (schema : Schema) := Common.Hashed.QueryWorkload schema.Pointer Text

structure QueryCollector (schema : Schema) where
  workloads : SortedMap BucketId (CollectedWorkload schema)

namespace QueryCollector

open Common.Hashed

variable {schema : Schema}

/-- `QueryCollector(conf)`. -/
def new : QueryCollector schema := ⟨.empty⟩

/-- `OneBucketer::getBuckets`. -/
def getBuckets (_q : Query Text) : List BucketId := [0]

/-- One turn of the loop: the query is added to the workload of a bucket. -/
def addTo (hashes : Hashes schema) (q : Query Text)
    (workloads : SortedMap BucketId (CollectedWorkload schema)) (i : BucketId) :
    Except Fault (SortedMap BucketId (CollectedWorkload schema)) := do
  match workloads.find? i with
  | some workload => return workloads.insert i (← workload.addQuery hashes.ptrHash q)
  | none =>
      let workload := QueryWorkload.ofAttributes schema.nameAt schema.pointers
      return workloads.insert i (← workload.addQuery hashes.ptrHash q)

def collectFocusedIntervalQuery (hashes : Hashes schema) (q : Query Text)
    (qcol : QueryCollector schema) : Except Fault (QueryCollector schema) := do
  return ⟨← (getBuckets q).foldlM (addTo hashes q) qcol.workloads⟩

def reset (_qcol : QueryCollector schema) : QueryCollector schema := ⟨.empty⟩

end QueryCollector

/-! ### The workload for the solvers -/

namespace CollectedWorkload

open Common.Hashed

variable {schema : Schema}

/-- A summary by the attributes it has. -/
def readSummary (s : QuerySummary schema.Pointer) : Common.QuerySummary :=
  ⟨s.attributes.map schema.deref⟩

/-- A count counts for the first of its summary. -/
def readCounts (entries : List (QuerySummary schema.Pointer × ℚ)) :
    AList fun _ : Common.QuerySummary => ℚ :=
  entries.foldr (fun e counts => counts.insert (readSummary e.1) e.2) ∅

def read (w : CollectedWorkload schema) : Common.QueryWorkload :=
  { attributes := w.attributes.map schema.deref
    queries := w.queries.map readSummary
    counts := readCounts w.counts.entries
    totalQueries := w.totalQueries }

end CollectedWorkload

/-! ### The graph that collects -/

/-- `InteractionGraph` with its collector. -/
structure CollectingGraph (P T S : Type) [LinearOrder S] (vertexSchema edgeSchema : Schema) where
  graph : InteractionGraph P T S vertexSchema edgeSchema
  qcol : QueryCollector edgeSchema

namespace CollectingGraph

variable {P T S : Type} [LinearOrder T] [LinearOrder S] [Score S] [TimeScore T S] [Timestamp T]
  [BlockTime T] [SliceIndex P T] {vertexSchema edgeSchema : Schema}

/-- `qcol_.collectFocusedIntervalQuery(q)`, then the query. -/
def processFocusedIntervalQuery (hashes : Hashes edgeSchema) (ω : SetOrder)
    (query : HistoricalGraph.FocusedIntervalQuery T) (fuel : Nat) :
    EStateM Fault (CollectingGraph P T S vertexSchema edgeSchema)
      (List (HistoricalGraph.EdgeIterator.Found T edgeSchema)) := fun c =>
  let q := Common.Hashed.Query.new hashes.nameHash query.attributeNames
  match c.qcol.collectFocusedIntervalQuery hashes q with
  | .error e => .error e c
  | .ok qcol =>
      match InteractionGraph.processFocusedIntervalQuery ω query fuel c.graph with
      | .ok found graph => .ok found ⟨graph, qcol⟩
      | .error e graph => .error e ⟨graph, qcol⟩

/-- `resetWorkloads()`. -/
def resetWorkloads (c : CollectingGraph P T S vertexSchema edgeSchema) :
    CollectingGraph P T S vertexSchema edgeSchema :=
  { c with qcol := c.qcol.reset }

end CollectingGraph

end RailwayDB
