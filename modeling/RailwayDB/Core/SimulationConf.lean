/-
`SimulationConf::getQueryWorkloadAndStats`: a workload drawn at random.

What the generators give is the input: the size of each attribute, and for each query
type its length, the index of each attribute that is picked, and its frequency.  The
attributes are allocated one by one; `address` says where.  A query is made by the
constructor without attributes, which leaves its hash code as it is.
-/
import RailwayDB.Core.HashedWorkload
import RailwayDB.Core.MetaDataManager

namespace RailwayDB.SimulationConf

open Common.Hashed

variable {A N : Type}

/-- What is drawn for a query type. -/
structure Draw where
  length : Nat
  /-- `udis(rndGen)` in the turn `j`. -/
  pick : Nat → Nat
  frequency : ℚ
  /-- `hash_` of the new summary. -/
  hash : BitVec 64

/-- One attribute of a query: the indices from `size - j` on are those picked before. -/
def pickAttribute (attributes : List A) (pick : Nat → Nat) (acc : QuerySummary A × List Nat)
    (j : Nat) : Except Fault (QuerySummary A × List Nat) := do
  let (query, attributeIndices) := acc
  let k := pick j
  let index ← elementAt attributeIndices k
  let attrb ← elementAt attributes index
  let attributeIndices ← swapAt attributeIndices k (attributes.length - j - 1)
  return (query.addAttribute attrb, attributeIndices)

/-- A workload being drawn, the indices as they stand, and the frequencies so far. -/
structure Drawing (A N : Type) where
  workload : QueryWorkload A N
  attributeIndices : List Nat
  totalFrequency : ℚ

variable [DecidableEq N] [LinearOrder A]

/-- One query type. -/
def drawQuery (attributes : List A) (d : Drawing A N) (draw : Draw) :
    Except Fault (Drawing A N) := do
  let queryLength := min draw.length attributes.length
  let (query, attributeIndices) ← (List.range queryLength).foldlM
    (pickAttribute attributes draw.pick) (.new draw.hash, d.attributeIndices)
  return { workload := (d.workload.setFrequency query draw.frequency).addQuerySummary query
           attributeIndices := attributeIndices
           totalFrequency := d.totalFrequency + draw.frequency }

/-- One turn of the second pass. -/
def normalise (totalFrequency : ℚ) (workload : QueryWorkload A N) (query : QuerySummary A) :
    Except Fault (QueryWorkload A N) := do
  let frequency ← workload.getFrequency query
  return workload.setFrequency query (frequency / totalFrequency)

/-- `totalQueries_` of the workload is at first what happens to be there. -/
def getQueryWorkloadAndStats (address : Nat → A) (totalQueries : ℚ) (attributeSizes : List ℚ)
    (draws : List Draw) : Except Fault (QueryWorkload A N × SchemaStats) := do
  let attributes := (List.range attributeSizes.length).map address
  let workload := attributes.foldl QueryWorkload.addAttribute (.new totalQueries)
  let stats := attributeSizes.zipIdx.foldl
    (fun stats size => stats.incrCountAndBytes size.2 size.1) SchemaStats.new
  let d ← draws.foldlM (drawQuery workload.attributes)
    { workload := workload, attributeIndices := List.range workload.attributes.length,
      totalFrequency := 0 }
  let workload ← d.workload.queries.foldlM (normalise d.totalFrequency) d.workload
  return (workload, stats)

end RailwayDB.SimulationConf
