/-
`SystemConstants.h` and `Cost.cpp`: what a partitioning costs in bytes on disk and
in bytes read.

The sizes are doubles in the source.  Which partitions a query is charged for turns on
comparisons of them, so that loop is written with a rounding; everything else computes
with exact rationals.
-/
import RailwayDB.Core.QueryWorkload
import RailwayDB.Lib.Rounding

namespace RailwayDB.Common

namespace SystemConstants

def edgeIdSize : Nat := 8

def timestampSize : Nat := 8

def headVertexSize : Nat := 8

def numEntriesSize : Nat := 4

def numberOfEdgesInABlock : Nat := 24

def numberOfNeighborListsInABlock : Nat := 8

end SystemConstants

namespace Cost

open SystemConstants

/-- The sum of the average sizes of some attributes. -/
def attributesSize (stats : SchemaStats) (attributes : List AttributePtr) : Except Fault ℚ :=
  attributes.foldlM (fun attributesSize attrb => do
    return attributesSize + (← stats.getAvgSize attrb.index)) 0

def getPartitionSize (stats : SchemaStats) (partition : Partition) : Except Fault ℚ := do
  let attributesSize ← attributesSize stats partition.attributes
  return numberOfEdgesInABlock * ((edgeIdSize + timestampSize) + attributesSize)
    + numberOfNeighborListsInABlock * (headVertexSize + numEntriesSize)

def getStorageOverhead (stats : SchemaStats) (partitioning : Partitioning)
    (workload : QueryWorkload) : Except Fault ℚ := do
  let wholePartition := Partition.ofAttributes workload.attributes
  let blockSize ← getPartitionSize stats wholePartition
  let totalPartitionSize ← partitioning.partitions.foldlM (fun total partition => do
    return total + (← getPartitionSize stats partition)) 0
  return totalPartitionSize / blockSize - 1

/-! ### The partitions a query is charged for

A pointer to a partition is its position in the vector. -/

/-- The attributes of the query that have to be covered. -/
def effectiveAttributes (attributes : List AttributePtr) (query : QuerySummary) :
    List AttributePtr :=
  (query.attributes.filter fun attrb => attrb ∈ attributes).dedup

/-- The attributes of a partition that are still to be covered. -/
def uncovered (effectiveAttributes selectedAttributes : List AttributePtr)
    (partition : Partition) : List AttributePtr :=
  partition.attributes.filter fun attrb =>
    attrb ∉ selectedAttributes ∧ attrb ∈ effectiveAttributes

/-- `getPartitionSize` with every result rounded. -/
def getPartitionSizeIn (fl : Rounding) (stats : SchemaStats) (partition : Partition) :
    Except Fault ℚ := do
  let attributesSize ← partition.attributes.foldlM (fun attributesSize attrb => do
    return fl.round (attributesSize + fl.round (← stats.getAvgSize attrb.index))) 0
  let edgeSize : ℚ := fl.round ((edgeIdSize + timestampSize) + attributesSize)
  return fl.round (fl.round (numberOfEdgesInABlock * edgeSize)
    + numberOfNeighborListsInABlock * (headVertexSize + numEntriesSize))

def partitionScore (fl : Rounding) (stats : SchemaStats)
    (effectiveAttributes selectedAttributes : List AttributePtr) (partition : Partition) :
    Except Fault ℚ := do
  let partitionSize ← getPartitionSizeIn fl stats partition
  (uncovered effectiveAttributes selectedAttributes partition).foldlM (fun score attrb => do
    let size := fl.round (← stats.getAvgSize attrb.index)
    return fl.round (score + fl.round (fl.round (size * numberOfEdgesInABlock) / partitionSize))) 0

def partitionAt (partitions : List Partition) (i : Nat) : Except Fault Partition :=
  match partitions[i]? with
  | some partition => .ok partition
  | none => .error (.undefined .outOfRange)

/-- One partition against the best so far. -/
def considerPartition (fl : Rounding) (stats : SchemaStats) (partitions : List Partition)
    (effectiveAttributes selectedAttributes : List AttributePtr) (best : Option Nat × ℚ)
    (i : Nat) : Except Fault (Option Nat × ℚ) := do
  let partition ← partitionAt partitions i
  let score ← partitionScore fl stats effectiveAttributes selectedAttributes partition
  return if best.2 < score then (some i, score) else best

/-- The loop of `getUsedPartitions`.  Every turn uses up a partition, so there is none left after
as many turns as there are partitions. -/
def usePartitions (fl : Rounding) (stats : SchemaStats) (ω : SetOrder)
    (partitions : List Partition) (effectiveAttributes : List AttributePtr) :
    (fuel : Nat) → (selectedAttributes : List AttributePtr) → (unusedPartitions : List Nat) →
      Except Fault (List Nat)
  | fuel, selectedAttributes, unusedPartitions =>
      if selectedAttributes.length < effectiveAttributes.length then
        match fuel with
        | 0 => .error .outOfFuel
        | fuel + 1 => do
            let (best, _) ← (ω.order unusedPartitions).foldlM
              (considerPartition fl stats partitions effectiveAttributes selectedAttributes)
              (none, -1)
            match best with
            | none => .error (.assertFailed .usedPartitionsBest)
            | some best => do
                let partition ← partitionAt partitions best
                -- All attributes of the partition are counted, also those not asked for.
                let selectedAttributes := selectedAttributes ++
                  partition.attributes.filter fun attrb => attrb ∉ selectedAttributes
                let rest ← usePartitions fl stats ω partitions effectiveAttributes fuel
                  selectedAttributes (unusedPartitions.filter fun i => i ≠ best)
                return best :: rest
      else .ok []

def getUsedPartitionsIn (fl : Rounding) (stats : SchemaStats) (ω : SetOrder)
    (partitions : List Partition) (attributes : List AttributePtr) (query : QuerySummary) :
    Except Fault (List Nat) :=
  usePartitions fl stats ω partitions (effectiveAttributes attributes query)
    (partitions.length + 1) [] (List.range partitions.length)

/-- `getUsedPartitions` in exact arithmetic. -/
def getUsedPartitions (stats : SchemaStats) (ω : SetOrder) (partitions : List Partition)
    (attributes : List AttributePtr) (query : QuerySummary) : Except Fault (List Nat) :=
  getUsedPartitionsIn .exact stats ω partitions attributes query

/-! ### The bytes read -/

/-- The bytes of the partitions a query is charged for. -/
def usedSize (stats : SchemaStats) (partitions : List Partition) (used : List Nat) :
    Except Fault ℚ :=
  used.foldlM (fun partitionIOCost i => do
    let partition ← partitionAt partitions i
    return partitionIOCost + (← getPartitionSize stats partition)) 0

/-- `getIOCost(partitions, workload, attributes)`. -/
def getIOCostOver (stats : SchemaStats) (ω : SetOrder) (partitions : List Partition)
    (workload : QueryWorkload) (attributes : List AttributePtr) : Except Fault ℚ :=
  workload.queries.foldlM (fun totalIOCost summary => do
    let used ← getUsedPartitions stats ω partitions attributes summary
    let partitionIOCost ← usedSize stats partitions used
    let frequency ← workload.getFrequency summary
    return totalIOCost + frequency * partitionIOCost) 0

/-- `getIOCost(partitioning, workload)`. -/
def getIOCost (stats : SchemaStats) (ω : SetOrder) (partitioning : Partitioning)
    (workload : QueryWorkload) : Except Fault ℚ :=
  getIOCostOver stats ω partitioning.partitions workload workload.attributes

end Cost

end RailwayDB.Common
