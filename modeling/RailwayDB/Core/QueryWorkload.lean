/-
`Partition.h`, `Partitioning.h`, `QuerySummary.h` and `QueryWorkload.h`: what the
optimizer is given and what it gives back.

These classes hold attributes by address.  Here an attribute is its index with its
name and type, so two attributes of one workload are the same when they agree in all
three.  A set is the list of its members in the order it is gone through.
-/
import RailwayDB.Core.MetaDataManager
import RailwayDB.Core.Schema

namespace RailwayDB.Common

/-- `Attribute const *`. -/
structure AttributePtr extends Attribute where
  index : Nat
  deriving DecidableEq, Repr

structure Partition where
  attributes : List AttributePtr
  nodup : attributes.Nodup

namespace Partition

/-- `Partition()`. -/
def new : Partition := ⟨[], List.nodup_nil⟩

def addAttribute (partition : Partition) (attrb : AttributePtr) : Partition :=
  if h : attrb ∈ partition.attributes then partition
  else ⟨attrb :: partition.attributes, List.nodup_cons.mpr ⟨h, partition.nodup⟩⟩

def removeAttribute (partition : Partition) (attrb : AttributePtr) : Partition :=
  ⟨partition.attributes.erase attrb, partition.nodup.erase attrb⟩

def clearAttributes (_partition : Partition) : Partition := ⟨[], List.nodup_nil⟩

def numAttributes (partition : Partition) : Nat := partition.attributes.length

/-- A loop of `addAttribute`. -/
def ofAttributes (attributes : List AttributePtr) : Partition :=
  attributes.foldl addAttribute new

end Partition

structure Partitioning where
  partitions : List Partition

namespace Partitioning

/-- `Partitioning()`. -/
def new : Partitioning := ⟨[]⟩

def addPartition (partitioning : Partitioning) (partition : Partition) : Partitioning :=
  ⟨partitioning.partitions ++ [partition]⟩

/-- The partition `j` changes places with the last one, unless it is that. -/
def swapWithLast (partitions : List Partition) (j : Nat) : Except Fault (List Partition) :=
  if j ≠ partitions.length - 1 then swapAt partitions j (partitions.length - 1)
  else .ok partitions

/-- `mergePartitions(i, j)` with `j` not below `i`. -/
def mergeInto (partitioning : Partitioning) (i j : Nat) : Except Fault Partitioning := do
  let part ← elementAt partitioning.partitions i
  let other ← elementAt partitioning.partitions j
  let partitions := partitioning.partitions.set i
    (other.attributes.foldl Partition.addAttribute part)
  let partitions ← swapWithLast partitions j
  return ⟨partitions.dropLast⟩

def mergePartitions (partitioning : Partitioning) (i j : Nat) : Except Fault Partitioning :=
  if j < i then partitioning.mergeInto j i else partitioning.mergeInto i j

/-- `splitPartition(i, j, lhs, rhs)` with `j` not below `i`. -/
def splitInto (partitioning : Partitioning) (i j : Nat) (lhs rhs : Partition) :
    Except Fault Partitioning := do
  let part ← elementAt partitioning.partitions i
  let part := lhs.attributes.foldl Partition.addAttribute part.clearAttributes
  let partitioning := addPartition ⟨partitioning.partitions.set i part⟩ rhs
  let partitions ← swapWithLast partitioning.partitions j
  return ⟨partitions⟩

def splitPartition (partitioning : Partitioning) (i j : Nat) (lhs rhs : Partition) :
    Except Fault Partitioning :=
  if j < i then partitioning.splitInto j i rhs lhs else partitioning.splitInto i j lhs rhs

/-- The names, as the database is given them. -/
def toStringSet (partitioning : Partitioning) : List (List Text) :=
  partitioning.partitions.map fun p => (p.attributes.map (·.name)).dedup

end Partitioning

/-- Summaries are compared by their attributes. -/
structure QuerySummary where
  attributes : List AttributePtr
  deriving DecidableEq, Repr

structure QueryWorkload where
  attributes : List AttributePtr
  queries : List QuerySummary
  counts : AList fun _ : QuerySummary => ℚ
  totalQueries : ℚ

namespace QueryWorkload

/-- `attributes_.at(index)`. -/
def getAttribute (workload : QueryWorkload) (index : Nat) : Except Fault AttributePtr :=
  match workload.attributes[index]? with
  | some attrb => .ok attrb
  | none => .error (.undefined .outOfRange)

/-- `getQuerySummaries()[q]`. -/
def getQuerySummary (workload : QueryWorkload) (q : Nat) : Except Fault QuerySummary :=
  match workload.queries[q]? with
  | some query => .ok query
  | none => .error (.undefined .outOfRange)

def getFrequency (workload : QueryWorkload) (s : QuerySummary) : Except Fault ℚ :=
  match workload.counts.lookup s with
  | some count => .ok (count / workload.totalQueries)
  | none => .error (.assertFailed .getFrequencyCount)

end QueryWorkload

end RailwayDB.Common
