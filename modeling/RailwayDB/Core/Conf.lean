/-
`Conf.h`: the settings the storage pipeline reads.

The window size and the seed edge count have no setter in the source, so they are
constants.  Of the three buffers only that of the blocks has one; all three are kept
as settings, since they say what a cache may hold.  The size of the expiration map follows from the block size, as the
constructor and `setBlockSize` have it.
-/
import Mathlib.Data.Nat.Notation

namespace RailwayDB

/-- `Conf::LayoutMode`. -/
inductive LayoutMode where
  | random
  | old
  | max
  | smart
  deriving DecidableEq, Repr

/-- `SmartLayoutConf::LocalityMetric`. -/
inductive LocalityMetric where
  | rConductance
  | cohesiveness
  | rccMixed
  deriving DecidableEq, Repr

/-- `SmartLayoutConf::InitialCandidateSelectionPolicy`. -/
inductive InitialCandidateSelectionPolicy where
  | random
  | old
  | new
  | max
  | min
  deriving DecidableEq, Repr

structure Conf where
  blockSize : Nat
  /-- In blocks. -/
  blockBufferSize : Nat
  /-- In partitionings. -/
  partitioningBufferSize : Nat
  /-- Number of vertices whose data is cached. -/
  vertexDataBufferSize : Nat
  layoutMode : LayoutMode
  localityMetric : LocalityMetric
  initialCandidateSelectionPolicy : InitialCandidateSelectionPolicy
  initialCandidateCount : Nat
  deriving DecidableEq, Repr

namespace Conf

def windowSize (_ : Conf) : Nat := 1024 * 1024

/-- `max(windowSize_/100, blockSize_/(sizeof(VertexId)+sizeof(Timestamp)))`. -/
def expirationMapSize (conf : Conf) : Nat := Nat.max (conf.windowSize / 100) (conf.blockSize / 16)

/-- The policy is fixed: one edge. -/
def seedEdgeCount (_ : Conf) : Nat := 1

/-- The values the constructors set. -/
def default : Conf :=
  { blockSize := 16 * 1024, blockBufferSize := 16 * 1024, partitioningBufferSize := 16 * 1024,
    vertexDataBufferSize := 100 * 1024, layoutMode := .smart, localityMetric := .rccMixed,
    initialCandidateSelectionPolicy := .old, initialCandidateCount := 10 }

end Conf

end RailwayDB
