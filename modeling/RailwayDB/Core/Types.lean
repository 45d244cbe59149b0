/-
The types every part of the database shares.

Vertex ids are the 64-bit unsigned numbers of `Types.h`.  A timestamp is a
`double`; most of the database only compares timestamps, so the modules that do
no more than that are written over an arbitrary type with the operations they
use, and `Core/Timestamp.lean` supplies the one built from IEEE doubles.

A call that does not return is a `Fault`: an exception with the text the source
gives it, an `assert` that failed (the build does not define `NDEBUG`), or an
access the language leaves undefined.
-/
import Mathlib.Order.Lattice
import Mathlib.Algebra.Ring.Nat
import Mathlib.Order.Fin.Basic

namespace RailwayDB

/-- `typedef uint64_t VertexId`. -/
abbrev VertexId := Fin (2 ^ 64)

/-- `typedef uint64_t BlockId`. -/
abbrev BlockId := Fin (2 ^ 64)

instance neZero_ids : NeZero (2 ^ 64) := ⟨by decide⟩

/-- The `assert`s of the modelled functions. -/
inductive Assertion where
  /-- `InMemoryGraph::removeEdge`: the oldest edge of a list is the expiring one. -/
  | removeEdgeToVertex
  | removeEdgeTime
  /-- `Block::addEdge`: the two directions of an edge share one data object. -/
  | blockAddEdgeSharedData
  /-- `Block::removeNewestEdge`: the head has a list. -/
  | blockRemoveNewestEdgeHead
  /-- `PriorityQueue::addItem`: the id is new. -/
  | addItemIdAbsent
  /-- `Candidate::setEdgeCount`: a dangling edge is there to be taken off the count. -/
  | candidateOutEdgeCount
  | candidateEdgeCount
  /-- `ExpirationMap::getBlockSmart` and `ExpirationMap::extendCandidate`. -/
  | candidateGrew
  | candidateLocality
  | candidateWithinList
  /-- `ExpirationMap::writeBlock`: one queue item per list. -/
  | writeBlockQueueSize
  /-- `InteractionGraph::addEdge`. -/
  | addEdgeDistinctEndpoints
  | addEdgeIncreasingTime
  /-- `HistoricalGraph::addBlock`: a master and at least one sub-block. -/
  | addBlockSubBlocks
  /-- `Block::serialize`, `Block::deserialize`, `Block::recombineBlock` and
  `EdgeIterator::getEdgeData`: a master block lists its sub-blocks. -/
  | masterSubBlocks
  /-- `BlockManager::getBlock`: a block carries the id it is stored under. -/
  | getBlockId
  /-- `PartitionIndex::replaceBlocks`: there is a new master block. -/
  | replaceBlocksMaster
  /-- `IntervalQueryIndex`: an interval is that of a list its block has. -/
  | findNextVertex
  | indexBlockHead
  /-- `next` of the iterators of `IntervalQueryIndex`, `FocusedIntervalQueryIndex` and
  `HistoricalGraph`. -/
  | iteratorValid
  /-- `EdgeIterator::initFromBlock`: the list found reaches into the range. -/
  | edgeIteratorInList
  /-- `EdgeIterator::getEdgeData`. -/
  | edgeIteratorMaster
  | edgeIteratorSubBlockIndex
  /-- `QueryWorkload::getFrequency`: the summary has a count. -/
  | getFrequencyCount
  /-- `QueryWorkload::addQuery`: the name is that of an attribute. -/
  | addQueryName
  /-- `Cost::getUsedPartitions`: there is a partition left to use. -/
  | usedPartitionsBest
  /-- `HeuristicNonOverlapping::solve`: some partitioning is within the threshold. -/
  | minCostInited
  deriving DecidableEq, Repr

/-- Accesses the language leaves undefined. -/
inductive Undefined where
  /-- An element past the end of a sequence, or the front of an empty one. -/
  | outOfRange
  /-- The value behind the end iterator of a map. -/
  | missingKey
  /-- A list iterator whose node is gone. -/
  | danglingIterator
  /-- A reference to a map entry that was erased. -/
  | danglingReference
  /-- A read past the bytes of a buffer. -/
  | bufferOverrun
  /-- A number that does not fit its type. -/
  | intOverflow
  /-- A field that was never set. -/
  | uninitialized
  /-- A quotient by zero, which is no rational. -/
  | zeroDivisor
  deriving DecidableEq, Repr

/-- How a call can end without returning. -/
inductive Fault where
  | runtimeError (what : String)
  | badGet
  | illegalArgument (what : String)
  | vertexAlreadyExists (id : VertexId)
  | vertexNotFound (id : VertexId)
  | blockNotFound (id : BlockId)
  | attributeNotFound (name : String)
  | timeSlicedPartitionNotFound
  | timeSlicedPartitionReplacement (description : String)
  | assertFailed (site : Assertion)
  | undefined (what : Undefined)
  /-- A loop used up the steps the model gave it: a call that does not terminate. -/
  | outOfFuel
  deriving DecidableEq, Repr

/-- An exception, as opposed to an assertion that fails and a step the language leaves
undefined. -/
def Fault.isException : Fault → Bool
  | .assertFailed _ => false
  | .undefined _ => false
  | .outOfFuel => false
  | _ => true

/-- `v[i]`. -/
def elementAt {α : Type} (v : List α) (i : Nat) : Except Fault α :=
  match v[i]? with
  | some a => .ok a
  | none => .error (.undefined .outOfRange)

theorem elementAt_eq {α : Type} {v : List α} {i : Nat} {a : α} (h : v[i]? = some a) :
    elementAt v i = .ok a := by
  unfold elementAt
  rw [h]

/-- `swap(v[i], v[j])`. -/
def swapAt {α : Type} (v : List α) (i j : Nat) : Except Fault (List α) := do
  let a ← elementAt v i
  let b ← elementAt v j
  return (v.set i b).set j a

theorem swapAt_eq {α : Type} {v : List α} {i j : Nat} {a b : α} (ha : v[i]? = some a)
    (hb : v[j]? = some b) : swapAt v i j = .ok ((v.set i b).set j a) := by
  unfold swapAt
  rw [elementAt_eq ha, elementAt_eq hb]
  rfl

/-- `std::sort` from the greatest key down.  It leaves elements with one key in any order. -/
structure SortOrder (α : Type) where
  sort : (α → Nat) → List α → List α
  perm : ∀ key l, (sort key l).Perm l
  sorted : ∀ key l, (sort key l).Pairwise fun a b => key b ≤ key a

/-- The order in which a hash set of part numbers is gone through. -/
structure SetOrder where
  order : List Nat → List Nat
  perm : ∀ l, (order l).Perm l

/-- `std::shared_ptr`: an object and the address it lives at. -/
structure SharedPtr (α : Type) where
  addr : Nat
  val : α
  deriving DecidableEq, Repr

end RailwayDB
