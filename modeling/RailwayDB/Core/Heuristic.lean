/-
`MinCostSolution.h`, `HeuristicNonOverlapping.cpp` and `HeuristicOverlapping.cpp`: the
partitionings the optimizer finds without a solver.

Sizes and costs are doubles in the source and exact rationals here, so a quotient by
zero is a fault.  Counts and positions are natural numbers.  A pointer to a partition is
its position in the vector.  A hash set of attributes is the list of its members; what
is done with it does not depend on their order.
-/
import RailwayDB.Core.Cost

namespace RailwayDB.Optimizer

open Common

/-- The solution of least cost so far, the last one pushed of those; none before the first. -/
structure MinCostSolution (S : Type) where
  best : Option (S × ℚ)

namespace MinCostSolution

variable {S : Type}

/-- `MinCostSolution()`. -/
def new : MinCostSolution S := ⟨none⟩

def push (m : MinCostSolution S) (solution : S) (cost : ℚ) : MinCostSolution S :=
  match m.best with
  | none => ⟨some (solution, cost)⟩
  | some (_, minCost) => if cost ≤ minCost then ⟨some (solution, cost)⟩ else m

def isInited (m : MinCostSolution S) : Bool := m.best.isSome

def getBestSolution (m : MinCostSolution S) : Except Fault S :=
  match m.best with
  | some (solution, _) => .ok solution
  | none => .error (.undefined .uninitialized)

/-- What holds of the best solution, if there is one. -/
def Holds (P : S → ℚ → Prop) (m : MinCostSolution S) : Prop :=
  ∀ solution cost, m.best = some (solution, cost) → P solution cost

variable {m : MinCostSolution S} {P : S → ℚ → Prop} {solution : S} {cost : ℚ}

theorem holds_new : (new : MinCostSolution S).Holds P := by
  intro solution cost h
  simp [new] at h

/-- A solution is taken only if it costs no more than the one before it. -/
theorem Holds.push (h : m.Holds P)
    (hP : (∀ old minCost, m.best = some (old, minCost) → cost ≤ minCost) → P solution cost) :
    (m.push solution cost).Holds P := by
  unfold MinCostSolution.push
  split
  · next hnone =>
      intro s c hbest
      simp only [Option.some.injEq, Prod.mk.injEq] at hbest
      obtain ⟨rfl, rfl⟩ := hbest
      refine hP ?_
      intro old minCost hold
      rw [hnone] at hold
      cases hold
  · next old minCost hold =>
      split_ifs with hle
      · intro s c hbest
        simp only [Option.some.injEq, Prod.mk.injEq] at hbest
        obtain ⟨rfl, rfl⟩ := hbest
        refine hP ?_
        intro old' minCost' hold'
        rw [hold] at hold'
        simp only [Option.some.injEq, Prod.mk.injEq] at hold'
        rw [← hold'.2]
        exact hle
      · exact h

theorem push_best_ne_none (m : MinCostSolution S) (solution : S) (cost : ℚ) :
    (m.push solution cost).best ≠ none := by
  unfold push
  split
  · simp
  · next hold =>
      split_ifs
      · simp
      · simp [hold]

theorem Holds.getBestSolution (h : m.Holds P) (hm : m.best ≠ none) :
    ∃ solution cost, m.getBestSolution = .ok solution ∧ P solution cost := by
  obtain ⟨⟨solution, cost⟩, hbest⟩ := Option.ne_none_iff_exists'.mp hm
  refine ⟨solution, cost, ?_, h solution cost hbest⟩
  unfold MinCostSolution.getBestSolution
  rw [hbest]

end MinCostSolution

/-! ### Disjoint partitions -/

namespace HeuristicNonOverlapping

/-- `attrbFreq[attrb]`. -/
def attrbFreq (workload : QueryWorkload) (attrb : AttributePtr) : Nat :=
  (workload.queries.flatMap fun query => query.attributes).count attrb

/-- One partition is tried: the attribute is added, and removed again. -/
def tryPartition (stats : SchemaStats) (ω : SetOrder) (workload : QueryWorkload)
    (usedAttributes : List AttributePtr) (attrb : AttributePtr)
    (acc : List Partition × MinCostSolution Nat) (i : Nat) :
    Except Fault (List Partition × MinCostSolution Nat) := do
  let (partitions, minCostPart) := acc
  let part ← elementAt partitions i
  let partitions := partitions.set i (part.addAttribute attrb)
  let cost ← Cost.getIOCostOver stats ω partitions workload usedAttributes
  let part ← elementAt partitions i
  return (partitions.set i (part.removeAttribute attrb), minCostPart.push i cost)

/-- The next attribute goes to the partition where it costs least. -/
def placeAttribute (stats : SchemaStats) (ω : SetOrder) (workload : QueryWorkload)
    (acc : List Partition × List AttributePtr) (attrb : AttributePtr) :
    Except Fault (List Partition × List AttributePtr) := do
  let (partitions, usedAttributes) := acc
  let usedAttributes := usedAttributes.insert attrb
  let (partitions, minCostPart) ← (List.range partitions.length).foldlM
    (tryPartition stats ω workload usedAttributes attrb) (partitions, .new)
  let bestPart ← minCostPart.getBestSolution
  let part ← elementAt partitions bestPart
  return (partitions.set bestPart (part.addAttribute attrb), usedAttributes)

/-- `solve(workload, storageThreshold, numPartitions, stats)`, which does not look at the
threshold. -/
def solveWith (stats : SchemaStats) (ω : SetOrder) (σ : SortOrder AttributePtr)
    (workload : QueryWorkload) (numPartitions : Nat) : Except Fault Common.Partitioning := do
  let partitions := List.replicate numPartitions Partition.new
  let attributes := σ.sort (attrbFreq workload) workload.attributes
  let (partitions, _) ← attributes.foldlM (placeAttribute stats ω workload) (partitions, [])
  return (partitions.filter fun partition => 0 < partition.attributes.length).foldl
    Common.Partitioning.addPartition .new

/-- The loop over the number of partitions, with so many turns to go. -/
def solveFrom (stats : SchemaStats) (ω : SetOrder) (σ : SortOrder AttributePtr)
    (workload : QueryWorkload) (storageThreshold : ℚ) :
    (turns numPartitions : Nat) → MinCostSolution Common.Partitioning →
      Except Fault (MinCostSolution Common.Partitioning)
  | 0, _, minCostPart => .ok minCostPart
  | turns + 1, numPartitions, minCostPart => do
      let partitioning ← solveWith stats ω σ workload numPartitions
      let overhead ← Cost.getStorageOverhead stats partitioning workload
      if storageThreshold < overhead then return minCostPart
      else
        let cost ← Cost.getIOCost stats ω partitioning workload
        solveFrom stats ω σ workload storageThreshold turns (numPartitions + 1)
          (minCostPart.push partitioning cost)

/-- `solve(workload, storageThreshold, stats)`. -/
def solve (stats : SchemaStats) (ω : SetOrder) (σ : SortOrder AttributePtr)
    (workload : QueryWorkload) (storageThreshold : ℚ) : Except Fault Common.Partitioning := do
  let queryAttributes := (workload.queries.flatMap fun query => query.attributes).dedup
  let minCostPart ← solveFrom stats ω σ workload storageThreshold
    (min (queryAttributes.length + 1) workload.attributes.length) 1 .new
  if minCostPart.isInited then minCostPart.getBestSolution
  else .error (.assertFailed .minCostInited)

end HeuristicNonOverlapping

/-! ### Partitions that may overlap -/

namespace HeuristicOverlapping

/-- A partition for each query. -/
def addQueryPartition (acc : Common.Partitioning × List AttributePtr) (query : QuerySummary) :
    Common.Partitioning × List AttributePtr :=
  (acc.1.addPartition (.ofAttributes query.attributes),
    acc.2.filter fun attrb => attrb ∉ query.attributes)

/-- The partitions of the queries, and one of the attributes they leave out. -/
def queryPartitioning (workload : QueryWorkload) : Common.Partitioning :=
  let (partitioning, missingAttributes) :=
    workload.queries.foldl addQueryPartition (.new, workload.attributes.dedup)
  if 0 < missingAttributes.length then partitioning.addPartition (.ofAttributes missingAttributes)
  else partitioning

/-- `a / b`. -/
def quotient (a b : ℚ) : Except Fault ℚ :=
  if b = 0 then .error (.undefined .zeroDivisor) else .ok (a / b)

/-- The positions that are tried, of `n` partitions. -/
def positionPairs (n : Nat) : List (Nat × Nat) :=
  (List.range (n - 1)).flatMap fun i => (List.range' (i + 1) (n - (i + 1))).map fun j => (i, j)

/-- One pair is tried: it is merged, and split again. -/
def tryPair (stats : SchemaStats) (ω : SetOrder) (workload : QueryWorkload) (oldCost : ℚ)
    (acc : Common.Partitioning × MinCostSolution (Nat × Nat)) (pair : Nat × Nat) :
    Except Fault (Common.Partitioning × MinCostSolution (Nat × Nat)) := do
  let (partitioning, minCostSolution) := acc
  let lhsP ← elementAt partitioning.partitions pair.1
  let rhsP ← elementAt partitioning.partitions pair.2
  let oldSize := (← Cost.getPartitionSize stats lhsP) + (← Cost.getPartitionSize stats rhsP)
  let partitioning ← partitioning.mergePartitions pair.1 pair.2
  let newCost ← Cost.getIOCost stats ω partitioning workload
  let newP ← elementAt partitioning.partitions pair.1
  let newSize ← Cost.getPartitionSize stats newP
  let cost ← quotient (newCost - oldCost) (oldSize - newSize)
  let minCostSolution := minCostSolution.push pair cost
  let partitioning ← partitioning.splitPartition pair.1 pair.2 lhsP rhsP
  return (partitioning, minCostSolution)

/-- The body of the loop. -/
def mergeBest (stats : SchemaStats) (ω : SetOrder) (workload : QueryWorkload)
    (partitioning : Common.Partitioning) : Except Fault Common.Partitioning := do
  let oldCost ← Cost.getIOCost stats ω partitioning workload
  let (partitioning, minCostSolution) ← (positionPairs partitioning.partitions.length).foldlM
    (tryPair stats ω workload oldCost) (partitioning, .new)
  let partitionIndices ← minCostSolution.getBestSolution
  partitioning.mergePartitions partitionIndices.1 partitionIndices.2

/-- The loop: as long as too much is stored, two partitions are merged. -/
def mergeLoop (stats : SchemaStats) (ω : SetOrder) (workload : QueryWorkload)
    (storageThreshold : ℚ) : (fuel : Nat) → Common.Partitioning → Except Fault Common.Partitioning
  | 0, _ => .error .outOfFuel
  | fuel + 1, partitioning => do
      let overhead ← Cost.getStorageOverhead stats partitioning workload
      if storageThreshold < overhead then
        let partitioning ← mergeBest stats ω workload partitioning
        mergeLoop stats ω workload storageThreshold fuel partitioning
      else return partitioning

/-- `solve`.  Every turn of the loop leaves one partition less, so there is one left after as many
turns as there are partitions. -/
def solve (stats : SchemaStats) (ω : SetOrder) (workload : QueryWorkload) (storageThreshold : ℚ) :
    Except Fault Common.Partitioning :=
  mergeLoop stats ω workload storageThreshold
    ((queryPartitioning workload).partitions.length + 1) (queryPartitioning workload)

end HeuristicOverlapping

end RailwayDB.Optimizer
