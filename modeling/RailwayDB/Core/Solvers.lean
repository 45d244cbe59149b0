/-
`SolverFactory.cpp`, `SinglePartition.cpp`, `PartitionPerAttribute.cpp` and the end of
`OptimalCommon.cpp`: the six ways to get a partitioning for a workload.

Two of them hand an integer program to a library.  What the library does is a
parameter: it answers with an optimal solution or not at all.  All variables are
binary, so a solution is a value for each number.
-/
import RailwayDB.Core.Heuristic
import RailwayDB.Core.OptimalCommon

namespace RailwayDB.Optimizer

open Common ZeroOne

/-! ### The library -/

/-- `GRBmodel`. -/
structure Model where
  numVars : Nat
  obj : List (Nat × ℚ)
  constraints : List Constraint

namespace Model

/-- `GRB_DBL_ATTR_OBJVAL`. -/
def objval (m : Model) (sol : Nat → Bool) : ℚ :=
  ((List.range m.numVars).map fun j => coefficient m.obj j * value (sol j)).sum

/-- `GRB_OPTIMAL`. -/
structure Optimal (m : Model) (sol : Nat → Bool) : Prop where
  feasible : Feasible m.constraints sol
  least : ∀ sol', Feasible m.constraints sol' → m.objval sol ≤ m.objval sol'

end Model

/-- The library: `GRBoptimize` and `GRBgetdblattrarray`, or an error. -/
structure Gurobi where
  optimize : Model → Except Fault (Nat → Bool)
  optimal : ∀ m sol, optimize m = .ok sol → m.Optimal sol

/-! ### Solvers -/

namespace OptimalCommon

/-- `solve`, over the constraints of a subclass. -/
def solve (gurobi : Gurobi) (constraints : VarEnv → Except Fault (List Constraint))
    (stats : SchemaStats) (workload : QueryWorkload) : Except Fault Common.Partitioning := do
  let e ← createEnv workload
  let obj ← objective e workload stats
  let cs ← constraints e
  let sol ← gurobi.optimize ⟨e.numVars, obj, cs⟩
  extract e workload sol

end OptimalCommon

namespace OptimalNonOverlapping

def solve (gurobi : Gurobi) (stats : SchemaStats) (workload : QueryWorkload)
    (storageThreshold : ℚ) : Except Fault Common.Partitioning :=
  OptimalCommon.solve gurobi (fun e => constraints storageThreshold e workload stats) stats workload

end OptimalNonOverlapping

namespace OptimalOverlapping

def solve (gurobi : Gurobi) (stats : SchemaStats) (workload : QueryWorkload)
    (storageThreshold : ℚ) : Except Fault Common.Partitioning :=
  OptimalCommon.solve gurobi (fun e => constraints storageThreshold e workload stats) stats workload

end OptimalOverlapping

namespace SinglePartition

def solve (workload : QueryWorkload) : Common.Partitioning :=
  Common.Partitioning.new.addPartition (.ofAttributes workload.attributes)

end SinglePartition

namespace PartitionPerAttribute

/-- One turn of the loop: the partition is emptied, filled and copied. -/
def addAttribute (acc : Partition × Common.Partitioning) (attrb : AttributePtr) :
    Partition × Common.Partitioning :=
  let partition := acc.1.clearAttributes.addAttribute attrb
  (partition, acc.2.addPartition partition)

def solve (workload : QueryWorkload) : Common.Partitioning :=
  (workload.attributes.foldl addAttribute (.new, .new)).2

end PartitionPerAttribute

/-- The solvers of `SolverFactory`. -/
inductive Solver where
  | optimalOverlapping
  | optimalNonOverlapping
  | heuristicOverlapping
  | heuristicNonOverlapping
  | singlePartition
  | partitionPerAttribute
  deriving DecidableEq, Repr

/-- `solver->solve(workload, storageThreshold, stats)`.  `ω` and `σ` are the orders of hash sets and
of equal elements. -/
def Solver.solve (gurobi : Gurobi) (ω : SetOrder) (σ : SortOrder AttributePtr) (stats : SchemaStats)
    (workload : QueryWorkload) (storageThreshold : ℚ) : Solver → Except Fault Common.Partitioning
  | optimalOverlapping => OptimalOverlapping.solve gurobi stats workload storageThreshold
  | optimalNonOverlapping => OptimalNonOverlapping.solve gurobi stats workload storageThreshold
  | heuristicOverlapping => HeuristicOverlapping.solve stats ω workload storageThreshold
  | heuristicNonOverlapping => HeuristicNonOverlapping.solve stats ω σ workload storageThreshold
  | singlePartition => .ok (SinglePartition.solve workload)
  | partitionPerAttribute => .ok (PartitionPerAttribute.solve workload)

end RailwayDB.Optimizer
