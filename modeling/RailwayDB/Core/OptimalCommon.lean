/-
`OptimalCommon.cpp`, `OptimalNonOverlapping.cpp` and `OptimalOverlapping.cpp`: the
integer programs the optimizer hands to the solver.

The solver is a library; what is modelled is the program it is given and what is
read off the solution it returns.  The calls that build the program are taken to
succeed.  An `int` that would overflow is a fault; the coefficients are doubles in
the source and exact rationals here.
-/
import RailwayDB.Core.Cost
import RailwayDB.Lib.ZeroOne

namespace RailwayDB.Optimizer

open Common ZeroOne SystemConstants

/-! ### The variables -/

structure VarEnv where
  numVars : Nat
  xOffset : Nat
  yOffset : Nat
  zOffset : Nat
  uOffset : Nat
  A : Nat
  P : Nat
  Q : Nat
  deriving DecidableEq, Repr

/-- A count as an `int`. -/
def int (n : Nat) : Except Fault Nat :=
  if n < 2 ^ 31 then .ok n else .error (.undefined .intOverflow)

/-- The sums are of counts, so the last one overflows if any does. -/
def createEnv (workload : QueryWorkload) : Except Fault VarEnv := do
  let P ← int workload.attributes.length
  let Q ← int workload.queries.length
  let A ← int workload.attributes.length
  let numVars ← int (A * P + P * Q + A * P * Q + P)
  return {
    numVars := numVars
    xOffset := 0
    yOffset := A * P
    zOffset := A * P + P * Q
    uOffset := A * P + P * Q + A * P * Q
    A := A, P := P, Q := Q }

def x (e : VarEnv) (a p : Nat) : Nat := e.xOffset + (a * e.P + p)

def y (e : VarEnv) (p q : Nat) : Nat := e.yOffset + (p * e.Q + q)

def z (e : VarEnv) (a p q : Nat) : Nat := e.zOffset + (q * e.A * e.P + a * e.P + p)

def u (e : VarEnv) (p : Nat) : Nat := e.uOffset + p

/-! ### The constants -/

def c_e : Nat := numberOfEdgesInABlock

def c_n : Nat := numberOfNeighborListsInABlock

def K : ℚ := 1000

/-- `s(attributes, stats)`. -/
def s (attributes : List AttributePtr) (stats : SchemaStats) : Except Fault ℚ :=
  attributes.foldlM (fun sum attrb => do return sum + (← stats.getAvgSize attrb.index)) 0

/-- `accesses(queries, q, a)`, with `q` one of the queries. -/
def accesses (queries : List QuerySummary) (q a : Nat) : Nat :=
  match queries[q]? with
  | some query => if ∃ attrb ∈ query.attributes, attrb.index = a then 1 else 0
  | none => 0

/-- The bytes of a partition without attributes. -/
def u_const : ℚ :=
  (edgeIdSize + timestampSize) * c_e + (headVertexSize + numEntriesSize) * c_n

/-! ### The objective -/

/-- The coefficients `objective` sets, in the order it sets them. -/
def objective (e : VarEnv) (workload : QueryWorkload) (stats : SchemaStats) :
    Except Fault (List (Nat × ℚ)) := do
  let xs := (List.range e.A).flatMap fun a => (List.range e.P).map fun p => (x e a p, (0 : ℚ))
  let qs ← (List.range e.Q).mapM fun q => do
    let ys ← (List.range e.P).mapM fun p => do
      let frequency ← workload.getFrequency (← workload.getQuerySummary q)
      return (y e p q, u_const * frequency)
    let zs ← (List.range e.A).mapM fun a => (List.range e.P).mapM fun p => do
      let size ← stats.getAvgSize (← workload.getAttribute a).index
      let frequency ← workload.getFrequency (← workload.getQuerySummary q)
      return (z e a p q, size * c_e * frequency)
    return ys ++ zs.flatten
  let us := (List.range e.P).map fun p => (u e p, (0 : ℚ))
  return xs ++ qs.flatten ++ us

/-- `obj[j]` after the assignments. -/
def coefficient (obj : List (Nat × ℚ)) (j : Nat) : ℚ :=
  match obj.reverse.find? fun t => t.1 = j with
  | some t => t.2
  | none => 0

/-- What the solver minimizes. -/
def objval (e : VarEnv) (obj : List (Nat × ℚ)) (sol : Nat → Bool) : ℚ :=
  ((List.range e.numVars).map fun j => coefficient obj j * value (sol j)).sum

/-! ### Reading a solution -/

/-- The attributes of slot `p`. -/
def slot (e : VarEnv) (workload : QueryWorkload) (sol : Nat → Bool) (p : Nat) :
    Except Fault Partition :=
  ((List.range e.A).filter fun a => sol (x e a p)).foldlM (fun partition a => do
    return partition.addAttribute (← workload.getAttribute a)) Partition.new

/-- The end of `solve`: the slots that have attributes. -/
def extract (e : VarEnv) (workload : QueryWorkload) (sol : Nat → Bool) :
    Except Fault Common.Partitioning :=
  (List.range e.P).foldlM (fun partitioning p => do
    let partition ← slot e workload sol p
    return if partition.numAttributes > 0 then partitioning.addPartition partition
      else partitioning) Common.Partitioning.new

/-! ### Families of constraints that both programs have -/

/-- `z >= x + y - 1`. -/
def bothFamily (e : VarEnv) : List Constraint :=
  (List.range e.A).flatMap fun a => (List.range e.P).flatMap fun p => (List.range e.Q).map fun q =>
    ⟨[(z e a p q, 1), (x e a p, -1), (y e p q, -1)], .greaterEqual, -1⟩

/-- A used slot has an attribute. -/
def usedFamily (e : VarEnv) : List Constraint :=
  (List.range e.P).map fun p =>
    ⟨((List.range e.A).map fun a => (x e a p, 1)) ++ [(u e p, -1)], .greaterEqual, 0⟩

/-- A slot with an attribute is used. -/
def filledFamily (e : VarEnv) : List Constraint :=
  (List.range e.P).map fun p =>
    ⟨(u e p, K) :: (List.range e.A).map fun a => (x e a p, -1), .greaterEqual, 0⟩

/-- The partition of all attributes. -/
def wholePartition (workload : QueryWorkload) : Partition :=
  Partition.ofAttributes workload.attributes

namespace OptimalNonOverlapping

def constraints (alpha : ℚ) (e : VarEnv) (workload : QueryWorkload) (stats : SchemaStats) :
    Except Fault (List Constraint) := do
  let queries := workload.queries
  let first : List Constraint := (List.range e.A).map fun a =>
    ⟨(List.range e.P).map fun p => (x e a p, 1), .equal, 1⟩
  let second : List Constraint := (List.range e.P).flatMap fun p => (List.range e.Q).map fun q =>
    ⟨((List.range e.A).map fun a => (x e a p, (accesses queries q a : ℚ))) ++ [(y e p q, -1)],
      .greaterEqual, 0⟩
  let third : List Constraint := (List.range e.P).flatMap fun p => (List.range e.Q).map fun q =>
    ⟨(y e p q, K) :: (List.range e.A).map fun a => (x e a p, -(accesses queries q a : ℚ)),
      .greaterEqual, 0⟩
  let sum ← s workload.attributes stats
  let size ← Cost.getPartitionSize stats (wholePartition workload)
  let limit := 1 + alpha / (1 - (sum * c_e) / size)
  let last : Constraint := ⟨(List.range e.P).map fun p => (u e p, 1), .lessEqual, limit⟩
  return first ++ second ++ third ++ bothFamily e ++ usedFamily e ++ filledFamily e ++ [last]

end OptimalNonOverlapping

namespace OptimalOverlapping

def constraints (alpha : ℚ) (e : VarEnv) (workload : QueryWorkload) (stats : SchemaStats) :
    Except Fault (List Constraint) := do
  let queries := workload.queries
  let first : List Constraint := (List.range e.A).map fun a =>
    ⟨(List.range e.P).map fun p => (x e a p, 1), .greaterEqual, 1⟩
  let second : List Constraint := (List.range e.A).flatMap fun a => (List.range e.Q).map fun q =>
    ⟨(List.range e.P).map fun p => (z e a p q, 1), .greaterEqual, accesses queries q a⟩
  let third : List Constraint := (List.range e.A).flatMap fun a => (List.range e.P).flatMap fun p =>
    (List.range e.Q).map fun q => ⟨[(x e a p, 1), (z e a p q, -1)], .greaterEqual, 0⟩
  let fourth : List Constraint := (List.range e.P).flatMap fun p => (List.range e.Q).map fun q =>
    ⟨((List.range e.A).map fun a => (z e a p q, 1)) ++ [(y e p q, -1)], .greaterEqual, 0⟩
  let fifth : List Constraint := (List.range e.P).flatMap fun p => (List.range e.Q).map fun q =>
    ⟨(y e p q, K) :: (List.range e.A).map fun a => (z e a p q, -1), .greaterEqual, 0⟩
  let limit := (← Cost.getPartitionSize stats (wholePartition workload)) * (1 + alpha)
  let us := (List.range e.P).map fun p => (u e p, u_const)
  let xs ← (List.range e.P).mapM fun p => (List.range e.A).mapM fun a => do
    let size ← stats.getAvgSize (← workload.getAttribute a).index
    return (x e a p, size * c_e)
  let last : Constraint := ⟨us ++ xs.flatten, .lessEqual, limit⟩
  return first ++ second ++ third ++ fourth ++ fifth ++ bothFamily e ++ usedFamily e
    ++ filledFamily e ++ [last]

end OptimalOverlapping

end RailwayDB.Optimizer
