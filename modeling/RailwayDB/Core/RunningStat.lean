/-
`RunningStat.h`: mean and variance of the values pushed so far, one value at a time.

The accumulators are doubles in the source and exact rationals here.  The constructor
sets only the counter: the accumulators start with whatever is in memory, and `clear`
leaves them as they are.  The counter is an `int`; counting past its largest value is
undefined.
-/
import RailwayDB.Core.Types
import Mathlib.Algebra.Field.Rat

namespace RailwayDB

structure RunningStat where
  n : Nat
  oldM : ℚ
  newM : ℚ
  oldS : ℚ
  newS : ℚ

namespace RunningStat

/-- `std::numeric_limits<int>::max()`. -/
def maxInt : Nat := 2 ^ 31 - 1

/-- `RunningStat()`, in memory with these values. -/
def new (oldM newM oldS newS : ℚ) : RunningStat := ⟨0, oldM, newM, oldS, newS⟩

def clear (stat : RunningStat) : RunningStat := { stat with n := 0 }

def push (stat : RunningStat) (x : ℚ) : Except Fault RunningStat :=
  if stat.n = maxInt then .error (.undefined .intOverflow)
  else
    let n := stat.n + 1
    if n = 1 then
      .ok { stat with n := n, oldM := x, newM := x, oldS := 0 }
    else
      let newM := stat.oldM + (x - stat.oldM) / n
      let newS := stat.oldS + (x - stat.oldM) * (x - newM)
      -- set up for next iteration
      .ok ⟨n, newM, newM, newS, newS⟩

def getNumDataValues (stat : RunningStat) : Nat := stat.n

def getMean (stat : RunningStat) : ℚ := if 0 < stat.n then stat.newM else 0

def getVariance (stat : RunningStat) : ℚ := if 1 < stat.n then stat.newS / (stat.n - 1) else 0

end RunningStat

end RailwayDB
