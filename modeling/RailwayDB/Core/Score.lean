/-
The `double` arithmetic of block formation.

Scores and localities are doubles.  Block formation only needs that a quotient of
counts is at most one when it should be, and that nothing positive turns negative:
rounding to nearest keeps that much of the order.  The rest of the arithmetic (that
sums and products round) is left open, so the results hold for any arithmetic that
keeps the order so far; the rationals are one.  Times are scores too, for the layouts
that go by age.
-/
import RailwayDB.Core.Timestamp
import Mathlib.Algebra.Order.Field.Rat
import Mathlib.Tactic.Linarith
import Mathlib.Tactic.Positivity

namespace RailwayDB

/-- The operations on scores, and what is kept of the order. -/
class Score (S : Type) [LinearOrder S] where
  /-- `(double)n`. -/
  ofNat : Nat → S
  neg : S → S
  sub : S → S → S
  mul : S → S → S
  div : S → S → S
  /-- `0.5`. -/
  half : S
  half_nonneg : ofNat 0 ≤ half
  mul_nonneg : ∀ x y, ofNat 0 ≤ x → ofNat 0 ≤ y → ofNat 0 ≤ mul x y
  div_nonneg : ∀ n y, ofNat 0 < y → ofNat 0 ≤ div (ofNat n) y
  one_sub_div_nonneg : ∀ m n, m ≤ n → 0 < n → ofNat 0 ≤ sub (ofNat 1) (div (ofNat m) (ofNat n))
  pairs_pos : ∀ n, 2 ≤ n → ofNat 0 < mul (mul half (ofNat n)) (sub (ofNat n) (ofNat 1))

/-- A time as a score: both are doubles in the source. -/
class TimeScore (T S : Type) where
  ofTime : T → S

instance : Score ℚ where
  ofNat n := n
  neg x := -x
  sub x y := x - y
  mul x y := x * y
  div x y := x / y
  half := 1 / 2
  half_nonneg := by norm_num
  mul_nonneg x y hx hy := by
    rw [Nat.cast_zero] at *
    positivity
  div_nonneg n y hy := by
    rw [Nat.cast_zero] at *
    positivity
  one_sub_div_nonneg m n hmn hn := by
    have hn' : (0 : ℚ) < n := by exact_mod_cast hn
    have hmn' : (m : ℚ) ≤ n := by exact_mod_cast hmn
    have hle : (m : ℚ) / n ≤ 1 := (div_le_one hn').mpr hmn'
    push_cast
    linarith
  pairs_pos n hn := by
    have hn' : (2 : ℚ) ≤ n := by exact_mod_cast hn
    have hpos : (0 : ℚ) < n - 1 := by linarith
    push_cast
    positivity

/-- Times go to scores in their order. -/
instance : TimeScore Time ℚ := ⟨fun t => Binary64.rank t.val.val⟩

end RailwayDB
