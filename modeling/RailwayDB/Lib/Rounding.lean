/-
Arithmetic with rounding.

A program over numbers is written once, with every result of `+`, `*` and `/` passed
through a `Rounding`.  With `exact` it computes with rationals.  With `nearest` it
computes as IEEE 754 doubles do: to 53 bits, and down to multiples of 2^-1074, to the
nearest and between two to the even one.  Results beyond the largest double are not
told apart from those below: what is proved with a rounding is proved of values in
range.
-/
import Mathlib.Algebra.Order.Field.Rat
import Mathlib.Data.Rat.Floor
import Mathlib.Tactic.Positivity

structure Rounding where
  round : ℚ → ℚ
  nonneg : ∀ x, 0 ≤ x → 0 ≤ round x

namespace Rounding

def exact : Rounding := ⟨id, fun _ h => h⟩

@[simp] theorem exact_round (x : ℚ) : exact.round x = x := rfl

/-! ### Nearest, ties to even -/

/-- The nearest whole number, and between two the even one. -/
def halfEven (x : ℚ) : ℤ :=
  if x - x.floor < 1 / 2 then x.floor
  else if 1 / 2 < x - x.floor then x.floor + 1
  else if x.floor % 2 = 0 then x.floor else x.floor + 1

/-- `2 ^ e`. -/
def scale (e : ℤ) : ℚ := (2 ^ e.toNat : ℕ) / (2 ^ (-e).toNat : ℕ)

/-- The largest `k` with `2 ^ k ≤ |x|`. -/
def exponent (x : ℚ) : ℤ :=
  let k : ℤ := (x.num.natAbs.log2 : ℤ) - x.den.log2
  if |x| < scale k then k - 1 else k

/-- The distance of the doubles around `x`. -/
def ulp (x : ℚ) : ℚ := scale (max (exponent x - 52) (-1074))

/-- The double nearest to `x`. -/
def toDouble (x : ℚ) : ℚ := halfEven (x / ulp x) * ulp x

theorem scale_pos (e : ℤ) : 0 < scale e := by
  unfold scale
  positivity

theorem halfEven_nonneg {x : ℚ} (h : 0 ≤ x) : 0 ≤ halfEven x := by
  have hfloor : 0 ≤ x.floor := Rat.le_floor_iff.mpr (by exact_mod_cast h)
  unfold halfEven
  split_ifs
  · exact hfloor
  · omega
  · exact hfloor
  · omega

theorem toDouble_nonneg {x : ℚ} (h : 0 ≤ x) : 0 ≤ toDouble x := by
  have hulp : 0 < ulp x := scale_pos _
  refine mul_nonneg ?_ hulp.le
  exact_mod_cast halfEven_nonneg (div_nonneg h hulp.le)

def nearest : Rounding := ⟨toDouble, fun _ => toDouble_nonneg⟩

example : nearest.round (1 / 10) = 3602879701896397 / 36028797018963968 := by decide +kernel

end Rounding
