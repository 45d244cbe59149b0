/-
Mean and spread of a list of numbers.

The sum of the squared deviations from the mean is the sum of the squares less what the
mean accounts for, which makes it a function of three sums; adding a number at the end
changes it by the product of the number's deviations from the mean before and after.
-/
import Mathlib.Algebra.BigOperators.Group.List.Lemmas
import Mathlib.Algebra.Field.Basic
import Mathlib.Algebra.CharZero.Defs
import Mathlib.Tactic.FieldSimp
import Mathlib.Tactic.Ring

namespace SampleStatistics

variable {K : Type*} [Field K]

def mean (xs : List K) : K := xs.sum / xs.length

/-- The sum of the squared deviations from the mean. -/
def sumSqDev (xs : List K) : K := (xs.map fun x => (x - mean xs) ^ 2).sum

/-- The unbiased variance of a sample. -/
def variance (xs : List K) : K := sumSqDev xs / (xs.length - 1)

theorem sum_sq_sub (xs : List K) (m : K) :
    (xs.map fun x => (x - m) ^ 2).sum =
      (xs.map fun x => x ^ 2).sum - 2 * m * xs.sum + xs.length * m ^ 2 := by
  induction xs with
  | nil => simp
  | cons x xs ih =>
      simp only [List.map_cons, List.sum_cons, List.length_cons, Nat.cast_add, Nat.cast_one, ih]
      ring

@[simp] theorem mean_singleton (x : K) : mean [x] = x := by
  simp [mean]

@[simp] theorem sumSqDev_singleton (x : K) : sumSqDev [x] = 0 := by
  simp [sumSqDev]

variable [CharZero K]

theorem length_ne_zero {xs : List K} (h : xs ≠ []) : (xs.length : K) ≠ 0 :=
  Nat.cast_ne_zero.mpr fun hnil => h (List.length_eq_zero_iff.mp hnil)

theorem sumSqDev_eq {xs : List K} (h : xs ≠ []) :
    sumSqDev xs = (xs.map fun x => x ^ 2).sum - xs.sum ^ 2 / xs.length := by
  have hlen : (xs.length : K) ≠ 0 := length_ne_zero h
  unfold sumSqDev
  rw [sum_sq_sub]
  unfold mean
  field_simp
  ring

/-- One more number moves the mean by its share of the deviation. -/
theorem mean_append {xs : List K} (h : xs ≠ []) (x : K) :
    mean (xs ++ [x]) = mean xs + (x - mean xs) / (xs.length + 1 : Nat) := by
  have hlen : (xs.length : K) ≠ 0 := length_ne_zero h
  have hsucc : (xs.length + 1 : K) ≠ 0 := Nat.cast_add_one_ne_zero xs.length
  unfold mean
  rw [List.sum_append, List.length_append, List.sum_singleton, List.length_singleton]
  push_cast
  field_simp
  ring

/-- One more number adds the product of its deviations from the two means. -/
theorem sumSqDev_append {xs : List K} (h : xs ≠ []) (x : K) :
    sumSqDev (xs ++ [x]) = sumSqDev xs + (x - mean xs) * (x - mean (xs ++ [x])) := by
  have hlen : (xs.length : K) ≠ 0 := length_ne_zero h
  have hsucc : (xs.length + 1 : K) ≠ 0 := Nat.cast_add_one_ne_zero xs.length
  rw [sumSqDev_eq (by simp), sumSqDev_eq h, mean_append h]
  unfold mean
  rw [List.map_append, List.sum_append, List.sum_append, List.length_append]
  simp only [List.map_cons, List.map_nil, List.sum_singleton, List.length_singleton]
  push_cast
  field_simp
  ring

end SampleStatistics
