/-
Linear programs over variables that are 0 or 1.

A constraint is a list of variables with their coefficients, a sense and a bound.
The constraints used to link variables come in two kinds: a variable may be set only
if one of a family is, and, with a large enough constant, it must be set if one of
the family is.
-/
import Mathlib.Algebra.BigOperators.Ring.Finset
import Mathlib.Algebra.Order.BigOperators.Ring.Finset
import Mathlib.Algebra.Order.Field.Rat
import Mathlib.Data.List.MinMax
import Mathlib.Tactic.Linarith

namespace ZeroOne

inductive Sense where
  | lessEqual
  | equal
  | greaterEqual
  deriving DecidableEq, Repr

structure Constraint where
  terms : List (Nat × ℚ)
  sense : Sense
  rhs : ℚ
  deriving DecidableEq

/-- The number a variable stands for. -/
def value (b : Bool) : ℚ := if b then 1 else 0

/-- The sum of the terms. -/
def weigh (terms : List (Nat × ℚ)) (sol : Nat → Bool) : ℚ :=
  (terms.map fun t => t.2 * value (sol t.1)).sum

def Constraint.Holds (c : Constraint) (sol : Nat → Bool) : Prop :=
  match c.sense with
  | .lessEqual => weigh c.terms sol ≤ c.rhs
  | .equal => weigh c.terms sol = c.rhs
  | .greaterEqual => c.rhs ≤ weigh c.terms sol

instance (c : Constraint) (sol : Nat → Bool) : Decidable (c.Holds sol) :=
  match c with
  | ⟨terms, .lessEqual, rhs⟩ => inferInstanceAs (Decidable (weigh terms sol ≤ rhs))
  | ⟨terms, .equal, rhs⟩ => inferInstanceAs (Decidable (weigh terms sol = rhs))
  | ⟨terms, .greaterEqual, rhs⟩ => inferInstanceAs (Decidable (rhs ≤ weigh terms sol))

def Feasible (cs : List Constraint) (sol : Nat → Bool) : Prop := ∀ c ∈ cs, c.Holds sol

instance (cs : List Constraint) (sol : Nat → Bool) : Decidable (Feasible cs sol) :=
  inferInstanceAs (Decidable (∀ c ∈ cs, c.Holds sol))

@[simp] theorem value_true : value true = 1 := rfl

@[simp] theorem value_false : value false = 0 := rfl

theorem value_nonneg (b : Bool) : 0 ≤ value b := by
  cases b <;> simp

theorem value_le_one (b : Bool) : value b ≤ 1 := by
  cases b <;> simp

theorem value_and (a b : Bool) : value (a && b) = value a * value b := by
  cases a <;> simp

/-- A sum written as a loop. -/
theorem sum_map_range (n : Nat) (f : Nat → ℚ) :
    ((List.range n).map f).sum = ∑ i ∈ Finset.range n, f i := by
  induction n with
  | zero => rfl
  | succ n ih =>
      rw [List.range_succ, List.map_append, List.sum_append, ih, Finset.sum_range_succ]
      simp

/-- A sum over a list by positions. -/
theorem sum_map_eq_range {α : Type*} (l : List α) (f : α → ℚ) {n : Nat} (hn : l.length ≤ n) :
    (l.map f).sum = ∑ i ∈ Finset.range n, l[i]?.elim 0 f := by
  induction l generalizing n with
  | nil => simp
  | cons a l ih =>
      obtain ⟨m, rfl⟩ : ∃ m, n = m + 1 := ⟨n - 1, by rw [List.length_cons] at hn; omega⟩
      rw [List.length_cons, Nat.succ_le_succ_iff] at hn
      rw [Finset.sum_range_succ', List.map_cons, List.sum_cons, ih hn, add_comm]
      rfl

/-- The positions of the members of a list weigh no more than the members. -/
theorem sum_positions_le {α : Type*} (l : List α) (place : α → Nat) {f : Nat → ℚ}
    (hf : ∀ i, 0 ≤ f i) (n : Nat) :
    ∑ i ∈ Finset.range n, value (decide (∃ a ∈ l, place a = i)) * f i
      ≤ (l.map fun a => f (place a)).sum := by
  induction l with
  | nil => simp
  | cons a l ih =>
      have hle : ∀ i, value (decide (∃ b ∈ a :: l, place b = i)) * f i
          ≤ value (decide (place a = i)) * f i + value (decide (∃ b ∈ l, place b = i)) * f i := by
        intro i
        rw [← add_mul]
        refine mul_le_mul_of_nonneg_right ?_ (hf i)
        by_cases ha : place a = i
        · rw [decide_eq_true ha, value_true]
          have hone := value_le_one (decide (∃ b ∈ a :: l, place b = i))
          have hpos := value_nonneg (decide (∃ b ∈ l, place b = i))
          linarith
        · have hsame : (∃ b ∈ a :: l, place b = i) ↔ ∃ b ∈ l, place b = i := by simp [ha]
          rw [decide_eq_decide.mpr hsame, decide_eq_false ha, value_false, zero_add]
      have hone : ∑ i ∈ Finset.range n, value (decide (place a = i)) * f i ≤ f (place a) := by
        by_cases hlt : place a < n
        · rw [Finset.sum_eq_single (place a)]
          · simp
          · intro i _ hne
            rw [decide_eq_false fun heq => hne heq.symm, value_false, zero_mul]
          · exact fun hnot => absurd (Finset.mem_range.mpr hlt) hnot
        · rw [Finset.sum_eq_zero]
          · exact hf _
          · intro i hi
            rw [decide_eq_false, value_false, zero_mul]
            exact fun heq => hlt (heq ▸ Finset.mem_range.mp hi)
      calc ∑ i ∈ Finset.range n, value (decide (∃ b ∈ a :: l, place b = i)) * f i
          ≤ ∑ i ∈ Finset.range n, (value (decide (place a = i)) * f i
              + value (decide (∃ b ∈ l, place b = i)) * f i) :=
            Finset.sum_le_sum fun i _ => hle i
        _ ≤ f (place a) + (l.map fun a => f (place a)).sum := by
            rw [Finset.sum_add_distrib]
            exact add_le_add hone ih
        _ = ((a :: l).map fun a => f (place a)).sum := by rw [List.map_cons, List.sum_cons]

section Terms

variable {terms : List (Nat × ℚ)} {sol : Nat → Bool} {rhs : ℚ}

@[simp] theorem weigh_nil : weigh [] sol = 0 := rfl

@[simp] theorem weigh_cons (t : Nat × ℚ) :
    weigh (t :: terms) sol = t.2 * value (sol t.1) + weigh terms sol := by
  simp [weigh]

@[simp] theorem weigh_append (terms' : List (Nat × ℚ)) :
    weigh (terms ++ terms') sol = weigh terms sol + weigh terms' sol := by
  simp [weigh]

/-- Terms written as a loop. -/
@[simp] theorem weigh_map_range (n : Nat) (v : Nat → Nat) (c : Nat → ℚ) :
    weigh ((List.range n).map fun i => (v i, c i)) sol
      = ∑ i ∈ Finset.range n, c i * value (sol (v i)) := by
  rw [weigh, List.map_map, ← sum_map_range]
  rfl

/-- Terms written as a loop of loops. -/
theorem weigh_flatten_map_range (n : Nat) (t : Nat → List (Nat × ℚ)) :
    weigh ((List.range n).map t).flatten sol = ∑ i ∈ Finset.range n, weigh (t i) sol := by
  induction n with
  | zero => rfl
  | succ n ih =>
      rw [List.range_succ, List.map_append, List.flatten_append, weigh_append, ih,
        Finset.sum_range_succ]
      simp

@[simp] theorem holds_lessEqual :
    (⟨terms, .lessEqual, rhs⟩ : Constraint).Holds sol ↔ weigh terms sol ≤ rhs := Iff.rfl

@[simp] theorem holds_equal :
    (⟨terms, .equal, rhs⟩ : Constraint).Holds sol ↔ weigh terms sol = rhs := Iff.rfl

@[simp] theorem holds_greaterEqual :
    (⟨terms, .greaterEqual, rhs⟩ : Constraint).Holds sol ↔ rhs ≤ weigh terms sol := Iff.rfl

theorem feasible_append {cs ds : List Constraint} :
    Feasible (cs ++ ds) sol ↔ Feasible cs sol ∧ Feasible ds sol :=
  List.forall_mem_append

@[simp] theorem feasible_singleton {c : Constraint} : Feasible [c] sol ↔ c.Holds sol := by
  simp [Feasible]

/-- A constraint for each index. -/
@[simp] theorem feasible_map_range (n : Nat) (c : Nat → Constraint) :
    Feasible ((List.range n).map c) sol ↔ ∀ i < n, (c i).Holds sol := by
  simp [Feasible]

/-- A family of constraints for each index. -/
@[simp] theorem feasible_flatMap_range (n : Nat) (cs : Nat → List Constraint) :
    Feasible ((List.range n).flatMap cs) sol ↔ ∀ i < n, Feasible (cs i) sol := by
  simp only [Feasible, List.mem_flatMap, List.mem_range]
  constructor
  · intro h i hi c hc
    exact h c ⟨i, hi, hc⟩
  · intro h c hex
    obtain ⟨i, hi, hc⟩ := hex
    exact h i hi c hc

end Terms

section Family

variable {n : Nat} {b : Nat → Bool}

theorem sum_nonneg : 0 ≤ ∑ i ∈ Finset.range n, value (b i) :=
  Finset.sum_nonneg fun i _ => value_nonneg (b i)

theorem sum_le : ∑ i ∈ Finset.range n, value (b i) ≤ n := by
  have hle := Finset.sum_le_card_nsmul (Finset.range n) (fun i => value (b i)) 1
    fun i _ => value_le_one (b i)
  simpa using hle

theorem one_le_sum {i : Nat} (hi : i < n) (hb : b i = true) :
    1 ≤ ∑ i ∈ Finset.range n, value (b i) := by
  have hle := Finset.single_le_sum (fun i _ => value_nonneg (b i)) (Finset.mem_range.mpr hi)
  rwa [hb, value_true] at hle

theorem sum_eq_zero_iff :
    ∑ i ∈ Finset.range n, value (b i) = 0 ↔ ∀ i < n, b i = false := by
  rw [Finset.sum_eq_zero_iff_of_nonneg fun i _ => value_nonneg (b i)]
  refine ⟨fun h i hi => ?_, fun h i hi => by rw [h i (Finset.mem_range.mp hi), value_false]⟩
  have hz := h i (Finset.mem_range.mpr hi)
  cases hb : b i with
  | false => rfl
  | true => simp [hb] at hz

/-- A family has a member set, or its sum is zero. -/
theorem exists_or_sum_eq_zero :
    (∃ i < n, b i = true) ∨ ∑ i ∈ Finset.range n, value (b i) = 0 := by
  by_cases h : ∃ i < n, b i = true
  · exact .inl h
  · refine .inr (sum_eq_zero_iff.mpr fun i hi => ?_)
    have hne : ¬ b i = true := fun hb => h ⟨i, hi, hb⟩
    simpa using hne

theorem one_le_sum_iff :
    1 ≤ ∑ i ∈ Finset.range n, value (b i) ↔ ∃ i < n, b i = true := by
  constructor
  · intro h
    rcases exists_or_sum_eq_zero with hex | hz
    · exact hex
    · rw [hz] at h
      norm_num at h
  · rintro ⟨i, hi, hb⟩
    exact one_le_sum hi hb

/-- A variable may be set only if one of the family is. -/
theorem value_le_sum_iff {y : Bool} :
    value y ≤ ∑ i ∈ Finset.range n, value (b i) ↔ (y = true → ∃ i < n, b i = true) := by
  cases y with
  | false => simpa using sum_nonneg
  | true => simpa using one_le_sum_iff

/-- A variable that bounds a family is set if one of the family is. -/
theorem of_sum_le_mul {y : Bool} {K : ℚ} (h : ∑ i ∈ Finset.range n, value (b i) ≤ K * value y)
    {i : Nat} (hi : i < n) (hb : b i = true) : y = true := by
  cases y with
  | true => rfl
  | false =>
      have hone := one_le_sum hi hb
      rw [value_false, mul_zero] at h
      linarith

/-- With a large constant, nothing else is asked of it. -/
theorem sum_le_mul {y : Bool} {K : ℚ} (hK : n ≤ K)
    (h : ∀ i < n, b i = true → y = true) : ∑ i ∈ Finset.range n, value (b i) ≤ K * value y := by
  rcases exists_or_sum_eq_zero with ⟨i, hi, hb⟩ | hz
  · rw [h i hi hb, value_true, mul_one]
    exact sum_le.trans hK
  · rw [hz]
    exact mul_nonneg ((Nat.cast_nonneg n).trans hK) (value_nonneg y)

/-- Exactly one of a family is set. -/
theorem sum_eq_one_iff :
    ∑ i ∈ Finset.range n, value (b i) = 1 ↔ ∃ i < n, b i = true ∧ ∀ j < n, b j = true → j = i := by
  constructor
  · intro h
    obtain ⟨i, hi, hb⟩ := one_le_sum_iff.mp h.ge
    refine ⟨i, hi, hb, fun j hj hbj => ?_⟩
    by_contra hne
    have hsplit := Finset.add_sum_erase (Finset.range n) (fun i => value (b i))
      (Finset.mem_range.mpr hi)
    have hmem : j ∈ (Finset.range n).erase i :=
      Finset.mem_erase.mpr ⟨hne, Finset.mem_range.mpr hj⟩
    have hle := Finset.single_le_sum (fun i _ => value_nonneg (b i)) hmem
    simp only [hb, hbj, value_true] at hsplit hle
    linarith
  · rintro ⟨i, hi, hb, huniq⟩
    rw [Finset.sum_eq_single i, hb, value_true]
    · intro j hj hne
      cases hbj : b j with
      | false => rfl
      | true => exact absurd (huniq j (Finset.mem_range.mp hj) hbj) hne
    · intro hni
      exact absurd (Finset.mem_range.mpr hi) hni

end Family

/-! ### Trying every solution -/

section Exhaustive

variable {n : Nat} {cs : List Constraint} {sol sol' : Nat → Bool} {cost : (Nat → Bool) → ℚ}

/-- Only the first `n` variables occur. -/
def Within (n : Nat) (cs : List Constraint) : Prop := ∀ c ∈ cs, ∀ t ∈ c.terms, t.1 < n

instance : Decidable (Within n cs) :=
  inferInstanceAs (Decidable (∀ c ∈ cs, ∀ t ∈ c.terms, t.1 < n))

theorem weigh_congr {terms : List (Nat × ℚ)} (h : ∀ t ∈ terms, sol t.1 = sol' t.1) :
    weigh terms sol = weigh terms sol' := by
  unfold weigh
  congr 1
  refine List.map_congr_left fun t ht => ?_
  rw [h t ht]

theorem Within.feasible_congr (hn : Within n cs) (h : ∀ j < n, sol j = sol' j) :
    Feasible cs sol ↔ Feasible cs sol' := by
  refine forall₂_congr fun c hc => ?_
  unfold Constraint.Holds
  rw [weigh_congr fun t ht => h t.1 (hn c hc t ht)]

/-- The values of the first `n` variables, as the bits of a number. -/
def solutions (n : Nat) : List (Nat → Bool) := (List.range (2 ^ n)).map Nat.testBit

theorem exists_solution (n : Nat) (sol : Nat → Bool) :
    ∃ sol' ∈ solutions n, ∀ j < n, sol' j = sol j := by
  have hlt := Nat.ofBits_lt_two_pow fun j : Fin n => sol j
  refine ⟨_, List.mem_map_of_mem (List.mem_range.mpr hlt), ?_⟩
  intro j hj
  exact Nat.testBit_ofBits_lt _ j hj

/-- The first of the solutions that cost least. -/
def leastSolution (n : Nat) (cs : List Constraint) (cost : (Nat → Bool) → ℚ) :
    Option (Nat → Bool) :=
  ((solutions n).filter fun sol => decide (Feasible cs sol)).argmin cost

theorem leastSolution_feasible (h : leastSolution n cs cost = some sol) : Feasible cs sol := by
  have hmem := List.mem_filter.mp (List.argmin_mem h)
  exact of_decide_eq_true hmem.2

/-- One is found if there is one at all. -/
theorem exists_leastSolution (hn : Within n cs) (hsol : Feasible cs sol)
    (cost : (Nat → Bool) → ℚ) : ∃ sol', leastSolution n cs cost = some sol' := by
  rw [← Option.ne_none_iff_exists']
  intro hnone
  obtain ⟨sol', hmem, heq⟩ := exists_solution n sol
  have hin : sol' ∈ (solutions n).filter fun sol => decide (Feasible cs sol) :=
    List.mem_filter.mpr ⟨hmem, decide_eq_true ((hn.feasible_congr heq).mpr hsol)⟩
  unfold leastSolution at hnone
  rw [List.argmin_eq_none.mp hnone] at hin
  exact List.not_mem_nil hin

/-- Nothing costs less, if what a solution costs depends on those variables only. -/
theorem leastSolution_le (hn : Within n cs)
    (hcost : ∀ sol sol', (∀ j < n, sol j = sol' j) → cost sol = cost sol')
    (h : leastSolution n cs cost = some sol) (hsol' : Feasible cs sol') : cost sol ≤ cost sol' := by
  obtain ⟨sol'', hmem, heq⟩ := exists_solution n sol'
  rw [← hcost sol'' sol' heq]
  refine List.le_of_mem_argmin (List.mem_filter.mpr ⟨hmem, decide_eq_true ?_⟩) h
  exact (hn.feasible_congr heq).mpr hsol'

end Exhaustive

end ZeroOne
