/-
The program for partitionings that do not overlap.

The variables of the slots can be completed to a solution exactly when each attribute
is in one slot and the slots that are not empty keep to the storage bound: the bound
on their number is the storage bound with the size of the attributes divided out.
The program forces a slot with attributes to be used through a constant of 1000, so
a slot that holds more attributes than that has no solution although it is allowed,
and the variables are numbered with an `int`.
-/
import RailwayDB.Proofs.OptimalCommon

namespace RailwayDB.Optimizer.OptimalNonOverlapping

open Common Common.Cost ZeroOne SystemConstants

variable {workload : QueryWorkload} {stats : SchemaStats} {size : Nat → ℚ} {e : VarEnv} {alpha : ℚ}

/-! ### What the constraints say -/

/-- Each attribute is in exactly one slot. -/
def InOneSlot (e : VarEnv) (sol : Nat → Bool) : Prop :=
  ∀ a < e.A, ∃ p < e.P, sol (x e a p) = true ∧ ∀ p' < e.P, sol (x e a p') = true → p' = p

/-- Whether query `q` needs slot `p`. -/
def needed (e : VarEnv) (queries : List QuerySummary) (sol : Nat → Bool) (p q a : Nat) : Bool :=
  decide (accesses queries q a = 1) && sol (x e a p)

theorem accesses_mul (queries : List QuerySummary) (sol : Nat → Bool) (p q a : Nat) :
    (accesses queries q a : ℚ) * value (sol (x e a p)) = value (needed e queries sol p q a) := by
  rw [needed, value_and]
  congr 1
  unfold accesses
  split
  · split
    · simp
    · simp
  · simp

/-- The families one by one. -/
structure Solves (e : VarEnv) (queries : List QuerySummary) (limit : ℚ) (sol : Nat → Bool) :
    Prop where
  first : InOneSlot e sol
  second : ∀ p < e.P, ∀ q < e.Q, sol (y e p q) = true →
    ∃ a < e.A, needed e queries sol p q a = true
  third : ∀ p < e.P, ∀ q < e.Q,
    ∑ a ∈ Finset.range e.A, value (needed e queries sol p q a) ≤ K * value (sol (y e p q))
  both : ∀ a < e.A, ∀ p < e.P, ∀ q < e.Q,
    sol (x e a p) = true → sol (y e p q) = true → sol (z e a p q) = true
  used : ∀ p < e.P, sol (u e p) = true → filled e sol p = true
  filled : ∀ p < e.P, ∑ a ∈ Finset.range e.A, value (sol (x e a p)) ≤ K * value (sol (u e p))
  last : ∑ p ∈ Finset.range e.P, value (sol (u e p)) ≤ limit

/-- The most slots that may be used. -/
def limit (e : VarEnv) (size : Nat → ℚ) (alpha : ℚ) : ℚ := 1 + alpha * blockSize e size / u_const

theorem limit_eq (hpos : ∀ a < e.A, 0 ≤ size a) :
    1 + alpha / (1 - ((∑ a ∈ Finset.range e.A, size a) * c_e) / blockSize e size)
      = limit e size alpha := by
  have hblock : blockSize e size ≠ 0 := (blockSize_pos hpos).ne'
  have hconst : u_const ≠ 0 := u_const_pos.ne'
  have hfrac : 1 - ((∑ a ∈ Finset.range e.A, size a) * c_e) / blockSize e size
      = u_const / blockSize e size := by
    field_simp
    rw [blockSize]
    ring
  rw [hfrac, limit]
  field_simp

theorem s_ok (h : Sized workload.attributes stats size) :
    s workload.attributes stats
      = .ok (∑ a ∈ Finset.range workload.attributes.length, size a) := by
  obtain ⟨hdrawn, hindices⟩ := h.indices_attributes
  rw [s, attributesSize_ok h _ hdrawn, hindices, zero_add, sum_map_range]

theorem constraints_ok (h : Sized workload.attributes stats size) (hA : e.A = workload.attributes.length)
    (hpos : ∀ a < e.A, 0 ≤ size a) (alpha : ℚ) :
    ∃ cs, constraints alpha e workload stats = .ok cs ∧
      ∀ sol, Feasible cs sol ↔ Solves e workload.queries (limit e size alpha) sol := by
  simp only [constraints, s_ok h, wholePartition_size h hA, Except.ok_bind, Except.pure_eq_ok,
    Except.ok.injEq, ← hA, limit_eq hpos]
  refine ⟨_, rfl, ?_⟩
  intro sol
  simp only [feasible_append, bothFamily_iff, usedFamily_iff, filledFamily_iff]
  simp only [feasible_map_range, feasible_flatMap_range, feasible_singleton, holds_equal,
    holds_greaterEqual, holds_lessEqual, weigh_append, weigh_cons, weigh_nil, weigh_map_range,
    one_mul, neg_mul, accesses_mul, Finset.sum_neg_distrib, add_zero, sum_eq_one_iff]
  constructor
  · intro hsol
    obtain ⟨⟨⟨⟨⟨⟨hfirst, hsecond⟩, hthird⟩, hboth⟩, hused⟩, hfilled⟩, hlast⟩ := hsol
    refine ⟨hfirst, ?_, ?_, hboth, hused, hfilled, hlast⟩
    · intro p hp q hq
      rw [← value_le_sum_iff]
      linarith [hsecond p hp q hq]
    · intro p hp q hq
      linarith [hthird p hp q hq]
  · intro hsol
    refine ⟨⟨⟨⟨⟨⟨hsol.first, ?_⟩, ?_⟩, hsol.both⟩, hsol.used⟩, hsol.filled⟩, hsol.last⟩
    · intro p hp q hq
      linarith [value_le_sum_iff.mpr (hsol.second p hp q hq)]
    · intro p hp q hq
      linarith [hsol.third p hp q hq]

/-! ### The storage bound -/

/-- The attributes are shared out between the slots. -/
theorem sum_slotSize {sol : Nat → Bool} (h : InOneSlot e sol) (size : Nat → ℚ) :
    ∑ p ∈ Finset.range e.P, slotSize e size sol p = ∑ a ∈ Finset.range e.A, size a := by
  simp only [slotSize]
  rw [Finset.sum_comm]
  refine Finset.sum_congr rfl ?_
  intro a ha
  rw [← Finset.mul_sum, sum_eq_one_iff.mpr (h a (Finset.mem_range.mp ha)), mul_one]

theorem overhead_le_iff {sol : Nat → Bool} (h : InOneSlot e sol) (hpos : ∀ a < e.A, 0 ≤ size a) :
    totalSize e size sol / blockSize e size - 1 ≤ alpha ↔
      ∑ p ∈ Finset.range e.P, value (filled e sol p) ≤ limit e size alpha := by
  have hblock := blockSize_pos hpos
  have hconst := u_const_pos
  have htotal : totalSize e size sol
      = (∑ p ∈ Finset.range e.P, value (filled e sol p)) * u_const
        + (blockSize e size - u_const) := by
    rw [totalSize, Finset.sum_add_distrib, ← Finset.sum_mul, ← Finset.mul_sum, sum_slotSize h,
      blockSize]
    ring
  rw [htotal, limit, sub_le_iff_le_add, div_le_iff₀ hblock, ← sub_le_iff_le_add',
    le_div_iff₀ hconst]
  constructor
  · intro hle
    linarith
  · intro hle
    linarith

/-- In a solution a slot is used exactly when it has an attribute. -/
theorem Solves.used_eq {queries : List QuerySummary} {sol : Nat → Bool} {l : ℚ}
    (h : Solves e queries l sol) {p : Nat} (hp : p < e.P) :
    sol (u e p) = Optimizer.filled e sol p :=
  u_eq_filled (h.used p hp) (h.filled p hp)

/-! ### Completing the variables of the slots -/

/-- The two agree on the variables of the slots. -/
def SameSlots (e : VarEnv) (sol sol' : Nat → Bool) : Prop :=
  ∀ a < e.A, ∀ p < e.P, sol' (x e a p) = sol (x e a p)

theorem SameSlots.filled_eq {sol sol' : Nat → Bool} (h : SameSlots e sol sol') {p : Nat}
    (hp : p < e.P) : filled e sol' p = filled e sol p := by
  rw [Bool.eq_iff_iff, filled_eq_true, filled_eq_true]
  refine exists_congr fun a => and_congr_right fun ha => ?_
  rw [h a ha p hp]

theorem SameSlots.inOneSlot {sol sol' : Nat → Bool} (h : SameSlots e sol sol') :
    InOneSlot e sol' ↔ InOneSlot e sol := by
  refine forall₂_congr fun a ha => exists_congr fun p => and_congr_right fun hp => ?_
  rw [h a ha p hp]
  refine and_congr_right fun _ => forall₂_congr fun p' hp' => ?_
  rw [h a ha p' hp']

/-- The other variables, as the slots decide them. -/
def completed (e : VarEnv) (queries : List QuerySummary) (sol : Nat → Bool) : Var e.A e.P e.Q → Bool
  | .x a p => sol (x e a p)
  | .y p q => decide (∃ a < e.A, needed e queries sol p q a = true)
  | .z _ _ _ => true
  | .u p => filled e sol p

theorem exists_complete (he : createEnv workload = .ok e) (queries : List QuerySummary)
    (sol : Nat → Bool) :
    ∃ sol', SameSlots e sol sol' ∧
      (∀ p < e.P, ∀ q < e.Q,
        sol' (y e p q) = decide (∃ a < e.A, needed e queries sol p q a = true)) ∧
      (∀ a < e.A, ∀ p < e.P, ∀ q < e.Q, sol' (z e a p q) = true) ∧
      ∀ p < e.P, sol' (u e p) = filled e sol p := by
  obtain ⟨sol', hsol'⟩ := Var.exists_sol he (completed e queries sol)
  exact ⟨sol', fun a ha p hp => hsol' (.x ⟨a, ha⟩ ⟨p, hp⟩),
    fun p hp q hq => hsol' (.y ⟨p, hp⟩ ⟨q, hq⟩),
    fun a ha p hp q hq => hsol' (.z ⟨a, ha⟩ ⟨p, hp⟩ ⟨q, hq⟩), fun p hp => hsol' (.u ⟨p, hp⟩)⟩

theorem exists_solves (he : createEnv workload = .ok e) (hK : e.A ≤ 1000)
    (queries : List QuerySummary) {sol : Nat → Bool} {l : ℚ} (hone : InOneSlot e sol)
    (hl : ∑ p ∈ Finset.range e.P, value (filled e sol p) ≤ l) :
    ∃ sol', SameSlots e sol sol' ∧ Solves e queries l sol' := by
  obtain ⟨sol', hsame, hy, hz, hu⟩ := exists_complete he queries sol
  have hKA : (e.A : ℚ) ≤ K := by
    rw [K]
    exact_mod_cast hK
  have hneeded : ∀ p < e.P, ∀ q, ∀ a < e.A,
      needed e queries sol' p q a = needed e queries sol p q a := by
    intro p hp q a ha
    rw [needed, needed, hsame a ha p hp]
  refine ⟨sol', hsame, hsame.inOneSlot.mpr hone, ?_, ?_, ?_, ?_, ?_, ?_⟩
  · intro p hp q hq hset
    rw [hy p hp q hq, decide_eq_true_eq] at hset
    obtain ⟨a, ha, hn⟩ := hset
    exact ⟨a, ha, by rw [hneeded p hp q a ha, hn]⟩
  · intro p hp q hq
    refine sum_le_mul hKA ?_
    intro a ha hn
    rw [hy p hp q hq, decide_eq_true_eq]
    exact ⟨a, ha, by rw [← hneeded p hp q a ha, hn]⟩
  · intro a ha p hp q hq _ _
    exact hz a ha p hp q hq
  · intro p hp hset
    rw [hsame.filled_eq hp, ← hu p hp]
    exact hset
  · intro p hp
    refine sum_le_mul hKA ?_
    intro a ha hx
    rw [hu p hp, ← hsame.filled_eq hp]
    exact filled_eq_true.mpr ⟨a, ha, hx⟩
  · rw [Finset.sum_congr rfl fun p hp => by rw [hu p (Finset.mem_range.mp hp)]]
    exact hl

/-! ### The program against the cost model -/

/-- Each attribute is in one slot, and what is read off the slots keeps to the bound. -/
def Admissible (alpha : ℚ) (e : VarEnv) (workload : QueryWorkload) (stats : SchemaStats)
    (sol : Nat → Bool) : Prop :=
  InOneSlot e sol ∧ ∃ parting overhead, extract e workload sol = .ok parting ∧
    Cost.getStorageOverhead stats parting workload = .ok overhead ∧ overhead ≤ alpha

/-- The program has its variables numbered without gaps, and the slots that can be completed to a
solution are the admissible ones. -/
def Describes (alpha : ℚ) (workload : QueryWorkload) (stats : SchemaStats) : Prop :=
  ∃ e, createEnv workload = .ok e ∧ e.A = workload.attributes.length ∧ e.P = e.A ∧
    e.Q = workload.queries.length ∧ Set.BijOn (Var.number e) Set.univ (Set.Iio e.numVars) ∧
    ∃ cs, constraints alpha e workload stats = .ok cs ∧
      ∀ sol, (∃ sol', SameSlots e sol sol' ∧ Feasible cs sol') ↔
        Admissible alpha e workload stats sol

theorem admissible_iff (h : Sized workload.attributes stats size) (hA : e.A = workload.attributes.length)
    (hpos : ∀ a < e.A, 0 ≤ size a) {sol : Nat → Bool} :
    Admissible alpha e workload stats sol ↔ InOneSlot e sol ∧
      ∑ p ∈ Finset.range e.P, value (filled e sol p) ≤ limit e size alpha := by
  refine and_congr_right fun hone => ?_
  obtain ⟨parting, hextract, -, hoverhead⟩ := getStorageOverhead_ok h hA sol
  rw [← overhead_le_iff hone hpos]
  constructor
  · intro hex
    obtain ⟨parting', overhead, hextract', hoverhead', hle⟩ := hex
    rw [hextract, Except.ok.injEq] at hextract'
    rw [← hextract', hoverhead, Except.ok.injEq] at hoverhead'
    rw [hoverhead']
    exact hle
  · intro hle
    exact ⟨parting, _, hextract, hoverhead, hle⟩

theorem describes_of_le (h : Sized workload.attributes stats size)
    (hpos : ∀ a < workload.attributes.length, 0 ≤ size a)
    (hK : workload.attributes.length ≤ 1000) (hQ : workload.queries.length < 2 ^ 31)
    (hvars : workload.attributes.length * workload.attributes.length
      + workload.attributes.length * workload.queries.length
      + workload.attributes.length * workload.attributes.length * workload.queries.length
      + workload.attributes.length < 2 ^ 31) : Describes alpha workload stats := by
  obtain ⟨e, he⟩ := createEnv_ok hQ hvars
  obtain ⟨-, hA, hP, hQ', -⟩ := createEnv_eq he
  rw [← hA] at hpos hK
  obtain ⟨cs, hcs, hfeasible⟩ := constraints_ok h hA hpos alpha
  refine ⟨e, he, hA, hP.trans hA.symm, hQ', Var.number_bijOn he, cs, hcs, ?_⟩
  intro sol
  rw [admissible_iff h hA hpos]
  constructor
  · intro hex
    obtain ⟨sol', hsame, hsol'⟩ := hex
    have hsolves := (hfeasible sol').mp hsol'
    refine ⟨hsame.inOneSlot.mp hsolves.first, ?_⟩
    have hlast := hsolves.last
    rw [Finset.sum_congr rfl fun p hp => by
      rw [hsolves.used_eq (Finset.mem_range.mp hp), hsame.filled_eq (Finset.mem_range.mp hp)]]
      at hlast
    exact hlast
  · intro hadm
    obtain ⟨sol', hsame, hsolves⟩ := exists_solves he hK workload.queries hadm.1 hadm.2
    exact ⟨sol', hsame, (hfeasible sol').mpr hsolves⟩

/-! ### One slot for everything -/

/-- All attributes in the first slot. -/
theorem exists_oneSlot (he : createEnv workload = .ok e) :
    ∃ sol : Nat → Bool, ∀ a < e.A, ∀ p < e.P, sol (x e a p) = decide (p = 0) := by
  obtain ⟨sol, hsol⟩ := Var.exists_sol he fun
    | .x _ p => decide (p.val = 0)
    | _ => false
  exact ⟨sol, fun a ha p hp => hsol (.x ⟨a, ha⟩ ⟨p, hp⟩)⟩

theorem oneSlot_admissible (h : Sized workload.attributes stats size)
    (hA : e.A = workload.attributes.length) (hP : e.P = e.A) (hpos : ∀ a < e.A, 0 ≤ size a)
    (halpha : 0 ≤ alpha) {sol : Nat → Bool}
    (hsol : ∀ a < e.A, ∀ p < e.P, sol (x e a p) = decide (p = 0)) :
    Admissible alpha e workload stats sol := by
  rw [admissible_iff h hA hpos]
  constructor
  · intro a ha
    have hzero : 0 < e.P := by omega
    refine ⟨0, hzero, by rw [hsol a ha 0 hzero, decide_eq_true rfl], ?_⟩
    intro p hp hx
    rw [hsol a ha p hp, decide_eq_true_eq] at hx
    exact hx
  · have hle : ∑ p ∈ Finset.range e.P, value (filled e sol p) ≤ 1 := by
      rcases exists_or_sum_eq_zero (n := e.P) (b := filled e sol) with ⟨p, hp, hf⟩ | hz
      · refine (sum_eq_one_iff.mpr ⟨p, hp, hf, ?_⟩).le
        have hfirst : ∀ p < e.P, filled e sol p = true → p = 0 := by
          intro p hp hf
          obtain ⟨a, ha, hx⟩ := filled_eq_true.mp hf
          rw [hsol a ha p hp, decide_eq_true_eq] at hx
          exact hx
        intro p' hp' hf'
        rw [hfirst p hp hf, hfirst p' hp' hf']
      · rw [hz]
        exact zero_le_one
    have hlimit : 0 ≤ alpha * blockSize e size / u_const :=
      div_nonneg (mul_nonneg halpha (blockSize_pos hpos).le) u_const_pos.le
    rw [limit]
    linarith

/-- The constant is too small for a slot of more than 1000 attributes. -/
theorem not_describes_of_lt (h : Sized workload.attributes stats size)
    (hpos : ∀ a < workload.attributes.length, 0 ≤ size a) (halpha : 0 ≤ alpha)
    (hK : 1000 < workload.attributes.length) : ¬ Describes alpha workload stats := by
  intro hdesc
  obtain ⟨e, he, hA, hP, -, -, cs, hcs, hiff⟩ := hdesc
  rw [← hA] at hpos hK
  obtain ⟨cs', hcs', hfeasible⟩ := constraints_ok h hA hpos alpha
  rw [hcs, Except.ok.injEq] at hcs'
  obtain ⟨sol, hsol⟩ := exists_oneSlot he
  obtain ⟨sol', hsame, hsol'⟩ :=
    (hiff sol).mpr (oneSlot_admissible h hA hP hpos halpha hsol)
  rw [hcs'] at hsol'
  have hzero : 0 < e.P := by omega
  have hfilled := ((hfeasible sol').mp hsol').filled 0 hzero
  have hall : ∑ a ∈ Finset.range e.A, value (sol' (x e a 0)) = e.A := by
    rw [Finset.sum_congr rfl fun a ha => by
      rw [hsame a (Finset.mem_range.mp ha) 0 hzero, hsol a (Finset.mem_range.mp ha) 0 hzero]]
    simp
  have hle : K * value (sol' (u e 0)) ≤ K := by
    have hone := value_le_one (sol' (u e 0))
    rw [K]
    linarith
  have hcast : (1000 : ℚ) < e.A := by exact_mod_cast hK
  rw [hall] at hfilled
  rw [K] at hle
  rw [K] at hfilled
  linarith

/-- The program describes the admissible partitionings exactly when there are at most 1000
attributes and the variables can be counted with an `int`. -/
theorem describes_iff (h : Sized workload.attributes stats size)
    (hpos : ∀ a < workload.attributes.length, 0 < size a) (halpha : 0 ≤ alpha) :
    Describes alpha workload stats ↔
      workload.attributes.length ≤ 1000 ∧ workload.queries.length < 2 ^ 31 ∧
        workload.attributes.length * workload.attributes.length
          + workload.attributes.length * workload.queries.length
          + workload.attributes.length * workload.attributes.length * workload.queries.length
          + workload.attributes.length < 2 ^ 31 := by
  have hnonneg : ∀ a < workload.attributes.length, 0 ≤ size a := fun a ha => (hpos a ha).le
  constructor
  · intro hdesc
    refine ⟨?_, ?_⟩
    · by_contra hK
      exact not_describes_of_lt h hnonneg halpha (by omega) hdesc
    · obtain ⟨e, he, -⟩ := hdesc
      exact vars_lt_of_createEnv he
  · intro hcond
    exact describes_of_le h hnonneg hcond.1 hcond.2.1 hcond.2.2

/-- Two attributes and a query that reads both. -/
theorem describes_iff_two :
    Describes 0 (plainWorkload 2) (seenOnce 2) ↔
      2 ≤ 1000 ∧ 1 < 2 ^ 31 ∧ 2 * 2 + 2 * 1 + 2 * 2 * 1 + 2 < 2 ^ 31 :=
  describes_iff (plainWorkload_sized 2) (fun _ _ => by norm_num) (le_refl 0)

/-- With 1001 attributes, keeping them together is admissible and has no solution. -/
theorem not_describes_1001 : ¬ Describes 0 (plainWorkload 1001) (seenOnce 1001) := by
  refine not_describes_of_lt (plainWorkload_sized 1001) (fun _ _ => by norm_num) (le_refl 0) ?_
  simp [plainWorkload]

end RailwayDB.Optimizer.OptimalNonOverlapping
