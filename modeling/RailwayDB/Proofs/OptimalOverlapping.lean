/-
The program for partitionings that may overlap.

Every solution gives a partitioning that has all attributes and keeps to the storage
bound, in which each query is given slots that hold what it reads.  What the solver
minimizes is the bytes of those slots, weighed by how often each query is asked: the
constraints leave `z` no choice but to be `x` and `y` together.
-/
import RailwayDB.Proofs.OptimalCommon

namespace RailwayDB.Optimizer.OptimalOverlapping

open Common Common.Cost ZeroOne SystemConstants

variable {workload : QueryWorkload} {stats : SchemaStats} {size : Nat → ℚ} {e : VarEnv} {alpha : ℚ}
  {sol : Nat → Bool}

/-! ### What the constraints say -/

/-- What a solution satisfies. -/
structure Solves (e : VarEnv) (queries : List QuerySummary) (size : Nat → ℚ) (alpha : ℚ)
    (sol : Nat → Bool) : Prop where
  placed : ∀ a < e.A, ∃ p < e.P, sol (x e a p) = true
  served : ∀ a < e.A, ∀ q < e.Q, accesses queries q a = 1 → ∃ p < e.P, sol (z e a p q) = true
  z_x : ∀ a < e.A, ∀ p < e.P, ∀ q < e.Q, sol (z e a p q) = true → sol (x e a p) = true
  y_z : ∀ p < e.P, ∀ q < e.Q, sol (y e p q) = true → ∃ a < e.A, sol (z e a p q) = true
  z_y : ∀ a < e.A, ∀ p < e.P, ∀ q < e.Q, sol (z e a p q) = true → sol (y e p q) = true
  both : ∀ a < e.A, ∀ p < e.P, ∀ q < e.Q,
    sol (x e a p) = true → sol (y e p q) = true → sol (z e a p q) = true
  used : ∀ p < e.P, sol (u e p) = filled e sol p
  last : totalSize e size sol ≤ blockSize e size * (1 + alpha)

/-- The coefficients of the storage bound. -/
theorem lastTerms_ok (h : Sized workload.attributes stats size) (hA : e.A = workload.attributes.length) :
    ((List.range e.P).mapM fun p => (List.range e.A).mapM fun a => do
        let size ← stats.getAvgSize (← workload.getAttribute a).index
        Except.ok (x e a p, size * (c_e : ℚ)))
      = Except.ok ((List.range e.P).map fun p => (List.range e.A).map fun a =>
          (x e a p, size a * (c_e : ℚ))) := by
  refine Except.mapM_eq_ok _ ?_
  intro p _
  refine Except.mapM_eq_ok _ ?_
  intro a ha
  have hlt : a < workload.attributes.length := by
    rw [← hA]
    exact List.mem_range.mp ha
  obtain ⟨attrb, hget, hindex, -⟩ := getAttribute_ok h hlt
  rw [hget, Except.ok_bind, hindex, h.avgSize a hlt]
  rfl

theorem constraints_ok (h : Sized workload.attributes stats size) (hA : e.A = workload.attributes.length)
    (alpha : ℚ) :
    ∃ cs, constraints alpha e workload stats = .ok cs ∧
      ∀ sol, Feasible cs sol → Solves e workload.queries size alpha sol := by
  simp only [constraints, wholePartition_size h hA, lastTerms_ok h hA, Except.ok_bind,
    Except.pure_eq_ok, Except.ok.injEq]
  refine ⟨_, rfl, ?_⟩
  intro sol hsol
  simp only [feasible_append] at hsol
  obtain ⟨⟨⟨⟨⟨⟨⟨⟨hfirst, hsecond⟩, hthird⟩, hfourth⟩, hfifth⟩, hboth⟩, hused⟩, hfilled⟩, hlast⟩ :=
    hsol
  simp only [feasible_map_range, feasible_flatMap_range, feasible_singleton, holds_greaterEqual,
    holds_lessEqual, weigh_append, weigh_cons, weigh_nil, weigh_map_range, weigh_flatten_map_range,
    one_mul, neg_mul, Finset.sum_neg_distrib, add_zero] at hfirst hsecond hthird hfourth hfifth hlast
  have hu : ∀ p < e.P, sol (u e p) = filled e sol p := by
    intro p hp
    exact u_eq_filled (usedFamily_iff.mp hused p hp) (filledFamily_iff.mp hfilled p hp)
  refine ⟨?_, ?_, ?_, ?_, ?_, bothFamily_iff.mp hboth, hu, ?_⟩
  · intro a ha
    exact one_le_sum_iff.mp (hfirst a ha)
  · intro a ha q hq hacc
    have hle := hsecond a ha q hq
    rw [hacc, Nat.cast_one] at hle
    exact one_le_sum_iff.mp hle
  · intro a ha p hp q hq hz
    have hle := hthird a ha p hp q hq
    rw [hz, value_true] at hle
    cases hx : sol (x e a p) with
    | true => rfl
    | false =>
        rw [hx, value_false] at hle
        norm_num at hle
  · intro p hp q hq
    have hle := hfourth p hp q hq
    exact value_le_sum_iff.mp (by linarith)
  · intro a ha p hp q hq hz
    have hle := hfifth p hp q hq
    exact of_sum_le_mul (K := K) (b := fun a => sol (z e a p q)) (by linarith) ha hz
  · refine le_trans (le_of_eq ?_) hlast
    rw [totalSize, ← Finset.sum_add_distrib]
    refine Finset.sum_congr rfl ?_
    intro p hp
    rw [hu p (Finset.mem_range.mp hp), slotSize, Finset.mul_sum, mul_comm u_const]
    congr 1
    refine Finset.sum_congr rfl ?_
    intro a _
    ring

/-! ### The objective -/

/-- Every query has been counted. -/
def Counted (workload : QueryWorkload) : Prop :=
  ∀ query ∈ workload.queries, query ∈ workload.counts

theorem Counted.exists_frequency (h : Counted workload) :
    ∃ frequency : Nat → ℚ, ∀ q < workload.queries.length, ∃ query,
      workload.getQuerySummary q = .ok query ∧ workload.getFrequency query = .ok (frequency q) := by
  have hall : ∀ q, ∃ f : ℚ, q < workload.queries.length → ∃ query,
      workload.getQuerySummary q = .ok query ∧ workload.getFrequency query = .ok f := by
    intro q
    by_cases hq : q < workload.queries.length
    · obtain ⟨count, hcount⟩ := Option.isSome_iff_exists.mp
        (AList.lookup_isSome.mpr (h _ (List.getElem_mem hq)))
      refine ⟨count / workload.totalQueries, fun _ => ⟨workload.queries[q], ?_, ?_⟩⟩
      · simp [QueryWorkload.getQuerySummary, List.getElem?_eq_getElem hq]
      · simp [QueryWorkload.getFrequency, hcount]
    · exact ⟨0, fun hlt => absurd hlt hq⟩
  choose frequency hfrequency using hall
  exact ⟨frequency, hfrequency⟩

/-- The coefficient of a variable. -/
def weight (e : VarEnv) (size frequency : Nat → ℚ) : Var e.A e.P e.Q → ℚ
  | .x _ _ => 0
  | .y _ q => u_const * frequency q
  | .z a _ q => size a * c_e * frequency q
  | .u _ => 0

variable {frequency : Nat → ℚ}

/-- The turn of the loop for one query. -/
def queryTerms (e : VarEnv) (size frequency : Nat → ℚ) (q : Nat) : List (Nat × ℚ) :=
  ((List.range e.P).map fun p => (y e p q, u_const * frequency q))
    ++ ((List.range e.A).map fun a => (List.range e.P).map fun p =>
      (z e a p q, size a * c_e * frequency q)).flatten

/-- The assignments `objective` makes. -/
def assignments (e : VarEnv) (size frequency : Nat → ℚ) : List (Nat × ℚ) :=
  ((List.range e.A).flatMap fun a => (List.range e.P).map fun p => (x e a p, (0 : ℚ)))
    ++ ((List.range e.Q).map (queryTerms e size frequency)).flatten
    ++ (List.range e.P).map fun p => (u e p, (0 : ℚ))

theorem objective_ok (h : Sized workload.attributes stats size) (hA : e.A = workload.attributes.length)
    (hQ : e.Q = workload.queries.length)
    (hf : ∀ q < workload.queries.length, ∃ query,
      workload.getQuerySummary q = .ok query ∧ workload.getFrequency query = .ok (frequency q)) :
    objective e workload stats = .ok (assignments e size frequency) := by
  unfold objective
  rw [Except.mapM_eq_ok (g := queryTerms e size frequency)]
  · rfl
  intro q hq
  rw [← hQ] at hf
  obtain ⟨query, hquery, hfreq⟩ := hf q (List.mem_range.mp hq)
  rw [Except.mapM_eq_ok (g := fun p => (y e p q, u_const * frequency q)), Except.ok_bind,
    Except.mapM_eq_ok (g := fun a => (List.range e.P).map fun p =>
      (z e a p q, size a * c_e * frequency q))]
  · rfl
  · intro a ha
    have hlt : a < workload.attributes.length := by
      rw [← hA]
      exact List.mem_range.mp ha
    obtain ⟨attrb, hget, hindex, -⟩ := getAttribute_ok h hlt
    refine Except.mapM_eq_ok _ ?_
    intro p _
    rw [hget, Except.ok_bind, hindex, h.avgSize a hlt, Except.ok_bind, hquery, Except.ok_bind,
      hfreq]
    rfl
  · intro p _
    rw [hquery, Except.ok_bind, hfreq]
    rfl

theorem mem_queryTerms {q : Nat} {t : Nat × ℚ} : t ∈ queryTerms e size frequency q ↔
    (∃ p < e.P, (y e p q, u_const * frequency q) = t) ∨
      ∃ a < e.A, ∃ p < e.P, (z e a p q, size a * c_e * frequency q) = t := by
  simp [queryTerms]

/-- They are one for each variable. -/
theorem mem_assignments {t : Nat × ℚ} :
    t ∈ assignments e size frequency ↔
      ∃ v, (Var.number e v, weight e size frequency v) = t := by
  have hmem : t ∈ assignments e size frequency ↔
      ((∃ a < e.A, ∃ p < e.P, (x e a p, (0 : ℚ)) = t) ∨
        ∃ q < e.Q, t ∈ queryTerms e size frequency q) ∨ ∃ p < e.P, (u e p, (0 : ℚ)) = t := by
    simp [assignments, or_assoc]
  rw [hmem]
  constructor
  · intro h
    rcases h with (⟨a, ha, p, hp, ht⟩ | ⟨q, hq, h⟩) | ⟨p, hp, ht⟩
    · exact ⟨.x ⟨a, ha⟩ ⟨p, hp⟩, ht⟩
    · rcases mem_queryTerms.mp h with ⟨p, hp, ht⟩ | ⟨a, ha, p, hp, ht⟩
      · exact ⟨.y ⟨p, hp⟩ ⟨q, hq⟩, ht⟩
      · exact ⟨.z ⟨a, ha⟩ ⟨p, hp⟩ ⟨q, hq⟩, ht⟩
    · exact ⟨.u ⟨p, hp⟩, ht⟩
  · intro h
    obtain ⟨v, ht⟩ := h
    cases v with
    | x a p => exact .inl (.inl ⟨a, a.isLt, p, p.isLt, ht⟩)
    | y p q => exact .inl (.inr ⟨q, q.isLt, mem_queryTerms.mpr (.inl ⟨p, p.isLt, ht⟩)⟩)
    | z a p q =>
        exact .inl (.inr ⟨q, q.isLt, mem_queryTerms.mpr (.inr ⟨a, a.isLt, p, p.isLt, ht⟩)⟩)
    | u p => exact .inr ⟨p, p.isLt, ht⟩

theorem coefficient_number (he : createEnv workload = .ok e) (v : Var e.A e.P e.Q) :
    coefficient (assignments e size frequency) (Var.number e v) = weight e size frequency v := by
  unfold coefficient
  cases hfind : (assignments e size frequency).reverse.find? fun t => t.1 = Var.number e v with
  | none =>
      have hnone := List.find?_eq_none.mp hfind (Var.number e v, weight e size frequency v)
        (List.mem_reverse.mpr (mem_assignments.mpr ⟨v, rfl⟩))
      simp at hnone
  | some t =>
      obtain ⟨w, hw⟩ := mem_assignments.mp (List.mem_reverse.mp (List.mem_of_find?_eq_some hfind))
      have hnumber : Var.number e w = Var.number e v := by
        have hsome := List.find?_some hfind
        rw [← hw] at hsome
        simpa using hsome
      rw [← hw, Var.number_injective he hnumber]

/-- In a solution `z` is `x` and `y` together. -/
theorem Solves.value_z {queries : List QuerySummary} (h : Solves e queries size alpha sol)
    {a p q : Nat} (ha : a < e.A) (hp : p < e.P) (hq : q < e.Q) :
    value (sol (z e a p q)) = value (sol (y e p q)) * value (sol (x e a p)) := by
  rw [← value_and]
  congr 1
  rw [Bool.eq_iff_iff, Bool.and_eq_true]
  constructor
  · intro hz
    exact ⟨h.z_y a ha p hp q hq hz, h.z_x a ha p hp q hq hz⟩
  · intro hxy
    exact h.both a ha p hp q hq hxy.2 hxy.1

theorem objval_eq (he : createEnv workload = .ok e) {queries : List QuerySummary}
    (h : Solves e queries size alpha sol) :
    objval e (assignments e size frequency) sol
      = ∑ q ∈ Finset.range e.Q, frequency q *
          ∑ p ∈ Finset.range e.P, value (sol (y e p q)) * (u_const + c_e * slotSize e size sol p) := by
  have hx : ∀ a < e.A, ∀ p < e.P,
      coefficient (assignments e size frequency) (x e a p) = 0 :=
    fun a ha p hp => coefficient_number he (.x ⟨a, ha⟩ ⟨p, hp⟩)
  have hy : ∀ p < e.P, ∀ q < e.Q,
      coefficient (assignments e size frequency) (y e p q) = u_const * frequency q :=
    fun p hp q hq => coefficient_number he (.y ⟨p, hp⟩ ⟨q, hq⟩)
  have hz : ∀ a < e.A, ∀ p < e.P, ∀ q < e.Q,
      coefficient (assignments e size frequency) (z e a p q) = size a * c_e * frequency q :=
    fun a ha p hp q hq => coefficient_number he (.z ⟨a, ha⟩ ⟨p, hp⟩ ⟨q, hq⟩)
  have hu : ∀ p < e.P, coefficient (assignments e size frequency) (u e p) = 0 :=
    fun p hp => coefficient_number he (.u ⟨p, hp⟩)
  have hxs : ∑ a ∈ Finset.range e.A, ∑ p ∈ Finset.range e.P,
      coefficient (assignments e size frequency) (x e a p) * value (sol (x e a p)) = 0 := by
    refine Finset.sum_eq_zero fun a ha => Finset.sum_eq_zero fun p hp => ?_
    rw [hx a (Finset.mem_range.mp ha) p (Finset.mem_range.mp hp), zero_mul]
  have hus : ∑ p ∈ Finset.range e.P,
      coefficient (assignments e size frequency) (u e p) * value (sol (u e p)) = 0 := by
    refine Finset.sum_eq_zero fun p hp => ?_
    rw [hu p (Finset.mem_range.mp hp), zero_mul]
  rw [objval, sum_map_range, Var.sum_range_numVars he, hxs, hus, zero_add, add_zero,
    Finset.sum_comm, ← Finset.sum_add_distrib]
  refine Finset.sum_congr rfl fun q hq => ?_
  rw [Finset.sum_comm, ← Finset.sum_add_distrib, Finset.mul_sum]
  refine Finset.sum_congr rfl fun p hp => ?_
  rw [Finset.mem_range] at hq hp
  rw [hy p hp q hq, slotSize, Finset.mul_sum, mul_add, mul_add, Finset.mul_sum, Finset.mul_sum]
  congr 1
  · ring
  · refine Finset.sum_congr rfl fun a ha => ?_
    rw [Finset.mem_range] at ha
    rw [hz a ha p hp q hq, h.value_z ha hp hq]
    ring

/-! ### Soundness -/

/-- The bytes the queries read from the slots they are given, by how often each is asked. -/
def chargedCost (e : VarEnv) (workload : QueryWorkload) (stats : SchemaStats) (sol : Nat → Bool) :
    Except Fault ℚ := do
  let costs ← (List.range e.Q).mapM fun q => do
    let frequency ← workload.getFrequency (← workload.getQuerySummary q)
    let sizes ← ((List.range e.P).filter fun p => sol (y e p q)).mapM fun p => do
      Cost.getPartitionSize stats (← slot e workload sol p)
    return frequency * sizes.sum
  return costs.sum

theorem chargedCost_ok (h : Sized workload.attributes stats size) (hA : e.A = workload.attributes.length)
    (hQ : e.Q = workload.queries.length)
    (hf : ∀ q < workload.queries.length, ∃ query,
      workload.getQuerySummary q = .ok query ∧ workload.getFrequency query = .ok (frequency q)) :
    chargedCost e workload stats sol = .ok (∑ q ∈ Finset.range e.Q, frequency q *
      ∑ p ∈ Finset.range e.P, value (sol (y e p q)) * (u_const + c_e * slotSize e size sol p)) := by
  unfold chargedCost
  rw [Except.mapM_eq_ok (g := fun q => frequency q * ∑ p ∈ Finset.range e.P,
    value (sol (y e p q)) * (u_const + c_e * slotSize e size sol p))]
  · rw [Except.ok_bind, sum_map_range]
    rfl
  intro q hq
  rw [← hQ] at hf
  obtain ⟨query, hquery, hfreq⟩ := hf q (List.mem_range.mp hq)
  rw [hquery, Except.ok_bind, hfreq, Except.ok_bind,
    Except.mapM_eq_ok (g := fun p => u_const + c_e * slotSize e size sol p)]
  · rw [Except.ok_bind, sum_filter_range, Except.pure_eq_ok]
    congr 3
    funext p
    rw [mul_comm]
  · intro p _
    obtain ⟨part, hslot, -, hsize⟩ := slot_size h hA sol p
    rw [hslot, Except.ok_bind, hsize]

/-- An attribute is in the slots it is set in. -/
theorem mem_slot (h : Sized workload.attributes stats size) (hA : e.A = workload.attributes.length)
    {p : Nat} {part : Partition} (hslot : slot e workload sol p = .ok part) {attrb : AttributePtr}
    (hattrb : attrb ∈ workload.attributes) :
    attrb ∈ part.attributes ↔ sol (x e attrb.index p) = true := by
  obtain ⟨part', hslot', hdrawn, hindices⟩ := slot_ok h hA sol p
  rw [hslot, Except.ok.injEq] at hslot'
  rw [← hslot'] at hdrawn hindices
  obtain ⟨a, ha⟩ := List.mem_iff_getElem?.mp hattrb
  have hindex := h.indexed a attrb ha
  rw [← hindex] at ha
  obtain ⟨hlt, -⟩ := List.getElem?_eq_some_iff.mp ha
  rw [← mem_indices_iff hdrawn ha, hindices]
  simp [hA, hlt]

/-- What a solution stands for. -/
structure Sound (alpha : ℚ) (e : VarEnv) (workload : QueryWorkload) (stats : SchemaStats)
    (sol : Nat → Bool) (parting : Common.Partitioning) : Prop where
  covers : ∀ attrb ∈ workload.attributes, ∃ part ∈ parting.partitions, attrb ∈ part.attributes
  stored : ∃ overhead, Cost.getStorageOverhead stats parting workload = .ok overhead ∧
    overhead ≤ alpha
  nonempty : ∀ q < workload.queries.length, ∀ p < e.P, sol (y e p q) = true →
    ∃ part ∈ parting.partitions, slot e workload sol p = .ok part ∧ part.attributes ≠ []
  serves : ∀ q query, workload.queries[q]? = some query → ∀ attrb ∈ query.attributes,
    attrb ∈ workload.attributes → ∃ p < e.P, sol (y e p q) = true ∧
      ∃ part, slot e workload sol p = .ok part ∧ attrb ∈ part.attributes
  charged : ∃ obj cost, objective e workload stats = .ok obj ∧
    chargedCost e workload stats sol = .ok cost ∧ objval e obj sol = cost

theorem index_lt (h : Sized workload.attributes stats size) {attrb : AttributePtr}
    (hattrb : attrb ∈ workload.attributes) : attrb.index < workload.attributes.length := by
  obtain ⟨a, ha⟩ := List.mem_iff_getElem?.mp hattrb
  obtain ⟨hlt, -⟩ := List.getElem?_eq_some_iff.mp ha
  rw [h.indexed a attrb ha]
  exact hlt

/-- Every solution is a partitioning within the bound that serves the queries, and its objective
is what they read. -/
theorem constraints_sound (h : Sized workload.attributes stats size)
    (hsize : ∀ a < workload.attributes.length, 0 ≤ size a) (hcount : Counted workload)
    (he : createEnv workload = .ok e) (alpha : ℚ) :
    ∃ cs, constraints alpha e workload stats = .ok cs ∧ ∀ sol, Feasible cs sol →
      ∃ parting, extract e workload sol = .ok parting ∧
        Sound alpha e workload stats sol parting := by
  obtain ⟨-, hA, -, hQ, -⟩ := createEnv_eq he
  obtain ⟨cs, hcs, hsolves⟩ := constraints_ok h hA alpha
  obtain ⟨frequency, hf⟩ := hcount.exists_frequency
  refine ⟨cs, hcs, ?_⟩
  intro sol hsol
  have hs := hsolves sol hsol
  obtain ⟨parting, hextract, hslots, hoverhead⟩ := getStorageOverhead_ok h hA sol
  refine ⟨parting, hextract, ?_, ?_, ?_, ?_, ?_⟩
  · intro attrb hattrb
    have hlt := index_lt h hattrb
    rw [← hA] at hlt
    obtain ⟨p, hp, hx⟩ := hs.placed attrb.index hlt
    obtain ⟨part, hmem, hslot⟩ := hslots p hp (filled_eq_true.mpr ⟨_, hlt, hx⟩)
    exact ⟨part, hmem, (mem_slot h hA hslot hattrb).mpr hx⟩
  · refine ⟨_, hoverhead, ?_⟩
    rw [← hA] at hsize
    rw [sub_le_iff_le_add, div_le_iff₀ (blockSize_pos hsize), mul_comm, add_comm alpha]
    exact hs.last
  · intro q hq p hp hy
    rw [← hQ] at hq
    obtain ⟨a, ha, hz⟩ := hs.y_z p hp q hq hy
    have hfilled := filled_eq_true.mpr ⟨a, ha, hs.z_x a ha p hp q hq hz⟩
    obtain ⟨part, hmem, hslot⟩ := hslots p hp hfilled
    obtain ⟨part', hslot', hpos, -⟩ := slot_size h hA sol p
    rw [hslot, Except.ok.injEq] at hslot'
    rw [← hslot'] at hpos
    exact ⟨part, hmem, hslot, List.ne_nil_of_length_pos (hpos.mpr hfilled)⟩
  · intro q query hquery attrb hmem hattrb
    have hlt := index_lt h hattrb
    rw [← hA] at hlt
    obtain ⟨hq, -⟩ := List.getElem?_eq_some_iff.mp hquery
    rw [← hQ] at hq
    have hacc : accesses workload.queries q attrb.index = 1 := by
      have hex : ∃ other ∈ query.attributes, other.index = attrb.index := ⟨attrb, hmem, rfl⟩
      simp only [accesses, hquery, hex, ↓reduceIte]
    obtain ⟨p, hp, hz⟩ := hs.served attrb.index hlt q hq hacc
    obtain ⟨part, hslot, -⟩ := slot_ok h hA sol p
    refine ⟨p, hp, hs.z_y _ hlt p hp q hq hz, part, hslot, ?_⟩
    exact (mem_slot h hA hslot hattrb).mpr (hs.z_x _ hlt p hp q hq hz)
  · exact ⟨_, _, objective_ok h hA hQ hf, chargedCost_ok h hA hQ hf, objval_eq he hs⟩

theorem plainWorkload_counted (n : Nat) : Counted (plainWorkload n) := by
  intro query hquery
  rw [List.mem_singleton.mp hquery, ← AList.lookup_isSome]
  exact List.dlookup_isSome.mpr List.mem_cons_self

/-- The program can be built, and every solution of it is sound. -/
def SoundProgram (alpha : ℚ) (workload : QueryWorkload) (stats : SchemaStats) : Prop :=
  ∃ e cs, createEnv workload = .ok e ∧ constraints alpha e workload stats = .ok cs ∧
    ∀ sol, Feasible cs sol → ∃ parting, extract e workload sol = .ok parting ∧
      Sound alpha e workload stats sol parting

end RailwayDB.Optimizer.OptimalOverlapping
