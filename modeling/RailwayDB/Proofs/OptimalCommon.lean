/-
What the optimizer reads off a solution, and what it costs.

A slot becomes the partition of the attributes set in it, and the slots that are not
empty become the partitioning.  Its size on disk is a sum over the slots, linear in
the variables once the empty slots are known.  The numbers given to the variables
are shown to be a numbering: each number below the count stands for one variable.
-/
import RailwayDB.Core.OptimalCommon
import RailwayDB.Proofs.Cost
import Mathlib.Algebra.BigOperators.Fin
import Mathlib.Logic.Equiv.Fin.Basic
import Mathlib.Tactic.FieldSimp

namespace RailwayDB.Optimizer

open Common Common.Cost ZeroOne SystemConstants

variable {workload : QueryWorkload} {stats : SchemaStats} {size : Nat → ℚ} {e : VarEnv}

/-! ### What is read off a solution -/

theorem getAttribute_ok (h : Sized workload.attributes stats size) {a : Nat}
    (ha : a < workload.attributes.length) :
    ∃ attrb, workload.getAttribute a = .ok attrb ∧ attrb.index = a ∧
      workload.attributes[attrb.index]? = some attrb := by
  have hget : workload.attributes[a]? = some workload.attributes[a] := List.getElem?_eq_getElem ha
  have hindex := h.indexed a _ hget
  refine ⟨workload.attributes[a], by simp [QueryWorkload.getAttribute, hget], hindex, ?_⟩
  rw [hindex]
  exact hget

/-- The partition of the attributes at some positions. -/
theorem addAttributes_ok (h : Sized workload.attributes stats size) (l : List Nat) (part : Partition)
    (hlt : ∀ a ∈ l, a < workload.attributes.length) :
    ∃ attributes, Drawn workload.attributes attributes ∧ indices attributes = l ∧
      l.foldlM (fun part a => do return part.addAttribute (← workload.getAttribute a)) part
        = Except.ok (attributes.foldl Partition.addAttribute part) := by
  induction l generalizing part with
  | nil => exact ⟨[], by simp [Drawn], rfl, rfl⟩
  | cons a l ih =>
      obtain ⟨attrb, hget, hindex, hattrb⟩ := getAttribute_ok h (hlt a List.mem_cons_self)
      obtain ⟨attributes, hdrawn, hindices, hfold⟩ := ih (part.addAttribute attrb)
        fun b hb => hlt b (List.mem_cons_of_mem _ hb)
      refine ⟨attrb :: attributes, ?_, ?_, ?_⟩
      · intro other hother
        rcases List.mem_cons.mp hother with heq | hmem
        · rw [heq]
          exact hattrb
        · exact hdrawn other hmem
      · rw [indices_cons, hindex, hindices]
      · rw [List.foldlM_cons, hget, Except.ok_bind, Except.pure_eq_ok, Except.ok_bind, hfold]
        rfl


theorem createEnv_eq (he : createEnv workload = .ok e) :
    workload.queries.length < 2 ^ 31 ∧ e.A = workload.attributes.length ∧
      e.P = workload.attributes.length ∧ e.Q = workload.queries.length ∧
      e.numVars = e.A * e.P + e.P * e.Q + e.A * e.P * e.Q + e.P ∧ e.numVars < 2 ^ 31 ∧
      e.xOffset = 0 ∧ e.yOffset = e.A * e.P ∧ e.zOffset = e.A * e.P + e.P * e.Q ∧
      e.uOffset = e.A * e.P + e.P * e.Q + e.A * e.P * e.Q := by
  simp only [createEnv, int] at he
  split at he
  · split at he
    · simp only [Except.ok_bind] at he
      split at he
      · simp only [Except.ok_bind, Except.pure_eq_ok, Except.ok.injEq] at he
        rw [← he]
        simp_all
      · simp at he
    · simp at he
  · simp at he

/-- The variables are counted with an `int`. -/
theorem vars_lt_of_createEnv (he : createEnv workload = .ok e) :
    workload.queries.length < 2 ^ 31 ∧
      workload.attributes.length * workload.attributes.length
        + workload.attributes.length * workload.queries.length
        + workload.attributes.length * workload.attributes.length * workload.queries.length
        + workload.attributes.length < 2 ^ 31 := by
  obtain ⟨hQ, hA, hP, hQ', hnum, hlt, -⟩ := createEnv_eq he
  rw [hnum, hA, hP, hQ'] at hlt
  exact ⟨hQ, hlt⟩

theorem createEnv_ok (hQ : workload.queries.length < 2 ^ 31)
    (hvars : workload.attributes.length * workload.attributes.length
      + workload.attributes.length * workload.queries.length
      + workload.attributes.length * workload.attributes.length * workload.queries.length
      + workload.attributes.length < 2 ^ 31) : ∃ e, createEnv workload = .ok e := by
  have hA : workload.attributes.length < 2 ^ 31 := by omega
  simp only [createEnv, int, hA, hQ, hvars, ↓reduceIte, Except.ok_bind, Except.pure_eq_ok,
    Except.ok.injEq]
  exact ⟨_, rfl⟩

theorem u_const_eq : u_const = 480 := by
  norm_num [u_const, c_e, c_n, edgeIdSize, timestampSize, headVertexSize, numEntriesSize,
    numberOfEdgesInABlock, numberOfNeighborListsInABlock]

theorem getPartitionSize_eq (h : Sized workload.attributes stats size) {part : Partition}
    (hdrawn : Drawn workload.attributes part.attributes) :
    Cost.getPartitionSize stats part
      = .ok (u_const + c_e * ((indices part.attributes).map size).sum) := by
  rw [getPartitionSize_ok h hdrawn, u_const_eq]
  rfl

/-- Whether slot `p` has an attribute. -/
def filled (e : VarEnv) (sol : Nat → Bool) (p : Nat) : Bool :=
  decide (∃ a < e.A, sol (x e a p) = true)

/-- The attribute bytes of slot `p`. -/
def slotSize (e : VarEnv) (size : Nat → ℚ) (sol : Nat → Bool) (p : Nat) : ℚ :=
  ∑ a ∈ Finset.range e.A, size a * value (sol (x e a p))

theorem filled_eq_true {sol : Nat → Bool} {p : Nat} :
    filled e sol p = true ↔ ∃ a < e.A, sol (x e a p) = true := by
  simp [filled]

theorem slotSize_eq_zero (size : Nat → ℚ) {sol : Nat → Bool} {p : Nat}
    (h : filled e sol p = false) : slotSize e size sol p = 0 := by
  refine Finset.sum_eq_zero ?_
  intro a ha
  cases hx : sol (x e a p) with
  | false => simp
  | true =>
      have hf := filled_eq_true.mpr ⟨a, Finset.mem_range.mp ha, hx⟩
      rw [h] at hf
      simp at hf

theorem slot_ok (h : Sized workload.attributes stats size) (hA : e.A = workload.attributes.length)
    (sol : Nat → Bool) (p : Nat) :
    ∃ part, slot e workload sol p = .ok part ∧ Drawn workload.attributes part.attributes ∧
      indices part.attributes = ((List.range e.A).filter fun a => sol (x e a p)).reverse := by
  obtain ⟨attributes, hdrawn, hindices, hfold⟩ := addAttributes_ok h
    ((List.range e.A).filter fun a => sol (x e a p)) Partition.new (by
      intro a ha
      rw [← hA]
      exact List.mem_range.mp (List.mem_filter.mp ha).1)
  have hnodup : (indices attributes ++ indices Partition.new.attributes).Nodup := by
    rw [hindices]
    simpa [Partition.new, indices] using List.nodup_range.filter _
  obtain ⟨hd, hi⟩ := foldl_addAttribute attributes Partition.new hdrawn hnodup
    (by simp [Partition.new, Drawn])
  refine ⟨_, hfold, hd, ?_⟩
  rw [hi, hindices]
  simp [Partition.new, indices]

theorem slot_size (h : Sized workload.attributes stats size) (hA : e.A = workload.attributes.length)
    (sol : Nat → Bool) (p : Nat) :
    ∃ part, slot e workload sol p = .ok part ∧
      (0 < part.numAttributes ↔ filled e sol p = true) ∧
      Cost.getPartitionSize stats part = .ok (u_const + c_e * slotSize e size sol p) := by
  obtain ⟨part, hslot, hdrawn, hindices⟩ := slot_ok h hA sol p
  refine ⟨part, hslot, ?_, ?_⟩
  · have hlen : part.numAttributes
        = ((List.range e.A).filter fun a => sol (x e a p)).length := by
      rw [← List.length_reverse, ← hindices]
      simp [indices, Partition.numAttributes]
    rw [hlen, List.length_pos_iff_exists_mem]
    simp [filled]
  · rw [getPartitionSize_eq h hdrawn, hindices, List.map_reverse, List.sum_reverse,
      sum_filter_range]
    rfl

/-- The whole block. -/
def blockSize (e : VarEnv) (size : Nat → ℚ) : ℚ :=
  u_const + c_e * ∑ a ∈ Finset.range e.A, size a

theorem wholePartition_size (h : Sized workload.attributes stats size)
    (hA : e.A = workload.attributes.length) :
    Cost.getPartitionSize stats (wholePartition workload) = .ok (blockSize e size) := by
  obtain ⟨hdrawn, hindices⟩ := h.indices_attributes
  have hnodup : (indices workload.attributes ++ indices Partition.new.attributes).Nodup := by
    rw [hindices]
    simpa [Partition.new, indices] using List.nodup_range
  obtain ⟨hd, hi⟩ := foldl_addAttribute workload.attributes Partition.new hdrawn hnodup
    (by simp [Partition.new, Drawn])
  rw [wholePartition, Partition.ofAttributes, getPartitionSize_eq h hd, hi, hindices]
  simp [Partition.new, indices, blockSize, sum_map_range, hA]

/-- The first `n` slots as partitions. -/
theorem extract_ok (h : Sized workload.attributes stats size) (hA : e.A = workload.attributes.length)
    (sol : Nat → Bool) (n : Nat) :
    ∃ parting : Common.Partitioning, (List.range n).foldlM (fun partitioning p => do
        let partition ← slot e workload sol p
        return if partition.numAttributes > 0 then partitioning.addPartition partition
          else partitioning) Common.Partitioning.new = Except.ok parting ∧
      (∀ p < n, filled e sol p = true →
        ∃ part ∈ parting.partitions, slot e workload sol p = .ok part) ∧
      parting.partitions.foldlM (fun total part => do
          return total + (← Cost.getPartitionSize stats part)) 0
        = Except.ok (∑ p ∈ Finset.range n,
            (value (filled e sol p) * u_const + c_e * slotSize e size sol p)) := by
  induction n with
  | zero => exact ⟨Common.Partitioning.new, rfl, by simp, rfl⟩
  | succ n ih =>
      obtain ⟨parting, hfold, hslots, htotal⟩ := ih
      obtain ⟨part, hslot, hpos, hsize⟩ := slot_size h hA sol n
      rw [List.range_succ, List.foldlM_append, hfold, Except.ok_bind, List.foldlM_cons, hslot,
        Except.ok_bind, Finset.sum_range_succ]
      by_cases hfilled : filled e sol n = true
      · have hgt : part.numAttributes > 0 := hpos.mpr hfilled
        refine ⟨parting.addPartition part, by simp [hgt], ?_, ?_⟩
        · intro p hp hf
          rcases Nat.lt_succ_iff_lt_or_eq.mp hp with hlt | heq
          · obtain ⟨part', hmem, hslot'⟩ := hslots p hlt hf
            exact ⟨part', List.mem_append_left _ hmem, hslot'⟩
          · rw [heq]
            exact ⟨part, List.mem_append_right _ (List.mem_singleton_self part), hslot⟩
        · rw [Common.Partitioning.addPartition, List.foldlM_append, htotal]
          simp [hsize, hfilled]
      · have hnot : ¬ part.numAttributes > 0 := fun hgt => hfilled (hpos.mp hgt)
        have hzero := slotSize_eq_zero size (Bool.eq_false_iff.mpr hfilled)
        refine ⟨parting, by simp [hnot], ?_, ?_⟩
        · intro p hp hf
          rcases Nat.lt_succ_iff_lt_or_eq.mp hp with hlt | heq
          · exact hslots p hlt hf
          · rw [heq] at hf
            exact absurd hf hfilled
        · rw [htotal, hzero]
          simp [hfilled]

/-- The bytes of the slots that are not empty. -/
def totalSize (e : VarEnv) (size : Nat → ℚ) (sol : Nat → Bool) : ℚ :=
  ∑ p ∈ Finset.range e.P, (value (filled e sol p) * u_const + c_e * slotSize e size sol p)

theorem getStorageOverhead_ok (h : Sized workload.attributes stats size)
    (hA : e.A = workload.attributes.length) (sol : Nat → Bool) :
    ∃ parting, extract e workload sol = .ok parting ∧
      (∀ p < e.P, filled e sol p = true →
        ∃ part ∈ parting.partitions, slot e workload sol p = .ok part) ∧
      Cost.getStorageOverhead stats parting workload
        = .ok (totalSize e size sol / blockSize e size - 1) := by
  obtain ⟨parting, hextract, hslots, htotal⟩ := extract_ok h hA sol e.P
  refine ⟨parting, hextract, hslots, ?_⟩
  have hwhole := wholePartition_size h hA
  rw [wholePartition] at hwhole
  rw [Cost.getStorageOverhead, hwhole, Except.ok_bind, htotal]
  rfl

theorem u_const_pos : 0 < u_const := by
  rw [u_const_eq]
  norm_num

theorem blockSize_pos (hpos : ∀ a < e.A, 0 ≤ size a) : 0 < blockSize e size := by
  have hsum : 0 ≤ ∑ a ∈ Finset.range e.A, size a :=
    Finset.sum_nonneg fun a ha => hpos a (Finset.mem_range.mp ha)
  have hmul : 0 ≤ (c_e : ℚ) * ∑ a ∈ Finset.range e.A, size a :=
    mul_nonneg (Nat.cast_nonneg _) hsum
  have hconst := u_const_pos
  rw [blockSize]
  linarith

/-! ### The numbers of the variables -/

/-- The variables of the program. -/
inductive Var (A P Q : Nat) where
  | x (a : Fin A) (p : Fin P)
  | y (p : Fin P) (q : Fin Q)
  | z (a : Fin A) (p : Fin P) (q : Fin Q)
  | u (p : Fin P)
  deriving DecidableEq

namespace Var

variable {A P Q : Nat}

/-- The four kinds side by side, each in the order of its numbers. -/
def toSum : Var A P Q ≃ (Fin A × Fin P) ⊕ (Fin P × Fin Q) ⊕ (Fin Q × Fin A × Fin P) ⊕ Fin P where
  toFun
    | x a p => .inl (a, p)
    | y p q => .inr (.inl (p, q))
    | z a p q => .inr (.inr (.inl (q, a, p)))
    | u p => .inr (.inr (.inr p))
  invFun
    | .inl (a, p) => x a p
    | .inr (.inl (p, q)) => y p q
    | .inr (.inr (.inl (q, a, p))) => z a p q
    | .inr (.inr (.inr p)) => u p
  left_inv v := by cases v <;> rfl
  right_inv v := by rcases v with ⟨a, p⟩ | ⟨p, q⟩ | ⟨q, a, p⟩ | p <;> rfl

/-- The number the program gives a variable. -/
def number (e : VarEnv) : Var e.A e.P e.Q → Nat
  | x a p => Optimizer.x e a p
  | y p q => Optimizer.y e p q
  | z a p q => Optimizer.z e a p q
  | u p => Optimizer.u e p

/-- Number each kind by itself, then one kind after the other. -/
def toFin : Var A P Q ≃ Fin (A * P + (P * Q + (Q * (A * P) + P))) :=
  let zFin : Fin Q × Fin A × Fin P ≃ Fin (Q * (A * P)) :=
    ((Equiv.refl _).prodCongr finProdFinEquiv).trans finProdFinEquiv
  let zuFin := (zFin.sumCongr (Equiv.refl (Fin P))).trans finSumFinEquiv
  let yzuFin := (finProdFinEquiv.sumCongr zuFin).trans finSumFinEquiv
  toSum.trans ((finProdFinEquiv.sumCongr yzuFin).trans finSumFinEquiv)

theorem toFin_val (he : createEnv workload = .ok e) (v : Var e.A e.P e.Q) :
    (toFin v).val = number e v := by
  obtain ⟨-, -, -, -, -, -, hx, hy, hz, hu⟩ := createEnv_eq he
  cases v with
  | x a p => simp [toFin, toSum, number, Optimizer.x, hx]; ring
  | y p q => simp [toFin, toSum, number, Optimizer.y, hy]; ring
  | z a p q => simp [toFin, toSum, number, Optimizer.z, hz]; ring
  | u p => simp [toFin, toSum, number, Optimizer.u, hu]; ring

theorem numVars_eq (he : createEnv workload = .ok e) :
    e.numVars = e.A * e.P + (e.P * e.Q + (e.Q * (e.A * e.P) + e.P)) := by
  obtain ⟨-, -, -, -, hnum, -⟩ := createEnv_eq he
  rw [hnum]
  ring

theorem number_injective (he : createEnv workload = .ok e) : Function.Injective (number e) := by
  intro v w h
  rw [← toFin_val he, ← toFin_val he] at h
  exact toFin.injective (Fin.ext h)

/-- Every number below the count is that of one variable. -/
theorem number_bijOn (he : createEnv workload = .ok e) :
    Set.BijOn (number e) Set.univ (Set.Iio e.numVars) := by
  refine ⟨?_, (number_injective he).injOn, ?_⟩
  · intro v _
    rw [Set.mem_Iio, ← toFin_val he, numVars_eq he]
    exact (toFin v).isLt
  · intro j hj
    rw [Set.mem_Iio, numVars_eq he] at hj
    refine ⟨toFin.symm ⟨j, hj⟩, Set.mem_univ _, ?_⟩
    rw [← toFin_val he, Equiv.apply_symm_apply]

/-- The variables can be given any values. -/
theorem exists_sol (he : createEnv workload = .ok e) (val : Var e.A e.P e.Q → Bool) :
    ∃ sol : Nat → Bool, ∀ v, sol (number e v) = val v := by
  refine ⟨Function.extend (number e) val fun _ => false, ?_⟩
  intro v
  exact (number_injective he).extend_apply val _ v

/-- A sum over the numbers is a sum over the variables. -/
theorem sum_range_numVars (he : createEnv workload = .ok e) (f : Nat → ℚ) :
    ∑ j ∈ Finset.range e.numVars, f j
      = (∑ a ∈ Finset.range e.A, ∑ p ∈ Finset.range e.P, f (Optimizer.x e a p))
        + ((∑ p ∈ Finset.range e.P, ∑ q ∈ Finset.range e.Q, f (Optimizer.y e p q))
          + ((∑ q ∈ Finset.range e.Q, ∑ a ∈ Finset.range e.A, ∑ p ∈ Finset.range e.P,
              f (Optimizer.z e a p q))
            + ∑ p ∈ Finset.range e.P, f (Optimizer.u e p))) := by
  have hvars : ∑ j : Fin (e.A * e.P + (e.P * e.Q + (e.Q * (e.A * e.P) + e.P))), f j
      = ∑ w, f (number e (toSum.symm w)) := by
    rw [← (toSum.symm.trans toFin).sum_comp]
    simp [toFin_val he]
  rw [numVars_eq he, Finset.sum_range, hvars]
  simp only [Fintype.sum_sum_type, Fintype.sum_prod_type, Finset.sum_range]
  rfl

end Var

/-! ### The families both programs have -/

section Families

variable {sol : Nat → Bool}

theorem bothFamily_iff : Feasible (bothFamily e) sol ↔ ∀ a < e.A, ∀ p < e.P, ∀ q < e.Q,
    sol (x e a p) = true → sol (y e p q) = true → sol (z e a p q) = true := by
  simp only [bothFamily, feasible_flatMap_range, feasible_map_range, holds_greaterEqual,
    weigh_cons, weigh_nil]
  refine forall₂_congr fun a _ => forall₂_congr fun p _ => forall₂_congr fun q _ => ?_
  cases sol (x e a p) <;> cases sol (y e p q) <;> cases sol (z e a p q) <;> simp

theorem usedFamily_iff : Feasible (usedFamily e) sol ↔
    ∀ p < e.P, sol (u e p) = true → filled e sol p = true := by
  simp only [usedFamily, feasible_map_range, holds_greaterEqual, weigh_append, weigh_map_range,
    weigh_cons, weigh_nil]
  refine forall₂_congr fun p _ => ?_
  rw [filled_eq_true, ← value_le_sum_iff]
  simp

theorem filledFamily_iff : Feasible (filledFamily e) sol ↔
    ∀ p < e.P, ∑ a ∈ Finset.range e.A, value (sol (x e a p)) ≤ K * value (sol (u e p)) := by
  simp only [filledFamily, feasible_map_range, holds_greaterEqual, weigh_map_range, weigh_cons]
  refine forall₂_congr fun p _ => ?_
  simp

/-- A slot is used exactly when it has an attribute. -/
theorem u_eq_filled {p : Nat} (hused : sol (u e p) = true → filled e sol p = true)
    (hfilled : ∑ a ∈ Finset.range e.A, value (sol (x e a p)) ≤ K * value (sol (u e p))) :
    sol (u e p) = filled e sol p := by
  rw [Bool.eq_iff_iff]
  refine ⟨hused, ?_⟩
  intro hf
  obtain ⟨a, ha, hx⟩ := filled_eq_true.mp hf
  exact of_sum_le_mul hfilled ha hx

end Families

/-! ### A workload of one query that reads everything -/

/-- The names are `a`, `aa`, `aaa`, .. -/
def plainAttribute (i : Nat) : AttributePtr :=
  { name := List.replicate (i + 1) 0x61, type := .int64, index := i }

def readsAll (n : Nat) : QuerySummary := ⟨(List.range n).map plainAttribute⟩

def plainWorkload (n : Nat) : QueryWorkload :=
  { attributes := (List.range n).map plainAttribute
    queries := [readsAll n]
    counts := AList.singleton (readsAll n) 1
    totalQueries := 1 }

/-- One edge with 8 bytes for each attribute. -/
def seenOnce : Nat → SchemaStats
  | 0 => .new
  | n + 1 => (seenOnce n).incrCountAndBytes n 8

theorem lookup_seenOnce (n i : Nat) :
    (seenOnce n).indexToCountAndBytes.lookup i = if i < n then some (1, 8) else none := by
  induction n generalizing i with
  | zero => rfl
  | succ n ih =>
      have hnone : (seenOnce n).indexToCountAndBytes.lookup n = none := by
        rw [ih, if_neg (lt_irrefl n)]
      simp only [seenOnce, SchemaStats.incrCountAndBytes, hnone]
      by_cases hi : i = n
      · rw [hi, AList.lookup_insert]
        simp
      · rw [AList.lookup_insert_ne hi, ih]
        simp only [Nat.lt_succ_iff_lt_or_eq, hi, or_false]

theorem plainWorkload_sized (n : Nat) : Sized (plainWorkload n).attributes (seenOnce n) fun _ => 8 := by
  constructor
  · intro a attrb hget
    simp only [plainWorkload, List.getElem?_map, Option.map_eq_some_iff] at hget
    obtain ⟨i, hi, hattrb⟩ := hget
    obtain ⟨hlt, hi⟩ := List.getElem?_eq_some_iff.mp hi
    rw [List.getElem_range] at hi
    rw [← hattrb, ← hi]
    rfl
  · intro a ha
    have hlt : a < n := by simpa [plainWorkload] using ha
    simp [SchemaStats.getAvgSize, lookup_seenOnce, hlt]

end RailwayDB.Optimizer
