/-
The heuristic for partitions that may overlap.

It starts with a partition for each query and merges two of them at a time until little
enough is stored.  Every pair is merged to see what that costs, and split again, which
gives the same sets back.  Merging keeps every attribute and leaves one partition less,
and a single partition is never too much, so the loop ends and there are always two to
merge before it does.  Two partitions take a block header each, so one of both is
smaller than they are together and the divisor is positive.
-/
import RailwayDB.Core.Heuristic
import RailwayDB.Proofs.MergeSplit

namespace RailwayDB.Optimizer.HeuristicOverlapping

open Common Common.Cost Common.Partitioning

variable {stats : SchemaStats} {ω : SetOrder} {workload : QueryWorkload}
  {partitions partitions' : List Partition} {i j : Nat}

/-! ### What every partitioning on the way is like -/

/-- The partitions are made of the attributes of the workload, and leave none out. -/
structure Complete (workload : QueryWorkload) (ss : List (Finset AttributePtr)) : Prop where
  within : Within workload ss
  covers : Covers workload.attributes ss

/-- Sets that are each in one of the others still leave nothing out. -/
theorem Complete.of_subset {ss ss' : List (Finset AttributePtr)} (h : Complete workload ss)
    (hwithin : Within workload ss') (hsub : ∀ s ∈ ss, ∃ s' ∈ ss', s ⊆ s') :
    Complete workload ss' := by
  refine ⟨hwithin, ?_⟩
  intro attrb hattrb
  obtain ⟨s, hs, hmem⟩ := h.covers attrb hattrb
  obtain ⟨s', hs', hss'⟩ := hsub s hs
  exact ⟨s', hs', hss' hmem⟩

theorem Complete.merged (h : Complete workload (sets partitions)) (hij : i < j)
    (hj : j < partitions.length) (hmerged : IsMerged partitions i j partitions') :
    Complete workload (sets partitions') := by
  have hlength := hmerged.length
  have hset : ∀ k < partitions.length, partSet partitions k ∈ sets partitions :=
    fun k hk => mem_sets_iff.mpr ⟨k, hk, rfl⟩
  refine h.of_subset ?_ ?_
  · intro s hs
    obtain ⟨k, hk, rfl⟩ := mem_sets_iff.mp hs
    rw [hmerged.parts k hk]
    split_ifs with hki hkj
    · exact Finset.union_subset (h.within _ (hset i (by omega))) (h.within _ (hset j hj))
    · exact h.within _ (hset _ (by omega))
    · exact h.within _ (hset k (by omega))
  · intro s hs
    obtain ⟨k, hk, rfl⟩ := mem_sets_iff.mp hs
    have hunion : partSet partitions i ∪ partSet partitions j ∈ sets partitions' := by
      refine mem_sets_iff.mpr ⟨i, by omega, ?_⟩
      rw [hmerged.parts i (by omega), if_pos rfl]
    by_cases hki : k = i
    · rw [hki]
      exact ⟨_, hunion, Finset.subset_union_left⟩
    · by_cases hkj : k = j
      · rw [hkj]
        exact ⟨_, hunion, Finset.subset_union_right⟩
      · -- the last partition has moved to the place that became free
        by_cases hlast : k = partitions'.length
        · refine ⟨_, mem_sets_iff.mpr ⟨j, by omega, rfl⟩, ?_⟩
          rw [hmerged.parts j (by omega), if_neg hij.ne', if_pos rfl, hlast]
        · refine ⟨_, mem_sets_iff.mpr ⟨k, by omega, rfl⟩, ?_⟩
          rw [hmerged.parts k (by omega), if_neg hki, if_neg hkj]

/-- Two partitions together take more than one of both. -/
theorem blockBytes_union_lt (hc : Costed stats workload) {s t : Finset AttributePtr}
    (hs : s ⊆ workload.attributes.toFinset) :
    blockBytes stats (s ∪ t) < blockBytes stats s + blockBytes stats t := by
  have hsum : ∑ attrb ∈ s ∪ t, averageSize stats attrb + ∑ attrb ∈ s ∩ t, averageSize stats attrb
      = ∑ attrb ∈ s, averageSize stats attrb + ∑ attrb ∈ t, averageSize stats attrb :=
    Finset.sum_union_inter
  have hinter : 0 ≤ ∑ attrb ∈ s ∩ t, averageSize stats attrb := by
    refine Finset.sum_nonneg ?_
    intro attrb hattrb
    exact hc.averageSize_nonneg (List.mem_toFinset.mp (hs (Finset.mem_inter.mp hattrb).1))
  unfold blockBytes
  linarith

/-! ### Trying the pairs -/

theorem mem_positionPairs {n : Nat} {pair : Nat × Nat} :
    pair ∈ positionPairs n ↔ pair.1 < pair.2 ∧ pair.2 < n := by
  obtain ⟨i, j⟩ := pair
  simp only [positionPairs, List.mem_flatMap, List.mem_range, List.mem_map, List.mem_range'_1,
    Prod.mk.injEq]
  refine ⟨?_, ?_⟩
  · rintro ⟨i', hi', j', hj', rfl, rfl⟩
    omega
  · rintro ⟨hij, hj⟩
    exact ⟨i, by omega, j, by omega, rfl, rfl⟩

/-- A pair that was tried is as it was before. -/
theorem tryPair_ok (hc : Costed stats workload) (h : Complete workload (sets partitions))
    (hij : i < j) (hj : j < partitions.length) (oldCost : ℚ) (m : MinCostSolution (Nat × Nat)) :
    ∃ partitions' cost, tryPair stats ω workload oldCost (⟨partitions⟩, m) (i, j)
        = .ok (⟨partitions'⟩, m.push (i, j) cost) ∧
      sets partitions' = sets partitions := by
  have hi : i < partitions.length := hij.trans hj
  obtain ⟨merged, hmerge, hmerged⟩ := mergeInto_ok hij hj
  obtain ⟨partitions', hsplit, hsets⟩ := split_merged hij hj hmerged
  have hlength := hmerged.length
  have hi' : i < merged.length := by omega
  have hcomplete := h.merged hij hj hmerged
  obtain ⟨newCost, hcost⟩ := hc.exists_getIOCostOver ω hcomplete.within hcomplete.covers
  have hnewCost : getIOCost stats ω ⟨merged⟩ workload = .ok newCost := hcost merged rfl
  have hlhs : partitions[i].toFinset ⊆ workload.attributes.toFinset :=
    h.within _ (mem_sets.mpr ⟨_, List.getElem_mem hi, rfl⟩)
  have hrhs : partitions[j].toFinset ⊆ workload.attributes.toFinset :=
    h.within _ (mem_sets.mpr ⟨_, List.getElem_mem hj, rfl⟩)
  have hnewSet : merged[i].toFinset = partitions[i].toFinset ∪ partitions[j].toFinset := by
    rw [← partSet_getElem hi', hmerged.parts i hi', if_pos rfl, partSet_getElem hi,
      partSet_getElem hj]
  have hnew : merged[i].toFinset ⊆ workload.attributes.toFinset := by
    rw [hnewSet]
    exact Finset.union_subset hlhs hrhs
  have hdivisor : blockBytes stats partitions[i].toFinset + blockBytes stats partitions[j].toFinset
      - blockBytes stats merged[i].toFinset ≠ 0 := by
    rw [hnewSet]
    exact sub_ne_zero.mpr (blockBytes_union_lt hc hlhs).ne'
  have hmergePartitions : mergePartitions ⟨partitions⟩ i j = .ok ⟨merged⟩ := by
    unfold mergePartitions
    rw [if_neg hij.not_gt]
    exact hmerge
  have hsplitPartition : splitPartition ⟨merged⟩ i j partitions[i] partitions[j]
      = .ok ⟨partitions'⟩ := by
    unfold splitPartition
    rw [if_neg hij.not_gt]
    exact hsplit
  refine ⟨partitions', (newCost - oldCost) / (blockBytes stats partitions[i].toFinset
    + blockBytes stats partitions[j].toFinset - blockBytes stats merged[i].toFinset), ?_, hsets⟩
  unfold tryPair quotient
  simp only [elementAt_eq (List.getElem?_eq_getElem hi), elementAt_eq (List.getElem?_eq_getElem hj),
    Except.ok_bind, hc.getPartitionSize_eq hlhs, hc.getPartitionSize_eq hrhs, hmergePartitions,
    hnewCost, elementAt_eq (List.getElem?_eq_getElem hi'), hc.getPartitionSize_eq hnew,
    if_neg hdivisor, hsplitPartition]
  rfl

/-- All pairs are tried, one after the other, and one of them is found. -/
theorem tryPairs_ok (hc : Costed stats workload) (oldCost : ℚ) {pairs : List (Nat × Nat)}
    (h : Complete workload (sets partitions))
    (hpairs : ∀ pair ∈ pairs, pair.1 < pair.2 ∧ pair.2 < partitions.length)
    {m : MinCostSolution (Nat × Nat)}
    (hm : m.Holds fun pair _ => pair.1 < pair.2 ∧ pair.2 < partitions.length) :
    ∃ partitions' m', pairs.foldlM (tryPair stats ω workload oldCost) (⟨partitions⟩, m)
        = .ok (⟨partitions'⟩, m') ∧
      sets partitions' = sets partitions ∧
      m'.Holds (fun pair _ => pair.1 < pair.2 ∧ pair.2 < partitions.length) ∧
      (pairs ≠ [] ∨ m.best ≠ none → m'.best ≠ none) := by
  induction pairs generalizing partitions m with
  | nil => exact ⟨partitions, m, rfl, rfl, hm, fun hor => hor.resolve_left fun hnil => hnil rfl⟩
  | cons pair pairs ih =>
      obtain ⟨hij, hj⟩ := hpairs pair List.mem_cons_self
      obtain ⟨partitions₁, cost, hstep, hsets₁⟩ := tryPair_ok (ω := ω) hc h hij hj oldCost m
      have hlength : partitions₁.length = partitions.length := by
        rw [← length_sets, hsets₁, length_sets]
      rw [← hlength] at hpairs hm
      obtain ⟨partitions', m', hrest, hsets', hm', hsome⟩ := ih (hsets₁ ▸ h)
        (fun p hp => hpairs p (List.mem_cons_of_mem pair hp))
        (hm.push fun _ => hpairs pair List.mem_cons_self)
      refine ⟨partitions', m', ?_, hsets'.trans hsets₁, ?_,
        fun _ => hsome (Or.inr (m.push_best_ne_none pair cost))⟩
      · rw [List.foldlM_cons, hstep, Except.ok_bind]
        exact hrest
      · rw [← hlength]
        exact hm'

/-- The turn of the loop leaves one partition less, and nothing out. -/
theorem mergeBest_ok (hc : Costed stats workload) (h : Complete workload (sets partitions))
    (htwo : 2 ≤ partitions.length) :
    ∃ partitions', mergeBest stats ω workload ⟨partitions⟩ = .ok ⟨partitions'⟩ ∧
      partitions'.length + 1 = partitions.length ∧ Complete workload (sets partitions') := by
  obtain ⟨oldCost, hcost⟩ := hc.exists_getIOCostOver ω h.within h.covers
  have hold : getIOCost stats ω ⟨partitions⟩ workload = .ok oldCost := hcost partitions rfl
  have hpair : ((0, 1) : Nat × Nat) ∈ positionPairs partitions.length :=
    mem_positionPairs.mpr ⟨by omega, by omega⟩
  obtain ⟨tried, m, htry, hsets, hm, hsome⟩ := tryPairs_ok (ω := ω) hc oldCost h
    (fun pair hp => mem_positionPairs.mp hp) MinCostSolution.holds_new
  obtain ⟨⟨i, j⟩, cost, hbest, hij, hj⟩ :=
    hm.getBestSolution (hsome (Or.inl (List.ne_nil_of_mem hpair)))
  have hlength : tried.length = partitions.length := by
    rw [← length_sets, hsets, length_sets]
  obtain ⟨merged, hmerge, hmerged⟩ := mergeInto_ok hij (by rw [hlength]; exact hj)
  refine ⟨merged, ?_, hmerged.length.trans hlength, ?_⟩
  · have hmergePartitions : mergePartitions ⟨tried⟩ i j = .ok ⟨merged⟩ := by
      unfold mergePartitions
      rw [if_neg hij.not_gt]
      exact hmerge
    unfold mergeBest
    simp only [hold, Except.ok_bind, htry, hbest]
    exact hmergePartitions
  · exact Complete.merged (hsets ▸ h) hij (by rw [hlength]; exact hj) hmerged

/-! ### The loop -/

/-- Too much is stored only in two partitions or more. -/
theorem two_le_length (hc : Costed stats workload) (hw : Within workload (sets partitions))
    {storageThreshold : ℚ} (hthreshold : 0 ≤ storageThreshold)
    (hover : storageThreshold < overhead stats workload (sets partitions)) :
    2 ≤ partitions.length := by
  by_contra hlt
  have hnonpos : overhead stats workload (sets partitions) ≤ 0 := by
    cases hparts : partitions with
    | nil => simp [overhead, sets]
    | cons part rest =>
        have hrest : rest = [] := by
          rw [hparts, List.length_cons] at hlt
          exact List.length_eq_zero_iff.mp (by omega)
        rw [hparts, hrest] at hw
        rw [hrest]
        exact hc.overhead_singleton_nonpos (hw _ List.mem_cons_self)
  linarith

theorem mergeLoop_ok (hc : Costed stats workload) (h : Complete workload (sets partitions))
    {storageThreshold : ℚ} (hthreshold : 0 ≤ storageThreshold) {fuel : Nat}
    (hfuel : partitions.length < fuel) :
    ∃ partitions', mergeLoop stats ω workload storageThreshold fuel ⟨partitions⟩
        = .ok ⟨partitions'⟩ ∧
      Complete workload (sets partitions') ∧
      overhead stats workload (sets partitions') ≤ storageThreshold := by
  induction fuel generalizing partitions with
  | zero => exact absurd hfuel (Nat.not_lt_zero _)
  | succ fuel ih =>
      unfold mergeLoop
      simp only [hc.getStorageOverhead_eq h.within, Except.ok_bind]
      split_ifs with hover
      · obtain ⟨merged, hmerge, hlength, hcomplete⟩ :=
          mergeBest_ok (ω := ω) hc h (two_le_length hc h.within hthreshold hover)
        rw [hmerge, Except.ok_bind]
        exact ih hcomplete (by omega)
      · exact ⟨partitions, rfl, h, not_lt.mp hover⟩

/-! ### The partitions of the queries -/

/-- What is not yet in a partition is still missing. -/
theorem foldl_addQueryPartition (queries : List QuerySummary)
    (hqueries : ∀ query ∈ queries, ∀ attrb ∈ query.attributes, attrb ∈ workload.attributes)
    {partitioning : Common.Partitioning} {missing : List AttributePtr}
    (hw : Within workload (sets partitioning.partitions))
    (hmissing : ∀ attrb ∈ missing, attrb ∈ workload.attributes)
    (hcovers : ∀ attrb ∈ workload.attributes, attrb ∉ missing →
      ∃ s ∈ sets partitioning.partitions, attrb ∈ s) :
    ∃ partitioning' missing', queries.foldl addQueryPartition (partitioning, missing)
        = (partitioning', missing') ∧
      Within workload (sets partitioning'.partitions) ∧
      (∀ attrb ∈ missing', attrb ∈ workload.attributes) ∧
      ∀ attrb ∈ workload.attributes, attrb ∉ missing' →
        ∃ s ∈ sets partitioning'.partitions, attrb ∈ s := by
  induction queries generalizing partitioning missing with
  | nil => exact ⟨partitioning, missing, rfl, hw, hmissing, hcovers⟩
  | cons query queries ih =>
      rw [List.foldl_cons]
      have hsets : sets (partitioning.addPartition (.ofAttributes query.attributes)).partitions
          = sets partitioning.partitions ++ [query.attributes.toFinset] := by
        simp [sets, addPartition]
      refine ih (fun q hq => hqueries q (List.mem_cons_of_mem query hq)) ?_ ?_ ?_
      · intro s hs
        rw [hsets, List.mem_append, List.mem_singleton] at hs
        rcases hs with hs | rfl
        · exact hw s hs
        · intro attrb hattrb
          exact List.mem_toFinset.mpr
            (hqueries query List.mem_cons_self attrb (List.mem_toFinset.mp hattrb))
      · intro attrb hattrb
        exact hmissing attrb (List.mem_filter.mp hattrb).1
      · intro attrb hattrb hnot
        rw [hsets]
        by_cases hquery : attrb ∈ query.attributes
        · exact ⟨_, List.mem_append_right _ List.mem_cons_self, List.mem_toFinset.mpr hquery⟩
        · have hold : attrb ∉ missing := by
            intro hmem
            exact hnot (List.mem_filter.mpr ⟨hmem, decide_eq_true hquery⟩)
          obtain ⟨s, hs, hmem⟩ := hcovers attrb hattrb hold
          exact ⟨s, List.mem_append_left _ hs, hmem⟩

theorem queryPartitioning_complete (hc : Costed stats workload) :
    Complete workload (sets (queryPartitioning workload).partitions) := by
  have hstart : Within workload (sets Partitioning.new.partitions) := by
    simp [Within, sets, Partitioning.new]
  obtain ⟨partitioning, missing, hfold, hw, hmissing, hcovers⟩ :=
    foldl_addQueryPartition workload.queries hc.queried hstart
      (fun attrb (hattrb : attrb ∈ workload.attributes.dedup) => List.mem_dedup.mp hattrb)
      (fun attrb hattrb hnot => absurd (List.mem_dedup.mpr hattrb) hnot)
  unfold queryPartitioning
  simp only [hfold]
  have hsets : sets (partitioning.addPartition (.ofAttributes missing)).partitions
      = sets partitioning.partitions ++ [missing.toFinset] := by
    simp [sets, addPartition]
  split_ifs with hnone
  · rw [hsets]
    refine ⟨?_, ?_⟩
    · intro s hs
      rcases List.mem_append.mp hs with hs | hs
      · exact hw s hs
      · rw [List.mem_singleton.mp hs]
        intro attrb hattrb
        exact List.mem_toFinset.mpr (hmissing attrb (List.mem_toFinset.mp hattrb))
    · intro attrb hattrb
      by_cases hmem : attrb ∈ missing
      · exact ⟨_, List.mem_append_right _ List.mem_cons_self, List.mem_toFinset.mpr hmem⟩
      · obtain ⟨s, hs, hin⟩ := hcovers attrb hattrb hmem
        exact ⟨s, List.mem_append_left _ hs, hin⟩
  · have hnil : missing = [] := List.length_eq_zero_iff.mp (by omega)
    refine ⟨hw, ?_⟩
    intro attrb hattrb
    refine hcovers attrb hattrb ?_
    rw [hnil]
    exact List.not_mem_nil

/-- **`solve` returns, without dividing by zero, partitions that hold every attribute and are within
the threshold.** -/
theorem solve_within_threshold (hc : Costed stats workload) {storageThreshold : ℚ}
    (hthreshold : 0 ≤ storageThreshold) (ω : SetOrder) :
    ∃ partitioning overhead, solve stats ω workload storageThreshold = .ok partitioning ∧
      (∀ attrb ∈ workload.attributes, ∃ part ∈ partitioning.partitions, attrb ∈ part.attributes) ∧
      getStorageOverhead stats partitioning workload = .ok overhead ∧
      overhead ≤ storageThreshold := by
  obtain ⟨partitions, hloop, hcomplete, hover⟩ := mergeLoop_ok (ω := ω) hc
    (queryPartitioning_complete hc) hthreshold (Nat.lt_succ_self _)
  refine ⟨⟨partitions⟩, _, hloop, ?_, hc.getStorageOverhead_eq hcomplete.within, hover⟩
  intro attrb hattrb
  obtain ⟨s, hs, hmem⟩ := hcomplete.covers attrb hattrb
  obtain ⟨part, hpart, rfl⟩ := mem_sets.mp hs
  exact ⟨part, hpart, Partition.mem_toFinset.mp hmem⟩

/-- The two queries share an attribute, so nothing may be stored twice only when their partitions
are merged. -/
theorem solve_within_threshold_counted :
    ∃ partitioning overhead,
      solve Covering.textAndNumbersStats Covering.inOrder Covering.counted 0
        = .ok partitioning ∧
      (∀ attrb ∈ Covering.textAndNumbers,
        ∃ part ∈ partitioning.partitions, attrb ∈ part.attributes) ∧
      getStorageOverhead Covering.textAndNumbersStats partitioning Covering.counted
        = .ok overhead ∧
      overhead ≤ 0 :=
  solve_within_threshold Covering.costed_counted (le_refl 0) Covering.inOrder

end RailwayDB.Optimizer.HeuristicOverlapping
