/-
Costs of partitions as sets of attributes.

What a partitioning costs, on disk and to read, depends on its partitions only as sets
and on the order they stand in.  `sets` forgets the rest.  Where the statistics know the
attributes of a workload and every query has a frequency, both costs can be worked out
for all partitions made of these attributes.
-/
import RailwayDB.Proofs.QueryCover

namespace RailwayDB.Common

namespace Partition

def toFinset (p : Partition) : Finset AttributePtr := p.attributes.toFinset

@[simp] theorem mem_toFinset {p : Partition} {attrb : AttributePtr} :
    attrb ∈ p.toFinset ↔ attrb ∈ p.attributes := List.mem_toFinset

@[simp] theorem toFinset_new : new.toFinset = ∅ := rfl

@[simp] theorem toFinset_clearAttributes (p : Partition) : p.clearAttributes.toFinset = ∅ := rfl

@[simp] theorem toFinset_addAttribute (p : Partition) (attrb : AttributePtr) :
    (p.addAttribute attrb).toFinset = insert attrb p.toFinset := by
  unfold addAttribute
  split_ifs with h
  · rw [Finset.insert_eq_of_mem (mem_toFinset.mpr h)]
  · exact List.toFinset_cons

@[simp] theorem toFinset_foldl_addAttribute (attributes : List AttributePtr) (p : Partition) :
    (attributes.foldl addAttribute p).toFinset = p.toFinset ∪ attributes.toFinset := by
  induction attributes generalizing p with
  | nil => simp
  | cons attrb attributes ih => simp [ih]

@[simp] theorem toFinset_ofAttributes (attributes : List AttributePtr) :
    (ofAttributes attributes).toFinset = attributes.toFinset := by
  simp [ofAttributes]

end Partition

/-- The partitions as sets. -/
def sets (partitions : List Partition) : List (Finset AttributePtr) :=
  partitions.map Partition.toFinset

@[simp] theorem length_sets (partitions : List Partition) :
    (sets partitions).length = partitions.length := List.length_map _

theorem mem_sets {partitions : List Partition} {s : Finset AttributePtr} :
    s ∈ sets partitions ↔ ∃ part ∈ partitions, part.toFinset = s := List.mem_map

theorem partSet_sets (partitions : List Partition) (i : Nat) :
    partSet partitions i = (sets partitions)[i]?.getD ∅ := by
  unfold partSet sets
  rw [List.getElem?_map]
  cases partitions[i]? with
  | none => rfl
  | some part => rfl

namespace Cost

variable {stats : SchemaStats} {ω : SetOrder} {workload : QueryWorkload}
  {partitions : List Partition} {attributes : List AttributePtr}

/-- The statistics know the attributes of the workload, the queries ask for no others, and each has
a frequency. -/
structure Costed (stats : SchemaStats) (workload : QueryWorkload) : Prop where
  measured : ∀ attrb ∈ workload.attributes,
    ∃ size, stats.getAvgSize attrb.index = .ok size ∧ 0 ≤ size
  queried : ∀ query ∈ workload.queries, ∀ attrb ∈ query.attributes, attrb ∈ workload.attributes
  frequency : ∀ query ∈ workload.queries, ∃ f, workload.getFrequency query = .ok f

/-- The partitions are made of attributes of the workload. -/
def Within (workload : QueryWorkload) (ss : List (Finset AttributePtr)) : Prop :=
  ∀ s ∈ ss, s ⊆ workload.attributes.toFinset

theorem Costed.toMeasured (h : Costed stats workload) (hw : Within workload (sets partitions)) :
    Measured stats partitions := by
  intro part hpart attrb hattrb
  have hmem := hw part.toFinset (mem_sets.mpr ⟨part, hpart, rfl⟩)
    (Partition.mem_toFinset.mpr hattrb)
  exact h.measured attrb (List.mem_toFinset.mp hmem)

/-! ### Bytes on disk -/

/-- The bytes of a block with these attributes. -/
def blockBytes (stats : SchemaStats) (s : Finset AttributePtr) : ℚ :=
  (∑ attrb ∈ s, averageSize stats attrb + 20) * 24

theorem Costed.averageSize_nonneg (h : Costed stats workload) {attrb : AttributePtr}
    (hattrb : attrb ∈ workload.attributes) : 0 ≤ averageSize stats attrb := by
  obtain ⟨size, hsize, hnonneg⟩ := h.measured attrb hattrb
  rw [averageSize, hsize]
  exact hnonneg

theorem Costed.blockBytes_le (h : Costed stats workload) {s t : Finset AttributePtr} (hst : s ⊆ t)
    (ht : t ⊆ workload.attributes.toFinset) : blockBytes stats s ≤ blockBytes stats t := by
  have hsum := Finset.sum_le_sum_of_subset_of_nonneg (f := averageSize stats) hst
    fun attrb hattrb _ => h.averageSize_nonneg (List.mem_toFinset.mp (ht hattrb))
  unfold blockBytes
  linarith

theorem Costed.blockBytes_pos (h : Costed stats workload) {s : Finset AttributePtr}
    (hs : s ⊆ workload.attributes.toFinset) : 0 < blockBytes stats s := by
  have hle := h.blockBytes_le (Finset.empty_subset s) hs
  have hempty : blockBytes stats ∅ = 480 := by
    unfold blockBytes
    rw [Finset.sum_empty]
    norm_num
  linarith

theorem Costed.getPartitionSize_eq (h : Costed stats workload) {part : Partition}
    (hpart : part.toFinset ⊆ workload.attributes.toFinset) :
    getPartitionSize stats part = .ok (blockBytes stats part.toFinset) := by
  have hw : Within workload (sets [part]) := by
    intro s hs
    rw [List.mem_singleton.mp hs]
    exact hpart
  exact (h.toMeasured hw).getPartitionSize (i := 0) rfl

theorem Costed.foldlM_getPartitionSize (h : Costed stats workload)
    (hw : Within workload (sets partitions)) (total : ℚ) :
    partitions.foldlM (fun total partition => do
        return total + (← getPartitionSize stats partition)) total
      = Except.ok (total + ((sets partitions).map (blockBytes stats)).sum) := by
  induction partitions generalizing total with
  | nil => simp [sets]
  | cons part partitions ih =>
      have hsize := h.getPartitionSize_eq (hw part.toFinset List.mem_cons_self)
      rw [List.foldlM_cons, hsize, Except.ok_bind, Except.pure_eq_ok, Except.ok_bind,
        ih fun s hs => hw s (List.mem_cons_of_mem _ hs)]
      simp [sets, add_assoc]

/-- What is stored besides a block with everything, for each byte of it. -/
def overhead (stats : SchemaStats) (workload : QueryWorkload) (ss : List (Finset AttributePtr)) :
    ℚ :=
  (ss.map (blockBytes stats)).sum / blockBytes stats workload.attributes.toFinset - 1

theorem Costed.getStorageOverhead_eq (h : Costed stats workload)
    (hw : Within workload (sets partitions)) :
    getStorageOverhead stats ⟨partitions⟩ workload
      = .ok (overhead stats workload (sets partitions)) := by
  have hwhole : (Partition.ofAttributes workload.attributes).toFinset
      ⊆ workload.attributes.toFinset := by
    rw [Partition.toFinset_ofAttributes]
  unfold getStorageOverhead
  simp only [h.getPartitionSize_eq hwhole, Partition.toFinset_ofAttributes, Except.ok_bind,
    h.foldlM_getPartitionSize hw, zero_add]
  rfl

/-- One partition is never too much. -/
theorem Costed.overhead_singleton_nonpos (h : Costed stats workload) {s : Finset AttributePtr}
    (hs : s ⊆ workload.attributes.toFinset) : overhead stats workload [s] ≤ 0 := by
  have hle := h.blockBytes_le hs (Finset.Subset.refl _)
  have hpos := h.blockBytes_pos (Finset.Subset.refl workload.attributes.toFinset)
  unfold overhead
  rw [List.map_singleton, List.sum_singleton, sub_nonpos, div_le_one hpos]
  exact hle

/-! ### Bytes read -/

/-- Each attribute is in a partition. -/
def Covers (attributes : List AttributePtr) (ss : List (Finset AttributePtr)) : Prop :=
  ∀ attrb ∈ attributes, ∃ s ∈ ss, attrb ∈ s

/-- The partitions a query is charged for, which are the same for the same sets. -/
theorem Costed.exists_used (h : Costed stats workload) (ω : SetOrder)
    (hw : Within workload (sets partitions)) (hcover : Covers attributes (sets partitions))
    (query : QuerySummary) :
    ∃ used : List Nat, (∀ i ∈ used, i < partitions.length) ∧
      ∀ partitions', sets partitions' = sets partitions →
        getUsedPartitions stats ω partitions' attributes query = .ok used := by
  have hsub : toCover attributes query
      ⊆ (Finset.range partitions.length).biUnion (partSet partitions) := by
    refine toCover_subset ?_
    intro attrb hattrb
    have hmem : attrb ∈ attributes :=
      of_decide_eq_true (List.mem_filter.mp (List.mem_dedup.mp hattrb)).2
    obtain ⟨s, hs, hattrb⟩ := hcover attrb hmem
    obtain ⟨part, hpart, rfl⟩ := mem_sets.mp hs
    exact ⟨part, hpart, Partition.mem_toFinset.mp hattrb⟩
  obtain ⟨used, hrun, -, hlt⟩ := exists_run_nextPart (ω := ω) (h.toMeasured hw).nonneg
    (show (0 : ℚ) ≤ 20 by norm_num) hsub
    (fun used => (toCover attributes query).card ≤ (covered (partSet partitions) used).card)
    fun used h => Finset.card_le_card h
  refine ⟨used, hlt, ?_⟩
  intro partitions' hsets
  have hparts : partSet partitions = partSet partitions' := by
    funext i
    rw [partSet_sets, partSet_sets, hsets]
  have hlength : partitions.length = partitions'.length := by
    rw [← length_sets, ← hsets, length_sets]
  rw [hparts, hlength] at hrun
  exact (h.toMeasured (hsets ▸ hw)).usePartitions ω hrun

theorem Costed.usedSize_eq (h : Costed stats workload) (hw : Within workload (sets partitions))
    {used : List Nat} (hused : ∀ i ∈ used, i < partitions.length) :
    usedSize stats partitions used
      = .ok (used.map fun i => blockBytes stats (partSet partitions i)).sum := by
  have hfold : ∀ cost : ℚ, used.foldlM (fun partitionIOCost i => do
      let partition ← partitionAt partitions i
      return partitionIOCost + (← getPartitionSize stats partition)) cost
        = Except.ok (cost + (used.map fun i => blockBytes stats (partSet partitions i)).sum) := by
    induction used with
    | nil => simp
    | cons i used ih =>
        intro cost
        have hi : i < partitions.length := hused i List.mem_cons_self
        have hpart := List.getElem?_eq_getElem hi
        have hstep : partitionAt partitions i = .ok partitions[i] := by
          unfold partitionAt
          rw [hpart]
        have hsize := (h.toMeasured hw).getPartitionSize hpart
        rw [List.foldlM_cons, hstep, Except.ok_bind, hsize, Except.ok_bind, Except.pure_eq_ok,
          Except.ok_bind, ih fun j hj => hused j (List.mem_cons_of_mem i hj)]
        simp [blockBytes, add_assoc]
  unfold usedSize
  rw [hfold, zero_add]

/-- The bytes read can be worked out, and are the same for the same sets. -/
theorem Costed.exists_getIOCostOver (h : Costed stats workload) (ω : SetOrder)
    (hw : Within workload (sets partitions)) (hcover : Covers attributes (sets partitions)) :
    ∃ cost, ∀ partitions', sets partitions' = sets partitions →
      getIOCostOver stats ω partitions' workload attributes = .ok cost := by
  have hfold : ∀ queries : List QuerySummary,
      (∀ query ∈ queries, ∃ f, workload.getFrequency query = .ok f) → ∀ total : ℚ,
      ∃ cost, ∀ partitions', sets partitions' = sets partitions →
        queries.foldlM (fun totalIOCost summary => do
          let used ← getUsedPartitions stats ω partitions' attributes summary
          let partitionIOCost ← usedSize stats partitions' used
          let frequency ← workload.getFrequency summary
          return totalIOCost + frequency * partitionIOCost) total = Except.ok cost := by
    intro queries hfrequency
    induction queries with
    | nil => exact fun total => ⟨total, fun _ _ => rfl⟩
    | cons query queries ih =>
        intro total
        obtain ⟨used, hlt, hused⟩ := h.exists_used ω hw hcover query
        obtain ⟨f, hf⟩ := hfrequency query List.mem_cons_self
        obtain ⟨cost, hcost⟩ := ih (fun q hq => hfrequency q (List.mem_cons_of_mem _ hq))
          (total + f * (used.map fun i => blockBytes stats (partSet partitions i)).sum)
        refine ⟨cost, ?_⟩
        intro partitions' hsets
        have hlength : partitions'.length = partitions.length := by
          rw [← length_sets, hsets, length_sets]
        have hparts : partSet partitions' = partSet partitions := by
          funext i
          rw [partSet_sets, partSet_sets, hsets]
        have hlt' : ∀ i ∈ used, i < partitions'.length := by
          rw [hlength]
          exact hlt
        have hsize := h.usedSize_eq (hsets ▸ hw) hlt'
        rw [hparts] at hsize
        rw [List.foldlM_cons, hused partitions' hsets, Except.ok_bind, hsize, Except.ok_bind, hf,
          Except.ok_bind, Except.pure_eq_ok, Except.ok_bind]
        exact hcost partitions' hsets
  exact hfold workload.queries h.frequency 0

end Cost

end RailwayDB.Common

/-! #### Two queries over three attributes -/

namespace RailwayDB.Covering

open Common Common.Cost

/-- The two numbers are asked for. -/
def asksLastTwo : QuerySummary := ⟨textAndNumbers.drop 1⟩

/-- The queries, with the counts there are for them. -/
def twoQueries (counts : AList fun _ : QuerySummary => ℚ) : QueryWorkload where
  attributes := textAndNumbers
  queries := [asksFirstTwo, asksLastTwo]
  counts := counts
  totalQueries := 2

/-- Each query has come once. -/
def counted : QueryWorkload :=
  twoQueries (AList.insert asksLastTwo 1 (AList.insert asksFirstTwo 1 ∅))

theorem costed_counted : Costed textAndNumbersStats counted := by
  have hindex : ∀ attrb ∈ textAndNumbers, attrb.index < 3 := by decide
  refine ⟨?_, by decide, ?_⟩
  · intro attrb hattrb
    exact ⟨_, getAvgSize_textAndNumbers _ (hindex attrb hattrb), Nat.cast_nonneg _⟩
  · intro query hquery
    refine ⟨1 / 2, ?_⟩
    have hall : ∀ query ∈ counted.queries, counted.getFrequency query = .ok (1 / 2) := by
      decide +kernel
    exact hall query hquery

end RailwayDB.Covering
