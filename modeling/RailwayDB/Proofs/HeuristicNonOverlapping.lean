/-
The heuristic for disjoint partitions.

Each attribute is added to one partition after the other to see what it would cost
there, and stays in one of them.  `Spread` is what the placing keeps: the partitions are
disjoint, and the attributes they hold are those placed so far.  The outer loop starts
with one partition, which is within any threshold, and keeps the cheapest partitioning,
so what it returns never costs more to read than that one.
-/
import RailwayDB.Core.Heuristic
import RailwayDB.Proofs.MergeSplit

namespace RailwayDB.Optimizer

open Common Common.Cost

variable {stats : SchemaStats} {ω : SetOrder} {σ : SortOrder AttributePtr}
  {workload : QueryWorkload} {partitions : List Partition} {placed : List AttributePtr}
  {attrb : AttributePtr}

/-! ### Placing the attributes -/

/-- The attributes placed so far are each in one partition. -/
structure Spread (placed : List AttributePtr) (partitions : List Partition) : Prop where
  covers : ∀ attrb, attrb ∈ placed ↔ ∃ i, attrb ∈ partSet partitions i
  apart : ∀ i j, i ≠ j → Disjoint (partSet partitions i) (partSet partitions j)

theorem partSet_replicate_new (n i : Nat) :
    partSet (List.replicate n Partition.new) i = ∅ := by
  unfold partSet
  rw [List.getElem?_replicate]
  split_ifs <;> rfl

theorem spread_replicate (n : Nat) : Spread [] (List.replicate n Partition.new) := by
  refine ⟨?_, ?_⟩
  · intro attrb
    simp [partSet_replicate_new]
  · intro i j _
    rw [partSet_replicate_new]
    exact Finset.disjoint_empty_left _

theorem Spread.notMem (h : Spread placed partitions) (hnew : attrb ∉ placed) (i : Nat) :
    attrb ∉ partSet partitions i := fun hmem => hnew ((h.covers attrb).mpr ⟨i, hmem⟩)

/-- A new attribute may go to any partition. -/
theorem Spread.place (h : Spread placed partitions) (hnew : attrb ∉ placed) {i : Nat}
    (hi : i < partitions.length) :
    Spread (placed.insert attrb) (partitions.set i (partitions[i].addAttribute attrb)) := by
  have hset : ∀ k, partSet (partitions.set i (partitions[i].addAttribute attrb)) k
      = if k = i then insert attrb (partSet partitions i) else partSet partitions k := by
    intro k
    rw [partSet_set hi, Partition.toFinset_addAttribute, partSet_getElem hi]
  refine ⟨?_, ?_⟩
  · intro other
    rw [List.mem_insert_iff, h.covers]
    refine ⟨?_, ?_⟩
    · rintro (heq | ⟨k, hk⟩)
      · refine ⟨i, ?_⟩
        rw [hset, if_pos rfl, heq]
        exact Finset.mem_insert_self _ _
      · refine ⟨k, ?_⟩
        rw [hset]
        split_ifs with hki
        · rw [hki] at hk
          exact Finset.mem_insert_of_mem hk
        · exact hk
    · rintro ⟨k, hk⟩
      rw [hset] at hk
      split_ifs at hk with hki
      · exact (Finset.mem_insert.mp hk).imp_right fun hmem => ⟨i, hmem⟩
      · exact Or.inr ⟨k, hk⟩
  · intro k l hkl
    rw [hset, hset]
    split_ifs with hk hl hl
    · exact absurd (hk.trans hl.symm) hkl
    · rw [Finset.disjoint_insert_left]
      exact ⟨h.notMem hnew l, h.apart i l (Ne.symm hl)⟩
    · rw [Finset.disjoint_insert_right]
      exact ⟨h.notMem hnew k, h.apart k i hk⟩
    · exact h.apart k l hkl

theorem Spread.within (h : Spread placed partitions)
    (hplaced : ∀ a ∈ placed, a ∈ workload.attributes) :
    Within workload (sets partitions) := by
  intro s hs attrb hattrb
  obtain ⟨i, hi⟩ := List.mem_iff_getElem?.mp hs
  have hmem : attrb ∈ partSet partitions i := by
    rw [partSet_sets, hi]
    exact hattrb
  exact List.mem_toFinset.mpr (hplaced attrb ((h.covers attrb).mpr ⟨i, hmem⟩))

theorem Spread.coversPlaced (h : Spread placed partitions) : Covers placed (sets partitions) := by
  intro attrb hattrb
  obtain ⟨i, hi⟩ := (h.covers attrb).mp hattrb
  obtain ⟨part, hpart, hmem⟩ := mem_partSet.mp hi
  exact ⟨part.toFinset, mem_sets.mpr ⟨part, List.mem_of_getElem? hpart, rfl⟩,
    Partition.mem_toFinset.mpr hmem⟩

namespace HeuristicNonOverlapping

/-- Adding a new attribute is undone by removing it. -/
theorem removeAttribute_addAttribute {part : Partition} (hnew : attrb ∉ part.attributes) :
    (part.addAttribute attrb).removeAttribute attrb = part := by
  cases part with
  | mk attributes nodup =>
      unfold Partition.addAttribute Partition.removeAttribute
      rw [dif_neg hnew]
      simp

/-- The new attribute is tried in one partition. -/
theorem tryPartition_ok (hc : Costed stats workload) (h : Spread placed partitions)
    (hplaced : ∀ a ∈ placed, a ∈ workload.attributes) (hattrb : attrb ∈ workload.attributes)
    (hnew : attrb ∉ placed) {i : Nat} (hi : i < partitions.length) (m : MinCostSolution Nat) :
    ∃ cost, tryPartition stats ω workload (placed.insert attrb) attrb (partitions, m) i
      = .ok (partitions, m.push i cost) := by
  have hspread := h.place hnew hi
  have hmem : ∀ a ∈ placed.insert attrb, a ∈ workload.attributes := by
    intro a ha
    rcases List.mem_insert_iff.mp ha with heq | ha
    · rw [heq]
      exact hattrb
    · exact hplaced a ha
  obtain ⟨cost, hcost⟩ := hc.exists_getIOCostOver ω (hspread.within hmem) hspread.coversPlaced
  refine ⟨cost, ?_⟩
  have hfresh : attrb ∉ partitions[i].attributes := by
    have hnot := h.notMem hnew i
    rw [partSet_getElem hi, Partition.mem_toFinset] at hnot
    exact hnot
  have hat : elementAt (partitions.set i (partitions[i].addAttribute attrb)) i
      = .ok (partitions[i].addAttribute attrb) :=
    elementAt_eq (List.getElem?_set_self hi)
  unfold tryPartition
  simp only [elementAt_eq (List.getElem?_eq_getElem hi), Except.ok_bind, hcost _ rfl, hat,
    removeAttribute_addAttribute hfresh, List.set_set, List.set_getElem_self]
  rfl

/-- Trying leaves the partitions as they are and finds one of them. -/
theorem tryPartitions_ok (hc : Costed stats workload) (h : Spread placed partitions)
    (hplaced : ∀ a ∈ placed, a ∈ workload.attributes) (hattrb : attrb ∈ workload.attributes)
    (hnew : attrb ∉ placed) {l : List Nat} (hl : ∀ i ∈ l, i < partitions.length)
    {m : MinCostSolution Nat} (hm : m.Holds fun i _ => i < partitions.length) :
    ∃ m' : MinCostSolution Nat, l.foldlM
        (tryPartition stats ω workload (placed.insert attrb) attrb) (partitions, m)
          = .ok (partitions, m') ∧
      m'.Holds (fun i _ => i < partitions.length) ∧ (l ≠ [] ∨ m.best ≠ none → m'.best ≠ none) := by
  induction l generalizing m with
  | nil => exact ⟨m, rfl, hm, fun hor => hor.resolve_left fun hnil => hnil rfl⟩
  | cons i l ih =>
      have hi := hl i List.mem_cons_self
      obtain ⟨cost, hstep⟩ := tryPartition_ok (ω := ω) hc h hplaced hattrb hnew hi m
      obtain ⟨m', hrest, hm', hsome⟩ := ih (fun j hj => hl j (List.mem_cons_of_mem i hj))
        (hm.push fun _ => hi)
      refine ⟨m', ?_, hm', fun _ => hsome (Or.inr (m.push_best_ne_none i cost))⟩
      rw [List.foldlM_cons, hstep, Except.ok_bind]
      exact hrest

theorem placeAttribute_ok (hc : Costed stats workload) (h : Spread placed partitions)
    (hplaced : ∀ a ∈ placed, a ∈ workload.attributes) (hattrb : attrb ∈ workload.attributes)
    (hnew : attrb ∉ placed) (hne : partitions ≠ []) :
    ∃ partitions', placeAttribute stats ω workload (partitions, placed) attrb
        = .ok (partitions', placed.insert attrb) ∧
      partitions'.length = partitions.length ∧ Spread (placed.insert attrb) partitions' := by
  have hrange : List.range partitions.length ≠ [] := by
    simpa [List.range_eq_nil] using hne
  obtain ⟨m, htry, hm, hsome⟩ := tryPartitions_ok (ω := ω) hc h hplaced hattrb hnew
    (fun i hi => List.mem_range.mp hi) (MinCostSolution.holds_new)
  obtain ⟨i, -, hbest, hi⟩ := hm.getBestSolution (hsome (Or.inl hrange))
  refine ⟨partitions.set i (partitions[i].addAttribute attrb), ?_, List.length_set, h.place hnew hi⟩
  unfold placeAttribute
  simp only [htry, Except.ok_bind, hbest, elementAt_eq (List.getElem?_eq_getElem hi)]
  rfl

/-- All the attributes are placed. -/
theorem placeAttributes_ok (hc : Costed stats workload) {l : List AttributePtr}
    (hl : ∀ a ∈ l, a ∈ workload.attributes) (hnodup : (placed ++ l).Nodup)
    (h : Spread placed partitions) (hplaced : ∀ a ∈ placed, a ∈ workload.attributes)
    (hne : partitions ≠ []) :
    ∃ partitions' placed', l.foldlM (placeAttribute stats ω workload) (partitions, placed)
        = .ok (partitions', placed') ∧
      partitions'.length = partitions.length ∧ Spread placed' partitions' ∧
      ∀ a, a ∈ placed' ↔ a ∈ placed ∨ a ∈ l := by
  induction l generalizing placed partitions with
  | nil => exact ⟨partitions, placed, rfl, rfl, h, by simp⟩
  | cons attrb l ih =>
      obtain ⟨hnodupPlaced, hnodupRest, hdisjoint⟩ := List.nodup_append.mp hnodup
      have hnew : attrb ∉ placed := fun hmem => hdisjoint attrb hmem attrb List.mem_cons_self rfl
      have hattrb := hl attrb List.mem_cons_self
      obtain ⟨partitions₁, hstep, hlength, h₁⟩ :=
        placeAttribute_ok (ω := ω) hc h hplaced hattrb hnew hne
      have hnodup₁ : (placed.insert attrb ++ l).Nodup := by
        rw [List.insert_of_not_mem hnew, List.cons_append, ← List.nodup_middle]
        exact hnodup
      have hplaced₁ : ∀ a ∈ placed.insert attrb, a ∈ workload.attributes := by
        intro a ha
        rcases List.mem_insert_iff.mp ha with heq | ha
        · rw [heq]
          exact hattrb
        · exact hplaced a ha
      have hne₁ : partitions₁ ≠ [] := by
        rw [← List.length_pos_iff, hlength, List.length_pos_iff]
        exact hne
      obtain ⟨partitions', placed', hrest, hlength', h', hmem⟩ :=
        ih (fun a ha => hl a (List.mem_cons_of_mem attrb ha)) hnodup₁ h₁ hplaced₁ hne₁
      refine ⟨partitions', placed', ?_, hlength'.trans hlength, h', ?_⟩
      · rw [List.foldlM_cons, hstep, Except.ok_bind]
        exact hrest
      · intro a
        rw [hmem, List.mem_insert_iff, List.mem_cons]
        tauto

/-! ### A given number of partitions -/

/-- Parts that are not empty, have nothing in common, and make up all of `attributes`. -/
structure IsPartition (attributes : List AttributePtr) (partitions : List Partition) : Prop where
  nonempty : ∀ part ∈ partitions, part.attributes ≠ []
  disjoint : partitions.Pairwise fun p q => p.attributes.Disjoint q.attributes
  covers : ∀ attrb, attrb ∈ attributes ↔ ∃ part ∈ partitions, attrb ∈ part.attributes

theorem IsPartition.within (h : IsPartition workload.attributes partitions) :
    Within workload (sets partitions) := by
  intro s hs attrb hattrb
  obtain ⟨part, hpart, rfl⟩ := mem_sets.mp hs
  exact List.mem_toFinset.mpr
    ((h.covers attrb).mpr ⟨part, hpart, Partition.mem_toFinset.mp hattrb⟩)

theorem IsPartition.coversAll (h : IsPartition workload.attributes partitions) :
    Covers workload.attributes (sets partitions) := by
  intro attrb hattrb
  obtain ⟨part, hpart, hmem⟩ := (h.covers attrb).mp hattrb
  exact ⟨part.toFinset, mem_sets.mpr ⟨part, hpart, rfl⟩, Partition.mem_toFinset.mpr hmem⟩

/-- A single part holds everything. -/
theorem IsPartition.sets_eq (h : IsPartition workload.attributes partitions)
    (hlength : partitions.length ≤ 1) (hne : workload.attributes ≠ []) :
    sets partitions = [workload.attributes.toFinset] := by
  obtain ⟨attrb, hattrb⟩ := List.exists_mem_of_ne_nil _ hne
  obtain ⟨part, hpart, -⟩ := (h.covers attrb).mp hattrb
  have hone : partitions = [part] := by
    have hpos := List.length_pos_of_mem hpart
    obtain ⟨other, hother⟩ := List.length_eq_one_iff.mp (by omega : partitions.length = 1)
    rw [hother] at hpart ⊢
    rw [List.mem_singleton.mp hpart]
  rw [hone]
  have hset : part.toFinset = workload.attributes.toFinset := by
    ext other
    rw [Partition.mem_toFinset, List.mem_toFinset, h.covers, hone]
    simp
  rw [← hset]
  rfl

/-- The partitions that are not empty. -/
theorem isPartition_of_spread (h : Spread placed partitions) {attributes : List AttributePtr}
    (hmem : ∀ a, a ∈ placed ↔ a ∈ attributes) :
    IsPartition attributes
      (partitions.filter fun partition => decide (0 < partition.attributes.length)) := by
  refine ⟨?_, ?_, ?_⟩
  · intro part hpart
    have hpos := of_decide_eq_true (List.mem_filter.mp hpart).2
    exact List.length_pos_iff.mp hpos
  · refine List.Pairwise.sublist List.filter_sublist (List.pairwise_iff_getElem.mpr ?_)
    intro i j hi hj hlt a ha ha'
    have hdisjoint := h.apart i j hlt.ne
    rw [partSet_getElem hi, partSet_getElem hj, Finset.disjoint_left] at hdisjoint
    exact hdisjoint (Partition.mem_toFinset.mpr ha) (Partition.mem_toFinset.mpr ha')
  · intro attrb
    rw [← hmem, h.covers]
    refine ⟨?_, ?_⟩
    · rintro ⟨i, hi⟩
      obtain ⟨part, hpart, ha⟩ := mem_partSet.mp hi
      refine ⟨part, List.mem_filter.mpr ⟨List.mem_of_getElem? hpart, ?_⟩, ha⟩
      exact decide_eq_true (List.length_pos_of_mem ha)
    · rintro ⟨part, hpart, ha⟩
      obtain ⟨i, hi⟩ := List.mem_iff_getElem?.mp (List.mem_filter.mp hpart).1
      exact ⟨i, mem_partSet.mpr ⟨part, hi, ha⟩⟩

theorem foldl_addPartition (l : List Partition) (partitioning : Common.Partitioning) :
    l.foldl Common.Partitioning.addPartition partitioning = ⟨partitioning.partitions ++ l⟩ := by
  induction l generalizing partitioning with
  | nil => simp
  | cons part l ih => simp [ih, Common.Partitioning.addPartition]

theorem solveWith_ok (hc : Costed stats workload) (hnodup : workload.attributes.Nodup) {n : Nat}
    (hn : n ≠ 0) :
    ∃ partitioning, solveWith stats ω σ workload n = .ok partitioning ∧
      IsPartition workload.attributes partitioning.partitions ∧
      partitioning.partitions.length ≤ n := by
  have hperm := σ.perm (attrbFreq workload) workload.attributes
  have hne : List.replicate n Partition.new ≠ [] := by
    simpa [List.replicate_eq_nil_iff] using hn
  obtain ⟨partitions, placed, hplace, hlength, hspread, hmem⟩ :=
    placeAttributes_ok (ω := ω) hc (fun a ha => hperm.mem_iff.mp ha)
      (by rw [List.nil_append]; exact hperm.nodup_iff.mpr hnodup) (spread_replicate n) (by simp) hne
  refine ⟨⟨partitions.filter fun partition => 0 < partition.attributes.length⟩, ?_,
    isPartition_of_spread hspread ?_, ?_⟩
  · unfold solveWith
    simp only [hplace, Except.ok_bind, foldl_addPartition]
    rfl
  · intro a
    rw [hmem, hperm.mem_iff]
    simp
  · refine (List.length_filter_le _ _).trans ?_
    rw [hlength, List.length_replicate]

/-! ### The cheapest within the threshold -/

/-- A partition of the attributes, within the threshold, that costs no more than `single` to
read. -/
structure Acceptable (stats : SchemaStats) (ω : SetOrder) (workload : QueryWorkload)
    (storageThreshold single : ℚ) (partitioning : Common.Partitioning) (cost : ℚ) : Prop where
  isPartition : IsPartition workload.attributes partitioning.partitions
  stored : overhead stats workload (sets partitioning.partitions) ≤ storageThreshold
  read : getIOCost stats ω partitioning workload = .ok cost
  least : cost ≤ single

/-- Once there is an acceptable partitioning, there is one at the end. -/
theorem solveFrom_ok (turns : Nat) (hc : Costed stats workload)
    (hnodup : workload.attributes.Nodup) {storageThreshold single : ℚ} {n : Nat} (hn : n ≠ 0)
    {m : MinCostSolution Common.Partitioning}
    (hm : m.Holds (Acceptable stats ω workload storageThreshold single)) (hsome : m.best ≠ none) :
    ∃ m', solveFrom stats ω σ workload storageThreshold turns n m = .ok m' ∧
      m'.Holds (Acceptable stats ω workload storageThreshold single) ∧ m'.best ≠ none := by
  induction turns generalizing n m with
  | zero => exact ⟨m, rfl, hm, hsome⟩
  | succ turns ih =>
      obtain ⟨partitioning, hsolve, hpart, -⟩ := solveWith_ok (ω := ω) (σ := σ) hc hnodup hn
      unfold solveFrom
      simp only [hsolve, Except.ok_bind, hc.getStorageOverhead_eq hpart.within]
      split_ifs with hover
      · refine ⟨m, ?_, hm, hsome⟩
        rfl
      · obtain ⟨cost, hcost⟩ := hc.exists_getIOCostOver ω hpart.within hpart.coversAll
        have hread : getIOCost stats ω partitioning workload = .ok cost := hcost _ rfl
        simp only [hread, Except.ok_bind]
        refine ih (Nat.succ_ne_zero n) (hm.push ?_) (m.push_best_ne_none _ _)
        intro hle
        obtain ⟨⟨old, minCost⟩, hbest⟩ := Option.ne_none_iff_exists'.mp hsome
        have hless := (hle old minCost hbest).trans (hm old minCost hbest).least
        exact ⟨hpart, not_lt.mp hover, hread, hless⟩

/-- **What `solve` returns is a partition of the attributes within the threshold, and costs no more
to read than one partition with all of them.** -/
theorem solve_isPartition (hc : Costed stats workload) (hne : workload.attributes ≠ [])
    (hnodup : workload.attributes.Nodup) {storageThreshold : ℚ} (hthreshold : 0 ≤ storageThreshold)
    (ω : SetOrder) (σ : SortOrder AttributePtr) :
    ∃ partitioning overhead cost single,
      solve stats ω σ workload storageThreshold = .ok partitioning ∧
      IsPartition workload.attributes partitioning.partitions ∧
      getStorageOverhead stats partitioning workload = .ok overhead ∧
      overhead ≤ storageThreshold ∧
      getIOCost stats ω partitioning workload = .ok cost ∧
      getIOCost stats ω ⟨[Partition.ofAttributes workload.attributes]⟩ workload = .ok single ∧
      cost ≤ single := by
  -- the first turn gives the single partition, up to the order of its attributes
  obtain ⟨first, hfirst, hpart, hlength⟩ := solveWith_ok (ω := ω) (σ := σ) hc hnodup one_ne_zero
  obtain ⟨single, hsingle⟩ := hc.exists_getIOCostOver ω hpart.within hpart.coversAll
  have hsets := hpart.sets_eq hlength hne
  have hover : overhead stats workload (sets first.partitions) ≤ storageThreshold := by
    rw [hsets]
    exact (hc.overhead_singleton_nonpos (Finset.Subset.refl _)).trans hthreshold
  have hread : getIOCost stats ω first workload = .ok single := hsingle _ rfl
  have hwhole : getIOCost stats ω ⟨[Partition.ofAttributes workload.attributes]⟩ workload
      = .ok single := by
    refine hsingle _ ?_
    rw [hsets]
    simp [sets]
  have hturns : min ((workload.queries.flatMap fun query => query.attributes).dedup.length + 1)
      workload.attributes.length ≠ 0 := by
    have hpos := List.length_pos_iff.mpr hne
    omega
  obtain ⟨turns, hsucc⟩ := Nat.exists_eq_succ_of_ne_zero hturns
  have hacceptable : Acceptable stats ω workload storageThreshold single first single :=
    ⟨hpart, hover, hread, le_refl single⟩
  obtain ⟨m, hloop, hm, hsome⟩ := solveFrom_ok (σ := σ) turns hc hnodup two_ne_zero
    (MinCostSolution.holds_new.push fun _ => hacceptable)
    (MinCostSolution.push_best_ne_none .new first single)
  obtain ⟨partitioning, cost, hbest, hgood⟩ := hm.getBestSolution hsome
  refine ⟨partitioning, _, cost, single, ?_, hgood.isPartition,
    hc.getStorageOverhead_eq hgood.isPartition.within, hgood.stored, hgood.read, hwhole,
    hgood.least⟩
  have hrun : solveFrom stats ω σ workload storageThreshold turns.succ 1 .new = .ok m := by
    unfold solveFrom
    simp only [hfirst, Except.ok_bind, hc.getStorageOverhead_eq hpart.within, if_neg hover.not_gt,
      hread]
    exact hloop
  have hinited : m.isInited = true := Option.isSome_iff_ne_none.mpr hsome
  unfold solve
  simp only [hsucc, hrun, Except.ok_bind, hinited]
  exact hbest

/-! #### Three attributes -/

/-- Insertion sort, as `std::sort` may be. -/
def byInsertion : SortOrder AttributePtr where
  sort key l := l.insertionSort fun a b => key b ≤ key a
  perm key l := List.perm_insertionSort _ l
  sorted key l := by
    have htotal : Std.Total fun a b : AttributePtr => key b ≤ key a := ⟨fun a b => le_total _ _⟩
    have htrans : IsTrans AttributePtr fun a b => key b ≤ key a := ⟨fun a b c h h' => h'.trans h⟩
    exact List.pairwise_insertionSort _ l

theorem solve_isPartition_counted :
    ∃ partitioning overhead cost single,
      solve Covering.textAndNumbersStats Covering.inOrder byInsertion Covering.counted 1
        = .ok partitioning ∧
      IsPartition Covering.textAndNumbers partitioning.partitions ∧
      getStorageOverhead Covering.textAndNumbersStats partitioning Covering.counted
        = .ok overhead ∧
      overhead ≤ 1 ∧
      getIOCost Covering.textAndNumbersStats Covering.inOrder partitioning Covering.counted
        = .ok cost ∧
      getIOCost Covering.textAndNumbersStats Covering.inOrder
        ⟨[Partition.ofAttributes Covering.textAndNumbers]⟩ Covering.counted = .ok single ∧
      cost ≤ single :=
  solve_isPartition Covering.costed_counted (by decide) (by decide) zero_le_one Covering.inOrder
    byInsertion

/-- A query without a frequency ends the search in a failed assertion. -/
theorem solve_uncounted :
    (solve Covering.textAndNumbersStats Covering.inOrder byInsertion (Covering.twoQueries ∅) 1).map
        (fun _ => ()) = .error (.assertFailed .getFrequencyCount) := by
  decide +kernel

end HeuristicNonOverlapping

end RailwayDB.Optimizer
