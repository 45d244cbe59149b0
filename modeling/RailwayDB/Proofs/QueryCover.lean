/-
Covering a query with partitions.

The cost model and the database choose the partitions for a query in the same way:
round by round, the one that adds the most bytes the query still lacks for each byte
of its own.  The database counts the queried attributes it has met and stops when it
has them all.  The cost model counts all the attributes it has met, so it may stop
before it has the queried ones: it covers the query if and only if that never
happens.
-/
import RailwayDB.Core.Cost
import RailwayDB.Core.HistoricalGraph
import RailwayDB.Lib.Except
import RailwayDB.Lib.Greedy
import Mathlib.Algebra.BigOperators.Field
import Mathlib.Algebra.BigOperators.Fin
import Mathlib.Algebra.Order.BigOperators.Group.Finset
import Mathlib.Algebra.Order.BigOperators.Group.List
import Mathlib.Data.List.GetD
import Mathlib.Tactic.FieldSimp
import Mathlib.Tactic.Ring

namespace RailwayDB

open Common Common.Cost Greedy

/-! ### Greedy covers -/

section Parts

variable {α : Type} [DecidableEq α] (parts : Nat → Finset α) (Q : Finset α)

/-- The attributes of the partitions used so far. -/
def covered (used : List Nat) : Finset α := used.toFinset.biUnion parts

/-- The queried attributes partition `i` would add. -/
def fresh (used : List Nat) (i : Nat) : Finset α := (parts i ∩ Q) \ covered parts used

/-- The partitions left, of `n`. -/
def unused (n : Nat) (used : List Nat) : List Nat := (List.range n).filter fun i => i ∉ used

variable {parts Q} {ω : SetOrder} {n : Nat}

theorem mem_order_unused {used : List Nat} {i : Nat} :
    i ∈ ω.order (unused n used) ↔ i < n ∧ i ∉ used := by
  rw [(ω.perm _).mem_iff, unused]
  simp

theorem unused_append {used : List Nat} {i : Nat} :
    unused n (used ++ [i]) = (unused n used).filter fun j => j ≠ i := by
  rw [unused, unused, List.filter_filter]
  refine List.filter_congr fun j _ => ?_
  simp [and_comm]

theorem covered_append (used : List Nat) (i : Nat) :
    covered parts (used ++ [i]) = covered parts used ∪ parts i := by
  ext a
  simp only [covered, Finset.mem_biUnion, List.mem_toFinset, List.mem_append, List.mem_singleton,
    Finset.mem_union]
  constructor
  · intro h
    obtain ⟨j, hj | hj, ha⟩ := h
    · exact .inl ⟨j, hj, ha⟩
    · rw [hj] at ha
      exact .inr ha
  · intro h
    rcases h with ⟨j, hj, ha⟩ | ha
    · exact ⟨j, .inl hj, ha⟩
    · exact ⟨i, .inr rfl, ha⟩

/-- While the query is not covered there is a partition left. -/
theorem exists_unused (hcover : Q ⊆ (Finset.range n).biUnion parts) {used : List Nat}
    (h : ¬ Q ⊆ covered parts used) : ω.order (unused n used) ≠ [] := by
  intro hnil
  refine h fun a ha => ?_
  obtain ⟨i, hi, hmem⟩ := Finset.mem_biUnion.mp (hcover ha)
  refine Finset.mem_biUnion.mpr ⟨i, ?_, hmem⟩
  by_contra hnot
  have hin : i ∈ ω.order (unused n used) :=
    mem_order_unused.mpr ⟨Finset.mem_range.mp hi, fun hu => hnot (List.mem_toFinset.mpr hu)⟩
  rw [hnil] at hin
  simp at hin

theorem exists_bestOf {score : Nat → ℚ} (hscore : ∀ i, 0 ≤ score i)
    (hcover : Q ⊆ (Finset.range n).biUnion parts) {used : List Nat}
    (h : ¬ Q ⊆ covered parts used) :
    ∃ i, bestOf score (ω.order (unused n used)) = some i ∧ i < n ∧ i ∉ used := by
  obtain ⟨i, hfold, hleads⟩ :=
    foldl_better _ (fun j _ => hscore j) (exists_unused (ω := ω) hcover h)
  refine ⟨i, ?_, mem_order_unused.mp hleads.mem⟩
  rw [bestOf, hfold]

theorem mem_of_bestOf {score : Nat → ℚ} (hscore : ∀ i, 0 ≤ score i) {used : List Nat} {i : Nat}
    (h : bestOf score (ω.order (unused n used)) = some i) : i < n ∧ i ∉ used :=
  mem_order_unused.mp ((bestOf_eq_some_iff fun j _ => hscore j).mp h).mem

/-- As long as something is missing, what is taken next adds something, if that is what gives a
score. -/
theorem fresh_of_bestOf {score : Nat → ℚ} {used : List Nat} (hscore : ∀ i, 0 ≤ score i)
    (hpos : ∀ i < n, 0 < score i ↔ (fresh parts Q used i).Nonempty)
    (hcover : Q ⊆ (Finset.range n).biUnion parts) (hmissing : ¬ Q ⊆ covered parts used) {i : Nat}
    (h : bestOf score (ω.order (unused n used)) = some i) : (fresh parts Q used i).Nonempty := by
  obtain ⟨a, ha, hnot⟩ := Finset.not_subset.mp hmissing
  obtain ⟨j, hj, hmem⟩ := Finset.mem_biUnion.mp (hcover ha)
  rw [Finset.mem_range] at hj
  have hunused : j ∈ ω.order (unused n used) := by
    refine mem_order_unused.mpr ⟨hj, fun hused => hnot ?_⟩
    exact Finset.mem_biUnion.mpr ⟨j, List.mem_toFinset.mpr hused, hmem⟩
  have hfresh : (fresh parts Q used j).Nonempty :=
    ⟨a, Finset.mem_sdiff.mpr ⟨Finset.mem_inter.mpr ⟨hmem, ha⟩, hnot⟩⟩
  have hle := ((bestOf_eq_some_iff fun k _ => hscore k).mp h).le hunused
  exact (hpos i (mem_of_bestOf hscore h).1).mp (lt_of_lt_of_le ((hpos j hj).mpr hfresh) hle)

/-! #### By rate

`base` is what a partition takes besides its attributes. -/

variable (parts Q) in
/-- The bytes of the query partition `i` would add, for each byte of its own. -/
def gain (size : α → ℚ) (base : ℚ) (used : List Nat) (i : Nat) : ℚ :=
  (∑ a ∈ fresh parts Q used i, size a) / (∑ a ∈ parts i, size a + base)

variable (parts Q) in
/-- The partition to take next. -/
def nextPart (size : α → ℚ) (base : ℚ) (ω : SetOrder) (n : Nat) (used : List Nat) : Option Nat :=
  bestOf (gain parts Q size base used) (ω.order (unused n used))

variable {size : α → ℚ} {base : ℚ}

theorem gain_nonneg (hsize : ∀ i, ∀ a ∈ parts i, 0 ≤ size a) (hbase : 0 ≤ base) (used : List Nat)
    (i : Nat) : 0 ≤ gain parts Q size base used i := by
  refine div_nonneg (Finset.sum_nonneg ?_) (add_nonneg (Finset.sum_nonneg (hsize i)) hbase)
  intro a ha
  exact hsize i a (Finset.mem_inter.mp (Finset.mem_sdiff.mp ha).1).1

theorem nextPart_eq_some (hsize : ∀ i, ∀ a ∈ parts i, 0 ≤ size a) (hbase : 0 ≤ base)
    {used : List Nat} {i : Nat} :
    nextPart parts Q size base ω n used = some i ↔
      Leads (gain parts Q size base used) (ω.order (unused n used)) i :=
  bestOf_eq_some_iff fun j _ => gain_nonneg hsize hbase used j

/-- The loop ends, whatever makes it stop once the query is covered. -/
theorem exists_run_bestOf (ω : SetOrder) {score : List Nat → Nat → ℚ}
    (hscore : ∀ used i, 0 ≤ score used i)
    (hcover : Q ⊆ (Finset.range n).biUnion parts) (done : List Nat → Prop) [DecidablePred done]
    (hdone : ∀ used, Q ⊆ covered parts used → done used) :
    ∃ l, run (fun used => bestOf (score used) (ω.order (unused n used))) done (n + 1) [] = some l ∧
      l.Nodup ∧ ∀ i ∈ l, i < n := by
  have hpick : ∀ used, ¬ done used → ∃ i, bestOf (score used) (ω.order (unused n used)) = some i ∧
      i < n ∧ i ∉ used := fun used hd => exists_bestOf (hscore used) hcover
        fun hsub => hd (hdone used hsub)
  obtain ⟨l, hrun⟩ := exists_run hpick (n + 1) [] List.nodup_nil (by simp) (by simp)
  refine ⟨l, hrun, nodup_of_run (fun used i hi => (mem_of_bestOf (hscore used) hi).2) hrun, ?_⟩
  intro i hi
  obtain ⟨before, after, hsplit⟩ := List.append_of_mem hi
  rw [hsplit] at hrun
  exact (mem_of_bestOf (hscore _) (pick_of_run hrun).2).1

theorem exists_run_nextPart (hsize : ∀ i, ∀ a ∈ parts i, 0 ≤ size a) (hbase : 0 ≤ base)
    (hcover : Q ⊆ (Finset.range n).biUnion parts) (done : List Nat → Prop) [DecidablePred done]
    (hdone : ∀ used, Q ⊆ covered parts used → done used) :
    ∃ l, run (nextPart parts Q size base ω n) done (n + 1) [] = some l ∧ l.Nodup ∧
      ∀ i ∈ l, i < n :=
  exists_run_bestOf ω (gain_nonneg hsize hbase) hcover done hdone

/-! #### Attributes under other names -/

section Image

variable {β : Type} [DecidableEq β] {f : α → β} {U : Set α} {parts' : Nat → Finset β}
  {Q' : Finset β} {size' : β → ℚ}

theorem covered_image (hparts' : ∀ i, parts' i = (parts i).image f) (used : List Nat) :
    covered parts' used = (covered parts used).image f := by
  rw [covered, covered, Finset.biUnion_image]
  exact Finset.biUnion_congr rfl fun i _ => hparts' i

theorem covered_subset (hparts : ∀ i, ∀ a ∈ parts i, a ∈ U) {used : List Nat} :
    ∀ a ∈ covered parts used, a ∈ U := by
  intro a ha
  obtain ⟨i, -, hmem⟩ := Finset.mem_biUnion.mp ha
  exact hparts i a hmem

theorem card_covered_image (hinj : Set.InjOn f U) (hparts : ∀ i, ∀ a ∈ parts i, a ∈ U)
    (hparts' : ∀ i, parts' i = (parts i).image f) (used : List Nat) :
    (covered parts' used).card = (covered parts used).card := by
  rw [covered_image hparts', Finset.card_image_of_injOn (hinj.mono (covered_subset hparts))]

theorem subset_covered_image (hinj : Set.InjOn f U) (hparts : ∀ i, ∀ a ∈ parts i, a ∈ U)
    (hQ : ∀ a ∈ Q, a ∈ U) (hparts' : ∀ i, parts' i = (parts i).image f) (hQ' : Q' = Q.image f)
    (used : List Nat) : Q' ⊆ covered parts' used ↔ Q ⊆ covered parts used := by
  rw [covered_image hparts', hQ']
  constructor
  · intro hsub a ha
    obtain ⟨b, hb, heq⟩ := Finset.mem_image.mp (hsub (Finset.mem_image_of_mem f ha))
    rw [← hinj (covered_subset hparts b hb) (hQ a ha) heq]
    exact hb
  · exact Finset.image_subset_image

/-- What a partition is worth does not depend on the names. -/
theorem gain_image (hinj : Set.InjOn f U) (hparts : ∀ i, ∀ a ∈ parts i, a ∈ U)
    (hQ : ∀ a ∈ Q, a ∈ U) (hparts' : ∀ i, parts' i = (parts i).image f) (hQ' : Q' = Q.image f)
    (hsize : ∀ a ∈ U, size' (f a) = size a) (base : ℚ) (used : List Nat) (i : Nat) :
    gain parts' Q' size' base used i = gain parts Q size base used i := by
  have hfresh : fresh parts' Q' used i = (fresh parts Q used i).image f := by
    ext b
    rw [fresh, fresh, covered_image hparts', hparts', hQ']
    simp only [Finset.mem_sdiff, Finset.mem_inter, Finset.mem_image]
    constructor
    · rintro ⟨⟨⟨a, ha, rfl⟩, c, hc, heq⟩, hnot⟩
      rw [hinj (hQ c hc) (hparts i a ha) heq] at hc
      exact ⟨a, ⟨⟨ha, hc⟩, fun hmem => hnot ⟨a, hmem, rfl⟩⟩, rfl⟩
    · rintro ⟨a, ⟨⟨ha, hq⟩, hnot⟩, rfl⟩
      refine ⟨⟨⟨a, ha, rfl⟩, a, hq, rfl⟩, ?_⟩
      rintro ⟨c, hc, heq⟩
      rw [hinj (covered_subset hparts c hc) (hparts i a ha) heq] at hc
      exact hnot hc
  have hsub : ∀ a ∈ fresh parts Q used i, a ∈ U := fun a ha =>
    hparts i a (Finset.mem_inter.mp (Finset.mem_sdiff.mp ha).1).1
  rw [gain, gain, hfresh, hparts', Finset.sum_image (hinj.mono hsub),
    Finset.sum_image (hinj.mono (hparts i)), Finset.sum_congr rfl fun a ha => hsize a (hsub a ha),
    Finset.sum_congr rfl fun a ha => hsize a (hparts i a ha)]

end Image

end Parts

/-! ### The score of a part

`size` stands for the whole bytes of an attribute. -/

section Score

open HistoricalGraph HistoricalGraph.EdgeIterator

variable {schema : Schema} {stats : SchemaStats} {size : Text → Nat} {names : List Text}

theorem foldlM_attributeSize
    (hsize : ∀ name ∈ names, getAttributeSize schema stats name = .ok (size name)) {total : Nat}
    (hlt : total < 2 ^ 64) :
    names.foldlM (fun totalSize attr => do
        return (totalSize + (← getAttributeSize schema stats attr)) % 2 ^ 64) total
      = Except.ok ((total + (names.map size).sum) % 2 ^ 64) := by
  induction names generalizing total with
  | nil =>
      rw [List.map_nil, List.sum_nil, Nat.add_zero, Nat.mod_eq_of_lt hlt]
      rfl
  | cons name names ih =>
      have hnext : (total + size name) % 2 ^ 64 < 2 ^ 64 := Nat.mod_lt _ (by norm_num)
      rw [List.map_cons, List.sum_cons, List.foldlM_cons, hsize name List.mem_cons_self,
        Except.ok_bind, Except.pure_eq_ok, Except.ok_bind,
        ih (fun b hb => hsize b (List.mem_cons_of_mem _ hb)) hnext, Nat.mod_add_mod, Nat.add_assoc]

/-- The bytes of 24 edges with an attribute, for each of so many bytes, as they are counted. -/
def countedShare (size : Text → Nat) (d : Nat) (name : Text) : ℚ :=
  (size name * 24 % 2 ^ 64 : Nat) / d

theorem foldlM_addScore
    (hsize : ∀ name ∈ names, getAttributeSize schema stats name = .ok (size name)) {d : Nat}
    (hd : names ≠ [] → d ≠ 0) (score : ℚ) :
    names.foldlM (addScore schema stats d) (some (score : WithTop ℚ))
      = Except.ok (some ((score + (names.map (countedShare size d)).sum : ℚ) : WithTop ℚ)) := by
  induction names generalizing score with
  | nil => simp
  | cons name names ih =>
      have hne : d ≠ 0 := hd (by simp)
      have hstep : addScore schema stats d (some (score : WithTop ℚ)) name
          = .ok (some ((score + countedShare size d name : ℚ) : WithTop ℚ)) := by
        rw [addScore, hsize name List.mem_cons_self, Except.ok_bind, share, if_neg hne]
        rfl
      rw [List.foldlM_cons, hstep, Except.ok_bind,
        ih (fun b hb => hsize b (List.mem_cons_of_mem _ hb)) fun _ => hne, List.map_cons,
        List.sum_cons, add_assoc]

/-- What the query still lacks of a part, for each byte of it, as they are counted. -/
theorem partScore_ok
    (hsize : ∀ name ∈ names, getAttributeSize schema stats name = .ok (size name))
    {queryNames selected : List Text}
    (hne : ∀ name ∈ names, name ∈ queryNames → (names.map size).sum % 2 ^ 64 ≠ 0) :
    EdgeIterator.partitionScore schema stats queryNames selected names
      = .ok (some (((wanted queryNames selected names).map
          (countedShare size ((names.map size).sum % 2 ^ 64))).sum : WithTop ℚ)) := by
  have hsub : ∀ name ∈ wanted queryNames selected names, name ∈ names ∧ name ∈ queryNames := by
    intro name hname
    rw [wanted, List.mem_filter, decide_eq_true_eq] at hname
    exact ⟨hname.1, hname.2.2⟩
  have hbytes : wanted queryNames selected names ≠ [] → (names.map size).sum % 2 ^ 64 ≠ 0 := by
    intro hsome
    obtain ⟨name, hname⟩ := List.exists_mem_of_ne_nil _ hsome
    exact hne name (hsub name hname).1 (hsub name hname).2
  have hwanted : ∀ name ∈ wanted queryNames selected names,
      getAttributeSize schema stats name = .ok (size name) :=
    fun name hname => hsize name (hsub name hname).1
  have hfold := foldlM_addScore hwanted hbytes 0
  rw [zero_add] at hfold
  rw [EdgeIterator.partitionScore, EdgeIterator.getPartitionSize,
    foldlM_attributeSize hsize (by norm_num), Except.ok_bind, Nat.zero_add]
  exact hfold

end Score

/-! ### The cost model -/

section Cost

/-- The average size of an attribute. -/
def averageSize (stats : SchemaStats) (attrb : AttributePtr) : ℚ :=
  match stats.getAvgSize attrb.index with
  | .ok size => size
  | .error _ => 0

/-- The statistics know every attribute of the partitions, and no size is negative. -/
def Measured (stats : SchemaStats) (partitions : List Partition) : Prop :=
  ∀ part ∈ partitions, ∀ attrb ∈ part.attributes,
    ∃ size, stats.getAvgSize attrb.index = .ok size ∧ 0 ≤ size

/-- The attributes of partition `i`. -/
def partSet (partitions : List Partition) (i : Nat) : Finset AttributePtr :=
  match partitions[i]? with
  | some part => part.attributes.toFinset
  | none => ∅

/-- The attributes that have to be covered. -/
def toCover (attributes : List AttributePtr) (query : QuerySummary) : Finset AttributePtr :=
  (effectiveAttributes attributes query).toFinset

section Charged

variable (fl : Rounding) (stats : SchemaStats)

/-- The bytes of a block with the attributes of a partition, with every result rounded. -/
def partitionBytes (part : Partition) : ℚ :=
  let attributesSize := part.attributes.foldl
    (fun total attrb => fl.round (total + fl.round (averageSize stats attrb))) 0
  fl.round (fl.round (24 * fl.round (16 + attributesSize)) + 96)

/-- What partition `i` is worth after the `used` ones: the bytes of `Q` it would add for each byte
of a block, attribute by attribute, with every result rounded. -/
def chargedScore (partitions : List Partition) (Q : Finset AttributePtr) (used : List Nat)
    (i : Nat) : ℚ :=
  match partitions[i]? with
  | none => 0
  | some part =>
      (part.attributes.filter fun attrb =>
        attrb ∉ covered (partSet partitions) used ∧ attrb ∈ Q).foldl
          (fun score attrb => fl.round (score + fl.round
            (fl.round (fl.round (averageSize stats attrb) * 24) / partitionBytes fl stats part))) 0

/-- The partition the cost model takes next. -/
def chargedNext (ω : SetOrder) (partitions : List Partition) (Q : Finset AttributePtr)
    (used : List Nat) : Option Nat :=
  bestOf (chargedScore fl stats partitions Q used) (ω.order (unused partitions.length used))

end Charged

/-- The attributes have been met by the partitions used so far. -/
structure Met (partitions : List Partition) (selected : List AttributePtr) (used : List Nat) :
    Prop where
  nodup : selected.Nodup
  toFinset : selected.toFinset = covered (partSet partitions) used

variable {stats : SchemaStats} {partitions : List Partition} {attributes : List AttributePtr}
  {query : QuerySummary}

theorem partSet_eq {i : Nat} {part : Partition} (hpart : partitions[i]? = some part) :
    partSet partitions i = part.attributes.toFinset := by
  rw [partSet, hpart]

theorem mem_partSet {i : Nat} {attrb : AttributePtr} :
    attrb ∈ partSet partitions i ↔ ∃ part, partitions[i]? = some part ∧ attrb ∈ part.attributes := by
  rw [partSet]
  cases partitions[i]? with
  | none => simp
  | some part => simp

theorem Measured.averageSize (h : Measured stats partitions) {i : Nat} {part : Partition}
    (hpart : partitions[i]? = some part) {attrb : AttributePtr} (hattrb : attrb ∈ part.attributes) :
    stats.getAvgSize attrb.index = .ok (averageSize stats attrb) := by
  obtain ⟨size, hsize, -⟩ := h part (List.mem_of_getElem? hpart) attrb hattrb
  rw [RailwayDB.averageSize, hsize]

theorem Measured.nonneg (h : Measured stats partitions) (i : Nat) :
    ∀ attrb ∈ partSet partitions i, 0 ≤ RailwayDB.averageSize stats attrb := by
  intro attrb hattrb
  obtain ⟨part, hpart, hmem⟩ := mem_partSet.mp hattrb
  obtain ⟨size, hsize, hnonneg⟩ := h part (List.mem_of_getElem? hpart) attrb hmem
  rw [RailwayDB.averageSize, hsize]
  exact hnonneg

/-- Going through attributes whose sizes are known. -/
theorem foldlM_avgSize {l : List AttributePtr}
    (hl : ∀ attrb ∈ l, stats.getAvgSize attrb.index = .ok (averageSize stats attrb))
    (f : ℚ → ℚ → ℚ) (total : ℚ) :
    l.foldlM (fun total attrb => do return f total (← stats.getAvgSize attrb.index)) total
      = Except.ok (l.foldl (fun total attrb => f total (averageSize stats attrb)) total) := by
  induction l generalizing total with
  | nil => rfl
  | cons attrb l ih =>
      rw [List.foldlM_cons, hl attrb List.mem_cons_self, Except.ok_bind, Except.pure_eq_ok,
        Except.ok_bind, ih fun b hb => hl b (List.mem_cons_of_mem _ hb), List.foldl_cons]

theorem foldl_add_map (l : List AttributePtr) (f : AttributePtr → ℚ) (total : ℚ) :
    l.foldl (fun total attrb => total + f attrb) total = total + (l.map f).sum := by
  induction l generalizing total with
  | nil => simp
  | cons attrb l ih => rw [List.foldl_cons, ih, List.map_cons, List.sum_cons, add_assoc]

theorem Measured.getPartitionSize (h : Measured stats partitions) {i : Nat} {part : Partition}
    (hpart : partitions[i]? = some part) :
    Cost.getPartitionSize stats part
      = .ok ((∑ attrb ∈ partSet partitions i, RailwayDB.averageSize stats attrb + 20) * 24) := by
  have hsizes : ∀ attrb ∈ part.attributes,
      stats.getAvgSize attrb.index = .ok (RailwayDB.averageSize stats attrb) :=
    fun attrb hattrb => h.averageSize hpart hattrb
  rw [Cost.getPartitionSize, attributesSize, foldlM_avgSize hsizes fun total size => total + size,
    foldl_add_map, Except.ok_bind, Except.pure_eq_ok, partSet_eq hpart,
    List.sum_toFinset _ part.nodup]
  congr 1
  simp only [SystemConstants.numberOfEdgesInABlock, SystemConstants.edgeIdSize,
    SystemConstants.timestampSize, SystemConstants.numberOfNeighborListsInABlock,
    SystemConstants.headVertexSize, SystemConstants.numEntriesSize]
  push_cast
  ring

/-! ##### Scores -/

section Scores

variable {fl : Rounding}

theorem foldl_nonneg {l : List AttributePtr} {f : ℚ → AttributePtr → ℚ}
    (hf : ∀ total attrb, attrb ∈ l → 0 ≤ total → 0 ≤ f total attrb) {total : ℚ} (h : 0 ≤ total) :
    0 ≤ l.foldl f total := by
  induction l generalizing total with
  | nil => exact h
  | cons attrb l ih =>
      exact ih (fun total b hb => hf total b (List.mem_cons_of_mem _ hb))
        (hf total attrb List.mem_cons_self h)

theorem Measured.partitionBytes_nonneg (h : Measured stats partitions) {i : Nat} {part : Partition}
    (hpart : partitions[i]? = some part) : 0 ≤ partitionBytes fl stats part := by
  have hattrs : (0 : ℚ) ≤ part.attributes.foldl
      (fun total attrb => fl.round (total + fl.round (RailwayDB.averageSize stats attrb))) 0 := by
    refine foldl_nonneg ?_ le_rfl
    intro total attrb hattrb htotal
    have hsize := h.nonneg i attrb (mem_partSet.mpr ⟨part, hpart, hattrb⟩)
    exact fl.nonneg _ (add_nonneg htotal (fl.nonneg _ hsize))
  refine fl.nonneg _ (add_nonneg (fl.nonneg _ (mul_nonneg (by norm_num) (fl.nonneg _ ?_)))
    (by norm_num))
  exact add_nonneg (by norm_num) hattrs

theorem Measured.chargedScore_nonneg (h : Measured stats partitions) (Q : Finset AttributePtr)
    (used : List Nat) (i : Nat) : 0 ≤ chargedScore fl stats partitions Q used i := by
  unfold chargedScore
  cases hpart : partitions[i]? with
  | none => exact le_rfl
  | some part =>
      refine foldl_nonneg ?_ le_rfl
      intro total attrb hattrb htotal
      have hsize := h.nonneg i attrb
        (mem_partSet.mpr ⟨part, hpart, (List.mem_filter.mp hattrb).1⟩)
      exact fl.nonneg _ (add_nonneg htotal (fl.nonneg _ (div_nonneg
        (fl.nonneg _ (mul_nonneg (fl.nonneg _ hsize) (by norm_num)))
        (h.partitionBytes_nonneg hpart))))

/-- Without rounding a partition is worth the bytes it adds for each byte of an edge, which takes
20 bytes besides its attributes. -/
theorem chargedScore_exact (Q : Finset AttributePtr) (used : List Nat) (i : Nat) :
    chargedScore .exact stats partitions Q used i
      = gain (partSet partitions) Q (averageSize stats) 20 used i := by
  unfold chargedScore gain
  cases hpart : partitions[i]? with
  | none =>
      have hnone : partSet partitions i = ∅ := by rw [partSet, hpart]
      simp [fresh, hnone]
  | some part =>
      have hfresh : fresh (partSet partitions) Q used i = (part.attributes.filter fun attrb =>
          attrb ∉ covered (partSet partitions) used ∧ attrb ∈ Q).toFinset := by
        ext attrb
        rw [fresh, partSet_eq hpart]
        simp only [List.mem_toFinset, List.mem_filter, decide_eq_true_eq, Finset.mem_sdiff,
          Finset.mem_inter]
        tauto
      have hbytes : partitionBytes .exact stats part
          = (∑ attrb ∈ partSet partitions i, averageSize stats attrb + 20) * 24 := by
        simp only [partitionBytes, Rounding.exact_round]
        rw [foldl_add_map, partSet_eq hpart, List.sum_toFinset _ part.nodup]
        ring
      simp only [Rounding.exact_round, hbytes]
      rw [foldl_add_map, hfresh, ← List.sum_toFinset _ (part.nodup.filter _), zero_add,
        Finset.sum_div]
      refine Finset.sum_congr rfl fun attrb _ => ?_
      exact mul_div_mul_right _ _ (by norm_num)

theorem chargedNext_exact (ω : SetOrder) (Q : Finset AttributePtr) :
    chargedNext .exact stats ω partitions Q
      = nextPart (partSet partitions) Q (averageSize stats) 20 ω partitions.length := by
  funext used
  rw [chargedNext, funext (chargedScore_exact Q used)]
  rfl

theorem Measured.getPartitionSizeIn (h : Measured stats partitions) {i : Nat} {part : Partition}
    (hpart : partitions[i]? = some part) :
    Cost.getPartitionSizeIn fl stats part = .ok (partitionBytes fl stats part) := by
  have hsizes : ∀ attrb ∈ part.attributes,
      stats.getAvgSize attrb.index = .ok (RailwayDB.averageSize stats attrb) :=
    fun attrb hattrb => h.averageSize hpart hattrb
  rw [Cost.getPartitionSizeIn,
    foldlM_avgSize hsizes fun total size => fl.round (total + fl.round size), Except.ok_bind,
    Except.pure_eq_ok, partitionBytes]
  congr 1
  norm_num [SystemConstants.numberOfEdgesInABlock, SystemConstants.edgeIdSize,
    SystemConstants.timestampSize, SystemConstants.numberOfNeighborListsInABlock,
    SystemConstants.headVertexSize, SystemConstants.numEntriesSize]

/-- What is still to be covered of a partition. -/
theorem Met.uncovered {selected : List AttributePtr} {used : List Nat}
    (hmet : Met partitions selected used) (part : Partition) :
    Cost.uncovered (effectiveAttributes attributes query) selected part
      = part.attributes.filter fun attrb =>
          attrb ∉ covered (partSet partitions) used ∧ attrb ∈ toCover attributes query := by
  refine List.filter_congr fun attrb _ => ?_
  simp only [← hmet.toFinset, toCover, List.mem_toFinset]

theorem Measured.partitionScore (h : Measured stats partitions) {selected : List AttributePtr}
    {used : List Nat} (hmet : Met partitions selected used) {i : Nat} {part : Partition}
    (hpart : partitions[i]? = some part) :
    Cost.partitionScore fl stats (effectiveAttributes attributes query) selected part
      = .ok (chargedScore fl stats partitions (toCover attributes query) used i) := by
  have hsizes : ∀ attrb ∈ Cost.uncovered (effectiveAttributes attributes query) selected part,
      stats.getAvgSize attrb.index = .ok (RailwayDB.averageSize stats attrb) :=
    fun attrb hattrb => h.averageSize hpart (List.mem_filter.mp hattrb).1
  rw [Cost.partitionScore, h.getPartitionSizeIn hpart, Except.ok_bind,
    foldlM_avgSize hsizes fun score size => fl.round (score + fl.round
      (fl.round (fl.round size * SystemConstants.numberOfEdgesInABlock)
        / partitionBytes fl stats part)), hmet.uncovered, chargedScore, hpart]
  rfl

theorem Measured.considerPartition (h : Measured stats partitions)
    {selected : List AttributePtr} {used : List Nat} (hmet : Met partitions selected used)
    {i : Nat} (hi : i < partitions.length) (best : Option Nat × ℚ) :
    Cost.considerPartition fl stats partitions (effectiveAttributes attributes query) selected
        best i
      = .ok (better (chargedScore fl stats partitions (toCover attributes query) used) best i) := by
  have hpart := List.getElem?_eq_getElem hi
  rw [Cost.considerPartition, partitionAt, hpart]
  simp only [Except.ok_bind, h.partitionScore hmet hpart, Except.pure_eq_ok, better]

end Scores

theorem met_nil : Met partitions [] [] := ⟨List.nodup_nil, rfl⟩

/-- After a round the attributes of the partition taken have been met. -/
theorem Met.append {selected : List AttributePtr} {used : List Nat}
    (hmet : Met partitions selected used) {i : Nat} {part : Partition}
    (hpart : partitions[i]? = some part) :
    Met partitions (selected ++ part.attributes.filter fun attrb => attrb ∉ selected)
      (used ++ [i]) := by
  refine ⟨?_, ?_⟩
  · refine List.nodup_append.mpr ⟨hmet.nodup, part.nodup.filter _, ?_⟩
    intro a ha b hb heq
    rw [heq] at ha
    simp only [List.mem_filter, decide_eq_true_eq] at hb
    exact hb.2 ha
  · rw [covered_append, ← hmet.toFinset, partSet_eq hpart]
    ext attrb
    simp only [List.mem_toFinset, List.mem_append, List.mem_filter, decide_eq_true_eq,
      Finset.mem_union]
    tauto

theorem Met.length_lt_iff {selected : List AttributePtr} {used : List Nat}
    (hmet : Met partitions selected used) :
    selected.length < (effectiveAttributes attributes query).length ↔
      ¬ (toCover attributes query).card ≤ (covered (partSet partitions) used).card := by
  have hnodup : (effectiveAttributes attributes query).Nodup := List.nodup_dedup _
  rw [← hmet.toFinset, List.toFinset_card_of_nodup hmet.nodup, toCover,
    List.toFinset_card_of_nodup hnodup, not_le]

/-- The cost model takes what is worth most and stops by the number of attributes met. -/
theorem Measured.usePartitionsIn (h : Measured stats partitions) (fl : Rounding) (ω : SetOrder)
    {fuel : Nat} {selected : List AttributePtr} {used l : List Nat}
    (hmet : Met partitions selected used)
    (hrun : run (chargedNext fl stats ω partitions (toCover attributes query))
      (fun used => (toCover attributes query).card ≤ (covered (partSet partitions) used).card)
        fuel used = some l) :
    Cost.usePartitions fl stats ω partitions (effectiveAttributes attributes query) fuel selected
      (unused partitions.length used) = .ok l := by
  induction l generalizing fuel selected used with
  | nil =>
      rcases of_run_eq hrun with ⟨hd, -⟩ | ⟨_, _, _, -, -, -, hl, -⟩
      · have hstop : ¬ selected.length < (effectiveAttributes attributes query).length :=
          fun hlt => hmet.length_lt_iff.mp hlt hd
        cases fuel <;> simp only [Cost.usePartitions, hstop, if_false]
      · simp at hl
  | cons i l ih =>
      rcases of_run_eq hrun with ⟨-, hl⟩ | ⟨fuel', j, rest, hfuel, hd, hi, hl, hrest⟩
      · simp at hl
      simp only [List.cons.injEq] at hl
      obtain ⟨rfl, rfl⟩ := hl
      have hpart := List.getElem?_eq_getElem
        (mem_of_bestOf (h.chargedScore_nonneg _ used) hi).1
      have hnext := ih (hmet.append hpart) hrest
      rw [unused_append] at hnext
      have hfold : (ω.order (unused partitions.length used)).foldlM
          (Cost.considerPartition fl stats partitions (effectiveAttributes attributes query)
            selected) (none, -1)
          = Except.ok ((ω.order (unused partitions.length used)).foldl
              (better (chargedScore fl stats partitions (toCover attributes query) used))
                (none, -1)) := by
        refine Except.foldlM_eq_ok id _ ?_ (none, -1)
        intro best j hj
        exact h.considerPartition hmet (mem_order_unused.mp hj).1 best
      have hbest : ((ω.order (unused partitions.length used)).foldl
          (better (chargedScore fl stats partitions (toCover attributes query) used))
            (none, -1)).1 = some i := hi
      rw [hfuel, Cost.usePartitions, if_pos (hmet.length_lt_iff.mpr hd), hfold, Except.ok_bind]
      simp only [hbest, partitionAt, hpart, Except.ok_bind, hnext, Except.pure_eq_ok]

/-- The same in exact arithmetic. -/
theorem Measured.usePartitions (h : Measured stats partitions) (ω : SetOrder) {l : List Nat}
    (hrun : run (nextPart (partSet partitions) (toCover attributes query)
        (RailwayDB.averageSize stats) 20 ω partitions.length)
      (fun used => (toCover attributes query).card ≤ (covered (partSet partitions) used).card)
        (partitions.length + 1) [] = some l) :
    getUsedPartitions stats ω partitions attributes query = .ok l := by
  have hrange : List.range partitions.length = unused partitions.length [] := by
    simp [unused]
  rw [← chargedNext_exact] at hrun
  rw [getUsedPartitions, getUsedPartitionsIn, hrange]
  exact h.usePartitionsIn .exact ω met_nil hrun

/-- In the greedy cover of `Q`, partitions that leave some of it out have fewer attributes than it
has. -/
def NeverFull (fl : Rounding) (stats : SchemaStats) (ω : SetOrder) (partitions : List Partition)
    (Q : Finset AttributePtr) : Prop :=
  ∀ used, Reached (chargedNext fl stats ω partitions Q)
      (fun used => Q ⊆ covered (partSet partitions) used) [] used →
    ¬ Q ⊆ covered (partSet partitions) used → (covered (partSet partitions) used).card < Q.card

theorem toCover_subset
    (h : ∀ attrb ∈ effectiveAttributes attributes query,
      ∃ part ∈ partitions, attrb ∈ part.attributes) :
    toCover attributes query ⊆ (Finset.range partitions.length).biUnion (partSet partitions) := by
  intro attrb hattrb
  obtain ⟨part, hpart, hmem⟩ := h attrb (List.mem_toFinset.mp hattrb)
  obtain ⟨i, hi⟩ := List.mem_iff_getElem?.mp hpart
  obtain ⟨hlt, -⟩ := List.getElem?_eq_some_iff.mp hi
  exact Finset.mem_biUnion.mpr ⟨i, Finset.mem_range.mpr hlt, mem_partSet.mpr ⟨part, hi, hmem⟩⟩

end Cost

/-! #### Three attributes -/

namespace Covering

/-- A text of 16 bytes on average and two numbers. -/
def textAndNumbers : List AttributePtr :=
  [{ name := [0x61], type := .string, index := 0 }, { name := [0x62], type := .int64, index := 1 },
    { name := [0x63], type := .int64, index := 2 }]

def textAndNumbersSize : Nat → Nat
  | 0 => 16
  | _ => 8

def textAndNumbersStats : SchemaStats :=
  ((SchemaStats.new.incrCountAndBytes 0 16).incrCountAndBytes 1 8).incrCountAndBytes 2 8

/-- The partition of the attributes at some positions. -/
def partitionAtPositions (positions : List Nat) : Partition :=
  Partition.ofAttributes (positions.filterMap fun a => textAndNumbers[a]?)

def inOrder : SetOrder := ⟨id, fun l => List.Perm.refl l⟩

/-- The text and the first number are asked for. -/
def asksFirstTwo : QuerySummary := ⟨textAndNumbers.take 2⟩

/-- The asked attributes in one partition. -/
def together : List Partition := [partitionAtPositions [0, 1], partitionAtPositions [2]]

/-- The text with the other number. -/
def crossed : List Partition := [partitionAtPositions [0, 2], partitionAtPositions [1]]

/-- What the cost model charges for. -/
def charged (partitions : List Partition) : Except Fault (List Nat) :=
  getUsedPartitions textAndNumbersStats inOrder partitions textAndNumbers asksFirstTwo

theorem getAvgSize_textAndNumbers (a : Nat) (ha : a < 3) :
    textAndNumbersStats.getAvgSize a = .ok (textAndNumbersSize a : ℚ) := by
  have hsizes : ∀ a < 3, (textAndNumbersStats.getAvgSize a).toOption.map id
      = some (textAndNumbersSize a : ℚ) := by
    decide +kernel
  obtain ⟨size, hok, heq⟩ := Except.of_toOption_map (hsizes a ha)
  rw [hok, ← heq]
  rfl

theorem textAndNumbers_measured {partitions : List Partition}
    (h : ∀ part ∈ partitions, ∀ attrb ∈ part.attributes, attrb.index < 3) :
    Measured textAndNumbersStats partitions := by
  intro part hpart attrb hattrb
  exact ⟨_, getAvgSize_textAndNumbers _ (h part hpart attrb hattrb), Nat.cast_nonneg _⟩

/-- Where two scores are the same rational, rounding may put the later one ahead: here both
partitions give 11/21 for a byte, and the second is then all that is charged for. -/
example :
    let all : List AttributePtr := [⟨⟨[0x61], .int64⟩, 0⟩, ⟨⟨[0x62], .int64⟩, 1⟩,
      ⟨⟨[0x64], .int64⟩, 2⟩, ⟨⟨[0x63], .int64⟩, 3⟩, ⟨⟨[0x65], .int64⟩, 4⟩]
    let stats := [(0, 4), (1, 18), (2, 44), (3, 8), (4, 12)].foldl
      (fun (stats : SchemaStats) s => stats.incrCountAndBytes s.1 s.2) SchemaStats.new
    let parts := [Partition.ofAttributes (all.take 2), Partition.ofAttributes (all.drop 2)]
    let used := fun fl => getUsedPartitionsIn fl stats inOrder parts all ⟨all.take 3⟩
    (used .exact).toOption = some [0, 1] ∧ (used .nearest).toOption = some [1] := by
  decide +kernel

end Covering

/-! ### The database

It goes by the names of the attributes. -/

section Reading

open HistoricalGraph HistoricalGraph.EdgeIterator

/-- The whole bytes of an attribute's average size. -/
def wholeBytes (schema : Schema) (stats : SchemaStats) (name : Text) : Nat :=
  match stats.getAvgSize (schema.names.idxOf name) with
  | .ok size => size.floor.toNat
  | .error _ => 0

/-- The parts are sets of attributes of the schema and contain those of the query, and an attribute
takes a byte or more on average. -/
structure Readable (schema : Schema) (stats : SchemaStats) (parting : RailwayDB.Partitioning)
    (query : List Text) : Prop where
  sets : ∀ part ∈ parting, part.Nodup
  distinct : query.Nodup
  drawn : ∀ part ∈ parting, ∀ name ∈ part, name ∈ schema.names
  covers : ∀ name ∈ query, ∃ part ∈ parting, name ∈ part
  sized : ∀ name ∈ schema.names,
    ∃ size, stats.getAvgSize (schema.names.idxOf name) = .ok size ∧ 1 ≤ size

/-- An attribute takes less than `2 ^ 64` bytes, and counted in 64 bits a part with a queried one
has some bytes and so have 24 edges with that attribute. -/
def Counted (schema : Schema) (stats : SchemaStats) (parting : RailwayDB.Partitioning)
    (query : List Text) : Prop :=
  ∀ part ∈ parting, (∀ name ∈ part, wholeBytes schema stats name < 2 ^ 64) ∧
    ∀ name ∈ part, name ∈ query → (part.map (wholeBytes schema stats)).sum % 2 ^ 64 ≠ 0 ∧
      wholeBytes schema stats name * 24 % 2 ^ 64 ≠ 0

/-- Every attribute of the schema takes a byte or more on average, and 24 edges with all of them take
less than `2 ^ 64` bytes. -/
structure Weighed (schema : Schema) (stats : SchemaStats) : Prop where
  sized : ∀ name ∈ schema.names,
    ∃ size, stats.getAvgSize (schema.names.idxOf name) = .ok size ∧ 1 ≤ size
  bounded : (schema.names.map (wholeBytes schema stats)).sum * 24 < 2 ^ 64

/-- What a choice of parts for a query has to be. -/
structure Chooses (parting : RailwayDB.Partitioning) (query : List Text) (l : List Nat) : Prop where
  lt : ∀ i ∈ l, i < parting.length
  nodup : l.Nodup
  adds : ∀ before i after, l = before ++ i :: after →
    ∃ name ∈ query, name ∈ parting.getD i [] ∧ ∀ j ∈ before, name ∉ parting.getD j []
  covers : ∀ name ∈ query, ∃ i ∈ l, name ∈ parting.getD i []

/-- The names in part `i`. -/
def nameSet (parting : RailwayDB.Partitioning) (i : Nat) : Finset Text := (parting.getD i []).toFinset

/-- The score of a part as it is counted. -/
def countedScore (size : Text → Nat) (parting : RailwayDB.Partitioning) (query : List Text)
    (used : List Nat) (i : Nat) : ℚ :=
  ∑ name ∈ fresh (nameSet parting) query.toFinset used i,
    countedShare size (((parting.getD i []).map size).sum % 2 ^ 64) name

/-- The part the database takes next. -/
def countedNext (size : Text → Nat) (ω : SetOrder) (parting : RailwayDB.Partitioning)
    (query : List Text) (used : List Nat) : Option Nat :=
  bestOf (countedScore size parting query used) (ω.order (unused parting.length used))

/-- What that would be without a limit to the bytes. -/
def readNext (size : Text → Nat) (ω : SetOrder) (parting : RailwayDB.Partitioning)
    (query : List Text) (used : List Nat) : Option Nat :=
  nextPart (nameSet parting) query.toFinset (fun name => (size name : ℚ)) 0 ω parting.length used

/-- The parts have scores. -/
structure Scored (schema : Schema) (stats : SchemaStats) (parting : RailwayDB.Partitioning)
    (query : List Text) (size : Text → Nat) : Prop where
  sets : ∀ part ∈ parting, part.Nodup
  sized : ∀ part ∈ parting, ∀ name ∈ part, getAttributeSize schema stats name = .ok (size name)
  sum_ne : ∀ part ∈ parting, ∀ name ∈ part, name ∈ query → (part.map size).sum % 2 ^ 64 ≠ 0

/-- The sizes of the attributes of the parts are counted exactly. -/
structure Exact (schema : Schema) (stats : SchemaStats) (parting : RailwayDB.Partitioning)
    (query : List Text) (size : Text → Nat) : Prop where
  sets : ∀ part ∈ parting, part.Nodup
  sized : ∀ part ∈ parting, ∀ name ∈ part,
    getAttributeSize schema stats name = .ok (size name) ∧ 0 < size name
  sum_lt : ∀ part ∈ parting, (part.map size).sum < 2 ^ 64
  asked_lt : ∀ part ∈ parting, ∀ name ∈ part, name ∈ query → size name * 24 < 2 ^ 64

/-- The queried names have been met in the parts used so far. -/
structure MetNames (parting : RailwayDB.Partitioning) (query selected : List Text)
    (used : List Nat) : Prop where
  nodup : selected.Nodup
  toFinset : selected.toFinset = query.toFinset ∩ covered (nameSet parting) used

variable {schema : Schema} {stats : SchemaStats} {parting : RailwayDB.Partitioning}
  {query selected : List Text} {size : Text → Nat} {used : List Nat} {i : Nat}

theorem mem_nameSet {name : Text} : name ∈ nameSet parting i ↔ name ∈ parting.getD i [] :=
  List.mem_toFinset

theorem partAt_ok (hi : i < parting.length) :
    partAt parting i = .ok (parting.getD i []) ∧ parting.getD i [] ∈ parting := by
  rw [partAt, List.getElem?_eq_getElem hi, List.getD_eq_getElem _ _ hi]
  exact ⟨rfl, List.getElem_mem hi⟩

theorem countedScore_nonneg (used : List Nat) (i : Nat) :
    0 ≤ countedScore size parting query used i :=
  Finset.sum_nonneg fun _ _ => div_nonneg (Nat.cast_nonneg _) (Nat.cast_nonneg _)

theorem MetNames.wanted (hmet : MetNames parting query selected used) :
    (wanted query selected (parting.getD i [])).toFinset
      = fresh (nameSet parting) query.toFinset used i := by
  ext name
  have hselected : name ∈ selected ↔ name ∈ query ∧ name ∈ covered (nameSet parting) used := by
    rw [← List.mem_toFinset, hmet.toFinset, Finset.mem_inter, List.mem_toFinset]
  simp only [EdgeIterator.wanted, List.mem_toFinset, List.mem_filter, decide_eq_true_eq, fresh,
    Finset.mem_sdiff, Finset.mem_inter, mem_nameSet, hselected]
  tauto

theorem Scored.partitionScore (h : Scored schema stats parting query size)
    (hmet : MetNames parting query selected used) (hi : i < parting.length) :
    EdgeIterator.partitionScore schema stats query selected (parting.getD i [])
      = .ok (some (countedScore size parting query used i : WithTop ℚ)) := by
  have hpart := (partAt_ok hi).2
  have hwanted : (EdgeIterator.wanted query selected (parting.getD i [])).Nodup :=
    (h.sets _ hpart).filter _
  rw [partScore_ok (h.sized _ hpart) (h.sum_ne _ hpart), countedScore, ← hmet.wanted,
    List.sum_toFinset _ hwanted]

/-- What the database keeps of the best part so far. -/
def bestState (n : Nat) (best : Option Nat × ℚ) : Nat × EdgeIterator.Score :=
  (best.1.getD n, some (best.2 : WithTop ℚ))

theorem better_coe (score best : ℚ) :
    EdgeIterator.better (some (score : WithTop ℚ)) (some (best : WithTop ℚ))
      = decide (best < score) := by
  simp only [EdgeIterator.better, WithTop.coe_lt_coe]

theorem Scored.considerPart (h : Scored schema stats parting query size)
    (hmet : MetNames parting query selected used) (hi : i < parting.length)
    (best : Option Nat × ℚ) :
    EdgeIterator.considerPart schema stats parting query selected (bestState parting.length best) i
      = .ok (bestState parting.length
          (Greedy.better (countedScore size parting query used) best i)) := by
  rw [EdgeIterator.considerPart, (partAt_ok hi).1, Except.ok_bind, h.partitionScore hmet hi,
    Except.ok_bind, Except.pure_eq_ok, Greedy.better]
  by_cases hlt : best.2 < countedScore size parting query used i
  · simp only [bestState, better_coe, hlt, decide_true, if_true, Option.getD_some]
  · simp only [bestState, better_coe, hlt, decide_false, if_false, Bool.false_eq_true]

/-- Going through the parts left. -/
theorem Scored.foldlM_considerPart (h : Scored schema stats parting query size) (ω : SetOrder)
    (hmet : MetNames parting query selected used)
    (hpick : countedNext size ω parting query used = some i) :
    ∃ score, (ω.order (unused parting.length used)).foldlM
        (EdgeIterator.considerPart schema stats parting query selected)
        (parting.length, some ((-1 : ℚ) : WithTop ℚ)) = Except.ok (i, score) := by
  have hfold := Except.foldlM_eq_ok (bestState parting.length)
    (ω.order (unused parting.length used))
    (fun best j hj => h.considerPart hmet (mem_order_unused.mp hj).1 best) (none, -1)
  rw [countedNext, bestOf] at hpick
  simp only [bestState, hpick, Option.getD_none, Option.getD_some] at hfold
  exact ⟨_, hfold⟩

theorem MetNames.append (hmet : MetNames parting query selected used)
    (hnodup : (parting.getD i []).Nodup) :
    MetNames parting query
      (selected ++ (EdgeIterator.wanted query selected (parting.getD i [])).dedup)
      (used ++ [i]) := by
  have hwanted : (EdgeIterator.wanted query selected (parting.getD i [])).Nodup := hnodup.filter _
  rw [hwanted.dedup]
  refine ⟨?_, ?_⟩
  · refine List.nodup_append.mpr ⟨hmet.nodup, hwanted, ?_⟩
    intro a ha b hb heq
    rw [heq] at ha
    simp only [EdgeIterator.wanted, List.mem_filter, decide_eq_true_eq] at hb
    exact hb.2.1 ha
  · rw [List.toFinset_append, hmet.wanted, hmet.toFinset, covered_append, fresh]
    ext name
    simp only [Finset.mem_union, Finset.mem_inter, Finset.mem_sdiff]
    tauto

theorem MetNames.length_eq_iff (hquery : query.Nodup)
    (hmet : MetNames parting query selected used) :
    selected.length = query.length ↔ query.toFinset ⊆ covered (nameSet parting) used := by
  rw [← List.toFinset_card_of_nodup hmet.nodup, ← List.toFinset_card_of_nodup hquery,
    hmet.toFinset, ← Finset.inter_eq_left]
  constructor
  · intro hcard
    exact Finset.eq_of_subset_of_card_le Finset.inter_subset_left hcard.ge
  · intro heq
    rw [heq]

theorem metNames_nil : MetNames parting query [] [] := by
  refine ⟨List.nodup_nil, ?_⟩
  simp [covered]

/-- The database takes what scores most and stops when the query is covered. -/
theorem Scored.selectParts (h : Scored schema stats parting query size) (hquery : query.Nodup)
    (ω : SetOrder) {fuel : Nat} {l : List Nat} (hmet : MetNames parting query selected used)
    (hrun : run (countedNext size ω parting query)
      (fun used => query.toFinset ⊆ covered (nameSet parting) used) fuel used = some l) :
    EdgeIterator.selectParts schema stats ω parting query fuel selected
      (unused parting.length used) = .ok l := by
  induction l generalizing fuel selected used with
  | nil =>
      rcases of_run_eq hrun with ⟨hd, -⟩ | ⟨_, _, _, -, -, -, hl, -⟩
      · have hlen := (hmet.length_eq_iff hquery).mpr hd
        cases fuel <;> simp only [EdgeIterator.selectParts, hlen, if_true]
      · simp at hl
  | cons i l ih =>
      rcases of_run_eq hrun with ⟨-, hl⟩ | ⟨fuel', j, rest, hfuel, hd, hi, hl, hrest⟩
      · simp at hl
      simp only [List.cons.injEq] at hl
      obtain ⟨rfl, rfl⟩ := hl
      have hgo : ¬ selected.length = query.length :=
        fun hlen => hd ((hmet.length_eq_iff hquery).mp hlen)
      obtain ⟨hpart, hmem⟩ := partAt_ok (mem_of_bestOf (countedScore_nonneg used) hi).1
      obtain ⟨score, hfold⟩ := h.foldlM_considerPart ω hmet hi
      have hnext := ih (hmet.append (h.sets _ hmem)) hrest
      rw [unused_append] at hnext
      rw [hfuel, EdgeIterator.selectParts, if_neg hgo, hfold, Except.ok_bind]
      simp only [hpart, Except.ok_bind, hnext, Except.pure_eq_ok]

theorem Readable.scored (h : Readable schema stats parting query)
    (hcounted : Counted schema stats parting query) :
    Scored schema stats parting query (wholeBytes schema stats) := by
  refine ⟨h.sets, ?_, fun part hpart name hname hasked =>
    ((hcounted part hpart).2 name hname hasked).1⟩
  intro part hpart name hname
  have hmem := h.drawn part hpart name hname
  obtain ⟨size, hsize, -⟩ := h.sized name hmem
  have hbytes : wholeBytes schema stats name = size.floor.toNat := by
    rw [wholeBytes, hsize]
  have hlt := (hcounted part hpart).1 name hname
  rw [getAttributeSize, Schema.getIndex, if_pos hmem, Except.ok_bind, hsize, Except.ok_bind,
    if_pos (by omega), hbytes]
  rfl

theorem Weighed.one_le (h : Weighed schema stats) {name : Text} (hname : name ∈ schema.names) :
    1 ≤ wholeBytes schema stats name := by
  obtain ⟨size, hsize, hone⟩ := h.sized name hname
  have hfloor : 1 ≤ size.floor := Int.le_floor.mpr (by exact_mod_cast hone)
  have hbytes : wholeBytes schema stats name = size.floor.toNat := by
    rw [wholeBytes, hsize]
  omega

/-- Nothing wraps around, whatever the parts are. -/
theorem Weighed.counted (h : Weighed schema stats) (hsets : ∀ part ∈ parting, part.Nodup)
    (hdrawn : ∀ part ∈ parting, ∀ name ∈ part, name ∈ schema.names) :
    Counted schema stats parting query := by
  intro part hpart
  have hle : (part.map (wholeBytes schema stats)).sum
      ≤ (schema.names.map (wholeBytes schema stats)).sum := by
    obtain ⟨l, hperm, hsub⟩ := (hsets part hpart).subperm (hdrawn part hpart)
    rw [← (hperm.map _).sum_eq]
    exact (hsub.map _).sum_le_sum fun _ _ => Nat.zero_le _
  have hmem : ∀ name ∈ part,
      wholeBytes schema stats name ≤ (part.map (wholeBytes schema stats)).sum := fun name hname =>
    List.single_le_sum (fun _ _ => Nat.zero_le _) _ (List.mem_map_of_mem hname)
  have hbounded := h.bounded
  refine ⟨fun name hname => ?_, fun name hname _ => ?_⟩
  · have := hmem name hname
    omega
  · have := hmem name hname
    have := h.one_le (hdrawn part hpart name hname)
    rw [Nat.mod_eq_of_lt (by omega), Nat.mod_eq_of_lt (by omega)]
    omega

/-- A part has a score exactly when it adds something. -/
theorem Counted.score_pos_iff (hcounted : Counted schema stats parting query)
    (hi : i < parting.length) :
    0 < countedScore (wholeBytes schema stats) parting query used i ↔
      (fresh (nameSet parting) query.toFinset used i).Nonempty := by
  refine ⟨?_, ?_⟩
  · intro hpos
    by_contra hnone
    rw [Finset.not_nonempty_iff_eq_empty] at hnone
    rw [countedScore, hnone, Finset.sum_empty] at hpos
    exact absurd hpos (lt_irrefl 0)
  · intro hsome
    refine Finset.sum_pos ?_ hsome
    intro name hname
    simp only [fresh, Finset.mem_sdiff, Finset.mem_inter, mem_nameSet, List.mem_toFinset] at hname
    obtain ⟨hsum, hshare⟩ := (hcounted _ (partAt_ok hi).2).2 name hname.1.1 hname.1.2
    exact div_pos (Nat.cast_pos.mpr (Nat.pos_of_ne_zero hshare))
      (Nat.cast_pos.mpr (Nat.pos_of_ne_zero hsum))

/-- The query is covered, each part adding to it, as long as no bytes are counted as none. -/
theorem recomputePartitionIndices_chooses (h : Readable schema stats parting query)
    (hcounted : Counted schema stats parting query) (ω : SetOrder) :
    ∃ l, recomputePartitionIndices schema stats ω parting query = .ok l ∧
      Chooses parting query l := by
  have hsub : query.toFinset ⊆ (Finset.range parting.length).biUnion (nameSet parting) := by
    intro name hname
    obtain ⟨part, hpart, hmem⟩ := h.covers name (List.mem_toFinset.mp hname)
    obtain ⟨i, hi, hget⟩ := List.getElem_of_mem hpart
    refine Finset.mem_biUnion.mpr ⟨i, Finset.mem_range.mpr hi, mem_nameSet.mpr ?_⟩
    rw [List.getD_eq_getElem _ _ hi, hget]
    exact hmem
  have hnonneg : ∀ used i, 0 ≤ countedScore (wholeBytes schema stats) parting query used i :=
    countedScore_nonneg
  obtain ⟨l, hrun, hnodup, hlt⟩ := exists_run_bestOf ω hnonneg hsub
    (fun used => query.toFinset ⊆ covered (nameSet parting) used) fun used h => h
  have hrange : List.range parting.length = unused parting.length [] := by
    simp [unused]
  refine ⟨l, ?_, hlt, hnodup, ?_, ?_⟩
  · rw [recomputePartitionIndices, hrange]
    exact (h.scored hcounted).selectParts h.distinct ω metNames_nil hrun
  · intro before i after hsplit
    rw [hsplit] at hrun
    obtain ⟨hmissing, hpick⟩ := pick_of_run hrun
    rw [List.nil_append] at hmissing hpick
    obtain ⟨name, hname⟩ := fresh_of_bestOf (hnonneg before) (fun i hi => hcounted.score_pos_iff hi)
      hsub hmissing hpick
    simp only [fresh, covered, Finset.mem_sdiff, Finset.mem_inter, mem_nameSet, List.mem_toFinset,
      Finset.mem_biUnion, not_exists, not_and] at hname
    exact ⟨name, hname.1.2, hname.1.1, hname.2⟩
  · intro name hname
    have hcovered := done_of_run hrun (List.mem_toFinset.mpr hname)
    simp only [List.nil_append, covered, Finset.mem_biUnion, List.mem_toFinset,
      mem_nameSet] at hcovered
    exact hcovered

/-! #### Exact counts -/

theorem Exact.scored (h : Exact schema stats parting query size) :
    Scored schema stats parting query size := by
  refine ⟨h.sets, fun part hpart name hname => (h.sized part hpart name hname).1, ?_⟩
  intro part hpart name hname _
  have hle := List.single_le_sum (fun _ _ => Nat.zero_le _) _
    (List.mem_map_of_mem (f := size) hname)
  have hpos := (h.sized part hpart name hname).2
  rw [Nat.mod_eq_of_lt (h.sum_lt part hpart)]
  omega

/-- Then the score of a part is what it is worth for 24 edges. -/
theorem Exact.countedScore_eq (h : Exact schema stats parting query size)
    (hi : i < parting.length) : countedScore size parting query used i
      = gain (nameSet parting) query.toFinset (fun name => (size name : ℚ)) 0 used i * 24 := by
  have hpart := (partAt_ok hi).2
  have hshare : ∀ name ∈ fresh (nameSet parting) query.toFinset used i,
      countedShare size (((parting.getD i []).map size).sum % 2 ^ 64) name
        = (size name : ℚ) * (24 / ((parting.getD i []).map size).sum) := by
    intro name hname
    simp only [fresh, Finset.mem_sdiff, Finset.mem_inter, mem_nameSet, List.mem_toFinset] at hname
    rw [countedShare, Nat.mod_eq_of_lt (h.sum_lt _ hpart),
      Nat.mod_eq_of_lt (h.asked_lt _ hpart name hname.1.1 hname.1.2)]
    push_cast
    ring
  have hsum : ∑ name ∈ nameSet parting i, (size name : ℚ) = ((parting.getD i []).map size).sum := by
    rw [nameSet, List.sum_toFinset _ (h.sets _ hpart), Nat.cast_list_sum, List.map_map]
    rfl
  rw [countedScore, Finset.sum_congr rfl hshare, ← Finset.sum_mul, gain, add_zero, hsum]
  ring

theorem Exact.countedNext_eq (h : Exact schema stats parting query size) (ω : SetOrder) :
    countedNext size ω parting query used = readNext size ω parting query used := by
  have hnonneg : ∀ i, ∀ name ∈ nameSet parting i, 0 ≤ (size name : ℚ) :=
    fun _ _ _ => Nat.cast_nonneg _
  ext i
  rw [countedNext, bestOf_eq_some_iff fun j _ => countedScore_nonneg used j, readNext,
    nextPart_eq_some hnonneg le_rfl]
  exact (leads_congr fun j hj => h.countedScore_eq (mem_order_unused.mp hj).1).trans
    (leads_mul_iff (by norm_num))

theorem Exact.selectParts (h : Exact schema stats parting query size) (hquery : query.Nodup)
    (ω : SetOrder) {fuel : Nat} {l : List Nat} (hmet : MetNames parting query selected used)
    (hrun : run (readNext size ω parting query)
      (fun used => query.toFinset ⊆ covered (nameSet parting) used) fuel used = some l) :
    EdgeIterator.selectParts schema stats ω parting query fuel selected
      (unused parting.length used) = .ok l := by
  have hnext : readNext size ω parting query = countedNext size ω parting query :=
    funext fun used => (h.countedNext_eq ω).symm
  rw [hnext] at hrun
  exact h.scored.selectParts hquery ω hmet hrun

end Reading

/-! #### Two attributes -/

namespace Reading

open HistoricalGraph.EdgeIterator

def twoTexts : Schema := ⟨[⟨[0x61], .string⟩, ⟨[0x62], .string⟩]⟩

/-- The average sizes of the two. -/
def twoSizes (first second : ℚ) : SchemaStats :=
  (SchemaStats.new.incrCountAndBytes 0 first).incrCountAndBytes 1 second

/-- The second attribute first. -/
def apart : RailwayDB.Partitioning := [[[0x62]], [[0x61]]]

/-- What is asked for is the first. -/
def asksFirst : List Text := [[0x61]]

theorem apart_readable {first second : ℚ}
    (hfirst : (twoSizes first second).getAvgSize 0 = .ok first) (hone : 1 ≤ first)
    (hsecond : (twoSizes first second).getAvgSize 1 = .ok second) (hone' : 1 ≤ second) :
    Readable twoTexts (twoSizes first second) apart asksFirst := by
  refine ⟨by decide, by decide, by decide, by decide, ?_⟩
  intro name hname
  rcases (by simpa [twoTexts, Schema.names] using hname : name = [0x61] ∨ name = [0x62])
    with heq | heq
  · rw [heq]
    exact ⟨first, hfirst, hone⟩
  · rw [heq]
    exact ⟨second, hsecond, hone'⟩

/-- 24 times `2 ^ 60` bytes are `2 ^ 63` in 64 bits, and only the part of the attribute asked for is
taken. -/
theorem recomputePartitionIndices_chooses_apart :
    Counted twoTexts (twoSizes (2 ^ 60) 8) apart asksFirst ∧
      ∃ l, recomputePartitionIndices twoTexts (twoSizes (2 ^ 60) 8) Covering.inOrder apart asksFirst
        = .ok l ∧ Chooses apart asksFirst l := by
  have hcounted : Counted twoTexts (twoSizes (2 ^ 60) 8) apart asksFirst := by
    rw [Counted]
    decide +kernel
  have hsizes : ((twoSizes (2 ^ 60) 8).getAvgSize 0).toOption = some (2 ^ 60) ∧
      ((twoSizes (2 ^ 60) 8).getAvgSize 1).toOption = some 8 := by
    decide +kernel
  exact ⟨hcounted, recomputePartitionIndices_chooses
    (apart_readable (Except.of_toOption hsizes.1) (by norm_num) (Except.of_toOption hsizes.2)
      (by norm_num)) hcounted Covering.inOrder⟩

/-- 24 times `2 ^ 61` bytes are none in 64 bits, so a part that is first and of no use is taken. -/
theorem recomputePartitionIndices_takes_useless :
    Readable twoTexts (twoSizes (2 ^ 61) 8) apart asksFirst ∧
      ∃ l, recomputePartitionIndices twoTexts (twoSizes (2 ^ 61) 8) Covering.inOrder apart asksFirst
        = .ok l ∧ ¬ Chooses apart asksFirst l := by
  have hsizes : ((twoSizes (2 ^ 61) 8).getAvgSize 0).toOption = some (2 ^ 61) ∧
      ((twoSizes (2 ^ 61) 8).getAvgSize 1).toOption = some 8 := by
    decide +kernel
  have hindices : (recomputePartitionIndices twoTexts (twoSizes (2 ^ 61) 8) Covering.inOrder apart
      asksFirst).toOption = some [0, 1] := by
    decide +kernel
  refine ⟨apart_readable (Except.of_toOption hsizes.1) (by norm_num) (Except.of_toOption hsizes.2)
    (by norm_num), [0, 1], Except.of_toOption hindices, ?_⟩
  intro hchooses
  obtain ⟨name, hname, hpart, -⟩ := hchooses.adds [] 0 [1] rfl
  rw [List.mem_singleton.mp hname] at hpart
  exact absurd hpart (by decide)

end Reading

end RailwayDB
