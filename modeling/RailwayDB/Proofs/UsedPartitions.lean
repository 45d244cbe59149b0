/-
The partitions the cost model charges a query for, against those the database reads.

Both go through the partitions greedily, round by round: what counts for a partition
is the bytes of the queried attributes it would add, against its size.  They differ
in two places.  The cost model counts the ids and times of a block in the size, 20
bytes for each edge, and the database does not; and the cost model stops as soon as
it has met as many attributes as the query has, whether or not they are the query's.
As long as neither matters, both take the same partitions.
-/
import RailwayDB.Proofs.Cost
import RailwayDB.Proofs.QueryCover
import Mathlib.Algebra.BigOperators.Fin
import Mathlib.Tactic.FieldSimp

namespace RailwayDB

open Common Common.Cost Greedy

/-! ### Rounds -/

section Rounds

variable (parts : Nat → Finset Nat) (size : Nat → Nat) (Q : Finset Nat)

def bytes (s : Finset Nat) : Nat := ∑ a ∈ s, size a

/-- Queried bytes for each byte of attributes. -/
def readRate (used : List Nat) (i : Nat) : ℚ :=
  bytes size (fresh parts Q used i) / bytes size (parts i)

/-- Queried bytes for each byte, with the 20 bytes an edge takes besides its attributes. -/
def costRate (used : List Nat) (i : Nat) : ℚ :=
  bytes size (fresh parts Q used i) / (bytes size (parts i) + 20)

/-- The rounds of the database: each takes the partition with the best `readRate`. -/
inductive Rounds (ω : SetOrder) (n : Nat) : List Nat → Prop
  | start : Rounds ω n []
  | next {used : List Nat} {i : Nat} : Rounds ω n used → ¬ Q ⊆ covered parts used →
      Leads (readRate parts size Q used) (ω.order (unused n used)) i → Rounds ω n (used ++ [i])

/-- In every round before the query is covered, fewer attributes have been met than the query has,
and the partition taken stays ahead when the other 20 bytes of an edge are counted. -/
def Harmless (ω : SetOrder) (n : Nat) : Prop :=
  ∀ used, Rounds parts size Q ω n used → ¬ Q ⊆ covered parts used →
    (covered parts used).card < Q.card ∧
      ∀ i, Leads (readRate parts size Q used) (ω.order (unused n used)) i →
        Leads (costRate parts size Q used) (ω.order (unused n used)) i

/-- What the database takes next. -/
def readPick (ω : SetOrder) (n : Nat) (used : List Nat) : Option Nat :=
  bestOf (readRate parts size Q used) (ω.order (unused n used))

/-- What the cost model takes next. -/
def costPick (ω : SetOrder) (n : Nat) (used : List Nat) : Option Nat :=
  bestOf (costRate parts size Q used) (ω.order (unused n used))

variable {parts size Q} {ω : SetOrder} {n : Nat}

theorem readRate_nonneg (used : List Nat) (i : Nat) : 0 ≤ readRate parts size Q used i :=
  div_nonneg (Nat.cast_nonneg _) (Nat.cast_nonneg _)

theorem costRate_nonneg (used : List Nat) (i : Nat) : 0 ≤ costRate parts size Q used i :=
  div_nonneg (Nat.cast_nonneg _) (add_nonneg (Nat.cast_nonneg _) (by norm_num))

theorem readPick_eq_some {used : List Nat} {i : Nat} :
    readPick parts size Q ω n used = some i ↔
      Leads (readRate parts size Q used) (ω.order (unused n used)) i :=
  bestOf_eq_some_iff fun j _ => readRate_nonneg used j

theorem costPick_eq_some {used : List Nat} {i : Nat} :
    costPick parts size Q ω n used = some i ↔
      Leads (costRate parts size Q used) (ω.order (unused n used)) i :=
  bestOf_eq_some_iff fun j _ => costRate_nonneg used j

theorem rounds_iff_reached {used : List Nat} :
    Rounds parts size Q ω n used ↔
      Reached (readPick parts size Q ω n) (fun used => Q ⊆ covered parts used) [] used := by
  constructor
  · intro h
    induction h with
    | start => exact .start
    | next _ hnot hleads ih => exact .round ih hnot (readPick_eq_some.mpr hleads)
  · intro h
    induction h with
    | start => exact .start
    | round _ hnot hpick ih => exact .next ih hnot (readPick_eq_some.mp hpick)

/-- The condition says that the two loops agree round by round. -/
theorem harmless_iff (hcover : Q ⊆ (Finset.range n).biUnion parts) :
    Harmless parts size Q ω n ↔ ∀ used,
      Reached (readPick parts size Q ω n) (fun used => Q ⊆ covered parts used) [] used →
        Agree (readPick parts size Q ω n) (fun used => Q ⊆ covered parts used)
          (costPick parts size Q ω n) (fun used => Q.card ≤ (covered parts used).card) used := by
  refine forall_congr' fun used => ?_
  rw [← rounds_iff_reached]
  refine imp_congr_right fun _ => ?_
  by_cases hd : Q ⊆ covered parts used
  · simp [Agree, hd, Finset.card_le_card hd]
  · obtain ⟨i, hi, -⟩ := exists_bestOf (ω := ω) (readRate_nonneg used) hcover hd
    have hread : readPick parts size Q ω n used = some i := hi
    have hleads := readPick_eq_some.mp hread
    simp only [Agree, hd, not_false_eq_true, forall_true_left, iff_false, not_le, hread]
    refine and_congr_right fun _ => ?_
    rw [costPick_eq_some]
    constructor
    · intro h
      exact h i hleads
    · intro h j hj
      rw [← hleads.unique hj]
      exact h

end Rounds

/-! ### Partitions as sets of indices -/

/-- What is known of the schema, the partitions and the query. -/
structure Covering (schema : Schema) (all : List AttributePtr) (stats : SchemaStats)
    (size : Nat → Nat) (partitions : List Partition) (query : QuerySummary) : Prop where
  sized : Sized all stats fun a => size a
  positive : ∀ a < all.length, 0 < size a
  ofSchema : schema.attributes = all.map (·.toAttribute)
  names : schema.names.Nodup
  drawn : ∀ part ∈ partitions, ∀ attrb ∈ part.attributes, attrb ∈ all
  covers : ∀ attrb ∈ all, ∃ part ∈ partitions, attrb ∈ part.attributes
  queried : ∀ attrb ∈ query.attributes, attrb ∈ all

/-- The indices of the attributes of partition `i`. -/
def partOf (partitions : List Partition) (i : Nat) : Finset Nat :=
  match partitions[i]? with
  | some part => (indices part.attributes).toFinset
  | none => ∅

/-- The indices of the attributes the query asks for. -/
def asked (query : QuerySummary) : Finset Nat := (indices query.attributes).toFinset

/-- The numbers the database computes with have 64 bits. -/
def Fits (size : Nat → Nat) (partitions : List Partition) : Prop :=
  ∀ i < partitions.length, bytes size (partOf partitions i) * 24 < 2 ^ 64

namespace Covering

variable {schema : Schema} {all : List AttributePtr} {stats : SchemaStats} {size : Nat → Nat}
  {partitions : List Partition} {query : QuerySummary}

theorem get_index (h : Covering schema all stats size partitions query) {attrb : AttributePtr}
    (hattrb : attrb ∈ all) : all[attrb.index]? = some attrb :=
  h.sized.indices_attributes.1 attrb hattrb

theorem index_inj (h : Covering schema all stats size partitions query)
    {attrb attrb' : AttributePtr} (hattrb : attrb ∈ all) (hattrb' : attrb' ∈ all)
    (heq : attrb.index = attrb'.index) : attrb = attrb' := by
  have hget := h.get_index hattrb
  rw [heq, h.get_index hattrb', Option.some.injEq] at hget
  exact hget.symm

theorem names_eq (h : Covering schema all stats size partitions query) :
    schema.names = all.map (·.name) := by
  rw [Schema.names, h.ofSchema, List.map_map]
  rfl

theorem name_inj (h : Covering schema all stats size partitions query)
    {attrb attrb' : AttributePtr} (hattrb : attrb ∈ all) (hattrb' : attrb' ∈ all)
    (heq : attrb.name = attrb'.name) : attrb = attrb' := by
  have hnodup := h.names
  rw [h.names_eq] at hnodup
  exact List.inj_on_of_nodup_map hnodup hattrb hattrb' heq

theorem idxOf_name (h : Covering schema all stats size partitions query) {attrb : AttributePtr}
    (hattrb : attrb ∈ all) :
    attrb.name ∈ schema.names ∧ schema.names.idxOf attrb.name = attrb.index := by
  have hnodup := h.names
  obtain ⟨hlt, hget⟩ := List.getElem?_eq_some_iff.mp (h.get_index hattrb)
  rw [h.names_eq] at hnodup ⊢
  refine ⟨List.mem_map_of_mem hattrb, ?_⟩
  have hidx := hnodup.idxOf_getElem attrb.index (by rwa [List.length_map])
  rwa [List.getElem_map, hget] at hidx

theorem index_lt (h : Covering schema all stats size partitions query) {attrb : AttributePtr}
    (hattrb : attrb ∈ all) : attrb.index < all.length :=
  (List.getElem?_eq_some_iff.mp (h.get_index hattrb)).1

/-! #### Indices and names stand for attributes -/

theorem partSet_mem (h : Covering schema all stats size partitions query) (i : Nat) :
    ∀ attrb ∈ partSet partitions i, attrb ∈ all := by
  intro attrb hattrb
  obtain ⟨part, hpart, hmem⟩ := mem_partSet.mp hattrb
  exact h.drawn part (List.mem_of_getElem? hpart) attrb hmem

theorem mem_toCover (h : Covering schema all stats size partitions query) {attrb : AttributePtr} :
    attrb ∈ toCover all query ↔ attrb ∈ query.attributes := by
  simp only [toCover, effectiveAttributes, List.mem_toFinset, List.mem_dedup, List.mem_filter,
    decide_eq_true_eq]
  exact ⟨fun hmem => hmem.1, fun hmem => ⟨hmem, h.queried attrb hmem⟩⟩

theorem toCover_mem (h : Covering schema all stats size partitions query) :
    ∀ attrb ∈ toCover all query, attrb ∈ all :=
  fun attrb hattrb => h.queried attrb (h.mem_toCover.mp hattrb)

theorem partOf_eq (i : Nat) : partOf partitions i = (partSet partitions i).image (·.index) := by
  rw [partOf, partSet]
  cases partitions[i]? with
  | none => rfl
  | some part =>
      ext a
      simp [indices]

theorem asked_eq (h : Covering schema all stats size partitions query) :
    asked query = (toCover all query).image (·.index) := by
  ext a
  simp [asked, indices, h.mem_toCover]

theorem nameSet_eq (i : Nat) :
    nameSet (Partitioning.toStringSet ⟨partitions⟩) i = (partSet partitions i).image (·.name) := by
  rw [nameSet, partSet, Partitioning.toStringSet, List.getD_eq_getElem?_getD, List.getElem?_map]
  cases partitions[i]? with
  | none => rfl
  | some part =>
      ext name
      simp

theorem queryNames_eq (h : Covering schema all stats size partitions query) :
    (query.attributes.map (·.name)).dedup.toFinset = (toCover all query).image (·.name) := by
  ext name
  simp [h.mem_toCover]

theorem averageSize_eq (h : Covering schema all stats size partitions query)
    {attrb : AttributePtr} (hattrb : attrb ∈ all) : averageSize stats attrb = size attrb.index := by
  rw [averageSize, h.sized.avgSize _ (h.index_lt hattrb)]

/-- The size of the attribute with a name. -/
def nameSize (schema : Schema) (size : Nat → Nat) (name : Text) : Nat :=
  size (schema.names.idxOf name)

theorem injOn_index (h : Covering schema all stats size partitions query) :
    Set.InjOn (fun attrb : AttributePtr => attrb.index) { attrb | attrb ∈ all } :=
  fun _ ha _ hb heq => h.index_inj ha hb heq

theorem injOn_name (h : Covering schema all stats size partitions query) :
    Set.InjOn (fun attrb : AttributePtr => attrb.name) { attrb | attrb ∈ all } :=
  fun _ ha _ hb heq => h.name_inj ha hb heq

theorem bytes_eq (S : Finset Nat) : (bytes size S : ℚ) = ∑ a ∈ S, (size a : ℚ) := by
  rw [bytes, Nat.cast_sum]

theorem costRate_eq (h : Covering schema all stats size partitions query) (used : List Nat)
    (i : Nat) :
    costRate (partOf partitions) size (asked query) used i
      = gain (partSet partitions) (toCover all query) (averageSize stats) 20 used i := by
  rw [costRate, bytes_eq, bytes_eq]
  exact gain_image h.injOn_index h.partSet_mem h.toCover_mem partOf_eq h.asked_eq
    (fun attrb hattrb => (h.averageSize_eq hattrb).symm) 20 used i

theorem readRate_eq (h : Covering schema all stats size partitions query) (used : List Nat)
    (i : Nat) :
    readRate (partOf partitions) size (asked query) used i
      = gain (nameSet (Partitioning.toStringSet ⟨partitions⟩))
          (query.attributes.map (·.name)).dedup.toFinset
          (fun name => (nameSize schema size name : ℚ)) 0 used i := by
  have hindex : gain (partOf partitions) (asked query) (fun a => (size a : ℚ)) 0 used i
      = gain (partSet partitions) (toCover all query)
          (fun attrb => (size attrb.index : ℚ)) 0 used i :=
    gain_image h.injOn_index h.partSet_mem h.toCover_mem partOf_eq h.asked_eq
      (fun _ _ => rfl) 0 used i
  have hname : gain (nameSet (Partitioning.toStringSet ⟨partitions⟩))
        (query.attributes.map (·.name)).dedup.toFinset
        (fun name => (nameSize schema size name : ℚ)) 0 used i
      = gain (partSet partitions) (toCover all query)
          (fun attrb => (size attrb.index : ℚ)) 0 used i := by
    refine gain_image h.injOn_name h.partSet_mem h.toCover_mem nameSet_eq h.queryNames_eq ?_ 0 used i
    intro attrb hattrb
    show (nameSize schema size attrb.name : ℚ) = size attrb.index
    rw [nameSize, (h.idxOf_name hattrb).2]
  rw [hname, ← hindex, readRate, bytes_eq, bytes_eq, gain, add_zero]

theorem costPick_eq (h : Covering schema all stats size partitions query) (ω : SetOrder) :
    costPick (partOf partitions) size (asked query) ω partitions.length
      = nextPart (partSet partitions) (toCover all query) (averageSize stats) 20 ω
          partitions.length := by
  funext used
  rw [costPick, funext (h.costRate_eq used)]
  rfl

theorem length_toStringSet :
    (Partitioning.toStringSet ⟨partitions⟩).length = partitions.length := by
  simp [Partitioning.toStringSet]

theorem readPick_eq (h : Covering schema all stats size partitions query) (ω : SetOrder) :
    readPick (partOf partitions) size (asked query) ω partitions.length
      = readNext (nameSize schema size) ω (Partitioning.toStringSet ⟨partitions⟩)
          (query.attributes.map (·.name)).dedup := by
  funext used
  rw [readPick, funext (h.readRate_eq used), readNext, nextPart, length_toStringSet]

theorem asked_subset (h : Covering schema all stats size partitions query) :
    asked query ⊆ (Finset.range partitions.length).biUnion (partOf partitions) := by
  intro a ha
  rw [h.asked_eq] at ha
  obtain ⟨attrb, hattrb, hindex⟩ := Finset.mem_image.mp ha
  obtain ⟨part, hpart, hmem⟩ := h.covers attrb (h.toCover_mem attrb hattrb)
  obtain ⟨i, hi⟩ := List.mem_iff_getElem?.mp hpart
  obtain ⟨hlt, -⟩ := List.getElem?_eq_some_iff.mp hi
  refine Finset.mem_biUnion.mpr ⟨i, Finset.mem_range.mpr hlt, ?_⟩
  rw [partOf_eq, ← hindex]
  exact Finset.mem_image_of_mem _ (mem_partSet.mpr ⟨part, hi, hmem⟩)

/-! #### What the general loops need -/

theorem measured (h : Covering schema all stats size partitions query) :
    Measured stats partitions := by
  intro part hpart attrb hattrb
  exact ⟨_, h.sized.avgSize _ (h.index_lt (h.drawn part hpart attrb hattrb)), Nat.cast_nonneg _⟩

theorem bytes_part (h : Covering schema all stats size partitions query) {i : Nat}
    {part : Partition} (hpart : partitions[i]? = some part) :
    ((part.attributes.map (·.name)).dedup.map (nameSize schema size)).sum
      = bytes size (partOf partitions i) := by
  have hset : nameSet (Partitioning.toStringSet ⟨partitions⟩) i
      = (partSet partitions i).image (·.name) := nameSet_eq i
  have hdrawn := h.partSet_mem i
  rw [nameSet, Partitioning.toStringSet, List.getD_eq_getElem?_getD, List.getElem?_map, hpart,
    Option.map_some, Option.getD_some] at hset
  rw [← List.sum_toFinset _ (List.nodup_dedup _), hset, bytes, partOf_eq,
    Finset.sum_image (h.injOn_name.mono hdrawn), Finset.sum_image (h.injOn_index.mono hdrawn)]
  refine Finset.sum_congr rfl fun attrb hattrb => ?_
  rw [nameSize, (h.idxOf_name (hdrawn attrb hattrb)).2]

theorem exact (h : Covering schema all stats size partitions query)
    (hfits : Fits size partitions) :
    Exact schema stats (Partitioning.toStringSet ⟨partitions⟩)
      (query.attributes.map (·.name)).dedup (nameSize schema size) := by
  have hparts : ∀ part ∈ Partitioning.toStringSet ⟨partitions⟩,
      (part.map (nameSize schema size)).sum * 24 < 2 ^ 64 ∧
        ∀ name ∈ part, ∃ attrb ∈ all, attrb.name = name := by
    intro names hnames
    obtain ⟨part, hpart, rfl⟩ := List.mem_map.mp hnames
    obtain ⟨i, hi⟩ := List.mem_iff_getElem?.mp hpart
    obtain ⟨hlt, -⟩ := List.getElem?_eq_some_iff.mp hi
    rw [h.bytes_part hi]
    refine ⟨hfits i hlt, ?_⟩
    intro name hname
    obtain ⟨attrb, hattrb, heq⟩ := List.mem_map.mp (List.mem_dedup.mp hname)
    exact ⟨attrb, h.drawn part hpart attrb hattrb, heq⟩
  have hlt : ∀ part ∈ Partitioning.toStringSet ⟨partitions⟩, ∀ name ∈ part,
      nameSize schema size name * 24 < 2 ^ 64 := by
    intro part hpart name hname
    have hle := List.single_le_sum (fun _ _ => Nat.zero_le _) _
      (List.mem_map_of_mem (f := nameSize schema size) hname)
    have hsum := (hparts part hpart).1
    omega
  refine ⟨?_, ?_, fun part hpart => ?_, fun part hpart name hname _ => hlt part hpart name hname⟩
  · intro names hnames
    obtain ⟨part, -, rfl⟩ := List.mem_map.mp hnames
    exact List.nodup_dedup _
  · intro part hpart name hname
    obtain ⟨attrb, hattrb, rfl⟩ := (hparts part hpart).2 name hname
    obtain ⟨hin, hidx⟩ := h.idxOf_name hattrb
    have hbytes : nameSize schema size attrb.name = size attrb.index := by rw [nameSize, hidx]
    have hbound := hlt part hpart attrb.name hname
    have hfloor : ((size attrb.index : ℚ)).floor.toNat = size attrb.index := by
      have hint : ((size attrb.index : ℚ)).floor = size attrb.index := Int.floor_natCast (R := ℚ) _
      rw [hint, Int.toNat_natCast]
    rw [hbytes] at hbound ⊢
    refine ⟨?_, h.positive _ (h.index_lt hattrb)⟩
    rw [HistoricalGraph.EdgeIterator.getAttributeSize, Schema.getIndex, if_pos hin, Except.ok_bind,
      hidx, h.sized.avgSize _ (h.index_lt hattrb), Except.ok_bind, hfloor, if_pos (by omega)]
    rfl
  · have hsum := (hparts part hpart).1
    omega

section Loop

open HistoricalGraph HistoricalGraph.EdgeIterator

/-- The partitions the cost model charges for are those the database reads if no round shows the
difference between them; without such a round they are taken in the same order. -/
theorem used_eq_read (h : Covering schema all stats size partitions query)
    (hfits : Fits size partitions) (ω : SetOrder) :
    ∃ used indices, getUsedPartitions stats ω partitions all query = .ok used ∧
      recomputePartitionIndices schema stats ω (Partitioning.toStringSet ⟨partitions⟩)
        (query.attributes.map (·.name)).dedup = .ok indices ∧
      (Harmless (partOf partitions) size (asked query) ω partitions.length →
        ∀ i, i ∈ used ↔ i ∈ indices) ∧
      (used = indices →
        Harmless (partOf partitions) size (asked query) ω partitions.length) := by
  have hcover := h.asked_subset
  have hrange : List.range partitions.length = unused partitions.length [] := by
    simp [unused]
  obtain ⟨indices, hread⟩ : ∃ l,
      run (readPick (partOf partitions) size (asked query) ω partitions.length)
        (fun used => asked query ⊆ covered (partOf partitions) used) (partitions.length + 1) []
          = some l := by
    refine exists_run (n := partitions.length) ?_ _ _ List.nodup_nil (by simp) (by simp)
    intro used hd
    exact exists_bestOf (readRate_nonneg used) hcover hd
  obtain ⟨used, hcost⟩ : ∃ l,
      run (costPick (partOf partitions) size (asked query) ω partitions.length)
        (fun used => (asked query).card ≤ (covered (partOf partitions) used).card)
          (partitions.length + 1) [] = some l := by
    refine exists_run (n := partitions.length) ?_ _ _ List.nodup_nil (by simp) (by simp)
    intro used hd
    exact exists_bestOf (costRate_nonneg used) hcover fun hsub => hd (Finset.card_le_card hsub)
  refine ⟨used, indices, ?_, ?_, ?_, ?_⟩
  · refine h.measured.usePartitions ω ?_
    rw [← h.costPick_eq, ← hcost]
    refine run_congr _ _ fun later _ => ⟨?_, fun _ => rfl⟩
    beta_reduce
    rw [card_covered_image h.injOn_index h.partSet_mem partOf_eq, h.asked_eq,
      Finset.card_image_of_injOn (h.injOn_index.mono h.toCover_mem)]
  · rw [recomputePartitionIndices, length_toStringSet, hrange, ← length_toStringSet]
    refine (h.exact hfits).selectParts (List.nodup_dedup _) ω metNames_nil ?_
    rw [← h.readPick_eq, length_toStringSet, ← hread]
    refine run_congr _ _ fun later _ => ⟨?_, fun _ => rfl⟩
    beta_reduce
    rw [subset_covered_image h.injOn_name h.partSet_mem h.toCover_mem nameSet_eq h.queryNames_eq,
      subset_covered_image h.injOn_index h.partSet_mem h.toCover_mem partOf_eq h.asked_eq]
  · intro hharmless i
    have hagree := (harmless_iff hcover).mp hharmless
    rw [run_congr _ _ hagree, hread, Option.some.injEq] at hcost
    rw [hcost]
  · intro heq
    rw [heq] at hcost
    rw [harmless_iff hcover]
    intro later hlater
    exact agree_of_run_eq hread hcost hlater

end Loop

end Covering

/-! ### Three attributes -/

namespace Covering

/-- What the database reads. -/
def readBy (partitions : List Partition) : Except Fault (List Nat) :=
  HistoricalGraph.EdgeIterator.recomputePartitionIndices ⟨textAndNumbers.map (·.toAttribute)⟩
    textAndNumbersStats inOrder (Partitioning.toStringSet ⟨partitions⟩)
    (asksFirstTwo.attributes.map (·.name)).dedup

theorem textAndNumbers_sized :
    Sized textAndNumbers textAndNumbersStats fun a => textAndNumbersSize a := by
  constructor
  · intro a attrb hget
    obtain ⟨hlt, heq⟩ := List.getElem?_eq_some_iff.mp hget
    have hindex : ∀ a : Fin 3, (textAndNumbers.get a).index = a := by decide
    rw [← heq]
    exact hindex ⟨a, hlt⟩
  · intro a ha
    exact getAvgSize_textAndNumbers a ha

theorem textAndNumbers_covering {partitions : List Partition}
    (hdrawn : ∀ part ∈ partitions, ∀ attrb ∈ part.attributes, attrb ∈ textAndNumbers)
    (hcovers : ∀ attrb ∈ textAndNumbers, ∃ part ∈ partitions, attrb ∈ part.attributes) :
    Covering ⟨textAndNumbers.map (·.toAttribute)⟩ textAndNumbers textAndNumbersStats
      textAndNumbersSize partitions asksFirstTwo :=
  { sized := textAndNumbers_sized
    positive := by decide
    ofSchema := rfl
    names := by decide
    drawn := hdrawn
    covers := hcovers
    queried := by decide }

/-- With the asked attributes together both take their partition alone. -/
theorem used_eq_read_together :
    Harmless (partOf together) textAndNumbersSize (asked asksFirstTwo) inOrder 2 ∧
      ∃ used indices, charged together = .ok used ∧ readBy together = .ok indices ∧
        ∀ i, i ∈ used ↔ i ∈ indices := by
  have hused : (charged together).toOption.map id = some [0] := by
    decide +kernel
  have hindices : (readBy together).toOption.map id = some [0] := by
    decide +kernel
  have hcovering : Covering ⟨textAndNumbers.map (·.toAttribute)⟩ textAndNumbers textAndNumbersStats
      textAndNumbersSize together asksFirstTwo :=
    textAndNumbers_covering (by decide) (by decide)
  have hfits : Fits textAndNumbersSize together := by
    rw [Fits]
    decide
  obtain ⟨used, indices, hcost, hread, hsame, hharmless⟩ := used_eq_read hcovering hfits inOrder
  have heq : used = indices := by
    rw [charged, hcost] at hused
    rw [readBy, hread] at hindices
    simp only [Except.toOption, Option.map_some, id, Option.some.injEq] at hused hindices
    rw [hused, hindices]
  exact ⟨hharmless heq, used, indices, hcost, hread, hsame (hharmless heq)⟩

/-- The text and the other number together are as many attributes as are asked for, so the
partition of the first number is read and not charged for. -/
theorem charges_less_than_read :
    Covering ⟨textAndNumbers.map (·.toAttribute)⟩ textAndNumbers textAndNumbersStats
        textAndNumbersSize crossed asksFirstTwo ∧
      ∃ used indices, charged crossed = .ok used ∧ readBy crossed = .ok indices ∧
        1 ∉ used ∧ 1 ∈ indices := by
  refine ⟨textAndNumbers_covering (by decide) (by decide), ?_⟩
  have hused : (charged crossed).toOption.map id = some [0] := by
    decide +kernel
  have hindices : (readBy crossed).toOption.map id = some [1, 0] := by
    decide +kernel
  obtain ⟨used, hok, heq⟩ := Except.of_toOption_map hused
  obtain ⟨indices, hok', heq'⟩ := Except.of_toOption_map hindices
  rw [id] at heq heq'
  refine ⟨used, indices, hok, hok', ?_, ?_⟩
  · simp [heq]
  · simp [heq']

end Covering

end RailwayDB
