/-
What the cost model says of the size of a partition.

The partitions of a workload are made of the attributes the workload has, each at the
position of its index, so a partition is known by the indices of its attributes, and
its size is a constant and a sum over them.
-/
import RailwayDB.Core.Cost
import RailwayDB.Lib.Except
import RailwayDB.Lib.ZeroOne
import Mathlib.Tactic.Ring

namespace RailwayDB.Common.Cost

open SystemConstants ZeroOne

/-- The attributes are indexed by position and their average sizes are known. -/
structure Sized (all : List AttributePtr) (stats : SchemaStats) (size : Nat → ℚ) : Prop where
  indexed : ∀ (a : Nat) (attrb : AttributePtr), all[a]? = some attrb →
    attrb.index = a
  avgSize : ∀ a < all.length, stats.getAvgSize a = .ok (size a)

variable {all : List AttributePtr} {stats : SchemaStats} {size : Nat → ℚ}

/-! ### The size of a partition -/

/-- The attributes are those the workload has at their indices. -/
def Drawn (all attributes : List AttributePtr) : Prop :=
  ∀ attrb ∈ attributes, all[attrb.index]? = some attrb

def indices (attributes : List AttributePtr) : List Nat := attributes.map (·.index)

@[simp] theorem indices_cons (attrb : AttributePtr) (attributes : List AttributePtr) :
    indices (attrb :: attributes) = attrb.index :: indices attributes := rfl

theorem mem_indices_iff {attributes : List AttributePtr} (h : Drawn all attributes)
    {attrb : AttributePtr} (hattrb : all[attrb.index]? = some attrb) :
    attrb.index ∈ indices attributes ↔ attrb ∈ attributes := by
  constructor
  · intro hmem
    obtain ⟨other, hother, hindex⟩ := List.mem_map.mp hmem
    have hsame := h other hother
    rw [hindex, hattrb, Option.some.injEq] at hsame
    rw [hsame]
    exact hother
  · intro hmem
    exact List.mem_map_of_mem hmem

theorem addAttribute_ok {part : Partition} (h : Drawn all part.attributes)
    {attrb : AttributePtr} (hattrb : all[attrb.index]? = some attrb)
    (hnew : attrb.index ∉ indices part.attributes) :
    Drawn all (part.addAttribute attrb).attributes ∧
      indices (part.addAttribute attrb).attributes = attrb.index :: indices part.attributes := by
  have hnot : attrb ∉ part.attributes := fun hmem => hnew ((mem_indices_iff h hattrb).mpr hmem)
  simp only [Partition.addAttribute, hnot, ↓reduceDIte]
  refine ⟨?_, rfl⟩
  intro other hother
  rcases List.mem_cons.mp hother with heq | hmem
  · rw [heq]
    exact hattrb
  · exact h other hmem

theorem foldl_addAttribute (l : List AttributePtr) (part : Partition) (hl : Drawn all l)
    (hnodup : (indices l ++ indices part.attributes).Nodup)
    (hpart : Drawn all part.attributes) :
    Drawn all (l.foldl Partition.addAttribute part).attributes ∧
      indices (l.foldl Partition.addAttribute part).attributes
        = (indices l).reverse ++ indices part.attributes := by
  induction l generalizing part with
  | nil => exact ⟨hpart, rfl⟩
  | cons attrb l ih =>
      rw [indices_cons, List.cons_append] at hnodup
      have hnew : attrb.index ∉ indices part.attributes := fun hmem =>
        (List.nodup_cons.mp hnodup).1 (List.mem_append_right _ hmem)
      obtain ⟨hpart', hindices⟩ := addAttribute_ok hpart (hl attrb List.mem_cons_self) hnew
      have hnodup' : (indices l ++ indices (part.addAttribute attrb).attributes).Nodup := by
        rw [hindices]
        exact List.nodup_middle.mpr hnodup
      obtain ⟨hd, hi⟩ := ih (part.addAttribute attrb)
        (fun other hother => hl other (List.mem_cons_of_mem _ hother)) hnodup' hpart'
      refine ⟨hd, ?_⟩
      rw [List.foldl_cons, hi, hindices]
      simp

theorem Sized.indices_attributes (h : Sized all stats size) :
    Drawn all all ∧
      indices all = List.range all.length := by
  constructor
  · intro attrb hattrb
    obtain ⟨a, ha⟩ := List.mem_iff_getElem?.mp hattrb
    rw [h.indexed a attrb ha]
    exact ha
  · refine List.ext_getElem (by simp [indices]) ?_
    intro a ha ha'
    rw [List.getElem_range]
    have hlt : a < all.length := by simpa using ha'
    have hindex := h.indexed a _ (List.getElem?_eq_getElem hlt)
    simpa [indices] using hindex

theorem attributesSize_ok (h : Sized all stats size) (attributes : List AttributePtr)
    (hdrawn : Drawn all attributes) (sum : ℚ) :
    attributes.foldlM (fun sum attrb => do return sum + (← stats.getAvgSize attrb.index)) sum
      = Except.ok (sum + ((indices attributes).map size).sum) := by
  induction attributes generalizing sum with
  | nil => simp [indices]
  | cons attrb attributes ih =>
      have hget := hdrawn attrb List.mem_cons_self
      obtain ⟨hlt, -⟩ := List.getElem?_eq_some_iff.mp hget
      have hrest := ih (fun b hb => hdrawn b (List.mem_cons_of_mem _ hb)) (sum + size attrb.index)
      rw [List.foldlM_cons, h.avgSize _ hlt, Except.ok_bind, Except.pure_eq_ok, Except.ok_bind,
        hrest]
      simp [indices, add_assoc]

/-- 480 bytes of a block are ids, times and list heads. -/
theorem getPartitionSize_ok (h : Sized all stats size) {part : Partition}
    (hdrawn : Drawn all part.attributes) :
    Cost.getPartitionSize stats part
      = .ok (480 + numberOfEdgesInABlock * ((indices part.attributes).map size).sum) := by
  have hsum := attributesSize_ok h part.attributes hdrawn 0
  rw [Cost.getPartitionSize, Cost.attributesSize, hsum, Except.ok_bind, Except.pure_eq_ok]
  congr 1
  simp only [edgeIdSize, timestampSize, headVertexSize, numEntriesSize, numberOfEdgesInABlock,
    numberOfNeighborListsInABlock]
  push_cast
  ring

/-- The sum over the attributes that are set. -/
theorem sum_filter_range (n : Nat) (b : Nat → Bool) (f : Nat → ℚ) :
    (((List.range n).filter b).map f).sum = ∑ i ∈ Finset.range n, f i * value (b i) := by
  induction n with
  | zero => rfl
  | succ n ih =>
      rw [List.range_succ, List.filter_append, List.map_append, List.sum_append, ih,
        Finset.sum_range_succ]
      cases hb : b n with
      | false => simp [hb]
      | true => simp [hb]

end RailwayDB.Common.Cost
