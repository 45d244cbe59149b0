/-
Merging two partitions, and splitting them again.

`mergePartitions` closes the gap with the last partition, and `splitPartition` opens it
the same way.  What either leaves is told position by position, as sets: a split puts the
attributes back one by one, so they may come in another order.
-/
import RailwayDB.Proofs.IOCost

namespace RailwayDB.Common

variable {partitions partitions' : List Partition} {i j : Nat}

/-! ### Sets by position -/

theorem partSet_set (hi : i < partitions.length) (part : Partition) (k : Nat) :
    partSet (partitions.set i part) k = if k = i then part.toFinset else partSet partitions k := by
  unfold partSet
  by_cases hk : k = i
  · simp [hk, hi, Partition.toFinset]
  · rw [if_neg hk, List.getElem?_set_ne (Ne.symm hk)]

theorem partSet_getElem (hi : i < partitions.length) :
    partSet partitions i = partitions[i].toFinset :=
  partSet_eq (List.getElem?_eq_getElem hi)

theorem partSet_append_left {parts : List Partition} (hi : i < partitions.length) :
    partSet (partitions ++ parts) i = partSet partitions i := by
  unfold partSet
  rw [List.getElem?_append_left hi]

theorem partSet_concat (partitions : List Partition) (part : Partition) :
    partSet (partitions ++ [part]) partitions.length = part.toFinset := by
  unfold partSet
  rw [List.getElem?_concat_length]
  rfl

theorem mem_sets_iff {s : Finset AttributePtr} :
    s ∈ sets partitions ↔ ∃ k < partitions.length, partSet partitions k = s := by
  rw [mem_sets]
  refine ⟨?_, ?_⟩
  · rintro ⟨part, hpart, heq⟩
    obtain ⟨k, hk, hget⟩ := List.mem_iff_getElem.mp hpart
    refine ⟨k, hk, ?_⟩
    rw [partSet_getElem hk, hget, heq]
  · rintro ⟨k, hk, heq⟩
    exact ⟨partitions[k], List.getElem_mem hk, (partSet_getElem hk).symm.trans heq⟩

theorem sets_eq_of_partSet (hlength : partitions'.length = partitions.length)
    (hparts : ∀ k < partitions.length, partSet partitions' k = partSet partitions k) :
    sets partitions' = sets partitions := by
  refine List.ext_getElem (by simpa using hlength) ?_
  intro k hk' hk
  rw [length_sets] at hk hk'
  have heq := hparts k hk
  rw [partSet_getElem hk', partSet_getElem hk] at heq
  simpa [sets] using heq

theorem swapWithLast_ok (partitions : List Partition) (hj : j < partitions.length) :
    ∃ partitions', Partitioning.swapWithLast partitions j = .ok partitions' ∧
      partitions'.length = partitions.length ∧
      ∀ k, partSet partitions' k = if k = j then partSet partitions (partitions.length - 1)
        else if k = partitions.length - 1 then partSet partitions j else partSet partitions k := by
  have hlast : partitions.length - 1 < partitions.length := by omega
  unfold Partitioning.swapWithLast
  by_cases hne : j ≠ partitions.length - 1
  · refine ⟨(partitions.set j partitions[partitions.length - 1]).set (partitions.length - 1)
      partitions[j], ?_, ?_, ?_⟩
    · rw [if_pos hne]
      exact swapAt_eq (List.getElem?_eq_getElem hj) (List.getElem?_eq_getElem hlast)
    · rw [List.length_set, List.length_set]
    · intro k
      rw [partSet_set (by rw [List.length_set]; exact hlast), partSet_set hj,
        ← partSet_getElem hj, ← partSet_getElem hlast]
      by_cases hk : k = j
      · rw [if_pos hk, if_pos hk, if_neg (by rw [hk]; exact hne)]
      · rw [if_neg hk, if_neg hk]
  · refine ⟨partitions, if_neg hne, rfl, ?_⟩
    rw [not_not] at hne
    intro k
    split_ifs with hk hk
    · rw [hk, hne]
    · rw [hk, hne]
    · rfl

/-! ### The two operations -/

namespace Partitioning

/-- The partition at the lower position takes in the other, whose place goes to the last one. -/
structure IsMerged (partitions : List Partition) (i j : Nat) (partitions' : List Partition) :
    Prop where
  length : partitions'.length + 1 = partitions.length
  parts : ∀ k < partitions'.length, partSet partitions' k
    = if k = i then partSet partitions i ∪ partSet partitions j
      else if k = j then partSet partitions partitions'.length else partSet partitions k

theorem mergeInto_ok (hij : i < j) (hj : j < partitions.length) :
    ∃ partitions', mergeInto ⟨partitions⟩ i j = .ok ⟨partitions'⟩ ∧
      IsMerged partitions i j partitions' := by
  have hi : i < partitions.length := hij.trans hj
  have hset : ∀ k, partSet (partitions.set i
      (partitions[j].attributes.foldl Partition.addAttribute partitions[i])) k
        = if k = i then partSet partitions i ∪ partSet partitions j
          else partSet partitions k := by
    intro k
    rw [partSet_set hi, Partition.toFinset_foldl_addAttribute, partSet_getElem hi,
      partSet_getElem hj]
    rfl
  obtain ⟨swapped, hswap, hlength, hparts⟩ := swapWithLast_ok (j := j) (partitions.set i
    (partitions[j].attributes.foldl Partition.addAttribute partitions[i]))
    (by rw [List.length_set]; exact hj)
  rw [List.length_set] at hlength hparts
  refine ⟨swapped.dropLast, ?_, ?_, ?_⟩
  · unfold mergeInto
    simp only [elementAt_eq (List.getElem?_eq_getElem hi),
      elementAt_eq (List.getElem?_eq_getElem hj), Except.ok_bind, hswap]
    rfl
  · rw [List.length_dropLast]
    omega
  · intro k hk
    rw [List.length_dropLast] at hk ⊢
    have hdrop : partSet swapped.dropLast k = partSet swapped k := by
      unfold partSet
      rw [List.getElem?_dropLast, if_pos hk]
    rw [hdrop, hparts, hset, hset, hset, hlength]
    by_cases hki : k = i
    · rw [if_pos hki, if_neg (by omega), if_neg (by omega), if_pos hki]
    · rw [if_neg hki, if_neg hki]
      by_cases hkj : k = j
      · rw [if_pos hkj, if_pos hkj, if_neg (by omega)]
      · rw [if_neg hkj, if_neg hkj, if_neg (by omega)]

theorem splitInto_ok (hij : i < j) (hi : i < partitions.length) (hj : j ≤ partitions.length)
    (lhs rhs : Partition) :
    ∃ partitions', splitInto ⟨partitions⟩ i j lhs rhs = .ok ⟨partitions'⟩ ∧
      partitions'.length = partitions.length + 1 ∧
      ∀ k < partitions'.length, partSet partitions' k
        = if k = i then lhs.toFinset else if k = j then rhs.toFinset
          else if k = partitions.length then partSet partitions j else partSet partitions k := by
  have hset : ∀ k, partSet (partitions.set i
      (lhs.attributes.foldl Partition.addAttribute partitions[i].clearAttributes)) k
        = if k = i then lhs.toFinset else partSet partitions k := by
    intro k
    rw [partSet_set hi, Partition.toFinset_foldl_addAttribute,
      Partition.toFinset_clearAttributes, Finset.empty_union]
    rfl
  have happend : ∀ k ≤ partitions.length, partSet (partitions.set i
      (lhs.attributes.foldl Partition.addAttribute partitions[i].clearAttributes) ++ [rhs]) k
        = if k = i then lhs.toFinset else if k = partitions.length then rhs.toFinset
          else partSet partitions k := by
    intro k hk
    rcases Nat.lt_or_eq_of_le hk with hlt | heq
    · rw [partSet_append_left (by rw [List.length_set]; exact hlt), hset, if_neg hlt.ne]
    · have hlast := partSet_concat (partitions.set i
        (lhs.attributes.foldl Partition.addAttribute partitions[i].clearAttributes)) rhs
      rw [List.length_set] at hlast
      rw [heq, hlast, if_neg hi.ne', if_pos rfl]
  obtain ⟨swapped, hswap, hlength, hparts⟩ := swapWithLast_ok (j := j) (partitions.set i
    (lhs.attributes.foldl Partition.addAttribute partitions[i].clearAttributes) ++ [rhs]) (by
      rw [List.length_append, List.length_set, List.length_singleton]
      omega)
  rw [List.length_append, List.length_set, List.length_singleton] at hlength
  rw [List.length_append, List.length_set, List.length_singleton, Nat.add_sub_cancel] at hparts
  refine ⟨swapped, ?_, hlength, ?_⟩
  · unfold splitInto addPartition
    simp only [elementAt_eq (List.getElem?_eq_getElem hi), Except.ok_bind, hswap]
    rfl
  · intro k hk
    rw [hparts, happend k (by omega), happend j hj, happend _ (le_refl _)]
    by_cases hki : k = i
    · rw [if_neg (by omega), if_neg (by omega), if_pos hki, if_pos hki]
    · rw [if_neg hki, if_neg hki, if_neg hi.ne', if_pos rfl, if_neg hij.ne']
      by_cases hkj : k = j
      · rw [if_pos hkj, if_pos hkj]
      · rw [if_neg hkj, if_neg hkj]
        by_cases hkn : k = partitions.length
        · rw [if_pos hkn, if_pos hkn, if_neg (by omega)]
        · rw [if_neg hkn, if_neg hkn, if_neg hkn]

/-- A split with the two partitions that were merged gives back what was there, as sets. -/
theorem split_merged (hij : i < j) (hj : j < partitions.length)
    (h : IsMerged partitions i j partitions') :
    ∃ partitions'', splitInto ⟨partitions'⟩ i j partitions[i] partitions[j] = .ok ⟨partitions''⟩ ∧
      sets partitions'' = sets partitions := by
  have hlength := h.length
  have hi' : i < partitions'.length := by omega
  have hj' : j ≤ partitions'.length := by omega
  obtain ⟨partitions'', hsplit, hlength', hparts⟩ :=
    splitInto_ok hij hi' hj' partitions[i] partitions[j]
  refine ⟨partitions'', hsplit, sets_eq_of_partSet (by omega) ?_⟩
  intro k hk
  rw [hparts k (by omega), ← partSet_getElem (hij.trans hj), ← partSet_getElem hj]
  split_ifs with hki hkj hkn
  · rw [hki]
  · rw [hkj]
  · rw [h.parts j (by omega), if_neg hij.ne', if_pos rfl, hkn]
  · rw [h.parts k (by omega), if_neg hki, if_neg hkj]

/-! ### Together -/

/-- The partitions as sets, without those at some positions. -/
def others (partitions : List Partition) (positions : Finset Nat) :
    Multiset (Finset AttributePtr) :=
  (Finset.range partitions.length \ positions).val.map (partSet partitions)

/-- The last partition takes the free place, so no other partition is lost or doubled. -/
theorem IsMerged.others_eq (hij : i < j) (hj : j < partitions.length)
    (h : IsMerged partitions i j partitions') :
    others partitions' {i} = others partitions {i, j} := by
  have hlength := h.length
  have hrest : ∀ k ∈ Finset.range partitions'.length \ {i, j},
      partSet partitions' k = partSet partitions k := by
    intro k hk
    rw [Finset.mem_sdiff, Finset.mem_range, Finset.mem_insert, Finset.mem_singleton] at hk
    obtain ⟨hk, hne⟩ := hk
    rw [not_or] at hne
    rw [h.parts k hk, if_neg hne.1, if_neg hne.2]
  unfold others
  rw [← hlength]
  rcases Nat.lt_or_eq_of_le (show j ≤ partitions'.length by omega) with hlt | heq
  · have hleft : Finset.range partitions'.length \ {i}
        = insert j (Finset.range partitions'.length \ {i, j}) := by
      ext k
      simp only [Finset.mem_sdiff, Finset.mem_range, Finset.mem_insert, Finset.mem_singleton]
      omega
    have hright : Finset.range (partitions'.length + 1) \ {i, j}
        = insert partitions'.length (Finset.range partitions'.length \ {i, j}) := by
      ext k
      simp only [Finset.mem_sdiff, Finset.mem_range, Finset.mem_insert, Finset.mem_singleton]
      omega
    rw [hleft, hright, Finset.insert_val_of_notMem (by simp),
      Finset.insert_val_of_notMem (by simp), Multiset.map_cons, Multiset.map_cons,
      h.parts j hlt, if_neg hij.ne', if_pos rfl, Multiset.map_congr rfl hrest]
  · have hleft : Finset.range partitions'.length \ {i}
        = Finset.range partitions'.length \ {i, j} := by
      ext k
      simp only [Finset.mem_sdiff, Finset.mem_range, Finset.mem_insert, Finset.mem_singleton]
      omega
    have hright : Finset.range (partitions'.length + 1) \ {i, j}
        = Finset.range partitions'.length \ {i, j} := by
      ext k
      simp only [Finset.mem_sdiff, Finset.mem_range, Finset.mem_insert, Finset.mem_singleton]
      omega
    rw [hleft, hright, Multiset.map_congr rfl hrest]

/-- **A split gives back what a merge joined**, whichever of the two positions comes first. -/
theorem splitPartition_mergePartitions (hij : i ≠ j) (hi : i < partitions.length)
    (hj : j < partitions.length) :
    ∃ merged, mergePartitions ⟨partitions⟩ i j = .ok ⟨merged⟩ ∧
      merged.length + 1 = partitions.length ∧
      partSet merged (min i j) = partitions[i].toFinset ∪ partitions[j].toFinset ∧
      others merged {min i j} = others partitions {i, j} ∧
      ∃ split, splitPartition ⟨merged⟩ i j partitions[i] partitions[j] = .ok ⟨split⟩ ∧
        sets split = sets partitions := by
  unfold mergePartitions splitPartition
  rcases Nat.lt_or_gt_of_ne hij with hlt | hgt
  · obtain ⟨merged, hmerge, hmerged⟩ := mergeInto_ok hlt hj
    obtain ⟨split, hsplit, hsets⟩ := split_merged hlt hj hmerged
    have hlength := hmerged.length
    rw [if_neg (by omega), min_eq_left hlt.le, ← partSet_getElem hi, ← partSet_getElem hj]
    refine ⟨merged, hmerge, hlength, ?_, hmerged.others_eq hlt hj, split, ?_, hsets⟩
    · rw [hmerged.parts i (by omega), if_pos rfl]
    · rw [if_neg (by omega)]
      exact hsplit
  · obtain ⟨merged, hmerge, hmerged⟩ := mergeInto_ok hgt hi
    obtain ⟨split, hsplit, hsets⟩ := split_merged hgt hi hmerged
    have hlength := hmerged.length
    rw [if_pos hgt, min_eq_right hgt.le, Finset.pair_comm, Finset.union_comm,
      ← partSet_getElem hi, ← partSet_getElem hj]
    refine ⟨merged, hmerge, hlength, ?_, hmerged.others_eq hgt hi, split, ?_, hsets⟩
    · rw [hmerged.parts j (by omega), if_pos rfl]
    · rw [if_pos hgt]
      exact hsplit

section Example

/-- The partition of one attribute. -/
def single (index : Nat) : Partition :=
  .ofAttributes [{ name := [0x61], type := .int64, index := index }]

def threeSingles : List Partition := [single 0, single 1, single 2]

/-- The last is merged into the first, named the other way round. -/
theorem splitPartition_mergePartitions_three :
    ∃ merged, mergePartitions ⟨threeSingles⟩ 2 0 = .ok ⟨merged⟩ ∧ merged.length = 2 ∧
      ∃ split, splitPartition ⟨merged⟩ 2 0 (single 2) (single 0) = .ok ⟨split⟩ ∧
        sets split = sets threeSingles := by
  obtain ⟨merged, hmerge, hlength, -, -, split, hsplit, hsets⟩ :=
    @splitPartition_mergePartitions threeSingles 2 0 (by decide) (by decide) (by decide)
  exact ⟨merged, hmerge, Nat.succ.inj hlength, split, hsplit, hsets⟩

end Example

end Partitioning

end RailwayDB.Common
