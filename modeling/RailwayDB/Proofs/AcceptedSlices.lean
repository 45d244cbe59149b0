/-
Which partitionings a replacement accepts.

Before a replacement is carried out the distinct names of each new partitioning are
counted, and the count is held against the number of attributes of the schema.  The
count is right for a partitioning that keeps to the names of the schema: as many names
as there are, all of them the schema's, are the names of the schema.  A name from
outside counts as much as one that is missing, and two such mistakes cancel.
-/
import Mathlib.Data.List.Dedup
import Mathlib.Data.List.Perm.Subperm
import RailwayDB.Proofs.Slices

namespace RailwayDB.PartitionIndex

variable {T : Type} [Preorder T] [Timestamp T] [DecidableLE T] [DecidableLT T]

/-- The parts together have the names of the schema and no others. -/
def Complete (schema : Schema) (parting : Partitioning) : Prop :=
  ∀ name, name ∈ parting.flatten ↔ name ∈ schema.names

/-- No name is from outside the schema. -/
def Within (schema : Schema) (parting : Partitioning) : Prop :=
  ∀ name ∈ parting.flatten, name ∈ schema.names

instance decidableWithin (schema : Schema) (parting : Partitioning) :
    Decidable (Within schema parting) :=
  inferInstanceAs (Decidable (∀ name ∈ parting.flatten, name ∈ schema.names))

theorem Complete.within {schema : Schema} {parting : Partitioning}
    (h : Complete schema parting) : Within schema parting :=
  fun name hname => (h name).mp hname

/-- With the right count, names of the schema are all its names. -/
theorem Within.complete {schema : Schema} {parting : Partitioning} (h : Within schema parting)
    (hcount : getPartitioningAttributeCount parting = schema.attributes.length) :
    Complete schema parting := by
  have hlen : schema.names.length ≤ parting.flatten.dedup.length := by
    unfold getPartitioningAttributeCount at hcount
    rw [hcount, Schema.names, List.length_map]
  have hsub : parting.flatten.dedup ⊆ schema.names :=
    fun name hname => h name (List.mem_dedup.mp hname)
  have hperm : parting.flatten.dedup.Perm schema.names :=
    (List.subperm_of_subset (List.nodup_dedup _) hsub).perm_of_length_le hlen
  intro name
  rw [← List.mem_dedup]
  exact hperm.mem_iff

variable [@Std.Total T (· ≤ ·)] [DecidableEq T] [BlockTime T] {schema : Schema}
  {g g' : HistoricalGraph (PartitionIndex T) T schema}

/-- The slices a call puts in. -/
def Replacement.new : Replacement T → List (TimeSlicedPartitioning T)
  | one _ new => new
  | many _ new => [new]

/-- A call that returns has counted the names, and put the slices into the store. -/
theorem Replacement.run_ok {c : Replacement T} {rtree : RTree T}
    (hrun : c.run rtree g = .ok () g') :
    (∀ s ∈ c.new, getPartitioningAttributeCount s.partitioning = schema.attributes.length) ∧
      ∃ idx idx', c.new.foldlM addPartitioning idx = .ok idx' ∧ g'.partIndex.db = idx'.db := by
  cases c with
  | one old new =>
      have hone : (replaceTimeSlicedPartitioning rtree old new :
          Storage (PartitionIndex T) T schema Unit) g = .ok () g' := hrun
      unfold replaceTimeSlicedPartitioning at hone
      cases hcheck : checkReplacement schema old new with
      | some description =>
          rw [hcheck] at hone
          cases hone
      | none =>
          rw [hcheck] at hone
          obtain ⟨first, last, -, -, -, -, -, hcount⟩ := checkReplacement_eq_none hcheck
          obtain ⟨idx, idx', -, hadd, hdb⟩ := replaceSlices_ok hone
          exact ⟨hcount, idx, idx', hadd, hdb⟩
  | many old new =>
      have hmany : (replaceTimeSlicedPartitionings rtree old new :
          Storage (PartitionIndex T) T schema Unit) g = .ok () g' := hrun
      unfold replaceTimeSlicedPartitionings at hmany
      cases hcheck : checkReplaced schema old new with
      | some description =>
          rw [hcheck] at hmany
          cases hmany
      | none =>
          rw [hcheck] at hmany
          obtain ⟨first, last, -, -, -, -, -, hcount⟩ := checkReplaced_eq_none hcheck
          obtain ⟨idx, idx', -, hadd, hdb⟩ := replaceSlices_ok hmany
          refine ⟨?_, idx, idx', hadd, hdb⟩
          intro s hs
          rw [List.mem_singleton.mp hs]
          exact hcount

/-- **What a call puts into the store is complete exactly when it keeps to the schema.** -/
theorem installed_complete_iff {c : Replacement T} {rtree : RTree T}
    (hrun : c.run rtree g = .ok () g') :
    (∃ idx idx', c.new.foldlM addPartitioning idx = .ok idx' ∧ g'.partIndex.db = idx'.db) ∧
      ((∀ s ∈ c.new, Complete schema s.partitioning) ↔
        ∀ s ∈ c.new, Within schema s.partitioning) := by
  obtain ⟨hcount, hstored⟩ := Replacement.run_ok hrun
  refine ⟨hstored, ?_, ?_⟩
  · intro hcomplete s hs
    exact (hcomplete s hs).within
  · intro hwithin s hs
    exact (hwithin s hs).complete (hcount s hs)

/-! ### A schema with one attribute -/

section Examples

/-- The line cut at five keeps to the schema. -/
theorem installed_complete_cut :
    ∃ idx, ∃ g : HistoricalGraph (PartitionIndex Double) Double oneAttribute,
      cut.run wholeTree (newGraph idx) = .ok () g ∧
      ∀ s ∈ cut.new, Complete oneAttribute s.partitioning := by
  obtain ⟨idx, -, -, g, hrun⟩ := exists_cut
  refine ⟨idx, g, hrun, ?_⟩
  obtain ⟨-, hiff⟩ := installed_complete_iff hrun
  exact hiff.mpr (by decide)

/-- The whole line, with another name in place of the schema's. -/
def renamed : Replacement Double :=
  .one wholeLine [⟨Timestamp.negInfinity, Timestamp.infinity, [[[98]]]⟩]

/-- The name that is missing and the one too many make the count right. -/
theorem renamed_is_accepted :
    ∃ idx, ∃ g : HistoricalGraph (PartitionIndex Double) Double oneAttribute,
      PartitionIndex.new 16384 oneAttribute = .ok idx ∧
      renamed.run wholeTree (newGraph idx) = .ok () g ∧ oneAttribute.names.Nodup ∧
      ¬ ∀ s ∈ renamed.new, Complete oneAttribute s.partitioning := by
  have heval : (PartitionIndex.new 16384 oneAttribute :
      Except Fault (PartitionIndex Double)).toOption.map (fun idx =>
        answer? (renamed.run wholeTree (newGraph idx))) = some (some ()) := by
    decide +kernel
  obtain ⟨idx, hnew, hanswer⟩ := Except.of_toOption_map heval
  obtain ⟨g, hrun⟩ := of_answer? hanswer
  refine ⟨idx, g, hnew, hrun, by decide, ?_⟩
  intro hcomplete
  have hwithin := (hcomplete _ List.mem_cons_self).within
  revert hwithin
  decide

end Examples

end RailwayDB.PartitionIndex
