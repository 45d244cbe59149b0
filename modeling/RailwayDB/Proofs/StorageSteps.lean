/-
The calls on the block manager that a call on the historical graph is made of.

Whatever stores, finds or rewrites blocks reaches the stores only through a few calls.
`Steps` are any of them in any order, with any arguments, so every state a call passes
through is among what steps reach.
-/
import Mathlib.Logic.Relation
import RailwayDB.Proofs.StorageFrame

namespace RailwayDB.Storage

variable {P T : Type} {schema : Schema} [LinearOrder T] [Timestamp T] [BlockTime T] [SliceIndex P T]
  {α : Type}

/-! ### The calls others are made of -/

/-- A call on the block manager, or a change of what lies beside the blocks. -/
inductive Step : HistoricalGraph P T schema → HistoricalGraph P T schema → Prop where
  | getBlock (g : HistoricalGraph P T schema) (id : BlockId) :
      Step g (stateAfter (BlockManager.getBlock id) g)
  | addBlock (g : HistoricalGraph P T schema) (block : Block T (AttributeData schema)) :
      Step g (stateAfter (BlockManager.addBlock block) g)
  | updateBlock (g : HistoricalGraph P T schema) (block : Block T (AttributeData schema)) :
      Step g (stateAfter (BlockManager.updateBlock block) g)
  | removeBlock (g : HistoricalGraph P T schema) (id : BlockId) :
      Step g (stateAfter (BlockManager.removeBlock id) g)
  | partIndex (g : HistoricalGraph P T schema) (partIndex : P) :
      Step g { g with partIndex := partIndex }
  | indexes (g : HistoricalGraph P T schema) (iqIndex : List (IntervalData T))
      (fiqIndex : SortedMap (List Byte) (List Byte)) :
      Step g { g with iqIndex := iqIndex, fiqIndex := fiqIndex }
  | schemaStats (g : HistoricalGraph P T schema) (stats : SchemaStats) :
      Step g { g with metaData := { g.metaData with schemaStats := stats } }

/-- Any number of them. -/
abbrev Steps : HistoricalGraph P T schema → HistoricalGraph P T schema → Prop :=
  Relation.ReflTransGen Step

instance isPreorder_steps : IsPreorder (HistoricalGraph P T schema) Steps where
  refl _ := Relation.ReflTransGen.refl
  trans _ _ _ h h' := h.trans h'

theorem steps_onIndex (f : P → Except Fault (α × P)) :
    Keeps Steps (onIndex f : Storage P T schema α) := by
  refine Keeps.get.bind fun g => (keeps_ofResult _).bind fun r => ?_
  refine Keeps.bind ?_ fun _ => Keeps.pure _
  exact Keeps.modify fun g => Relation.ReflTransGen.single (Step.partIndex g r.2)

theorem steps_frame : Frame (Steps : HistoricalGraph P T schema → _ → Prop) where
  getBlock id := Keeps.of_stateAfter fun g => Relation.ReflTransGen.single (Step.getBlock g id)
  addBlock block :=
    Keeps.of_stateAfter fun g => Relation.ReflTransGen.single (Step.addBlock g block)
  updateBlock block :=
    Keeps.of_stateAfter fun g => Relation.ReflTransGen.single (Step.updateBlock g block)
  removeBlock id :=
    Keeps.of_stateAfter fun g => Relation.ReflTransGen.single (Step.removeBlock g id)
  partitionBlock _ := steps_onIndex _
  indexes g iqIndex fiqIndex :=
    Relation.ReflTransGen.single (Step.indexes g iqIndex fiqIndex)

theorem steps_forSlices (f : P → TimeSlicedPartitioning T → Except Fault P)
    (slices : List (TimeSlicedPartitioning T)) :
    Keeps Steps (PartitionIndex.forSlices f slices : Storage P T schema Unit) := by
  induction slices with
  | nil => exact Keeps.pure ()
  | cons s slices ih =>
      unfold PartitionIndex.forSlices
      exact (steps_onIndex _).bind fun _ => ih

theorem steps_replaceSlices (rtree : RTree T)
    (removed added updated : List (TimeSlicedPartitioning T)) :
    Keeps Steps (PartitionIndex.replaceSlices rtree removed added updated :
      Storage P T schema Unit) := by
  unfold PartitionIndex.replaceSlices
  refine (steps_forSlices _ removed).bind fun _ => (steps_forSlices _ added).bind fun _ => ?_
  refine (steps_frame.updateSlices rtree updated).bind fun _ => ?_
  exact Keeps.modify fun g => Relation.ReflTransGen.single (Step.partIndex g _)

theorem steps_replaceTimeSlicedPartitioning (rtree : RTree T)
    (toBeReplaced : TimeSlicedPartitioning T) (replacement : List (TimeSlicedPartitioning T)) :
    Keeps Steps (PartitionIndex.replaceTimeSlicedPartitioning rtree toBeReplaced replacement :
      Storage P T schema Unit) := by
  unfold PartitionIndex.replaceTimeSlicedPartitioning
  split
  · exact Keeps.throw _
  · exact steps_replaceSlices rtree _ _ _

theorem steps_replaceTimeSlicedPartitionings (rtree : RTree T)
    (toBeReplaced : List (TimeSlicedPartitioning T)) (replacement : TimeSlicedPartitioning T) :
    Keeps Steps (PartitionIndex.replaceTimeSlicedPartitionings rtree toBeReplaced replacement :
      Storage P T schema Unit) := by
  unfold PartitionIndex.replaceTimeSlicedPartitionings
  split
  · exact Keeps.throw _
  · exact steps_replaceSlices rtree _ _ _

/-! ### Queries -/

theorem steps_skip (startTime endTime : T) (vertices : List VertexId) (fuel : Nat)
    (it : List (IntervalData T)) :
    Keeps Steps (HistoricalGraph.VertexIterator.skip startTime endTime vertices fuel it :
      Storage P T schema _) := by
  induction fuel generalizing it with
  | zero => exact Keeps.throw _
  | succ fuel ih =>
      unfold HistoricalGraph.VertexIterator.skip
      refine Keeps.bind ?_ fun it => ?_
      · cases it with
        | nil => exact Keeps.throw _
        | cons e rest => exact steps_frame.findNext startTime endTime rest
      · cases it with
        | nil => exact Keeps.pure _
        | cons e rest => exact Keeps.ite (ih _) (Keeps.pure _)

theorem steps_vertexResults (fuel : Nat) (vi : HistoricalGraph.VertexIterator T) :
    Keeps Steps (vi.results fuel : Storage P T schema _) := by
  induction fuel generalizing vi with
  | zero =>
      unfold HistoricalGraph.VertexIterator.results
      exact Keeps.ite (Keeps.throw _) (Keeps.pure _)
  | succ fuel ih =>
      unfold HistoricalGraph.VertexIterator.results HistoricalGraph.VertexIterator.next
      refine Keeps.ite ?_ (Keeps.pure _)
      refine (keeps_ofResult _).bind fun vertex => Keeps.bind (Keeps.ite ?_ (Keeps.throw _)) ?_
      · exact (steps_skip _ _ _ _ _).bind fun it => Keeps.pure _
      · exact fun vi => (ih vi).bind fun rest => Keeps.pure _

theorem steps_intervalQuery (rtree : RTree T) (startTime endTime : T) :
    Keeps Steps (HistoricalGraph.intervalQuery rtree startTime endTime : Storage P T schema _) :=
  (steps_frame.query rtree startTime endTime).bind fun _ => steps_vertexResults _ _

theorem steps_intervalQueryBatch (rtree : RTree T) (startTime endTime : T) :
    Keeps Steps (HistoricalGraph.intervalQueryBatch rtree startTime endTime :
      Storage P T schema _) :=
  (keeps_intersectsWithQuery rtree startTime endTime).bind fun _ => Keeps.pure _

theorem steps_initIfValid (ω : SetOrder) (ei : HistoricalGraph.EdgeIterator T) :
    Keeps Steps (ei.initIfValid ω : Storage P T schema _) := by
  unfold HistoricalGraph.EdgeIterator.initIfValid
  split
  · unfold HistoricalGraph.EdgeIterator.initFromBlock HistoricalGraph.EdgeIterator.usePartitioning
    refine (steps_frame.getBlock _).bind fun block => (keeps_ofResult _).bind fun t => ?_
    refine Keeps.bind ?_ fun ei => (keeps_ofResult _).bind fun nlist => keeps_ofResult _
    refine Keeps.ite ?_ (Keeps.pure _)
    refine (steps_onIndex _).bind fun partitioning => Keeps.get.bind fun g => ?_
    exact (keeps_ofResult _).bind fun indices => Keeps.pure _
  · exact Keeps.pure _

theorem steps_getEdge (ei : HistoricalGraph.EdgeIterator T)
    (c : FocusedIntervalQueryIndex.Currents T) :
    Keeps Steps (ei.getEdge c : Storage P T schema _) :=
  (steps_frame.getBlock _).bind fun _ => (keeps_ofResult _).bind fun _ => keeps_ofResult _

theorem steps_getEdgeData (ei : HistoricalGraph.EdgeIterator T)
    (c : FocusedIntervalQueryIndex.Currents T) :
    Keeps Steps (ei.getEdgeData c : Storage P T schema _) := by
  have hcollect : ∀ (subBlocks : List BlockId) (parts : List Nat) (data : AttributeData schema),
      Keeps Steps (HistoricalGraph.EdgeIterator.collectParts c.vertex ei.currentEdgeIndex subBlocks
        parts data : Storage P T schema _) := by
    intro subBlocks parts
    induction parts with
    | nil => exact fun data => Keeps.pure data
    | cons i parts ih =>
        intro data
        unfold HistoricalGraph.EdgeIterator.collectParts
        split
        · exact Keeps.throw _
        · exact (steps_frame.getBlock _).bind fun _ => (keeps_ofResult _).bind fun _ => ih _
  unfold HistoricalGraph.EdgeIterator.getEdgeData
  refine (keeps_ofResult _).bind fun data => (steps_frame.getBlock _).bind fun master => ?_
  exact Keeps.ite (Keeps.throw _) (Keeps.ite (Keeps.throw _) (hcollect _ _ _))

theorem steps_next (ω : SetOrder) (ei : HistoricalGraph.EdgeIterator T)
    (c : FocusedIntervalQueryIndex.Currents T) :
    Keeps Steps (ei.next ω c : Storage P T schema _) := by
  unfold HistoricalGraph.EdgeIterator.next
  refine Keeps.ite ?_ ?_
  · exact (steps_getEdge _ c).bind fun edge => Keeps.pure _
  · exact (keeps_ofResult _).bind fun it => steps_initIfValid ω _

theorem steps_edgeResults (ω : SetOrder) (fuel : Nat) (ei : HistoricalGraph.EdgeIterator T) :
    Keeps Steps (ei.results ω fuel : Storage P T schema _) := by
  induction fuel generalizing ei with
  | zero =>
      unfold HistoricalGraph.EdgeIterator.results
      cases ei.valid? with
      | none => exact Keeps.pure _
      | some c => exact Keeps.throw _
  | succ fuel ih =>
      unfold HistoricalGraph.EdgeIterator.results
      cases ei.valid? with
      | none => exact Keeps.pure _
      | some c =>
          refine (steps_getEdge ei c).bind fun edge => (steps_getEdgeData ei c).bind fun data => ?_
          exact (steps_next ω ei c).bind fun ei => (ih ei).bind fun rest => Keeps.pure _

theorem steps_focusedIntervalQuery (ω : SetOrder) (query : HistoricalGraph.FocusedIntervalQuery T)
    (fuel : Nat) :
    Keeps Steps (HistoricalGraph.focusedIntervalQuery ω query fuel : Storage P T schema _) := by
  unfold HistoricalGraph.focusedIntervalQuery HistoricalGraph.EdgeIterator.new
  refine Keeps.bind ?_ fun ei => steps_edgeResults ω fuel ei
  exact Keeps.get.bind fun g => (keeps_ofResult _).bind fun it => steps_initIfValid ω _

end RailwayDB.Storage
