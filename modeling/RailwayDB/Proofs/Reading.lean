/-
Queries disturb nothing.

A query reads blocks, which moves them to the front of the cache and others out of it,
and looks up the slices of the blocks it has read.  Whether it returns or throws, the
store, the indices and the meta data are as they were, and the cache still has what the
store has.
-/
import RailwayDB.Proofs.Recombine
import RailwayDB.Proofs.StorageFrame

namespace RailwayDB.Storage

open BlockManager

variable {P T : Type} {schema : Schema} [LinearOrder T] [Timestamp T] [BlockTime T] [SliceIndex P T]
  {Ok : P → Prop} {parts : T → Option Partitioning}
  {stored : BlockId → Option (Block T (AttributeData schema))} {g g' : HistoricalGraph P T schema}

/-- A state that holds the blocks goes to one that does, and only the cache is another. -/
def Undisturbed (Ok : P → Prop) (parts : T → Option Partitioning)
    (stored : BlockId → Option (Block T (AttributeData schema)))
    (g g' : HistoricalGraph P T schema) : Prop :=
  Held Ok parts Block.ComesBack stored g → 1 ≤ g.bman.blockBufferSize →
    Held Ok parts Block.ComesBack stored g' ∧ ReadOnly g g'

instance : IsPreorder (HistoricalGraph P T schema) (Undisturbed Ok parts stored) where
  refl g := fun h _ => ⟨h, ReadOnly.refl g⟩
  trans _ _ _ h h' := by
    intro hheld hroom
    obtain ⟨hheld', hread⟩ := h hheld hroom
    obtain ⟨hheld'', hread'⟩ := h' hheld' (by rw [hread.blockBufferSize]; exact hroom)
    exact ⟨hheld'', hread.trans hread'⟩

/-- A block that is in neither the cache nor the store is not found. -/
theorem getBlock_missing {id : BlockId} (hcache : g.bman.cache.lookup id = none)
    (hdb : g.bman.db.find? (keyBytes id) = none) : getBlock id g = .error (.blockNotFound id) g := by
  have hrun : fetch id g = .error (.blockNotFound id) g := by
    unfold fetch
    rw [ofResult_bind_ok (key_eq id), get_bind]
    simp only [hdb]
    rfl
  unfold getBlock
  rw [get_bind, hcache]
  show (fetch id >>= fun _ => _) g = _
  rw [run_bind_error hrun]

/-- The time of a block that was read has a slice. -/
theorem exists_part {P T : Type} {schema : Schema} [LinearOrder T] [Timestamp T] [BlockTime T]
    {Ok : P → Prop} {parts : T → Option Partitioning}
    {stored : BlockId → Option (Block T (AttributeData schema))} {g : HistoricalGraph P T schema}
    {id : BlockId} {block b : Block T (AttributeData schema)}
    (h : Held Ok parts Block.ComesBack stored g) (hstored : stored id = some block)
    (hback : block.ComesBack b) {t : T} (htime : b.getPartitioningTimestamp = .ok t) :
    ∃ part, parts t = some part := by
  obtain ⟨-, -, ⟨⟨F, seen, hbuilt, -⟩, t', part, htime', hpart, -⟩, -⟩ := h.present id block hstored
  obtain ⟨F', seen', hbuilt', -⟩ := hback.formed
  have hsame : b.getPartitioningTimestamp = block.getPartitioningTimestamp := by
    unfold Block.getPartitioningTimestamp
    rw [Block.findMinMaxTimestamps_congr hbuilt.lists hbuilt'.lists
      fun u => Block.ends_of_contents (hback.edges u)]
  rw [hsame, htime', Except.ok.injEq] at htime
  rw [← htime]
  exact ⟨part, hpart⟩

section Reading

variable (hanswers : Answers Ok parts)

include hanswers

/-- Reading a block; what is read is a stored block come back. -/
theorem ends_read (id : BlockId) (h : Held Ok parts Block.ComesBack stored g)
    (hroom : 1 ≤ g.bman.blockBufferSize) :
    Ends (getBlock id) g
      (fun b g' => (∃ block, stored id = some block ∧ block.ComesBack b) ∧
        Held Ok parts Block.ComesBack stored g' ∧ ReadOnly g g')
      (fun _ g' => Held Ok parts Block.ComesBack stored g' ∧ ReadOnly g g') := by
  unfold Ends
  cases hstored : stored id with
  | none =>
      rw [getBlock_none h hstored]
      exact ⟨h, ReadOnly.refl g⟩
  | some block =>
      obtain ⟨b, g', hrun, hback, hheld, hread⟩ :=
        getBlock_ok hanswers (fun _ _ hb => hb.id) h hroom hstored
      rw [hrun]
      exact ⟨⟨block, rfl, hback⟩, hheld, hread⟩

theorem undisturbed_getBlock (id : BlockId) :
    Keeps (Undisturbed Ok parts stored) (getBlock id : Storage P T schema _) := by
  refine Keeps.of_stateAfter ?_
  intro g h hroom
  exact ((ends_read hanswers id h hroom).mono (fun _ _ hb => hb.2) fun _ _ hb => hb).stateAfter

/-! ### Interval queries -/

theorem undisturbed_findNext (startTime endTime : T) (entries : List (IntervalData T)) :
    Keeps (Undisturbed Ok parts stored)
      (IntervalQueryIndex.findNext startTime endTime entries : Storage P T schema _) := by
  induction entries with
  | nil => exact Keeps.pure _
  | cons e rest ih =>
      unfold IntervalQueryIndex.findNext
      refine Keeps.ite ih (Keeps.ite ?_ (Keeps.pure _))
      refine (undisturbed_getBlock hanswers e.id).bind fun block => ?_
      cases block.neigs.lookup e.vertex with
      | none => exact Keeps.throw _
      | some nlist => exact Keeps.ite (Keeps.pure _) ih

theorem undisturbed_skip (startTime endTime : T) (vertices : List VertexId) (fuel : Nat)
    (it : List (IntervalData T)) :
    Keeps (Undisturbed Ok parts stored)
      (HistoricalGraph.VertexIterator.skip startTime endTime vertices fuel it :
        Storage P T schema _) := by
  induction fuel generalizing it with
  | zero => exact Keeps.throw _
  | succ fuel ih =>
      unfold HistoricalGraph.VertexIterator.skip
      refine Keeps.bind ?_ fun it => ?_
      · cases it with
        | nil => exact Keeps.throw _
        | cons e rest => exact undisturbed_findNext hanswers startTime endTime rest
      · cases it with
        | nil => exact Keeps.pure _
        | cons e rest => exact Keeps.ite (ih _) (Keeps.pure _)

theorem undisturbed_vertexResults (fuel : Nat) (vi : HistoricalGraph.VertexIterator T) :
    Keeps (Undisturbed Ok parts stored) (vi.results fuel : Storage P T schema _) := by
  induction fuel generalizing vi with
  | zero =>
      unfold HistoricalGraph.VertexIterator.results
      exact Keeps.ite (Keeps.throw _) (Keeps.pure _)
  | succ fuel ih =>
      unfold HistoricalGraph.VertexIterator.results HistoricalGraph.VertexIterator.next
      refine Keeps.ite ?_ (Keeps.pure _)
      refine (keeps_ofResult _).bind fun vertex => Keeps.bind (Keeps.ite ?_ (Keeps.throw _)) ?_
      · exact (undisturbed_skip hanswers _ _ _ _ _).bind fun it => Keeps.pure _
      · exact fun vi => (ih vi).bind fun rest => Keeps.pure _

theorem undisturbed_intervalQuery (rtree : RTree T) (startTime endTime : T) :
    Keeps (Undisturbed Ok parts stored)
      (HistoricalGraph.intervalQuery rtree startTime endTime : Storage P T schema _) := by
  unfold HistoricalGraph.intervalQuery IntervalQueryIndex.query
  refine Keeps.bind ?_ fun _ => undisturbed_vertexResults hanswers _ _
  exact (keeps_intersectsWithQuery rtree startTime endTime).bind fun _ =>
    undisturbed_findNext hanswers startTime endTime _

/-! ### Focused queries -/

/-- A slice is looked up at the time of a block that was read. -/
theorem undisturbed_usePartitioning (ω : SetOrder) (ei : HistoricalGraph.EdgeIterator T) {t : T}
    {part : Partitioning} (hpart : parts t = some part) :
    Keeps (Undisturbed Ok parts stored)
      (HistoricalGraph.EdgeIterator.usePartitioning ω ei t : Storage P T schema _) := by
  unfold HistoricalGraph.EdgeIterator.usePartitioning
  refine Keeps.ite (Keeps.bind ?_ fun _ => ?_) (Keeps.pure _)
  · refine Keeps.of_stateAfter ?_
    intro g h _
    obtain ⟨tpart, idx, hlookup, -, hok⟩ := hanswers.write _ _ _ h.index hpart
    have hrun : (onIndex fun p => SliceIndex.getTimeSlicedPartitioning p t) g
        = .ok tpart { g with partIndex := idx } := onIndex_eq_ok.mpr ⟨idx, hlookup, rfl⟩
    unfold stateAfter
    rw [hrun]
    exact ⟨⟨hok, h.tidy, h.absent, h.present, h.cached⟩, rfl, rfl, rfl, rfl, rfl⟩
  · exact Keeps.get.bind fun _ => (keeps_ofResult _).bind fun _ => Keeps.pure _

theorem undisturbed_initFromBlock (ω : SetOrder) (ei : HistoricalGraph.EdgeIterator T)
    (c : FocusedIntervalQueryIndex.Currents T) :
    Keeps (Undisturbed Ok parts stored) (ei.initFromBlock ω c : Storage P T schema _) := by
  refine Keeps.of_stateAfter ?_
  intro g h hroom
  refine Ends.stateAfter (Q := fun g' => Held Ok parts Block.ComesBack stored g' ∧ ReadOnly g g') ?_
  unfold HistoricalGraph.EdgeIterator.initFromBlock
  refine Ends.bind ((ends_read hanswers c.block h hroom).mono (fun _ _ hb => hb) fun _ _ hb => hb) ?_
  rintro b g₁ ⟨⟨block, hstored, hback⟩, hheld, hread⟩
  have hroom₁ : 1 ≤ g₁.bman.blockBufferSize := by
    rw [hread.blockBufferSize]
    exact hroom
  have hrest : Keeps (Undisturbed Ok parts stored) (do
      let t ← ofResult b.getPartitioningTimestamp
      let ei ← HistoricalGraph.EdgeIterator.usePartitioning ω ei t
      let nlist ← ofResult (HistoricalGraph.EdgeIterator.listOf b c.vertex)
      ofResult (ei.enterList nlist) : Storage P T schema _) := by
    cases htime : b.getPartitioningTimestamp with
    | error e => exact fun g => refl_of (Undisturbed Ok parts stored) g
    | ok t =>
        obtain ⟨part, hpart⟩ := exists_part h hstored hback htime
        refine (undisturbed_usePartitioning hanswers ω ei hpart).bind fun ei => ?_
        exact (keeps_ofResult _).bind fun nlist => keeps_ofResult _
  have hall : ∀ g', Undisturbed Ok parts stored g₁ g' →
      Held Ok parts Block.ComesBack stored g' ∧ ReadOnly g g' := by
    intro g' hdone
    obtain ⟨hheld', hread'⟩ := hdone hheld hroom₁
    exact ⟨hheld', hread.trans hread'⟩
  exact (hrest g₁).mono (fun _ g' => hall g') fun _ g' => hall g'

theorem undisturbed_initIfValid (ω : SetOrder) (ei : HistoricalGraph.EdgeIterator T) :
    Keeps (Undisturbed Ok parts stored) (ei.initIfValid ω : Storage P T schema _) := by
  unfold HistoricalGraph.EdgeIterator.initIfValid
  cases ei.it.valid? with
  | none => exact Keeps.pure _
  | some c => exact undisturbed_initFromBlock hanswers ω ei c

theorem undisturbed_getEdge (ei : HistoricalGraph.EdgeIterator T)
    (c : FocusedIntervalQueryIndex.Currents T) :
    Keeps (Undisturbed Ok parts stored) (ei.getEdge c : Storage P T schema _) :=
  (undisturbed_getBlock hanswers _).bind fun _ => (keeps_ofResult _).bind fun _ => keeps_ofResult _

theorem undisturbed_getEdgeData (ei : HistoricalGraph.EdgeIterator T)
    (c : FocusedIntervalQueryIndex.Currents T) :
    Keeps (Undisturbed Ok parts stored) (ei.getEdgeData c : Storage P T schema _) := by
  have hcollect : ∀ (subBlocks : List BlockId) (chosen : List Nat) (data : AttributeData schema),
      Keeps (Undisturbed Ok parts stored) (HistoricalGraph.EdgeIterator.collectParts c.vertex
        ei.currentEdgeIndex subBlocks chosen data : Storage P T schema _) := by
    intro subBlocks chosen
    induction chosen with
    | nil => exact fun data => Keeps.pure data
    | cons i chosen ih =>
        intro data
        unfold HistoricalGraph.EdgeIterator.collectParts
        cases subBlocks[i]? with
        | none => exact Keeps.throw _
        | some id =>
            exact (undisturbed_getBlock hanswers id).bind fun _ => (keeps_ofResult _).bind fun _ => ih _
  unfold HistoricalGraph.EdgeIterator.getEdgeData
  refine (keeps_ofResult _).bind fun data => (undisturbed_getBlock hanswers _).bind fun master => ?_
  exact Keeps.ite (Keeps.throw _) (Keeps.ite (Keeps.throw _) (hcollect _ _ _))

theorem undisturbed_next (ω : SetOrder) (ei : HistoricalGraph.EdgeIterator T)
    (c : FocusedIntervalQueryIndex.Currents T) :
    Keeps (Undisturbed Ok parts stored) (ei.next ω c : Storage P T schema _) := by
  unfold HistoricalGraph.EdgeIterator.next
  refine Keeps.ite ?_ ?_
  · exact (undisturbed_getEdge hanswers _ c).bind fun edge => Keeps.pure _
  · exact (keeps_ofResult _).bind fun it => undisturbed_initIfValid hanswers ω _

theorem undisturbed_edgeResults (ω : SetOrder) (fuel : Nat) (ei : HistoricalGraph.EdgeIterator T) :
    Keeps (Undisturbed Ok parts stored) (ei.results ω fuel : Storage P T schema _) := by
  induction fuel generalizing ei with
  | zero =>
      unfold HistoricalGraph.EdgeIterator.results
      cases ei.valid? with
      | none => exact Keeps.pure _
      | some c => exact Keeps.throw _
  | succ fuel ih =>
      unfold HistoricalGraph.EdgeIterator.results
      cases ei.valid? with
      | none => exact Keeps.pure _
      | some c =>
          refine (undisturbed_getEdge hanswers ei c).bind fun edge => ?_
          refine (undisturbed_getEdgeData hanswers ei c).bind fun data => ?_
          refine (undisturbed_next hanswers ω ei c).bind fun ei => (ih ei).bind fun rest => ?_
          exact Keeps.pure _

theorem undisturbed_focusedIntervalQuery (ω : SetOrder)
    (query : HistoricalGraph.FocusedIntervalQuery T) (fuel : Nat) :
    Keeps (Undisturbed Ok parts stored)
      (HistoricalGraph.focusedIntervalQuery ω query fuel : Storage P T schema _) := by
  unfold HistoricalGraph.focusedIntervalQuery HistoricalGraph.EdgeIterator.new
  refine Keeps.bind ?_ fun ei => undisturbed_edgeResults hanswers ω fuel ei
  exact Keeps.get.bind fun g => (keeps_ofResult _).bind fun it => undisturbed_initIfValid hanswers ω _

end Reading

end RailwayDB.Storage
