/-
What calls on the historical graph keep.

Whatever adds, finds or rewrites blocks is put together from a few calls of the block
manager and from the splitting of a block.  A relation between the state before and the
state after that these keep is kept by all of it, whether it returns or throws.
-/
import RailwayDB.Lib.Calls
import RailwayDB.Lib.Except
import RailwayDB.Core.HistoricalGraph

namespace RailwayDB.Storage

/-! ### Computations on values -/

section Values

variable {P T : Type} {schema : Schema} {α β : Type} {g : HistoricalGraph P T schema}

theorem ofResult_bind_ok {x : Except Fault α} {a : α} (hx : x = .ok a)
    (f : α → Storage P T schema β) : (ofResult x >>= f) g = f a g := by
  rw [hx]
  rfl

theorem ofResult_eq_ok {x : Except Fault α} {a : α} {g g' : HistoricalGraph P T schema} :
    (ofResult x : Storage P T schema α) g = .ok a g' ↔ x = .ok a ∧ g' = g := by
  cases x with
  | ok b =>
      show EStateM.Result.ok b g = .ok a g' ↔ _
      simp [eq_comm]
  | error e =>
      show EStateM.Result.error e g = .ok a g' ↔ _
      simp

theorem ofResult_bind_error {x : Except Fault α} {e : Fault} (hx : x = .error e)
    (f : α → Storage P T schema β) : (ofResult x >>= f) g = .error e g := by
  rw [hx]
  rfl

theorem get_bind (f : HistoricalGraph P T schema → Storage P T schema β) :
    ((get : Storage P T schema _) >>= f) g = f g g := rfl

theorem modifyBlocks_bind (h : BlockManager T schema → BlockManager T schema)
    (f : Unit → Storage P T schema β) :
    (modifyBlocks h >>= f) g = f () { g with bman := h g.bman } := rfl

theorem onIndex_bind_ok {x : P → Except Fault (α × P)} {a : α} {idx idx' : P}
    (hidx : g.partIndex = idx) (hx : x idx = .ok (a, idx')) (f : α → Storage P T schema β) :
    (onIndex x >>= f) g = f a { g with partIndex := idx' } := by
  have hrun : (onIndex x : Storage P T schema α) g = .ok a { g with partIndex := idx' } := by
    rw [← hidx] at hx
    unfold onIndex
    rw [get_bind, ofResult_bind_ok hx]
    rfl
  exact run_bind_ok hrun

theorem onIndex_eq_ok {x : P → Except Fault (α × P)} {a : α} {g' : HistoricalGraph P T schema} :
    (onIndex x : Storage P T schema α) g = .ok a g' ↔
      ∃ idx, x g.partIndex = .ok (a, idx) ∧ g' = { g with partIndex := idx } := by
  unfold onIndex
  rw [get_bind]
  cases hx : x g.partIndex with
  | error e =>
      rw [ofResult_bind_error rfl]
      simp
  | ok r =>
      rw [ofResult_bind_ok rfl]
      show EStateM.Result.ok r.1 { g with partIndex := r.2 } = .ok a g' ↔ _
      simp only [EStateM.Result.ok.injEq, Except.ok.injEq, Prod.ext_iff]
      constructor
      · rintro ⟨ha, hg⟩
        exact ⟨r.2, ⟨ha, rfl⟩, hg.symm⟩
      · rintro ⟨idx, ⟨ha, hidx⟩, hg⟩
        exact ⟨ha, by rw [hg, ← hidx]⟩

end Values

/-! ### Frames -/

variable {P T : Type} {schema : Schema} [Preorder T] [DecidableLE T] [DecidableLT T] [DecidableEq T]
  [Timestamp T] [BlockTime T] [SliceIndex P T] {α : Type}
  {R : HistoricalGraph P T schema → HistoricalGraph P T schema → Prop} [IsPreorder _ R]

section

omit [Preorder T] [DecidableLE T] [DecidableLT T] [DecidableEq T] [Timestamp T] [BlockTime T]
  [SliceIndex P T]

theorem keeps_ofResult (x : Except Fault α) : Keeps R (ofResult x : Storage P T schema α) := by
  cases x with
  | ok a => exact Keeps.pure a
  | error e => exact Keeps.throw e

end

section

omit [DecidableEq T] [Timestamp T] [SliceIndex P T]

theorem keeps_intersectsWithQuery (rtree : RTree T) (startTime endTime : T) :
    Keeps R (IntervalQueryIndex.intersectsWithQuery rtree startTime endTime :
      Storage P T schema _) :=
  (keeps_ofResult _).bind fun _ => Keeps.get.bind fun _ => Keeps.pure _

end

/-- The R-tree refuses the range, or gives the entries it visits. -/
theorem ends_intersectsWithQuery {T : Type} [Preorder T] [DecidableLE T] [DecidableLT T]
    [BlockTime T] (rtree : RTree T) (startTime endTime : T) (g : HistoricalGraph P T schema) :
    Ends (IntervalQueryIndex.intersectsWithQuery rtree startTime endTime) g
      (fun it g' => g' = g ∧ it = rtree.visit g.iqIndex startTime endTime) fun _ _ => True := by
  unfold IntervalQueryIndex.intersectsWithQuery
  cases hregion : IntervalQueryIndex.checkRegion startTime endTime with
  | error e =>
      rw [Ends, ofResult_bind_error rfl]
      trivial
  | ok u =>
      rw [Ends, ofResult_bind_ok rfl]
      exact ⟨rfl, rfl⟩

/-- A relation on states that the steps keep. -/
structure Frame (R : HistoricalGraph P T schema → HistoricalGraph P T schema → Prop) : Prop where
  getBlock : ∀ id, Keeps R (BlockManager.getBlock id : Storage P T schema _)
  addBlock : ∀ block, Keeps R (BlockManager.addBlock block : Storage P T schema _)
  updateBlock : ∀ block, Keeps R (BlockManager.updateBlock block : Storage P T schema _)
  removeBlock : ∀ id, Keeps R (BlockManager.removeBlock id : Storage P T schema _)
  partitionBlock : ∀ block : Block T (AttributeData schema),
    Keeps R (onIndex block.partitionBlock : Storage P T schema _)
  indexes : ∀ g iqIndex fiqIndex, R g { g with iqIndex := iqIndex, fiqIndex := fiqIndex }

namespace Frame

variable (h : Frame R)

include h

/-! ### Joining a block -/

section

omit [DecidableLE T]

theorem collect (headVertex : VertexId) (k : Nat) (ids : List BlockId)
    (sdata : AttributeData schema) :
    Keeps R (Block.collect headVertex k ids sdata : Storage P T schema _) := by
  induction ids generalizing sdata with
  | nil => exact Keeps.pure sdata
  | cons id ids ih =>
      unfold Block.collect
      exact (h.getBlock id).bind fun block => (keeps_ofResult _).bind fun others => ih _

theorem recombineEdge (ids : List BlockId) (headVertex : VertexId)
    (acc : Block T (AttributeData schema) × Block.Shared T schema)
    (edge : NLEdge T (AttributeData schema) × Nat) :
    Keeps R (Block.recombineEdge ids headVertex acc edge : Storage P T schema _) := by
  unfold Block.recombineEdge
  dsimp only
  split
  · exact (keeps_ofResult _).bind fun block => Keeps.pure _
  · refine (h.collect headVertex edge.2 ids _).bind fun data => ?_
    exact (keeps_ofResult _).bind fun block => Keeps.pure _

theorem recombineBlock (master : Block T (AttributeData schema)) :
    Keeps R (master.recombineBlock : Storage P T schema _) := by
  have hloop : ∀ acc, Keeps R (master.neigs.entries.foldlM (fun acc e =>
      e.2.edges.zipIdx.foldlM (Block.recombineEdge master.subBlocks e.1) acc) acc :
        Storage P T schema _) := by
    intro acc
    refine Keeps.foldlM ?_ _ _
    intro acc e
    exact Keeps.foldlM (fun acc edge => h.recombineEdge master.subBlocks e.1 acc edge) _ _
  unfold Block.recombineBlock
  split
  · exact (Keeps.throw _).bind fun _ => (hloop _).bind fun r => Keeps.pure _
  · exact (hloop _).bind fun r => Keeps.pure _

end

/-! ### Replacing blocks -/

section

omit [DecidableLE T]

theorem replaceSubBlock (subBlocks : List BlockId)
    (newBlocks : List (Block T (AttributeData schema))) (i : Nat) :
    Keeps R (PartitionIndex.replaceSubBlock subBlocks newBlocks i : Storage P T schema _) :=
  (keeps_ofResult _).bind fun _ => (keeps_ofResult _).bind fun _ =>
    (h.updateBlock _).bind fun _ => Keeps.pure _

theorem addSubBlock (subBlocks : List BlockId) (newBlocks : List (Block T (AttributeData schema)))
    (i : Nat) :
    Keeps R (PartitionIndex.addSubBlock subBlocks newBlocks i : Storage P T schema _) :=
  (keeps_ofResult _).bind fun block => (h.addBlock block).bind fun _ => Keeps.pure _

theorem removeSubBlock (subBlocks : List BlockId) (newBlocks : Nat) (u : Unit) (i : Nat) :
    Keeps R (PartitionIndex.removeSubBlock subBlocks newBlocks u i : Storage P T schema _) :=
  (keeps_ofResult _).bind fun id => h.removeBlock id

theorem replaceCounted (masterBlock : Block T (AttributeData schema))
    (newBlocks : List (Block T (AttributeData schema))) (replaces adds removes : Nat) :
    Keeps R (PartitionIndex.replaceCounted masterBlock newBlocks replaces adds removes :
      Storage P T schema _) := by
  unfold PartitionIndex.replaceCounted
  refine (Keeps.foldlM (h.replaceSubBlock masterBlock.subBlocks) _ _).bind fun newBlocks => ?_
  refine (Keeps.foldlM (h.addSubBlock masterBlock.subBlocks) _ _).bind fun newBlocks => ?_
  refine (Keeps.foldlM (h.removeSubBlock masterBlock.subBlocks _) _ _).bind fun _ => ?_
  exact (keeps_ofResult _).bind fun newMaster => h.updateBlock _

theorem replaceBlocks (masterBlock : Block T (AttributeData schema))
    (newBlocks : List (Block T (AttributeData schema))) :
    Keeps R (PartitionIndex.replaceBlocks masterBlock newBlocks : Storage P T schema _) := by
  unfold PartitionIndex.replaceBlocks
  dsimp only
  -- The counts stay closed: unfolding them is costly.
  generalize PartitionIndex.numReplace _ _ = replaces
  generalize PartitionIndex.numAdd _ _ = adds
  generalize PartitionIndex.numRemove _ _ = removes
  have hrest : Keeps R (do
      let adds ← ofResult adds
      let removes ← ofResult removes
      PartitionIndex.replaceCounted masterBlock newBlocks replaces.toNat adds.toNat
        removes.toNat : Storage P T schema _) :=
    (keeps_ofResult _).bind fun _ => (keeps_ofResult _).bind fun _ => h.replaceCounted _ _ _ _ _
  split
  · exact (Keeps.throw _).bind fun _ => hrest
  · exact hrest

end

/-! ### Going through the blocks of a range -/

theorem findNext (startTime endTime : T) (entries : List (IntervalData T)) :
    Keeps R (IntervalQueryIndex.findNext startTime endTime entries : Storage P T schema _) := by
  induction entries with
  | nil => exact Keeps.pure _
  | cons e rest ih =>
      unfold IntervalQueryIndex.findNext
      refine Keeps.ite ih (Keeps.ite ?_ (Keeps.pure _))
      refine (h.getBlock e.id).bind fun block => ?_
      cases block.neigs.lookup e.vertex with
      | none => exact Keeps.throw _
      | some nlist => exact Keeps.ite (Keeps.pure _) ih

theorem query (rtree : RTree T) (startTime endTime : T) :
    Keeps R (IntervalQueryIndex.query rtree startTime endTime : Storage P T schema _) :=
  (keeps_intersectsWithQuery rtree startTime endTime).bind fun _ => h.findNext startTime endTime _

theorem rewriteBlock (startTime endTime : T) (id : BlockId) :
    Keeps R (PartitionIndex.rewriteBlock startTime endTime id : Storage P T schema _) := by
  unfold PartitionIndex.rewriteBlock
  refine (h.getBlock id).bind fun masterBlock => (keeps_ofResult _).bind fun timestamp => ?_
  refine Keeps.ite (Keeps.pure _) ?_
  refine (h.recombineBlock masterBlock).bind fun recombMaster => ?_
  exact (h.partitionBlock recombMaster).bind fun newBlocks => h.replaceBlocks masterBlock newBlocks

theorem updateLoop (startTime endTime : T) (fuel : Nat) (entries : List (IntervalData T))
    (seenIds : List BlockId) :
    Keeps R (PartitionIndex.updateLoop startTime endTime fuel entries seenIds :
      Storage P T schema _) := by
  induction fuel generalizing entries seenIds with
  | zero =>
      cases entries with
      | nil => exact Keeps.pure _
      | cons e rest => exact Keeps.throw _
  | succ fuel ih =>
      cases entries with
      | nil => exact Keeps.pure _
      | cons e rest =>
          unfold PartitionIndex.updateLoop
          refine (h.findNext startTime endTime rest).bind fun it => ?_
          exact Keeps.ite (ih _ _) ((h.rewriteBlock startTime endTime e.id).bind fun _ => ih _ _)

theorem updateBlocks (rtree : RTree T) (startTime endTime : T) :
    Keeps R (PartitionIndex.updateBlocks rtree startTime endTime : Storage P T schema _) :=
  (h.query rtree startTime endTime).bind fun it => h.updateLoop startTime endTime _ it []

theorem updateSlices (rtree : RTree T) (slices : List (TimeSlicedPartitioning T)) :
    Keeps R (PartitionIndex.updateSlices rtree slices : Storage P T schema _) := by
  induction slices with
  | nil => exact Keeps.pure _
  | cons s slices ih =>
      unfold PartitionIndex.updateSlices
      exact (h.updateBlocks rtree s.startTime s.endTime).bind fun _ => ih

end Frame

/-! ### Storing a block

The interval queries compare times in a linear order. -/

section Store

variable {P T : Type} {schema : Schema} [LinearOrder T] [Timestamp T] [BlockTime T]
  [SliceIndex P T] {R : HistoricalGraph P T schema → HistoricalGraph P T schema → Prop}
  [IsPreorder _ R]

theorem Frame.addSubBlocks (h : Frame R) (blocks : List (Block T (AttributeData schema))) :
    Keeps R (HistoricalGraph.addSubBlocks blocks : Storage P T schema _) := by
  unfold HistoricalGraph.addSubBlocks
  induction blocks with
  | nil => exact Keeps.pure _
  | cons block blocks ih =>
      unfold PartitionIndex.addSubBlocks
      exact (h.addBlock block).bind fun _ => ih.bind fun _ => Keeps.pure _

theorem Frame.indexLists (h : Frame R) (id : BlockId)
    (entries : List (Sigma fun _ : VertexId => NeighborList T (AttributeData schema))) :
    Keeps R (FocusedIntervalQueryIndex.indexLists id entries : Storage P T schema _) := by
  induction entries with
  | nil => exact Keeps.pure _
  | cons e entries ih =>
      unfold FocusedIntervalQueryIndex.indexLists FocusedIntervalQueryIndex.putList
      refine Keeps.bind ?_ fun _ => ih
      exact (keeps_ofResult _).bind fun _ => Keeps.modify fun g => h.indexes g g.iqIndex _

theorem Frame.storeBlock (h : Frame R) (block : Block T (AttributeData schema)) :
    Keeps R (HistoricalGraph.addBlock block : Storage P T schema _) := by
  unfold HistoricalGraph.addBlock
  refine (h.partitionBlock block).bind fun newBlocks => ?_
  split
  · refine (h.addSubBlocks _).bind fun ids => (h.addBlock _).bind fun master => ?_
    refine Keeps.bind ?_ fun _ => h.indexLists _ _
    exact (keeps_ofResult _).bind fun _ => Keeps.modify fun g => h.indexes g _ g.fiqIndex
  · exact Keeps.throw _

end Store

/-! ### The partition index -/

/-- A relation between the partition indexes. -/
def OfIndex (Q : P → P → Prop) (g g' : HistoricalGraph P T schema) : Prop :=
  Q g.partIndex g'.partIndex

variable {Q : P → P → Prop} [IsPreorder P Q]

instance : IsPreorder (HistoricalGraph P T schema) (OfIndex Q) where
  refl g := refl_of Q g.partIndex
  trans _ _ _ h h' := trans_of Q h h'

theorem keeps_onIndex {T : Type} {f : P → Except Fault (α × P)}
    (hf : ∀ p a p', f p = .ok (a, p') → Q p p') :
    Keeps (OfIndex Q) (onIndex f : Storage P T schema α) := by
  intro g
  have hrun : Ends (ofResult (f g.partIndex) : Storage P T schema (α × P)) g
      (fun r g' => g' = g ∧ Q g.partIndex r.2) (fun _ g' => OfIndex Q g g') := by
    cases hx : f g.partIndex with
    | error e => exact refl_of Q g.partIndex
    | ok r => exact ⟨rfl, hf _ r.1 r.2 hx⟩
  refine Ends.bind (Ends.get (Q := fun a g' => a = g ∧ g' = g) ⟨rfl, rfl⟩) ?_
  rintro a g' ⟨rfl, rfl⟩
  refine hrun.bind ?_
  rintro r g' ⟨rfl, hr⟩
  exact hr

theorem keeps_modifyBlocks {T : Type} (f : BlockManager T schema → BlockManager T schema) :
    Keeps (OfIndex Q) (modifyBlocks f : Storage P T schema Unit) :=
  Keeps.modify fun g => refl_of Q g.partIndex

theorem keeps_fetch {T : Type} [Preorder T] [DecidableLT T] [DecidableEq T] [Timestamp T]
    [BlockTime T] [SliceIndex P T]
    (hlookup : ∀ (p : P) t s p', SliceIndex.getTimeSlicedPartitioningForBlockDeserialization p t
      = .ok (s, p') → Q p p') (id : BlockId) :
    Keeps (OfIndex Q) (BlockManager.fetch id : Storage P T schema Unit) := by
  unfold BlockManager.fetch
  refine (keeps_ofResult _).bind fun key => Keeps.get.bind fun g => ?_
  cases g.bman.db.find? key with
  | none => exact Keeps.throw _
  | some value =>
      refine (keeps_modifyBlocks _).bind fun _ => Keeps.bind (keeps_onIndex ?_) fun r =>
        keeps_modifyBlocks _
      intro p a p' hread
      unfold Block.deserialize at hread
      obtain ⟨header, -, hread⟩ := Except.bind_eq_ok.mp hread
      obtain ⟨⟨s, p''⟩, hget, hread⟩ := Except.bind_eq_ok.mp hread
      obtain ⟨body, -, hread⟩ := Except.bind_eq_ok.mp hread
      rw [Except.pure_eq_ok, Except.ok.injEq, Prod.mk.injEq] at hread
      rw [← hread.2]
      exact hlookup p _ s p'' hget

theorem keeps_getBlock {T : Type} [Preorder T] [DecidableLT T] [DecidableEq T] [Timestamp T]
    [BlockTime T] [SliceIndex P T]
    (hlookup : ∀ (p : P) t s p', SliceIndex.getTimeSlicedPartitioningForBlockDeserialization p t
      = .ok (s, p') → Q p p') (id : BlockId) :
    Keeps (OfIndex Q) (BlockManager.getBlock id : Storage P T schema _) := by
  unfold BlockManager.getBlock
  refine Keeps.get.bind fun g => ?_
  cases g.bman.cache.lookup id with
  | some entry =>
      refine Keeps.bind ?_ fun _ => Keeps.get.bind fun _ => keeps_ofResult _
      exact Keeps.get.bind fun _ => (keeps_ofResult _).bind fun _ => keeps_modifyBlocks _
  | none => exact (keeps_fetch hlookup id).bind fun _ => Keeps.get.bind fun _ => keeps_ofResult _

theorem keeps_put {T : Type} [Preorder T] [DecidableLT T] [DecidableEq T] [Timestamp T]
    [BlockTime T] (block : Block T (AttributeData schema)) :
    Keeps (OfIndex Q) (BlockManager.put block : Storage P T schema Unit) :=
  (keeps_ofResult _).bind fun _ => (keeps_ofResult _).bind fun _ => keeps_modifyBlocks _

/-- What the two lookups keep of the partition index, the steps keep. -/
theorem frame_ofIndex {T : Type} [Preorder T] [DecidableLT T] [DecidableEq T] [Timestamp T]
    [BlockTime T] [SliceIndex P T]
    (hget : ∀ (p : P) t s p', SliceIndex.getTimeSlicedPartitioning p t = .ok (s, p') → Q p p')
    (hlookup : ∀ (p : P) t s p', SliceIndex.getTimeSlicedPartitioningForBlockDeserialization p t
      = .ok (s, p') → Q p p') :
    Frame (OfIndex Q : HistoricalGraph P T schema → _ → Prop) := by
  refine ⟨keeps_getBlock hlookup, ?_, ?_, ?_, ?_, fun g _ _ => refl_of Q g.partIndex⟩
  · intro block
    refine Keeps.get.bind fun _ => Keeps.bind (Keeps.modify fun g => refl_of Q g.partIndex) ?_
    exact fun _ => (keeps_put _).bind fun _ => Keeps.pure _
  · intro block
    refine (keeps_getBlock hlookup block.id).bind fun _ => ?_
    exact (keeps_modifyBlocks _).bind fun _ => keeps_put block
  · intro id
    refine (keeps_ofResult _).bind fun _ => (keeps_modifyBlocks _).bind fun _ => ?_
    exact Keeps.get.bind fun _ => (keeps_ofResult _).bind fun _ => keeps_modifyBlocks _
  · intro block
    refine keeps_onIndex ?_
    intro p a p' hsplit
    unfold Block.partitionBlock at hsplit
    obtain ⟨t, -, hsplit⟩ := Except.bind_eq_ok.mp hsplit
    obtain ⟨⟨s, p''⟩, hlook, hsplit⟩ := Except.bind_eq_ok.mp hsplit
    obtain ⟨blocks, -, hsplit⟩ := Except.bind_eq_ok.mp hsplit
    rw [Except.pure_eq_ok, Except.ok.injEq, Prod.mk.injEq] at hsplit
    rw [← hsplit.2]
    exact hget p _ s p'' hlook

end RailwayDB.Storage
