/-
A graph that is tuned while it is used.

A run adds edges, flushes, and asks queries, which the collector takes in.  Now and then
the partitioning that a solver finds for the collected queries is put in the place of a
slice.  Which solver it is, which slice, and how often does not matter: the graph stays
one of the runs of `RunQueries`, the collector stays one of `CollectedWorkload`, and a
focused query finds its edges and is taken in itself.
-/
import RailwayDB.Proofs.Tuning

namespace RailwayDB

open Common (AttributePtr)
open Common.Cost (Sized)
open HistoricalGraph.EdgeIterator (Gives inRange)
open InteractionGraph (Call InOrder Recorded Replaceable WellNamed collect onHistory)
open Optimizer (Solver Gurobi)
open PartitionIndex (Replacement Anchored Timeline Recut partsOf recut kept)
open QueryCollector (Collected)

/-! ### One slice for another -/

section Install

variable {T : Type} [LinearOrder T] [Timestamp T] [BlockTime T]
  {ss : List (TimeSlicedPartitioning T)} {old : TimeSlicedPartitioning T}
  {parting : Common.Partitioning}

theorem TimeSlicedPartitioning.length_recut_install {T : Type} [LinearOrder T]
    {ss : List (TimeSlicedPartitioning T)} {old : TimeSlicedPartitioning T} (hold : old ∈ ss) :
    (recut [old] [old.install parting] ss).length ≤ ss.length := by
  have hkept : (kept [old] ss).length < ss.length := by
    unfold kept
    rw [List.length_filter_lt_length_iff_exists]
    exact ⟨old, hold, by simp⟩
  unfold recut
  rw [List.length_append, List.length_singleton]
  exact hkept

/-- No slice ends at a time where none ended before. -/
theorem PartitionIndex.Recut.partsOf_install {a b t : T} (hl : Timeline ss)
    (h : Recut ss [old] [old.install parting] a b)
    (hl' : Timeline (recut [old] [old.install parting] ss)) (hpart : partsOf ss t ≠ none) :
    partsOf (recut [old] [old.install parting] ss) t ≠ none := by
  obtain ⟨part, hpart⟩ := Option.ne_none_iff_exists'.mp hpart
  obtain ⟨s, hin, -⟩ := PartitionIndex.exists_inside hpart
  obtain ⟨hlow, hhigh⟩ := hl.tiles.within s hin.mem
  refine hl'.exists_part (hlow.trans hin.start) hin.nonneg (hin.stop.trans_le hhigh) ?_
  intro s' hs'
  rcases List.mem_append.mp hs' with hs' | hs'
  · exact hin.inner s' ((h.mem_kept hl).mp hs').1
  · rw [List.mem_singleton.mp hs']
    exact hin.inner old (h.sub old List.mem_cons_self)

end Install

/-! ### A query that finds nothing -/

theorem HistoricalGraph.focusedIntervalQuery_of_end {P T : Type} [LinearOrder T] [Timestamp T]
    [BlockTime T] [SliceIndex P T] {schema : Schema} {g : HistoricalGraph P T schema}
    {query : FocusedIntervalQuery T} {it : FocusedIntervalQueryIndex.Iterator T}
    (hnew : FocusedIntervalQueryIndex.Iterator.new g.fiqIndex query.headVertex query.startTime
      query.endTime = .ok it) (hend : it.valid? = none) (ω : SetOrder) (fuel : Nat) :
    focusedIntervalQuery ω query fuel g = .ok [] g := by
  have hei : EdgeIterator.new ω query g = .ok ⟨false, 0, 0, .new, [], it,
      query.attributeNames.dedup⟩ g := by
    unfold EdgeIterator.new
    rw [Storage.get_bind, Storage.ofResult_bind_ok hnew]
    unfold EdgeIterator.initIfValid
    rw [hend]
    rfl
  unfold focusedIntervalQuery
  rw [run_bind_ok hei]
  unfold EdgeIterator.results EdgeIterator.valid?
  rw [if_neg Bool.false_ne_true, hend]
  rfl

/-! ### Runs -/

namespace CollectingGraph

variable {T S : Type} [LinearOrder T] [LinearOrder S] [Score S] [TimeScore T S] [Timestamp T]
  [BlockTime T] [WrittenInOrder T] {vertexSchema edgeSchema : Schema} {hashes : Hashes edgeSchema}
  {ss : List (TimeSlicedPartitioning T)} {es : List (GraphEdge T (AttributeData edgeSchema))}
  {qs : List (List Text)} {c c' : CollectingGraph (PartitionIndex T) T S vertexSchema edgeSchema}

/-- A solver found the partitioning for queries that were collected, now or before, and average sizes
that were known. -/
inductive Recommended (hashes : Hashes edgeSchema) : Common.Partitioning → Prop
  | solve {qs : List (List Text)} {qcol : QueryCollector edgeSchema}
      {w : CollectedWorkload edgeSchema} {stats : SchemaStats} {size : Nat → ℚ} {threshold : ℚ}
      {parting : Common.Partitioning} (solver : Solver) (gurobi : Gurobi) (ω : SetOrder)
      (σ : SortOrder AttributePtr) :
      Collected hashes qs qcol → qcol.workloads.find? 0 = some w → qs.length + 1 < 2 ^ 29 →
      Sized edgeSchema.attributePtrs stats size →
      (∀ a < edgeSchema.attributes.length, 0 ≤ size a) → 0 ≤ threshold →
      solver.solve gurobi ω σ stats w.read threshold = .ok parting → Recommended hashes parting

/-- The slice is in force, and the blocks in it have edges in it and no text that is too long. -/
structure Tunable (ss : List (TimeSlicedPartitioning T))
    (es : List (GraphEdge T (AttributeData edgeSchema)))
    (g : InteractionGraph (PartitionIndex T) T S vertexSchema edgeSchema)
    (old : TimeSlicedPartitioning T) (parting : Common.Partitioning) : Prop where
  mem : old ∈ ss
  ids : g.hisg.metaData.nextBlockId ≤ 2 ^ 64
  anchored : Anchored [old.install parting] g.hisg
  short : ∀ e ∈ es, e.data.val.Short
  before : Block.Sliced (fun t => partsOf ss t ≠ none) (es.map GraphEdge.time)

/-- A run from a new collector, with the slices in force, the edges that were added, and the queries
since the workloads were reset. -/
inductive Tuned (hashes : Hashes edgeSchema) : List (TimeSlicedPartitioning T) →
    List (GraphEdge T (AttributeData edgeSchema)) → List (List Text) →
    CollectingGraph (PartitionIndex T) T S vertexSchema edgeSchema → Prop
  | start {ss : List (TimeSlicedPartitioning T)}
      {es : List (GraphEdge T (AttributeData edgeSchema))}
      {g : InteractionGraph (PartitionIndex T) T S vertexSchema edgeSchema} :
      Recorded ss es g → Tuned hashes ss es [] ⟨g, .new⟩
  | ask {ss : List (TimeSlicedPartitioning T)} {es : List (GraphEdge T (AttributeData edgeSchema))}
      {qs : List (List Text)} {c c' : CollectingGraph (PartitionIndex T) T S vertexSchema edgeSchema}
      {found : List (HistoricalGraph.EdgeIterator.Found T edgeSchema)} (ω : SetOrder)
      (query : HistoricalGraph.FocusedIntervalQuery T) (fuel : Nat) :
      Tuned hashes ss es qs c → c.processFocusedIntervalQuery hashes ω query fuel = .ok found c' →
      Tuned hashes ss es (qs ++ [query.attributeNames]) c'
  | addEdge {ss : List (TimeSlicedPartitioning T)}
      {es : List (GraphEdge T (AttributeData edgeSchema))} {qs : List (List Text)}
      {c : CollectingGraph (PartitionIndex T) T S vertexSchema edgeSchema}
      {g : InteractionGraph (PartitionIndex T) T S vertexSchema edgeSchema}
      (ω : Nat → Oracle S) (v u : VertexId) (time : T) (edgeData : List Value) :
      Tuned hashes ss es qs c → InOrder (es.map GraphEdge.time) c.graph time →
      InteractionGraph.addEdge ω v u time edgeData c.graph = .ok () g →
      Tuned hashes ss
        (es ++ [⟨v, u, time, ⟨c.graph.nextAddr, collect (.new edgeSchema) 0 edgeData⟩⟩]) qs
        ⟨g, c.qcol⟩
  | flush {ss : List (TimeSlicedPartitioning T)} {es : List (GraphEdge T (AttributeData edgeSchema))}
      {qs : List (List Text)} {c : CollectingGraph (PartitionIndex T) T S vertexSchema edgeSchema}
      {g : InteractionGraph (PartitionIndex T) T S vertexSchema edgeSchema}
      (ω ω' : Nat → Oracle S) (fuel : Nat) :
      Tuned hashes ss es qs c → InteractionGraph.flush ω ω' fuel c.graph = .ok () g →
      Tuned hashes ss es qs ⟨g, c.qcol⟩
  | tune {ss : List (TimeSlicedPartitioning T)} {es : List (GraphEdge T (AttributeData edgeSchema))}
      {qs : List (List Text)} {c : CollectingGraph (PartitionIndex T) T S vertexSchema edgeSchema}
      {g : InteractionGraph (PartitionIndex T) T S vertexSchema edgeSchema}
      {old : TimeSlicedPartitioning T} {parting : Common.Partitioning} (rtree : RTree T) :
      Tuned hashes ss es qs c → Recommended hashes parting → Tunable ss es c.graph old parting →
      InteractionGraph.replaceTimeSlicedPartitioning rtree old [old.install parting] c.graph
        = .ok () g →
      Tuned hashes (recut [old] [old.install parting] ss) es qs ⟨g, c.qcol⟩
  | reset {ss : List (TimeSlicedPartitioning T)} {es : List (GraphEdge T (AttributeData edgeSchema))}
      {qs : List (List Text)} {c : CollectingGraph (PartitionIndex T) T S vertexSchema edgeSchema} :
      Tuned hashes ss es qs c → Tuned hashes ss es [] c.resetWorkloads

theorem processFocusedIntervalQuery_eq_ok {T S : Type} [LinearOrder T] [LinearOrder S] [Timestamp T]
    [BlockTime T] {c c' : CollectingGraph (PartitionIndex T) T S vertexSchema edgeSchema}
    {ω : SetOrder} {query : HistoricalGraph.FocusedIntervalQuery T} {fuel : Nat}
    {found : List (HistoricalGraph.EdgeIterator.Found T edgeSchema)} :
    c.processFocusedIntervalQuery hashes ω query fuel = .ok found c' ↔
      c.qcol.collectFocusedIntervalQuery hashes (.new hashes.nameHash query.attributeNames)
          = .ok c'.qcol ∧
        InteractionGraph.processFocusedIntervalQuery ω query fuel c.graph = .ok found c'.graph := by
  unfold CollectingGraph.processFocusedIntervalQuery
  dsimp only
  cases hcollect : c.qcol.collectFocusedIntervalQuery hashes
      (.new hashes.nameHash query.attributeNames) with
  | error e =>
      refine ⟨fun h => ?_, fun h => ?_⟩
      · cases h
      · cases h.1
  | ok qcol =>
      cases hquery : InteractionGraph.processFocusedIntervalQuery ω query fuel c.graph with
      | error e graph =>
          refine ⟨fun h => ?_, fun h => ?_⟩
          · cases h
          · cases h.2
      | ok found' graph =>
          refine ⟨fun h => ?_, fun h => ?_⟩
          · cases h
            exact ⟨rfl, rfl⟩
          · obtain ⟨h1, h2⟩ := h
            cases h1
            cases h2
            rfl

theorem Recommended.insertable {T : Type} [LinearOrder T] [BlockTime T]
    {parting : Common.Partitioning} (h : Recommended hashes parting) (hnamed : WellNamed edgeSchema)
    (hne : edgeSchema.attributes ≠ []) (hfew : edgeSchema.attributes.length < 2 ^ 29)
    {old : TimeSlicedPartitioning T} (hend : BlockTime.zero ≤ old.endTime) :
    PartitionIndex.Insertable edgeSchema (old.install parting) := by
  cases h with
  | @solve qs qcol w stats size threshold parting solver gurobi ω σ hcollected hfind hmany hsized
      hnonneg hthreshold hsolve =>
      have hmix := hcollected.mix_of_find? hfind
      have hsolved := solver.solved (hmix.solvable hsized hnonneg) hthreshold hsolve
      have hlength := hmix.length_le
      exact hsolved.insertable hmix.attributes hnamed hne hfew (by omega) hend

/-- What a solver finds for collected queries can replace a slice. -/
theorem Tunable.replaceable {g g' : InteractionGraph (PartitionIndex T) T S vertexSchema edgeSchema}
    {old : TimeSlicedPartitioning T} {parting : Common.Partitioning} {rtree : RTree T}
    (h : Tunable ss es g old parting) (hnamed : WellNamed edgeSchema) (hrecorded : Recorded ss es g)
    (hinsertable : PartitionIndex.Insertable edgeSchema (old.install parting))
    (hrun : InteractionGraph.replaceTimeSlicedPartitioning rtree old [old.install parting] g
      = .ok () g') :
    Replaceable ss es (.one old [old.install parting]) g := by
  have hkeeping := hrecorded.keeping hnamed
  have hl := hkeeping.slices.timeline
  have hinsert : ∀ s ∈ [old.install parting], PartitionIndex.Insertable edgeSchema s := by
    intro s hs
    rw [List.mem_singleton.mp hs]
    exact hinsertable
  have hold : ∀ s ∈ (Replacement.one old [old.install parting]).old, s ∈ ss := by
    intro s hs
    rw [List.mem_singleton.mp hs]
    exact h.mem
  have hempty : (Replacement.one old [old.install parting]).NonEmpty := by
    intro s hs
    rw [List.mem_singleton.mp hs]
    exact hl.tiles.nonempty old h.mem
  have hone : onHistory ((Replacement.one old [old.install parting]).run rtree) g = .ok () g' := hrun
  obtain ⟨hcall, -⟩ := InteractionGraph.onHistory_eq_ok hone
  obtain ⟨a, b, hcut, -, -, -⟩ := Replacement.recut hl hold hempty hcall
  have hl' := (hkeeping.slices.after hnamed.nodup hcut hinsert hcall).timeline
  obtain ⟨stored, blocks, expired, window, hkept⟩ :=
    (hkeeping.conserves h.before).resolve_left (not_lt.mpr h.ids)
  refine ⟨hold, hempty, hinsert, ?_, h.anchored, h.short, h.before, h.before.finite, ?_, ?_⟩
  · exact (TimeSlicedPartitioning.length_recut_install h.mem).trans hkept.files.held.index.room
  · exact hcut.partsOf_install hl hl' h.before.none
  · intro t ht u hu hle
    exact hcut.partsOf_install hl hl' (h.before.pair t ht u hu hle)

/-- **Tuning is a run of the graph.** -/
theorem Tuned.recorded (hnamed : WellNamed edgeSchema) (hne : edgeSchema.attributes ≠ [])
    (hfew : edgeSchema.attributes.length < 2 ^ 29) (h : Tuned hashes ss es qs c) :
    Recorded ss es c.graph ∧ Collected hashes qs c.qcol := by
  induction h with
  | start hrecorded => exact ⟨hrecorded, .new⟩
  | @ask ss es qs c c' found ω query fuel _ hrun ih =>
      obtain ⟨hcollect, hquery⟩ := processFocusedIntervalQuery_eq_ok.mp hrun
      have hafter : (Call.processFocusedIntervalQuery ω query fuel : Call T S).after c.graph
          = c'.graph := by
        show stateAfter (InteractionGraph.processFocusedIntervalQuery ω query fuel) c.graph = _
        unfold stateAfter
        rw [hquery]
      refine ⟨?_, ih.2.collect _ hcollect⟩
      rw [← hafter]
      exact ih.1.ask _ trivial
  | addEdge ω v u time edgeData _ hfirst hrun ih =>
      exact ⟨ih.1.addEdge ω v u time edgeData hfirst hrun, ih.2⟩
  | flush ω ω' fuel _ hrun ih => exact ⟨ih.1.flush ω ω' fuel hrun, ih.2⟩
  | tune rtree _ hrec htunable hrun ih =>
      have hend := (ih.1.keeping hnamed).slices.timeline.nonneg _ htunable.mem
      have hinsertable := hrec.insertable hnamed hne hfew hend
      have hrep := htunable.replaceable hnamed ih.1 hinsertable hrun
      exact ⟨ih.1.replace rtree _ hrep hrun, ih.2⟩
  | reset _ ih => exact ⟨ih.1, ih.2.reset⟩

section Examples

open Block InteractionGraph

/-- A query for a vertex without edges. -/
def askNobody : HistoricalGraph.FocusedIntervalQuery Time := ⟨4, atOne, Time.ofFloat 2.0, [[97]]⟩

def textHashes : Hashes textSchema := ⟨fun _ => 0, fun _ => 0⟩

/-- The sizes that were seen. -/
theorem sized_firstSizes :
    Sized textSchema.attributePtrs firstSizes fun a => if a = 0 then 14 / 3 else 5 := by
  obtain ⟨hfirst, hsecond, -⟩ := values_eval.2.2.2
  refine Schema.sized fun a ha => ?_
  have hcases : a = 0 ∨ a = 1 := by
    have hlt : a < 2 := ha
    omega
  rcases hcases with rfl | rfl
  · exact Except.of_toOption hfirst
  · exact Except.of_toOption hsecond

/-- The query finds nothing and leaves the graph as it is. -/
theorem askNobody_filled :
    InteractionGraph.processFocusedIntervalQuery Covering.inOrder askNobody 1 filled
      = .ok [] filled := by
  have hend : (FocusedIntervalQueryIndex.Iterator.new filled.hisg.fiqIndex askNobody.headVertex
      askNobody.startTime askNobody.endTime).toOption.map
        FocusedIntervalQueryIndex.Iterator.valid? = some none := by
    decide +kernel
  obtain ⟨it, hit, hvalid⟩ := Except.of_toOption_map hend
  unfold InteractionGraph.processFocusedIntervalQuery onHistory
  rw [HistoricalGraph.focusedIntervalQuery_of_end hit hvalid]

/-- Each attribute gets a part of its own. -/
theorem install_perAttribute {w : Common.QueryWorkload}
    (hattributes : w.attributes = textSchema.attributePtrs) :
    (wholeSlice textSchema : TimeSlicedPartitioning Time).install
        (Optimizer.PartitionPerAttribute.solve w)
      = ⟨Timestamp.negInfinity, Timestamp.infinity, [[[97]], [[98]]]⟩ := by
  have hstrings : (Optimizer.PartitionPerAttribute.solve w).toStringSet = [[[97]], [[98]]] := by
    unfold Optimizer.PartitionPerAttribute.solve
    rw [hattributes]
    decide
  unfold TimeSlicedPartitioning.install
  rw [hstrings]
  rfl

theorem wholeSlice_textSchema : (wholeSlice textSchema : TimeSlicedPartitioning Time)
    = ⟨Timestamp.negInfinity, Timestamp.infinity, [[[97], [98]]]⟩ := by
  have hnames : textSchema.names.dedup = [[97], [98]] := by decide
  unfold wholeSlice
  rw [hnames]
  rfl

theorem replace_filled : InteractionGraph.replaceTimeSlicedPartitioning BlockManager.allTree
    (wholeSlice textSchema) [⟨Timestamp.negInfinity, Timestamp.infinity, [[[97]], [[98]]]⟩] filled
      = .ok () parted := by
  have hsplit := split_filled
  unfold splitting Replacement.run at hsplit
  unfold InteractionGraph.replaceTimeSlicedPartitioning
  rw [wholeSlice_textSchema]
  exact hsplit

/-- A query is collected, and the solver that puts each attribute apart is run for it. -/
theorem tuned_parted : ∃ qcol : QueryCollector textSchema,
    Tuned textHashes splitSlices threeEdges [[[97]]]
      (⟨parted, qcol⟩ : CollectingGraph (PartitionIndex Time) Time ℚ textSchema textSchema) := by
  have hstart : Tuned textHashes [wholeSlice textSchema] threeEdges [] ⟨filled, .new⟩ :=
    .start recorded_filled
  obtain ⟨qcol, hcollect⟩ := (Collected.new : Collected textHashes [] .new).holds.collects_iff.mpr
    (show ∀ name ∈ askNobody.attributeNames, name ∈ textSchema.names by decide)
  have hasked : Tuned textHashes [wholeSlice textSchema] threeEdges [[[97]]] ⟨filled, qcol⟩ :=
    hstart.ask Covering.inOrder askNobody 1
      (processFocusedIntervalQuery_eq_ok.mpr ⟨hcollect, by dsimp only; exact askNobody_filled⟩)
  have hcollected : Collected textHashes ([] ++ [askNobody.attributeNames]) qcol :=
    .collect _ .new hcollect
  obtain ⟨w, hentries⟩ := hcollected.holds.one (List.cons_ne_nil _ _)
  have hfind := QueryCollector.find?_of_entries hentries
  have hinstall := install_perAttribute (hcollected.mix_of_find? hfind).attributes
  have hrec : Recommended textHashes (Optimizer.PartitionPerAttribute.solve w.read) :=
    .solve .partitionPerAttribute .exhaustive Covering.inOrder
      Optimizer.HeuristicNonOverlapping.byInsertion hcollected hfind (by norm_num) sized_firstSizes
      (fun a _ => by split_ifs <;> norm_num) (le_refl 0) rfl
  have htunable : Tunable [wholeSlice textSchema] threeEdges filled (wholeSlice textSchema)
      (Optimizer.PartitionPerAttribute.solve w.read) := by
    refine ⟨List.mem_singleton_self _, ?_, ?_, replaceable_filled.short, replaceable_filled.before⟩
    · rw [filled_metaData.1]
      decide
    · rw [hinstall]
      exact anchored_filled
  have hreplaced : InteractionGraph.replaceTimeSlicedPartitioning BlockManager.allTree
      (wholeSlice textSchema) [(wholeSlice textSchema).install
        (Optimizer.PartitionPerAttribute.solve w.read)] filled = .ok () parted := by
    rw [hinstall]
    exact replace_filled
  have htuned := hasked.tune BlockManager.allTree hrec (by dsimp only; exact htunable)
    (by dsimp only; exact hreplaced)
  rw [hinstall] at htuned
  exact ⟨qcol, htuned⟩

end Examples

end CollectingGraph

end RailwayDB
