/-
What queries find after any number of sessions.

A run adds edges, flushes, asks, replaces slices, and closes the graph to open it again
once everything is in blocks and the meta data is on disk.  The calls that add, flush
and replace have returned; the others end as they may.  With every run go the slices in
force and the edges it added.

The edges of a vertex are then those filed for it followed by those still in memory.  A
focused query gives the filed ones in its range, each once, in the order they were added
and with the values they were added with; an interval query gives the vertices that have
one.  After a flush, and in every later session, these are all edges of the run, and no
replacement of slices changes what is found.
-/
import RailwayDB.Proofs.IntervalQuery
import RailwayDB.Proofs.KeptEdges
import RailwayDB.Proofs.Reading
import RailwayDB.Proofs.Repartition

namespace RailwayDB

/-! ### The entries of filed blocks -/

section Entries

variable {P T : Type} {schema : Schema} [LinearOrder T] [Timestamp T] [BlockTime T] [SliceIndex P T]
  {Ok : P → Prop} {parts : T → Option Partitioning}
  {stored blocks : BlockId → Option (Block T (AttributeData schema))}
  {iqIndex : List (IntervalData T)} {start stop : T} {g : HistoricalGraph P T schema}

open BlockManager IntervalQueryIndex

/-- The block of an entry has its list. -/
theorem Filed.spans {T : Type} [LinearOrder T] [BlockTime T] {parts : T → Option Partitioning}
    {stored blocks : BlockId → Option (Block T (AttributeData schema))}
    {iqIndex : List (IntervalData T)} (h : Filed parts stored blocks iqIndex) {e : IntervalData T}
    (he : e ∈ iqIndex) (start stop : T) :
    Spans stored e ∧ (Matches stored start stop e ↔ HasEdgeIn (edgesOf blocks e) start stop) := by
  obtain ⟨block, hblock, ⟨hformed, -, master, -, -, hmaster, -, -, hends, -⟩, hfirst, hlast⟩ := h e he
  have hedges := hends e.vertex
  obtain ⟨oldest, hold, hstart⟩ := hfirst
  obtain ⟨newest, hnew, hend⟩ := hlast
  refine ⟨⟨master, ?_⟩, ?_⟩
  · have hhead := congrArg List.head? hedges
    have hlast := congrArg List.getLast? hedges
    unfold ends at hhead hlast
    rw [List.head?_map, List.head?_map, hold, Option.map_some] at hhead
    rw [List.getLast?_map, List.getLast?_map, hnew, Option.map_some] at hlast
    obtain ⟨first, hfirst, hfirst'⟩ := Option.map_eq_some_iff.mp hhead
    obtain ⟨last, hlast, hlast'⟩ := Option.map_eq_some_iff.mp hlast
    exact ⟨first, last, hmaster, hfirst, hlast, (Prod.mk.inj hfirst').2.trans hstart,
      (Prod.mk.inj hlast').2.trans hend⟩
  · rw [matches_iff hmaster, edgesOf_eq hblock, hasEdgeIn_iff_ends, hedges, ← hasEdgeIn_iff_ends]

theorem hasEdgeIn_edgesFor {T : Type} [LinearOrder T]
    {blocks : BlockId → Option (Block T (AttributeData schema))} {iqIndex : List (IntervalData T)}
    {start stop : T} {v : VertexId} :
    HasEdgeIn (edgesFor blocks iqIndex v) start stop ↔
      ∃ e ∈ iqIndex, e.vertex = v ∧ HasEdgeIn (edgesOf blocks e) start stop := by
  unfold HasEdgeIn edgesFor
  refine ⟨?_, ?_⟩
  · rintro ⟨x, hx, hrange⟩
    obtain ⟨e, he, hx⟩ := List.mem_flatMap.mp hx
    obtain ⟨he, hv⟩ := mem_entriesFor.mp he
    exact ⟨e, he, hv, x, hx, hrange⟩
  · rintro ⟨e, he, hv, x, hx, hrange⟩
    exact ⟨x, List.mem_flatMap.mpr ⟨e, mem_entriesFor.mpr ⟨he, hv⟩, hx⟩, hrange⟩

/-- The caches hold what they held, as far as edges and times go. -/
theorem Files.sameEdges {P : Type} {Ok : P → Prop} {g : HistoricalGraph P T schema}
    (h : Files Ok parts stored blocks g) :
    Held Ok parts SameEdges stored g := by
  refine ⟨h.held.index, h.held.tidy, h.held.absent, ?_, ?_⟩
  · intro id block hstored
    obtain ⟨hbytes, hid, hlaid, hlen, -⟩ := h.held.present id block hstored
    exact ⟨hbytes, hid, hlaid, hlen, fun _ => SameEdges.of_comesBack⟩
  · intro id entry hentry
    obtain ⟨block, hstored, hback⟩ := h.held.cached id entry hentry
    exact ⟨block, hstored, .of_comesBack hback⟩

/-- An interval query gives the vertices with a filed edge in the range. -/
theorem Files.intervalQuery (hanswers : Answers Ok parts) (h : Files Ok parts stored blocks g)
    (hroom : 1 ≤ g.bman.blockBufferSize) (rtree : RTree T) (hrange : start ≤ stop) :
    ∃ vs g', HistoricalGraph.intervalQuery rtree start stop g = .ok vs g' ∧ vs.Nodup ∧
      ∀ v, v ∈ vs ↔ HasEdgeIn (edgesFor blocks g.iqIndex v) start stop := by
  obtain ⟨vs, g', hrun, hnodup, hmem⟩ := HistoricalGraph.intervalQuery_ok hanswers h.sameEdges hroom
    (fun e he => (h.filed.spans he start stop).1) rtree hrange
  refine ⟨vs, g', hrun, hnodup, ?_⟩
  intro v
  rw [hmem, hasEdgeIn_edgesFor]
  refine ⟨?_, ?_⟩
  · rintro ⟨e, he, hmatch, hv⟩
    have hin := rtree.mem_of_visit _ _ _ _ he
    exact ⟨e, hin, hv, (h.filed.spans hin start stop).2.mp hmatch⟩
  · rintro ⟨e, he, hv, hin⟩
    obtain ⟨hspans, hmatch⟩ := h.filed.spans he start stop
    obtain ⟨hbegins, hends⟩ := hspans.meets h.sameEdges (hmatch.mpr hin)
    exact ⟨e, rtree.visit_of_meets _ _ _ _ he hbegins hends, hmatch.mpr hin, hv⟩

end Entries

namespace InteractionGraph

open BlockManager Storage
open InMemoryGraph (Held)
open HistoricalGraph.EdgeIterator (Gives inRange Askable)

variable {P T S : Type} [LinearOrder T] [LinearOrder S] [Score S] [TimeScore T S] [Timestamp T]
  [BlockTime T] [SliceIndex P T] {vertexSchema edgeSchema : Schema} {α : Type}

/-! ### The data of an edge -/

theorem find?_collect {schema : Schema} (values : List Value) (data : AttributeData schema)
    (index i : Nat) : (collect data index values).find? i
      = if index ≤ i ∧ i < index + values.length then values[i - index]? else data.find? i := by
  induction values generalizing data index with
  | nil =>
      rw [if_neg (by simp)]
      rfl
  | cons value values ih =>
      unfold collect
      rw [ih, AttributeData.find?_setAttribute, List.length_cons]
      by_cases hrest : index + 1 ≤ i ∧ i < index + 1 + values.length
      · rw [if_pos hrest, if_pos (by omega), show i - index = i - (index + 1) + 1 by omega]
        rfl
      · rw [if_neg hrest]
        by_cases hi : i = index
        · rw [if_pos hi, if_pos (by omega), hi, Nat.sub_self]
          rfl
        · rw [if_neg hi, if_neg (by omega)]

/-- An edge has the values it was added with, each under its index. -/
theorem find?_collect_new {schema : Schema} {values : List Value}
    (hlength : values.length = schema.attributes.length) (i : Nat) :
    (collect (.new schema) 0 values).find? i = values[i]? := by
  rw [find?_collect, Nat.zero_add, Nat.sub_zero]
  split_ifs with hi
  · rfl
  · have hlt : ¬ i < schema.attributes.length := by
      rw [← hlength]
      exact fun hlt => hi ⟨Nat.zero_le i, hlt⟩
    rw [List.getElem?_eq_none (by omega), AttributeData.find?_eq_none, AttributeData.mem_keys_new]
    exact hlt

theorem full_collect {schema : Schema} {values : List Value}
    (hlength : values.length = schema.attributes.length)
    (htyped : (collect (.new schema) 0 values).Typed) : (collect (.new schema) 0 values).Full := by
  refine ⟨htyped, ?_⟩
  intro i
  rw [← not_iff_not, ← AttributeData.find?_eq_none, find?_collect_new hlength,
    List.getElem?_eq_none_iff, hlength, not_lt]

variable {g g' : InteractionGraph P T S vertexSchema edgeSchema}
  {es : List (GraphEdge T (AttributeData edgeSchema))} {v u : VertexId} {time : T}
  {edgeData : List Value}

/-- Counting the sizes of values takes them at the types of the schema. -/
theorem typed_of_countSizes {P T S : Type} [LinearOrder S] {vertexSchema edgeSchema : Schema}
    (fields : List (Nat × Value)) (g : InteractionGraph P T S vertexSchema edgeSchema) :
    Ends (countSizes fields) g
      (fun _ _ => ∀ f ∈ fields, edgeSchema.typeAt f.1 = some f.2.type) (fun _ _ => True) := by
  induction fields generalizing g with
  | nil => exact fun f hf => (List.not_mem_nil hf).elim
  | cons f fields ih =>
      unfold countSizes
      cases hsize : AttributeData.getFieldSize edgeSchema f with
      | error e =>
          rw [Ends, ofResult_bind_error rfl]
          trivial
      | ok size =>
          have htype : edgeSchema.typeAt f.1 = some f.2.type := by
            obtain ⟨value, hvalue, -⟩ := Except.map_eq_ok.mp hsize
            unfold AttributeData.getTyped AttributeData.typeOf at hvalue
            cases hat : edgeSchema.typeAt f.1 with
            | none =>
                rw [hat] at hvalue
                cases hvalue
            | some type =>
                rw [hat, Except.ok_bind] at hvalue
                split_ifs at hvalue with heq
                rw [heq]
          rw [Ends, ofResult_bind_ok rfl]
          refine Ends.bind (Ends.modify (Q := fun _ _ => True) trivial) fun _ g' _ => ?_
          refine (ih g').mono ?_ fun _ _ _ => trivial
          intro _ _ hrest f' hf'
          rcases List.mem_cons.mp hf' with heq | hf'
          · rw [heq]
            exact htype
          · exact hrest f' hf'

/-- An edge that was added has a value for each attribute, of its type. -/
theorem full_of_insertEdge (ω : Nat → Oracle S) (v u : VertexId) (time : T) (edgeData : List Value)
    (g : InteractionGraph P T S vertexSchema edgeSchema) :
    Ends (insertEdge ω v u time edgeData) g
      (fun _ _ => edgeData.length = edgeSchema.attributes.length ∧
        (collect (.new edgeSchema) 0 edgeData).Full) (fun _ _ => True) := by
  have hany : ∀ {β : Type} (x : Session P T S vertexSchema edgeSchema β)
      (g : InteractionGraph P T S vertexSchema edgeSchema),
      Ends x g (fun _ _ => True) (fun _ _ => True) := by
    intro β x g
    unfold Ends
    cases x g with
    | ok _ _ => trivial
    | error _ _ => trivial
  unfold insertEdge
  refine (hany _ g).bind fun _ g₁ _ => (hany _ g₁).bind fun _ g₂ _ => ?_
  split_ifs with hlength
  · exact Ends.throw trivial
  · rw [not_not] at hlength
    refine (hany _ g₂).bind fun g₃ g₄ _ => (hany _ g₄).bind fun _ g₅ _ => ?_
    unfold remember
    refine (hany _ g₅).bind fun _ g₆ _ => (hany _ g₆).bind fun g₇ g₈ _ => ?_
    refine (hany _ g₈).bind fun _ g₉ _ => (typed_of_countSizes _ g₉).mono ?_ fun _ _ _ => trivial
    exact fun _ _ htyped => ⟨hlength, full_collect hlength htyped⟩

/-! ### What a call keeps -/

/-- A call that asks, or adds a vertex. -/
def Call.Asks : Call T S → Prop
  | .createVertex _ _ => True
  | .getVertexData _ => True
  | .processIntervalQuery _ _ _ => True
  | .processIntervalQueryBatch _ _ _ => True
  | .processFocusedIntervalQuery _ _ _ => True
  | _ => False

variable {Ok : P → Prop} {parts : T → Option Partitioning} {Asked : T → Prop}

theorem addEdge_eq_ok {ω : Nat → Oracle S}
    (h : InteractionGraph.addEdge ω v u time edgeData g = .ok () g') :
    v ≠ u ∧ g.lastTime < time ∧
      insertEdge ω v u time edgeData { g with lastTime := time } = .ok () g' := by
  unfold InteractionGraph.addEdge at h
  split_ifs at h with hne
  · exact absurd h throw_ne_ok
  · rw [get_bind] at h
    by_cases hlt : g.lastTime < time
    · rw [if_neg (not_not.mpr hlt)] at h
      exact ⟨hne, hlt, h⟩
    · rw [if_pos hlt] at h
      exact absurd h throw_ne_ok

/-- The edges of a run, but for the slices of their blocks. -/
structure Accepted (es : List (GraphEdge T (AttributeData edgeSchema))) : Prop where
  history : History es
  full : ∀ e ∈ es, e.data.val.Full
  positive : ∀ e ∈ es, BlockTime.zero < e.time

theorem Accepted.snoc {T : Type} [LinearOrder T] [BlockTime T]
    {es : List (GraphEdge T (AttributeData edgeSchema))} (h : Accepted es)
    {e : GraphEdge T (AttributeData edgeSchema)} (hne : e.firstVertex ≠ e.secondVertex)
    (hlater : ∀ t ∈ es.map GraphEdge.time, t < e.time) (hfull : e.data.val.Full)
    (hpos : BlockTime.zero < e.time) : Accepted (es ++ [e]) := by
  refine ⟨⟨List.pairwise_append.mpr ⟨h.history.increasing, List.pairwise_singleton _ _, ?_⟩, ?_⟩,
    ?_, ?_⟩
  · intro x hx y hy
    rw [List.mem_singleton.mp hy]
    exact hlater x.time (List.mem_map_of_mem hx)
  · intro x hx
    rcases List.mem_append.mp hx with hx | hx
    · exact h.history.distinct x hx
    · rw [List.mem_singleton.mp hx]
      exact hne
  · intro x hx
    rcases List.mem_append.mp hx with hx | hx
    · exact h.full x hx
    · rw [List.mem_singleton.mp hx]
      exact hfull
  · intro x hx
    rcases List.mem_append.mp hx with hx | hx
    · exact h.positive x hx
    · rw [List.mem_singleton.mp hx]
      exact hpos

/-- A query keeps what a run keeps. -/
theorem Conserves.onHistory {x : Storage P T edgeSchema α} (h : Conserves Ok parts es g)
    (hsteps : Keeps Steps x) (hx : ∀ stored, Keeps (Undisturbed Ok parts stored) x) :
    Conserves Ok parts es (stateAfter (onHistory x) g) := by
  rcases h with hspent | ⟨stored, blocks, expired, window, h⟩
  · exact Or.inl (hspent.passes ((passes_onHistory hsteps).stateAfter g))
  · have hafter : stateAfter (InteractionGraph.onHistory x) g
        = { g with hisg := stateAfter x g.hisg } := by
      unfold stateAfter InteractionGraph.onHistory
      cases x g.hisg with
      | ok a hisg => rfl
      | error e hisg => rfl
    obtain ⟨hheld, hread⟩ := (hx stored).stateAfter g.hisg h.files.held h.room
    rw [hafter]
    refine Or.inr ⟨stored, blocks, expired, window, ⟨hheld, ?_, ?_, ?_, ?_, ?_⟩, ?_, h.held, h.known, ?_,
      ?_⟩
    · show Block.FreshIds stored (stateAfter x g.hisg)
      rw [Block.FreshIds, hread.metaData]
      exact h.files.fresh
    · show Cataloged (stateAfter x g.hisg).iqIndex (stateAfter x g.hisg).fiqIndex
      rw [hread.iqIndex, hread.fiqIndex]
      exact h.files.catalog
    · show Filed parts stored blocks (stateAfter x g.hisg).iqIndex
      rw [hread.iqIndex]
      exact h.files.filed
    · show Families stored (stateAfter x g.hisg).iqIndex
      rw [hread.iqIndex]
      exact h.files.families
    · show ListsIndexed blocks (stateAfter x g.hisg).iqIndex
      rw [hread.iqIndex]
      exact h.files.listed
    · show 1 ≤ (stateAfter x g.hisg).bman.blockBufferSize
      rw [hread.blockBufferSize]
      exact h.room
    · intro w
      show edgesFor blocks (stateAfter x g.hisg).iqIndex w ++ g.memg.pending w = incident w es
      rw [hread.iqIndex, h.edges]
    · show ∀ e ∈ (stateAfter x g.hisg).iqIndex, _
      rw [hread.iqIndex]
      exact h.cut

theorem Conserves.ask (hanswers : Answers Ok parts) (h : Conserves Ok parts es g) (c : Call T S)
    (hasks : c.Asks) : Conserves Ok parts es (c.after g) := by
  have hvertices : ∀ {β : Type} (x : VertexManager.Vertices vertexSchema β),
      Conserves Ok parts es (stateAfter (onVertices x) g) := by
    intro β x
    exact ((conserves_onVertices x h).mono (fun _ _ hdone => hdone.1) fun _ _ hdone => hdone.1).stateAfter
  cases c with
  | createVertex id vertexData => exact hvertices _
  | getVertexData id => exact hvertices _
  | processIntervalQuery rtree startTime endTime =>
      exact h.onHistory (steps_intervalQuery rtree startTime endTime)
        fun stored => undisturbed_intervalQuery hanswers rtree startTime endTime
  | processIntervalQueryBatch rtree startTime endTime =>
      exact h.onHistory (steps_intervalQueryBatch rtree startTime endTime)
        fun stored => (keeps_intersectsWithQuery rtree startTime endTime).bind fun _ => Keeps.pure _
  | processFocusedIntervalQuery ω query fuel =>
      exact h.onHistory (steps_focusedIntervalQuery ω query fuel)
        fun stored => undisturbed_focusedIntervalQuery hanswers ω query fuel
  | addEdge _ _ _ _ _ => exact hasks.elim
  | flush _ _ _ => exact hasks.elim
  | replaceTimeSlicedPartitioning _ _ _ => exact hasks.elim
  | replaceTimeSlicedPartitionings _ _ _ => exact hasks.elim

theorem sameClock_ask (c : Call T S) (hasks : c.Asks) : SameClock g (c.after g) := by
  cases c with
  | createVertex id vertexData => exact (sameClock_frame.onVertices _).stateAfter g
  | getVertexData id => exact (sameClock_frame.onVertices _).stateAfter g
  | processIntervalQuery rtree startTime endTime =>
      exact (keeps_onHistory (R := SameClock) (fun _ _ => rfl) _).stateAfter g
  | processIntervalQueryBatch rtree startTime endTime =>
      exact (keeps_onHistory (R := SameClock) (fun _ _ => rfl) _).stateAfter g
  | processFocusedIntervalQuery ω query fuel =>
      exact (keeps_onHistory (R := SameClock) (fun _ _ => rfl) _).stateAfter g
  | addEdge _ _ _ _ _ => exact hasks.elim
  | flush _ _ _ => exact hasks.elim
  | replaceTimeSlicedPartitioning _ _ _ => exact hasks.elim
  | replaceTimeSlicedPartitionings _ _ _ => exact hasks.elim

/-- **Closing the graph loses nothing** once all edges are in blocks. -/
theorem Conserves.reopen (h : Conserves Ok parts es g) (hsettled : Settled g.memg)
    (hfile : MetaDataManager.load g.file = g.hisg.metaData) (conf : Conf)
    (hreopen : ∀ idx, Ok idx → Ok (SliceIndex.reopen conf.partitioningBufferSize idx))
    (hroom : 1 ≤ conf.blockBufferSize) : Conserves Ok parts es (g.reopen conf) := by
  have hmeta : (g.reopen conf).hisg.metaData = g.hisg.metaData := hfile
  rcases h with hspent | ⟨stored, blocks, expired, window, h⟩
  · refine Or.inl ?_
    rw [Spent, hmeta]
    exact hspent
  · have htidy := Tidy.clear (BlockManager.new conf.blockBufferSize g.hisg.bman.db :
      BlockManager T edgeSchema)
    refine Or.inr ⟨stored, blocks, [], [], ⟨⟨hreopen _ h.files.held.index, htidy,
      h.files.held.absent, h.files.held.present, ?_⟩, ?_, h.files.catalog, h.files.filed,
      h.files.families, h.files.listed⟩, hroom,
      Held.new conf, fun e he => (List.not_mem_nil he).elim, ?_, h.cut⟩
    · intro id entry hentry
      have hnone : (BlockManager.new conf.blockBufferSize g.hisg.bman.db :
        BlockManager T edgeSchema).cache.lookup id = some entry := hentry
      simp [BlockManager.new] at hnone
    · rw [Block.FreshIds, hmeta]
      exact h.files.fresh
    · intro w
      show edgesFor blocks g.hisg.iqIndex w ++ [] = incident w es
      rw [List.append_nil, h.settled hsettled]

/-! ### Runs -/

section Runs

open PartitionIndex (Replacement Insertable Anchored Roomy Slices partsOf recut)

variable [WrittenInOrder T] {ss : List (TimeSlicedPartitioning T)}
  {g g' : InteractionGraph (PartitionIndex T) T S vertexSchema edgeSchema}

/-- The slice of a new index. -/
def wholeSlice (schema : Schema) : TimeSlicedPartitioning T :=
  { (TimeSlicedPartitioning.new : TimeSlicedPartitioning T) with partitioning := [schema.names.dedup] }

/-- The names of a schema can be stored. -/
structure WellNamed (schema : Schema) : Prop where
  nodup : schema.names.Nodup
  short : ∀ name ∈ schema.names, name.length < 2 ^ 32

/-- A replacement of slices in force by ones that can be stored.  The blocks that are there have edges
in the slices their times are in, and no text that is too long. -/
structure Replaceable (ss : List (TimeSlicedPartitioning T))
    (es : List (GraphEdge T (AttributeData edgeSchema))) (c : Replacement T)
    (g : InteractionGraph (PartitionIndex T) T S vertexSchema edgeSchema) : Prop where
  old : ∀ s ∈ c.old, s ∈ ss
  nonEmpty : c.NonEmpty
  insertable : ∀ s ∈ c.new, Insertable edgeSchema s
  room : (recut c.old c.new ss).length ≤ g.hisg.partIndex.partitioningBufferSize
  anchored : Anchored c.updated g.hisg
  short : ∀ e ∈ es, e.data.val.Short
  before : Block.Sliced (fun t => partsOf ss t ≠ none) (es.map GraphEdge.time)
  after : Block.Sliced (fun t => partsOf (recut c.old c.new ss) t ≠ none) (es.map GraphEdge.time)

/-- Any number of sessions, with the slices in force and the edges that were added. -/
inductive Recorded : List (TimeSlicedPartitioning T) →
    List (GraphEdge T (AttributeData edgeSchema)) →
    InteractionGraph (PartitionIndex T) T S vertexSchema edgeSchema → Prop
  | new (conf : Conf) (partIndex : PartitionIndex T) :
      PartitionIndex.new conf.partitioningBufferSize edgeSchema = .ok partIndex →
      1 ≤ conf.partitioningBufferSize → 1 ≤ conf.blockBufferSize →
      Recorded [wholeSlice edgeSchema] [] (.new conf partIndex)
  | ask {ss : List (TimeSlicedPartitioning T)} {es : List (GraphEdge T (AttributeData edgeSchema))}
      {g : InteractionGraph (PartitionIndex T) T S vertexSchema edgeSchema} (c : Call T S) :
      Recorded ss es g → c.Asks → Recorded ss es (c.after g)
  | addEdge {ss : List (TimeSlicedPartitioning T)}
      {es : List (GraphEdge T (AttributeData edgeSchema))}
      {g g' : InteractionGraph (PartitionIndex T) T S vertexSchema edgeSchema}
      (ω : Nat → Oracle S) (v u : VertexId) (time : T) (edgeData : List Value) :
      Recorded ss es g → InOrder (es.map GraphEdge.time) g time →
      InteractionGraph.addEdge ω v u time edgeData g = .ok () g' →
      Recorded ss (es ++ [⟨v, u, time, ⟨g.nextAddr, collect (.new edgeSchema) 0 edgeData⟩⟩]) g'
  | flush {ss : List (TimeSlicedPartitioning T)} {es : List (GraphEdge T (AttributeData edgeSchema))}
      {g g' : InteractionGraph (PartitionIndex T) T S vertexSchema edgeSchema}
      (ω ω' : Nat → Oracle S) (fuel : Nat) :
      Recorded ss es g → InteractionGraph.flush ω ω' fuel g = .ok () g' → Recorded ss es g'
  | replace {ss : List (TimeSlicedPartitioning T)}
      {es : List (GraphEdge T (AttributeData edgeSchema))}
      {g g' : InteractionGraph (PartitionIndex T) T S vertexSchema edgeSchema} (rtree : RTree T)
      (c : Replacement T) :
      Recorded ss es g → Replaceable ss es c g → onHistory (c.run rtree) g = .ok () g' →
      Recorded (recut c.old c.new ss) es g'
  /-- The graph is closed when all edges are in blocks and the file is up to date, and opened with
  buffers for the slices and for a block. -/
  | reopen {ss : List (TimeSlicedPartitioning T)}
      {es : List (GraphEdge T (AttributeData edgeSchema))}
      {g : InteractionGraph (PartitionIndex T) T S vertexSchema edgeSchema} (conf : Conf) :
      Recorded ss es g → Settled g.memg → MetaDataManager.load g.file = g.hisg.metaData →
      ss.length ≤ conf.partitioningBufferSize → 1 ≤ conf.blockBufferSize →
      Recorded ss es (g.reopen conf)

theorem onHistory_eq_ok {T S : Type} [LinearOrder T] [LinearOrder S]
    {g g' : InteractionGraph (PartitionIndex T) T S vertexSchema edgeSchema}
    {x : Storage (PartitionIndex T) T edgeSchema α} {a : α} (h : onHistory x g = .ok a g') :
    x g.hisg = .ok a g'.hisg ∧ g' = { g with hisg := g'.hisg } := by
  unfold InteractionGraph.onHistory at h
  cases hx : x g.hisg with
  | error e hisg =>
      rw [hx] at h
      cases h
  | ok b hisg =>
      rw [hx] at h
      obtain ⟨rfl, rfl⟩ := (EStateM.Result.ok.injEq ..).mp h
      exact ⟨rfl, rfl⟩

/-- **A replacement of slices loses nothing.** -/
theorem Conserves.replace {c : Replacement T} {rtree : RTree T} (hss : Slices edgeSchema ss)
    (hnodup : edgeSchema.names.Nodup) (haccepted : Accepted es) (hrep : Replaceable ss es c g)
    (h : Conserves (Roomy [] ss) (partsOf ss) es g)
    (hrun : InteractionGraph.onHistory (c.run rtree) g = .ok () g') :
    Conserves (Roomy [] (recut c.old c.new ss)) (partsOf (recut c.old c.new ss)) es g' := by
  obtain ⟨hcall, hg'⟩ := onHistory_eq_ok hrun
  have hsteps : Keeps Steps (c.run rtree : Storage (PartitionIndex T) T edgeSchema Unit) := by
    cases c with
    | one old new => exact steps_replaceTimeSlicedPartitioning rtree old new
    | many old new => exact steps_replaceTimeSlicedPartitionings rtree old new
  rcases h with hspent | ⟨stored, blocks, expired, window, h⟩
  · exact Or.inl (hspent.passes ((passes_onHistory hsteps g).of_ok hrun))
  · have hblocks : ∀ e ∈ g.hisg.iqIndex, ∀ block, blocks e.id = some block → block.ShortTexts ∧
        ∀ t, block.getPartitioningTimestamp = .ok t →
          partsOf (recut c.old c.new ss) t ≠ none := by
      intro e he block hblock
      have hcut := h.cut e he block hblock
      refine ⟨?_, fun t => hcut.asked haccepted.positive hrep.after⟩
      intro v x hx
      obtain ⟨edge, hedge, hat⟩ := mem_incident.mp (hcut.mem v x hx)
      rw [(GraphEdge.at?_time hat).2]
      exact hrep.short edge hedge
    rcases c.files hss hnodup hrep.old hrep.nonEmpty hrep.insertable hrep.room hrep.anchored h.files
      h.room hblocks hcall with hids | ⟨stored', hfiles, hadds⟩
    · exact Or.inl hids
    · rw [hg']
      refine Or.inr ⟨stored', blocks, expired, window, hfiles, ?_, h.held, h.known, ?_, ?_⟩
      · show 1 ≤ g'.hisg.bman.blockBufferSize
        rw [hadds.blockBufferSize]
        exact h.room
      · intro w
        show edgesFor blocks g'.hisg.iqIndex w ++ g.memg.pending w = incident w es
        rw [hadds.iqIndex, h.edges]
      · show ∀ e ∈ g'.hisg.iqIndex, _
        rw [hadds.iqIndex]
        exact h.cut

/-- The slice of a new index. -/
theorem slices_new (hnamed : WellNamed edgeSchema) :
    Slices edgeSchema [(wholeSlice edgeSchema : TimeSlicedPartitioning T)] := by
  have hone : ∀ s ∈ [(wholeSlice edgeSchema : TimeSlicedPartitioning T)],
      s.partitioning = [edgeSchema.names.dedup] := by
    intro s hs
    rw [List.mem_singleton.mp hs]
    rfl
  have hnames : ∀ attributes ∈ [edgeSchema.names.dedup], edgeSchema.Has attributes := by
    intro attributes hattributes name hname
    rw [List.mem_singleton.mp hattributes] at hname
    exact List.mem_dedup.mp hname
  refine ⟨⟨?_, ?_⟩, ?_, ?_, ?_, ?_, ?_⟩
  · exact (PartitionIndex.tiles_of_row (l := [wholeSlice edgeSchema]) rfl
      (fun s hs => by rw [List.mem_singleton.mp hs]; exact Timestamp.negInfinity_lt_infinity) rfl rfl).1
  · intro s hs
    rw [List.mem_singleton.mp hs]
    exact WrittenInOrder.zero_le_infinity
  · intro s hs attributes hattributes
    rw [hone s hs, List.mem_singleton] at hattributes
    rw [hattributes]
    exact ⟨List.nodup_dedup _, fun name hname => hnamed.short name (List.mem_dedup.mp hname)⟩
  · intro s hs
    rw [hone s hs]
    exact hnames
  · intro s hs
    rw [hone s hs]
    refine PartitionIndex.covers_of_count hnamed.nodup hnames ?_
    unfold PartitionIndex.getPartitioningAttributeCount
    rw [List.flatten_singleton, List.dedup_idem, hnamed.nodup.dedup, Schema.names, List.length_map]
  · intro s hs
    rw [hone s hs]
    exact (by decide : 1 < 2 ^ 29)
  · intro s hs
    rw [hone s hs]
    exact List.cons_ne_nil _ _

theorem roomy_new {T : Type} [LinearOrder T] [Timestamp T] (hnamed : WellNamed edgeSchema)
    {partitioningBufferSize : Nat} {partIndex : PartitionIndex T}
    (hsize : 1 ≤ partitioningBufferSize)
    (hnew : PartitionIndex.new partitioningBufferSize edgeSchema = .ok partIndex) :
    Roomy [] [wholeSlice edgeSchema] partIndex := by
  have hempty : Roomy [] [] (PartitionIndex.reopen partitioningBufferSize edgeSchema .empty :
      PartitionIndex T) := by
    refine ⟨⟨?_, ?_⟩, ?_, ?_, ?_, ?_, List.nodup_nil, ?_, Nat.zero_le _, rfl⟩
    · exact fun e he => (List.not_mem_nil he).elim
    · exact fun s hs => (List.not_mem_nil hs).elim
    · exact fun e he => (List.not_mem_nil he).elim
    · exact fun e he => (List.not_mem_nil he).elim
    · exact fun n hn => (List.not_mem_nil hn).elim
    · exact fun e he => (List.not_mem_nil he).elim
    · exact fun n hn => (List.not_mem_nil hn).elim
  refine (hempty.add (s := wholeSlice edgeSchema) ?_ (fun s hs => (List.not_mem_nil hs).elim) hsize
    hnew).1
  intro attributes hattributes
  rw [List.mem_singleton.mp hattributes]
  exact ⟨List.nodup_dedup _, fun name hname => hnamed.short name (List.mem_dedup.mp hname)⟩

/-- The names of the schema can be asked for, whatever the slices are. -/
theorem askable_of_slices {T : Type} [LinearOrder T] [Timestamp T] [BlockTime T]
    {ss : List (TimeSlicedPartitioning T)} (h : Slices edgeSchema ss) {stats : SchemaStats}
    (hweighed : Weighed edgeSchema stats) {names : List Text} (hnodup : names.Nodup)
    (hnames : ∀ name ∈ names, name ∈ edgeSchema.names) :
    Askable edgeSchema (partsOf ss) stats names := by
  intro t part hpart
  obtain ⟨s, hin, rfl⟩ := PartitionIndex.exists_inside hpart
  have hsets : ∀ attributes ∈ s.partitioning, attributes.Nodup := fun attributes hattributes =>
    (h.storable s hin.mem attributes hattributes).1
  have hdrawn := h.names s hin.mem
  refine ⟨⟨hsets, hnodup, hdrawn, ?_, hweighed.sized⟩, hweighed.counted hsets hdrawn⟩
  intro name hname
  have hmem := hnames name hname
  have hlt : edgeSchema.names.idxOf name < edgeSchema.attributes.length := by
    have := List.idxOf_lt_length_iff.mpr hmem
    unfold Schema.names at this
    rwa [List.length_map] at this
  obtain ⟨attributes, hattributes, other, hother, hindex⟩ := h.covers s hin.mem _ hlt
  have hknown := hdrawn attributes hattributes other hother
  rw [Schema.getIndex, if_pos hknown, Except.ok.injEq] at hindex
  rw [List.idxOf_inj hknown] at hindex
  exact ⟨attributes, hattributes, hindex ▸ hother⟩

/-- What a run keeps. -/
structure Keeping (ss : List (TimeSlicedPartitioning T))
    (es : List (GraphEdge T (AttributeData edgeSchema)))
    (g : InteractionGraph (PartitionIndex T) T S vertexSchema edgeSchema) : Prop where
  slices : Slices edgeSchema ss
  clock : Clock (es.map GraphEdge.time) g
  started : BlockTime.zero ≤ g.lastTime
  accepted : Accepted es
  conserves : Block.Sliced (fun t => partsOf ss t ≠ none) (es.map GraphEdge.time) →
    Conserves (Roomy [] ss) (partsOf ss) es g

theorem Recorded.keeping (hnamed : WellNamed edgeSchema) (h : Recorded ss es g) :
    Keeping ss es g := by
  induction h with
  | new conf partIndex hnew hsize hroom =>
      have haccepted : Accepted ([] : List (GraphEdge T (AttributeData edgeSchema))) :=
        ⟨⟨List.Pairwise.nil, fun e he => (List.not_mem_nil he).elim⟩,
          fun e he => (List.not_mem_nil he).elim, fun e he => (List.not_mem_nil he).elim⟩
      refine ⟨slices_new hnamed, ⟨List.Pairwise.nil, Or.inl rfl⟩, le_refl _, haccepted, fun _ => ?_⟩
      refine Or.inr ⟨fun _ => none, fun _ => none, [], [],
        ⟨held_new (roomy_new hnamed hsize hnew) rfl _, ?_, Cataloged.nil, ?_, Families.nil, ?_⟩, hroom,
        Held.new conf, ?_, fun _ => rfl, ?_⟩
      · exact fun id hne => absurd rfl hne
      · exact fun e he => (List.not_mem_nil he).elim
      · exact fun e he => (List.not_mem_nil he).elim
      · exact fun e he => (List.not_mem_nil he).elim
      · exact fun e he => (List.not_mem_nil he).elim
  | @ask ss es g c h hasks ih =>
      have hlast : SameClock g (c.after g) := sameClock_ask c hasks
      refine ⟨ih.slices, ih.clock.of_sameClock hlast, ?_, ih.accepted, fun hsliced => ?_⟩
      · rw [show (c.after g).lastTime = g.lastTime from hlast]
        exact ih.started
      · exact (ih.conserves hsliced).ask ih.slices.governs.toAnswers c hasks
  | @addEdge ss es g g' ω v u time edgeData h hfirst hrun ih =>
      obtain ⟨hne, hlast, hinsert⟩ := addEdge_eq_ok hrun
      have hlater := ih.clock.later hlast hfirst
      have hfull := (full_of_insertEdge ω v u time edgeData _).of_ok hinsert
      have hsame : g'.lastTime = time :=
        ((sameClock_frame.insertEdge ω v u time edgeData) _).of_ok hinsert
      have haccepted := ih.accepted.snoc (e := ⟨v, u, time,
        ⟨g.nextAddr, collect (.new edgeSchema) 0 edgeData⟩⟩) hne hlater hfull.2
        (lt_of_le_of_lt ih.started hlast)
      refine ⟨ih.slices, ?_, ?_, haccepted, ?_⟩
      · rw [List.map_append]
        exact ih.clock.snoc hlater hsame
      · rw [hsame]
        exact (lt_of_le_of_lt ih.started hlast).le
      · intro hsliced
        have htimes := hsliced
        rw [List.map_append] at htimes
        have hnoted : Conserves (Roomy [] ss) (partsOf ss) es { g with lastTime := time } :=
          (ih.conserves htimes.left).of_same rfl rfl rfl rfl rfl rfl
        exact (conserves_insertEdge ih.slices.governs ω edgeData hnoted
          ⟨haccepted.history, haccepted.full, haccepted.positive, hsliced⟩).of_ok hinsert
  | @flush ss es g g' ω ω' fuel h hrun ih =>
      have hlast : SameClock g g' := ((sameClock_flush ω ω' fuel) g).of_ok hrun
      refine ⟨ih.slices, ih.clock.of_sameClock hlast, ?_, ih.accepted, fun hsliced => ?_⟩
      · rw [show g'.lastTime = g.lastTime from hlast]
        exact ih.started
      · have hes : Sources (fun t => partsOf ss t ≠ none) es :=
          ⟨ih.accepted.history, ih.accepted.full, ih.accepted.positive, hsliced⟩
        exact ((conserves_flush ih.slices.governs hes ω ω' fuel (ih.conserves hsliced)).of_ok hrun).1
  | @replace ss es g g' rtree c h hrep hrun ih =>
      obtain ⟨hcall, hg'⟩ := onHistory_eq_ok hrun
      obtain ⟨a, b, hcut, -, -, -⟩ := c.recut ih.slices.timeline hrep.old hrep.nonEmpty hcall
      have hlast : SameClock g g' := by rw [hg']; rfl
      refine ⟨ih.slices.after hnamed.nodup hcut hrep.insertable hcall, ih.clock.of_sameClock hlast, ?_,
        ih.accepted, fun _ => ?_⟩
      · rw [show g'.lastTime = g.lastTime from hlast]
        exact ih.started
      · exact (ih.conserves hrep.before).replace ih.slices hnamed.nodup ih.accepted hrep hrun
  | reopen conf h hsettled hfile hsize hroom ih =>
      exact ⟨ih.slices, ⟨ih.clock.increasing, Or.inl rfl⟩, le_refl _, ih.accepted,
        fun hsliced => (ih.conserves hsliced).reopen hsettled hfile conf
          (fun idx hr => hr.of_reopen hsize) hroom⟩

/-! ### What is found -/

/-- **An interval query after any run** gives each vertex with an edge in its range that is in a
block, once. -/
theorem Recorded.intervalQuery_finds (hnamed : WellNamed edgeSchema) (h : Recorded ss es g)
    (hsliced : Block.Sliced (fun t => partsOf ss t ≠ none) (es.map GraphEdge.time))
    (hids : g.hisg.metaData.nextBlockId ≤ 2 ^ 64) (rtree : RTree T) {start stop : T}
    (hrange : start ≤ stop) :
    ∃ (filed : VertexId → List (NLEdge T (AttributeData edgeSchema))) (vs : List VertexId)
      (g' : InteractionGraph (PartitionIndex T) T S vertexSchema edgeSchema),
      (∀ v, filed v ++ g.memg.pending v = incident v es) ∧
      processIntervalQuery rtree start stop g = .ok vs g' ∧ vs.Nodup ∧
      ∀ v, v ∈ vs ↔ HasEdgeIn (filed v) start stop := by
  have hgoverns := (h.keeping hnamed).slices.governs
  obtain ⟨stored, blocks, expired, window, hkept⟩ :=
    ((h.keeping hnamed).conserves hsliced).resolve_left (not_lt.mpr hids)
  obtain ⟨vs, hisg, hrun, hnodup, hmem⟩ :=
    hkept.files.intervalQuery hgoverns.toAnswers hkept.room rtree hrange
  refine ⟨_, vs, { g with hisg := hisg }, hkept.edges, ?_, hnodup, hmem⟩
  unfold processIntervalQuery InteractionGraph.onHistory
  rw [hrun]

end Runs

/-! ### Each attribute in a part of its own

Three edges are added, and all but the last settled, each into a block of its own. -/

section Examples

open Block
open PartitionIndex (Replacement Anchored partsOf recut)

/-- Three vertices. -/
def peopled : InteractionGraph (PartitionIndex Time) Time ℚ textSchema textSchema :=
  [Call.createVertex 1 [.string [], .string []], Call.createVertex 2 [.string [], .string []],
    Call.createVertex 3 [.string [], .string []]].foldl Call.after (new smallConf oneSlice)

def addPlain (v u : VertexId) (time : Time) (a b : Text) :
    Session (PartitionIndex Time) Time ℚ textSchema textSchema Unit :=
  InteractionGraph.addEdge (fun _ => Oracle.plain) v u time [.string a, .string b]

def flushPlain : Session (PartitionIndex Time) Time ℚ textSchema textSchema Unit :=
  InteractionGraph.flush (fun _ => Oracle.plain) (fun _ => Oracle.plain) 1

/-- The edge that is added to a graph. -/
def edgeAt (g : InteractionGraph (PartitionIndex Time) Time ℚ textSchema textSchema)
    (v u : VertexId) (time : Time) (a b : Text) : GraphEdge Time (AttributeData textSchema) :=
  ⟨v, u, time, ⟨g.nextAddr, collect (.new textSchema) 0 [.string a, .string b]⟩⟩

/-- Each attribute gets a part of its own. -/
def splitting : Replacement Time :=
  .one ⟨Timestamp.negInfinity, Timestamp.infinity, [[[97], [98]]]⟩
    [⟨Timestamp.negInfinity, Timestamp.infinity, [[[97]], [[98]]]⟩]

def splitSlices : List (TimeSlicedPartitioning Time) :=
  recut splitting.old splitting.new [wholeSlice textSchema]

/-- An edge in a block, two edges in two blocks, and the third edge in memory. -/
def oneFiled : InteractionGraph (PartitionIndex Time) Time ℚ textSchema textSchema :=
  stateAfter flushPlain (stateAfter (addPlain 1 2 atHalf [120] [121, 122]) peopled)

def twoFiled : InteractionGraph (PartitionIndex Time) Time ℚ textSchema textSchema :=
  stateAfter flushPlain (stateAfter (addPlain 3 1 atOne [] [119]) oneFiled)

def filled : InteractionGraph (PartitionIndex Time) Time ℚ textSchema textSchema :=
  stateAfter (addPlain 1 2 atOneAndHalf [117] []) twoFiled

/-- The third in a block as well, or all blocks in two parts. -/
def settled : InteractionGraph (PartitionIndex Time) Time ℚ textSchema textSchema :=
  stateAfter flushPlain filled

def parted : InteractionGraph (PartitionIndex Time) Time ℚ textSchema textSchema :=
  stateAfter (onHistory (splitting.run allTree)) filled

def threeEdges : List (GraphEdge Time (AttributeData textSchema)) :=
  [edgeAt peopled 1 2 atHalf [120] [121, 122], edgeAt oneFiled 3 1 atOne [] [119],
    edgeAt twoFiled 1 2 atOneAndHalf [117] []]

/-- The texts that were stored, with their length fields. -/
def firstSizes : SchemaStats :=
  (((Reading.twoSizes 5 6).incrCountAndBytes 0 4).incrCountAndBytes 1 5).incrCountAndBytes 0 5
    |>.incrCountAndBytes 1 4

/-- The next id, and the sizes by attribute. -/
def metaOf (g : InteractionGraph (PartitionIndex Time) Time ℚ textSchema textSchema) :=
  (g.hisg.metaData.nextBlockId, g.hisg.metaData.schemaStats.indexToCountAndBytes.entries)

/-- The times of the edges of the first vertex in a block. -/
def timesIn (id : BlockId) : Option (List Time) :=
  (answer? (BlockManager.getBlock id filled.hisg)).map fun b => (b.neigs.edges 1).map NLEdge.time

/-- The slices have a partitioning at the middle of any two edges, and at that of a block without
edges. -/
def Serve (ss : List (TimeSlicedPartitioning Time)) : Prop :=
  partsOf ss (BlockTime.midpoint BlockTime.maxValue BlockTime.zero) ≠ none ∧
    ∀ a ∈ threeEdges.map GraphEdge.time, ∀ b ∈ threeEdges.map GraphEdge.time,
      partsOf ss (BlockTime.midpoint a b) ≠ none

theorem run_eval :
    (answer? (addPlain 1 2 atHalf [120] [121, 122] peopled) = some () ∧
      answer? (flushPlain (stateAfter (addPlain 1 2 atHalf [120] [121, 122]) peopled)) = some () ∧
      answer? (addPlain 3 1 atOne [] [119] oneFiled) = some () ∧
      answer? (flushPlain (stateAfter (addPlain 3 1 atOne [] [119]) oneFiled)) = some () ∧
      answer? (addPlain 1 2 atOneAndHalf [117] [] twoFiled) = some ()) ∧
    answer? (flushPlain filled) = some () ∧
      metaOf settled = (6, firstSizes.indexToCountAndBytes.entries) := by
  decide +kernel

/-- Each of the first two edges is in a sub-block under a master, and no block is in the cache.  The
replacement adds a block for each of the two. -/
theorem filled_eval :
    (metaOf filled = (4, firstSizes.indexToCountAndBytes.entries) ∧
      filled.hisg.partIndex.partitioningBufferSize = 1 ∧ filled.hisg.bman.cache.keys = [] ∧
      filled.hisg.bman.db.entries.map Prod.fst = ([0, 1, 2, 3] : List BlockId).map keyBytes ∧
      timesIn 0 = some [atHalf] ∧ timesIn 1 = some [atHalf] ∧ timesIn 2 = some [atOne] ∧
      timesIn 3 = some [atOne]) ∧
    answer? (onHistory (splitting.run allTree) filled) = some () ∧
      metaOf parted = (6, firstSizes.indexToCountAndBytes.entries) := by
  decide +kernel

/-- Where the times of the example are, and what the slices and the sizes are. -/
theorem values_eval :
    ((∀ t ∈ [atHalf, atOne], (Timestamp.negInfinity : Time) ≤ t ∧ t < Timestamp.infinity) ∧
      (Timestamp.negInfinity : Time) < Timestamp.infinity ∧ BlockTime.zero ≤ atHalf ∧
      atOne ≤ Time.ofFloat 2.0 ∧ BlockTime.zero ≤ (Timestamp.infinity : Time) ∧
      (∀ t ∈ threeEdges.map GraphEdge.time, t ≤ BlockTime.maxValue) ∧
      atHalf < atOne ∧ atOne < atOneAndHalf) ∧
    (Serve [wholeSlice textSchema] ∧ Serve splitSlices ∧ splitSlices = splitting.new) ∧
    ((PartitionIndex.new 1 textSchema : Except Fault (PartitionIndex Time)).toOption.map
      fun _ => ()) = some () ∧
    (firstSizes.getAvgSize 0).toOption = some (14 / 3) ∧
    (firstSizes.getAvgSize 1).toOption = some 5 ∧
    (textSchema.names.map (wholeBytes textSchema firstSizes)).sum * 24 < 2 ^ 64 := by
  unfold Serve
  decide +kernel

theorem eq_of_entries {stats stats' : SchemaStats}
    (h : stats.indexToCountAndBytes.entries = stats'.indexToCountAndBytes.entries) :
    stats = stats' := by
  cases stats
  cases stats'
  rw [SchemaStats.mk.injEq]
  exact AList.ext h

theorem metaData_of_metaOf {g : InteractionGraph (PartitionIndex Time) Time ℚ textSchema textSchema}
    {id : Nat} (h : metaOf g = (id, firstSizes.indexToCountAndBytes.entries)) :
    g.hisg.metaData.nextBlockId = id ∧ g.hisg.metaData.schemaStats = firstSizes := by
  obtain ⟨hnext, hentries⟩ := Prod.mk.inj h
  exact ⟨hnext, eq_of_entries hentries⟩

theorem filled_metaData : filled.hisg.metaData.nextBlockId = 4 ∧
    filled.hisg.metaData.schemaStats = firstSizes := metaData_of_metaOf filled_eval.1.1

theorem settled_metaData : settled.hisg.metaData.nextBlockId = 6 ∧
    settled.hisg.metaData.schemaStats = firstSizes := metaData_of_metaOf run_eval.2.2

theorem parted_metaData : parted.hisg.metaData.nextBlockId ≤ 2 ^ 64 ∧
    parted.hisg.metaData.schemaStats = firstSizes := by
  obtain ⟨hnext, hstats⟩ := metaData_of_metaOf filled_eval.2.2
  refine ⟨?_, hstats⟩
  rw [hnext]
  decide

theorem wellNamed_textSchema : WellNamed textSchema := ⟨by decide, by decide⟩

theorem new_oneSlice : PartitionIndex.new 1 textSchema = .ok oneSlice := by
  obtain ⟨idx, hidx, -⟩ := Except.of_toOption_map values_eval.2.2.1
  unfold oneSlice
  rw [hidx]

theorem Recorded.addPlain {ss : List (TimeSlicedPartitioning Time)}
    {es : List (GraphEdge Time (AttributeData textSchema))}
    {g : InteractionGraph (PartitionIndex Time) Time ℚ textSchema textSchema} {v u : VertexId}
    {time : Time} {a b : Text} (h : Recorded ss es g)
    (hlater : ∀ t ∈ es.map GraphEdge.time, t < time)
    (hrun : answer? (addPlain v u time a b g) = some ()) :
    Recorded ss (es ++ [edgeAt g v u time a b]) (stateAfter (addPlain v u time a b) g) :=
  Recorded.addEdge _ v u time _ h (fun _ => hlater) (eq_of_answer? hrun)

theorem recorded_filled : Recorded [wholeSlice textSchema] threeEdges filled := by
  have hpeople : Recorded [wholeSlice textSchema] [] peopled := by
    unfold peopled
    simp only [List.foldl_cons, List.foldl_nil]
    refine Recorded.ask _ (Recorded.ask _ (Recorded.ask _ ?_ trivial) trivial) trivial
    exact Recorded.new smallConf oneSlice new_oneSlice le_rfl le_rfl
  obtain ⟨hfirst, hflush, hsecond, hflush', hthird⟩ := run_eval.1
  obtain ⟨-, -, -, -, -, -, hsoon, hlater⟩ := values_eval.1
  have hone : Recorded [wholeSlice textSchema] _ oneFiled :=
    (hpeople.addPlain (fun t ht => (List.not_mem_nil ht).elim) hfirst).flush _ _ 1
      (eq_of_answer? hflush)
  have htwo : Recorded [wholeSlice textSchema] _ twoFiled :=
    (hone.addPlain (List.forall_mem_singleton.mpr hsoon) hsecond).flush _ _ 1
      (eq_of_answer? hflush')
  exact htwo.addPlain (List.forall_mem_cons.mpr ⟨hsoon.trans hlater, List.forall_mem_singleton.mpr hlater⟩)
    hthird

theorem flush_filled : flushPlain filled = .ok () settled := eq_of_answer? run_eval.2.1

/-- Every block has an edge of the first vertex, at half a second or at one. -/
theorem timesIn_of_getBlock {id : BlockId} {block : Block Time (AttributeData textSchema)}
    {g : HistoricalGraph (PartitionIndex Time) Time textSchema}
    (hrun : BlockManager.getBlock id filled.hisg = .ok block g) :
    ∃ t ∈ [atHalf, atOne], (block.neigs.edges 1).map NLEdge.time = [t] := by
  obtain ⟨-, -, hcache, hkeys, hzero, hone, htwo, hthree⟩ := filled_eval.1
  have hblock : timesIn id = some ((block.neigs.edges 1).map NLEdge.time) := by
    unfold timesIn
    rw [hrun]
    rfl
  by_cases hid : id ∈ ([0, 1, 2, 3] : List BlockId)
  · simp only [List.mem_cons, List.not_mem_nil, or_false] at hid
    rcases hid with rfl | rfl | rfl | rfl
    · exact ⟨atHalf, by simp, Option.some.inj (hblock.symm.trans hzero)⟩
    · exact ⟨atHalf, by simp, Option.some.inj (hblock.symm.trans hone)⟩
    · exact ⟨atOne, by simp, Option.some.inj (hblock.symm.trans htwo)⟩
    · exact ⟨atOne, by simp, Option.some.inj (hblock.symm.trans hthree)⟩
  · have hmiss : filled.hisg.bman.cache.lookup id = none := by
      rw [AList.lookup_eq_none, AList.mem_keys, hcache]
      exact List.not_mem_nil
    have hdb : filled.hisg.bman.db.find? (keyBytes id) = none := by
      rw [Option.eq_none_iff_forall_ne_some]
      intro value hvalue
      have hin := List.mem_map_of_mem (f := Prod.fst) (SortedMap.mem_iff_find?.mpr hvalue)
      rw [hkeys] at hin
      obtain ⟨id', hid', heq⟩ := List.mem_map.mp hin
      rw [keyBytes_injective heq] at hid'
      exact hid hid'
    rw [Storage.getBlock_missing hmiss hdb] at hrun
    cases hrun

theorem anchored_filled : Anchored splitting.updated filled.hisg := by
  intro s hs id block g' t hrun _ _ _
  obtain ⟨time, htime, htimes⟩ := timesIn_of_getBlock hrun
  have hmem : time ∈ (block.neigs.edges 1).map NLEdge.time := by
    rw [htimes]
    exact List.mem_cons_self
  obtain ⟨e, he, heq⟩ := List.mem_map.mp hmem
  refine ⟨1, e, he, ?_⟩
  rw [heq, List.mem_singleton.mp hs]
  exact values_eval.1.1 time htime

theorem sliced_threeEdges {ss : List (TimeSlicedPartitioning Time)} (hparts : Serve ss) :
    Block.Sliced (fun t => partsOf ss t ≠ none) (threeEdges.map GraphEdge.time) :=
  ⟨values_eval.1.2.2.2.2.2.1, hparts.1, fun a ha b hb _ => hparts.2 a ha b hb⟩

theorem replaceable_filled :
    Replaceable [wholeSlice textSchema] threeEdges splitting filled := by
  obtain ⟨-, hline, -, -, hinfinity, -⟩ := values_eval.1
  obtain ⟨hbefore, hafter, hslices⟩ := values_eval.2.1
  refine ⟨?_, ?_, ?_, ?_, anchored_filled, ?_, sliced_threeEdges hbefore, sliced_threeEdges hafter⟩
  · intro s hs
    rw [List.mem_singleton.mp hs]
    exact List.mem_singleton.mpr rfl
  · intro s hs
    rw [List.mem_singleton.mp hs]
    exact hline
  · intro s hs
    rw [List.mem_singleton.mp hs]
    refine ⟨?_, hinfinity, ?_, by decide, by decide⟩
    · show ∀ attributes ∈ [[[97]], [[98]]], attributes.Nodup ∧ ∀ name ∈ attributes, name.length < 2 ^ 32
      decide
    · show ∀ attributes ∈ [[[97]], [[98]]], ∀ name ∈ attributes, name ∈ textSchema.names
      decide
  · obtain ⟨-, hsize, -⟩ := filled_eval.1
    rw [hsize, show recut splitting.old splitting.new [wholeSlice textSchema] = splitting.new from
      hslices]
    exact le_rfl
  · intro e he
    simp only [threeEdges, List.mem_cons, List.not_mem_nil, or_false] at he
    rcases he with rfl | rfl | rfl
    · exact short_texts.mpr ⟨by decide, by decide⟩
    · exact short_texts.mpr ⟨by decide, by decide⟩
    · exact short_texts.mpr ⟨by decide, by decide⟩

theorem split_filled : onHistory (splitting.run allTree) filled = .ok () parted :=
  eq_of_answer? filled_eval.2.1

theorem recorded_parted : Recorded splitSlices threeEdges parted :=
  recorded_filled.replace allTree splitting replaceable_filled split_filled

/-- The first attribute of the edges of the first vertex. -/
def askFirst : HistoricalGraph.FocusedIntervalQuery Time := ⟨1, atHalf, Time.ofFloat 2.0, [[97]]⟩

theorem weighed_firstSizes {stats : SchemaStats} (hstats : stats = firstSizes) :
    Weighed textSchema stats := by
  obtain ⟨hfirst, hsecond, hbounded⟩ := values_eval.2.2.2
  rw [hstats]
  refine ⟨?_, hbounded⟩
  intro name hname
  have hcases : name = [97] ∨ name = [98] := by simpa [textSchema, Schema.names] using hname
  rcases hcases with heq | heq
  · rw [heq]
    exact ⟨14 / 3, Except.of_toOption hfirst, by norm_num⟩
  · rw [heq]
    exact ⟨5, Except.of_toOption hsecond, by norm_num⟩

theorem known_askFirst : ∀ name ∈ askFirst.attributeNames, name ∈ textSchema.names := by decide

theorem length_threeEdges : (incident askFirst.headVertex threeEdges).length ≤ 3 := rfl.le

theorem intervalQuery_parted :
    ∃ (filed : VertexId → List (NLEdge Time (AttributeData textSchema))) (vs : List VertexId)
      (g : InteractionGraph (PartitionIndex Time) Time ℚ textSchema textSchema),
      (∀ v, filed v ++ parted.memg.pending v = incident v threeEdges) ∧
      processIntervalQuery allTree atOne (Time.ofFloat 2.0) parted = .ok vs g ∧ vs.Nodup ∧
      ∀ v, v ∈ vs ↔ HasEdgeIn (filed v) atOne (Time.ofFloat 2.0) :=
  recorded_parted.intervalQuery_finds wellNamed_textSchema replaceable_filled.after parted_metaData.1
    allTree values_eval.1.2.2.2.1

end Examples

end InteractionGraph

end RailwayDB
