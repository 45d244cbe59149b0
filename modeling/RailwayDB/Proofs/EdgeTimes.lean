/-
Edge times over the life of a storage directory.

`addEdge` compares the time of an edge with the last one of its session, and every
session starts from zero.  The edges of a session that are in no block yet come later
than every list stored for their vertices, as long as its first edge does.  Then no
record is put under the key of another and the lists of a vertex stay apart.

A call that throws may leave an edge in the queue of the window that is not in the
window any more.  No edge leaves the window after that, so nothing more is stored
before the graph is opened again.
-/
import RailwayDB.Proofs.BlockIds
import RailwayDB.Proofs.IndexedBlocks
import RailwayDB.Proofs.Pipeline

namespace RailwayDB

open ExpirationMap (written Usable)
open FocusedIntervalQueryIndex (putRecords recordKey)

/-! ### Edges that are in no block yet -/

namespace InMemoryGraph

variable {T S D : Type} [LinearOrder T] [LinearOrder S] [Score S] [TimeScore T S] [SerializedSize D]
  {memg : InMemoryGraph T S D} {expired window : List (GraphEdge T D)} {w : VertexId}

/-- The edges of a vertex in the map, then those in the window. -/
def pending (memg : InMemoryGraph T S D) (w : VertexId) : List (NLEdge T D) :=
  memg.expm.neigLists.edges w ++ memg.neigLists.edges w

theorem Held.pending_suffix {D : Type} {memg : InMemoryGraph T S D}
    {expired window : List (GraphEdge T D)} (h : Held expired window memg) (w : VertexId) :
    memg.pending w <:+ incident w (expired ++ window) := by
  obtain ⟨front, hfront⟩ := h.sound.suffixes.suffix w
  refine ⟨front, ?_⟩
  unfold pending
  rw [h.edges, ← List.append_assoc, hfront, incident_append]

theorem Held.pending_increasing {D : Type} {memg : InMemoryGraph T S D}
    {expired window : List (GraphEdge T D)} (h : Held expired window memg) (w : VertexId) :
    (memg.pending w).Pairwise fun x y => x.time < y.time :=
  (h.history.incident_increasing w).sublist (h.pending_suffix w).sublist

theorem Held.mem_pending {D : Type} {memg : InMemoryGraph T S D}
    {expired window : List (GraphEdge T D)} (h : Held expired window memg) {x : NLEdge T D}
    (hx : x ∈ memg.pending w) : ∃ e ∈ expired ++ window, e.time = x.time := by
  obtain ⟨e, he, hat⟩ := mem_incident.mp ((h.pending_suffix w).mem hx)
  exact ⟨e, he, (GraphEdge.at?_time hat).1.symm⟩

theorem Held.pending_enter {D : Type} {memg : InMemoryGraph T S D}
    {expired window : List (GraphEdge T D)} (h : Held expired window memg) {e : GraphEdge T D}
    (hes : History (expired ++ (window ++ [e]))) (w : VertexId) :
    (memg.enter e.firstVertex e.secondVertex e.time e.data).pending w
      = memg.pending w ++ (e.at? w).toList := by
  unfold pending
  rw [(enter_held h hes).edges, h.edges, incident_append, incident_singleton, List.append_assoc]
  rfl

theorem mem_edges_addEdge {T D : Type} {lists : NeighborListMap T D} {v : VertexId}
    {e x : NLEdge T D} (h : x ∈ (lists.addEdge v e).edges w) : x ∈ lists.edges w ∨ x = e := by
  rw [NeighborListMap.edges_addEdge] at h
  split_ifs at h with hw
  · rw [hw]
    exact (List.mem_append.mp h).imp_right List.mem_singleton.mp
  · exact Or.inl h

/-- An edge that is not in the window is not removed from it. -/
theorem removeEdge_of_gone {S D : Type} [LinearOrder S] {memg : InMemoryGraph T S D} {e : UEdge T}
    (hgone : ∀ x ∈ memg.neigLists.edges e.firstVertex, x.time ≠ e.time) :
    ∃ fault, memg.removeEdge e = .error fault := by
  unfold removeEdge removeFrom
  cases hedges : memg.neigLists.edges e.firstVertex with
  | nil => exact ⟨_, rfl⟩
  | cons oldest rest =>
      have htime := hgone oldest (by rw [hedges]; exact List.mem_cons_self)
      by_cases hto : oldest.toVertex ≠ e.secondVertex
      · exact ⟨_, by simp only [if_pos hto]; rfl⟩
      · exact ⟨_, by simp only [if_neg hto, if_pos htime]; rfl⟩

end InMemoryGraph

namespace InteractionGraph

open InMemoryGraph (Held)
open Storage (SameIndexes)

variable {P T S : Type} [LinearOrder T] [LinearOrder S] [Score S] [TimeScore T S] [Timestamp T]
  [BlockTime T] [SliceIndex P T] {vertexSchema edgeSchema : Schema} {α β : Type}
  {ts : List T} {iqIndex added : List (IntervalData T)}
  {fiqIndex : SortedMap (List Byte) (List Byte)}
  {memg memg' : InMemoryGraph T S (AttributeData edgeSchema)}
  {expired window expired' window' : List (GraphEdge T (AttributeData edgeSchema))}
  {block : Block T (AttributeData edgeSchema)}
  {g : InteractionGraph P T S vertexSchema edgeSchema}

/-- The edges in memory have times of `ts`, and come after the stored lists of their vertices. -/
structure Waiting (ts : List T) (iqIndex : List (IntervalData T))
    (expired window : List (GraphEdge T (AttributeData edgeSchema)))
    (memg : InMemoryGraph T S (AttributeData edgeSchema)) : Prop where
  held : Held expired window memg
  known : ∀ e ∈ expired ++ window, e.time ∈ ts
  later : ∀ e ∈ iqIndex, ∀ x ∈ memg.pending e.vertex, e.intervalEnd < x.time

theorem Waiting.new {T : Type} [LinearOrder T] [TimeScore T S] {ts : List T}
    {iqIndex : List (IntervalData T)} (conf : Conf) :
    Waiting ts iqIndex [] [] (.new conf : InMemoryGraph T S (AttributeData edgeSchema)) :=
  ⟨Held.new conf, fun _ he => (List.not_mem_nil he).elim,
    fun _ _ _ hx => (List.not_mem_nil hx).elim⟩

/-- Less is in memory than was. -/
theorem Waiting.of_suffix {T : Type} [LinearOrder T] [TimeScore T S] {ts : List T}
    {iqIndex : List (IntervalData T)} {memg memg' : InMemoryGraph T S (AttributeData edgeSchema)}
    {expired window expired' window' : List (GraphEdge T (AttributeData edgeSchema))}
    (h : Waiting ts iqIndex expired window memg) (hheld : Held expired' window' memg')
    (hedges : expired' ++ window' = expired ++ window)
    (hsuffix : ∀ w, memg'.pending w <:+ memg.pending w) :
    Waiting ts iqIndex expired' window' memg' := by
  refine ⟨hheld, ?_, fun e he x hx => h.later e he x ((hsuffix e.vertex).mem hx)⟩
  rw [hedges]
  exact h.known

/-- **The front of what is in memory is stored**: the rest comes after it. -/
theorem Waiting.store {T : Type} [LinearOrder T] [TimeScore T S] [Timestamp T] {ts : List T}
    {iqIndex added : List (IntervalData T)}
    {memg memg' : InMemoryGraph T S (AttributeData edgeSchema)}
    {expired window expired' window' : List (GraphEdge T (AttributeData edgeSchema))}
    {block : Block T (AttributeData edgeSchema)} (h : Waiting ts iqIndex expired window memg)
    (hapart : Apart iqIndex fiqIndex) (hended : ∀ e ∈ iqIndex, e.intervalEnd ∈ ts)
    (hheld : Held expired' window' memg') (hedges : expired' ++ window' = expired ++ window)
    (hfront : ∀ w, block.neigs.edges w ++ memg'.pending w = memg.pending w)
    (hentries : EntriesOf block added) :
    Apart (iqIndex ++ added) (putRecords fiqIndex added) ∧
      (∀ e ∈ iqIndex ++ added, e.intervalEnd ∈ ts) ∧
      Waiting ts (iqIndex ++ added) expired' window' memg' := by
  have hsorted : ∀ w, (block.neigs.edges w ++ memg'.pending w).Pairwise
      fun x y => x.time < y.time := by
    intro w
    rw [hfront]
    exact h.held.pending_increasing w
  have hmem : ∀ w, ∀ x ∈ block.neigs.edges w, x ∈ memg.pending w := by
    intro w x hx
    rw [← hfront]
    exact List.mem_append_left _ hx
  have hrest := h.of_suffix hheld hedges fun w => ⟨_, hfront w⟩
  refine ⟨?_, ?_, hrest.held, hrest.known, ?_⟩
  · exact hapart.store hentries (fun w => (List.pairwise_append.mp (hsorted w)).1)
      fun e he x hx => h.later e he x (hmem e.vertex x hx)
  · intro e he
    rcases List.mem_append.mp he with he | he
    · exact hended e he
    · obtain ⟨-, x, hx, hstop⟩ := hentries.mem he
      obtain ⟨e', he', htime⟩ := h.held.mem_pending (hmem e.vertex x hx)
      rw [← hstop, ← htime]
      exact h.known e' he'
  · intro e he x hx
    rcases List.mem_append.mp he with he | he
    · exact hrest.later e he x hx
    · obtain ⟨-, y, hy, hstop⟩ := hentries.mem he
      rw [← hstop]
      exact (List.pairwise_append.mp (hsorted e.vertex)).2.2 y hy x hx

/-- The edge at the front of the queue is not in the window any more. -/
def Stuck (ts : List T) (memg : InMemoryGraph T S (AttributeData edgeSchema)) : Prop :=
  ∃ e rest, memg.vfifo.edges = e :: rest ∧ e.time ∈ ts ∧
    ∀ x ∈ memg.neigLists.edges e.firstVertex, x.time ≠ e.time

/-- What holds of a directory and the session on it, with the times of all edges so far. -/
structure KeptApart (ts : List T) (g : InteractionGraph P T S vertexSchema edgeSchema) :
    Prop where
  apart : Apart g.hisg.iqIndex g.hisg.fiqIndex
  ended : ∀ e ∈ g.hisg.iqIndex, e.intervalEnd ∈ ts
  memory : (∃ expired window, Waiting ts g.hisg.iqIndex expired window g.memg) ∨ Stuck ts g.memg

/-! ### Handing a block over -/

theorem get_bind {T S : Type} [LinearOrder S] {g : InteractionGraph P T S vertexSchema edgeSchema}
    (f : InteractionGraph P T S vertexSchema edgeSchema → Session P T S vertexSchema edgeSchema β) :
    ((get : Session P T S vertexSchema edgeSchema _) >>= f) g = f g g := rfl

theorem ofResult_bind_ok {T S : Type} [LinearOrder S]
    {g : InteractionGraph P T S vertexSchema edgeSchema} {x : Except Fault α} {a : α}
    (hx : x = .ok a) (f : α → Session P T S vertexSchema edgeSchema β) :
    (ofResult x >>= f) g = f a g := by
  rw [hx]
  rfl

theorem ofResult_bind_error {T S : Type} [LinearOrder S]
    {g : InteractionGraph P T S vertexSchema edgeSchema} {x : Except Fault α} {e : Fault}
    (hx : x = .error e) (f : α → Session P T S vertexSchema edgeSchema β) :
    (ofResult x >>= f) g = .error e g := by
  rw [hx]
  rfl

theorem modifyMemory_bind {T S : Type} [LinearOrder S]
    {g : InteractionGraph P T S vertexSchema edgeSchema}
    (h : InMemoryGraph T S (AttributeData edgeSchema) →
      InMemoryGraph T S (AttributeData edgeSchema))
    (f : Unit → Session P T S vertexSchema edgeSchema β) :
    (modifyMemory h >>= f) g = f () { g with memg := h g.memg } := rfl

/-- The block is indexed, or the indices are as they were. -/
theorem ends_handOver {S : Type} [LinearOrder S]
    (g : InteractionGraph P T S vertexSchema edgeSchema)
    (block : Block T (AttributeData edgeSchema)) :
    Ends (handOver (some block)) g
      (fun _ g' => g'.memg = g.memg ∧ ∃ added, EntriesOf block added ∧
        g'.hisg.iqIndex = g.hisg.iqIndex ++ added ∧
        g'.hisg.fiqIndex = putRecords g.hisg.fiqIndex added)
      (fun _ g' => g'.memg = g.memg ∧ SameIndexes g.hisg g'.hisg) := by
  have hstore := Storage.ends_storeBlock g.hisg block
  unfold Ends at hstore
  show Ends (onHistory (HistoricalGraph.addBlock block)) g _ _
  unfold Ends onHistory
  cases hrun : HistoricalGraph.addBlock block g.hisg with
  | ok a hisg =>
      rw [hrun] at hstore
      exact ⟨rfl, hstore⟩
  | error e hisg =>
      rw [hrun] at hstore
      exact ⟨rfl, hstore⟩

theorem KeptApart.of_sameIndexes {T : Type} [LinearOrder T] [TimeScore T S] [Timestamp T]
    {ts : List T} {g : InteractionGraph P T S vertexSchema edgeSchema} (h : KeptApart ts g)
    {g' : InteractionGraph P T S vertexSchema edgeSchema} (hsame : SameIndexes g.hisg g'.hisg)
    (hmemory : (∃ expired window, Waiting ts g.hisg.iqIndex expired window g'.memg) ∨
      Stuck ts g'.memg) : KeptApart ts g' := by
  obtain ⟨hiq, hfiq⟩ := hsame
  refine ⟨?_, ?_, ?_⟩
  · rw [hiq, hfiq]
    exact h.apart
  · rw [hiq]
    exact h.ended
  · rw [hiq]
    exact hmemory

/-- **The front of what is in memory is handed over.**  `memg` is the memory meanwhile, `memg'` the
memory without the block. -/
theorem keptApart_handOver {block : Option (Block T (AttributeData edgeSchema))}
    (h : KeptApart ts g) (hwaiting : Waiting ts g.hisg.iqIndex expired window g.memg)
    (hheld : Held expired' window' memg') (hedges : expired' ++ window' = expired ++ window)
    (hfront : ∀ w, written block.toList w ++ memg'.pending w = g.memg.pending w)
    (hmeanwhile : (∃ expired window, Waiting ts g.hisg.iqIndex expired window memg) ∨
      Stuck ts memg) :
    Ends (handOver block) { g with memg := memg }
      (fun _ g' => g'.memg = memg ∧ KeptApart ts { g' with memg := memg' })
      (fun _ g' => KeptApart ts g') := by
  cases block with
  | none =>
      have hrest := hwaiting.of_suffix hheld hedges fun w => ⟨[], hfront w⟩
      exact ⟨rfl, h.of_sameIndexes (refl_of SameIndexes _) (Or.inl ⟨_, _, hrest⟩)⟩
  | some block =>
      refine (ends_handOver _ block).mono ?_ ?_
      · rintro - g' ⟨hmemg, added, hentries, hiq, hfiq⟩
        have hfront' : ∀ w, block.neigs.edges w ++ memg'.pending w = g.memg.pending w := by
          intro w
          rw [← hfront w]
          simp [written]
        obtain ⟨hapart, hended, hrest⟩ :=
          hwaiting.store h.apart h.ended hheld hedges hfront' hentries
        rw [← hiq] at hapart hended hrest
        rw [← hfiq] at hapart
        exact ⟨hmemg, hapart, hended, Or.inl ⟨_, _, hrest⟩⟩
      · rintro - g' ⟨hmemg, hsame⟩
        have hsame' : memg = g'.memg := hmemg.symm
        rw [hsame'] at hmeanwhile
        exact h.of_sameIndexes hsame hmeanwhile

/-! ### One edge leaves the window -/

/-- The edge that was removed still leads the queue. -/
theorem stuck_of_removed {T : Type} [LinearOrder T] [TimeScore T S] {ts : List T}
    {iqIndex : List (IntervalData T)} {memg : InMemoryGraph T S (AttributeData edgeSchema)}
    {expired window : List (GraphEdge T (AttributeData edgeSchema))}
    {e : GraphEdge T (AttributeData edgeSchema)} (h : Waiting ts iqIndex expired (e :: window) memg)
    {lists : NeighborListMap T (AttributeData edgeSchema)}
    (hlists : ∀ w, lists.edges w = incident w window)
    (expm : ExpirationMap T S (AttributeData edgeSchema)) :
    Stuck ts { memg with neigLists := lists, expm := expm } := by
  refine ⟨e.toUEdge, window.map GraphEdge.toUEdge, h.held.fifo, ?_, ?_⟩
  · exact h.known e (List.mem_append_right _ List.mem_cons_self)
  · intro x hx
    have hx' : x ∈ lists.edges e.firstVertex := hx
    rw [hlists] at hx'
    obtain ⟨e', he', hat⟩ := mem_incident.mp hx'
    have hincreasing := (List.pairwise_append.mp h.held.history.increasing).2.1
    rw [(GraphEdge.at?_time hat).1]
    exact ne_of_gt ((List.pairwise_cons.mp hincreasing).1 e' he')

theorem keptApart_expire (ω : Oracle S) (h : KeptApart ts g) :
    Ends (expire ω) g (fun _ g' => KeptApart ts g') (fun _ g' => KeptApart ts g') := by
  unfold expire
  rw [Ends, get_bind]
  rcases h.memory with ⟨expired, window, hwaiting⟩ | ⟨e, rest, hfifo, -, hgone⟩
  · cases window with
    | nil =>
        have hnone : g.memg.vfifo.getOldestEdge = .error (.undefined .outOfRange) := by
          unfold EdgeFIFO.getOldestEdge
          rw [hwaiting.held.fifo]
          rfl
        rw [ofResult_bind_error hnone]
        exact h
    | cons e window =>
        have holdest : g.memg.vfifo.getOldestEdge = .ok e.toUEdge := by
          unfold EdgeFIFO.getOldestEdge
          rw [hwaiting.held.fifo]
          rfl
        obtain ⟨lists, hremove, hlists, hedges⟩ := InMemoryGraph.removeEdge_ok hwaiting.held
        rw [ofResult_bind_ok holdest, get_bind, ofResult_bind_ok hremove]
        dsimp only
        rw [modifyMemory_bind]
        have hes : History (expired ++ [e] ++ window) := by
          rw [List.append_assoc]
          exact hwaiting.held.history
        obtain ⟨block, m', hadd, hm', -, hwritten⟩ | ⟨-, hfault⟩ :=
          ExpirationMap.addEdge_ok ω hwaiting.held.sound hes.left
        · rw [ofResult_bind_ok hadd]
          dsimp only
          rw [modifyMemory_bind]
          have hheld : Held (expired ++ [e]) window { g.memg with
              neigLists := lists, expm := m', vfifo := g.memg.vfifo.popOldestEdge } := by
            refine ⟨hes, hm', hlists, hedges, ?_⟩
            show g.memg.vfifo.edges.tail = _
            rw [hwaiting.held.fifo]
            rfl
          have hsplit : ∀ w, written block.toList w ++ InMemoryGraph.pending { g.memg with
              neigLists := lists, expm := m', vfifo := g.memg.vfifo.popOldestEdge } w
                = g.memg.pending w := by
            intro w
            show written block.toList w ++ (m'.neigLists.edges w ++ lists.edges w)
              = g.memg.expm.neigLists.edges w ++ g.memg.neigLists.edges w
            rw [← List.append_assoc, hwritten, hedges, hwaiting.held.edges, List.append_assoc,
              ← incident_singleton, ← incident_append]
            rfl
          have hassoc : expired ++ [e] ++ window = expired ++ e :: window := by simp
          refine Ends.bind (keptApart_handOver (g := g) h hwaiting hheld hassoc hsplit
            (Or.inr (stuck_of_removed hwaiting hedges m'))) ?_
          rintro - g' ⟨hmemg, hdone⟩
          show KeptApart ts { g' with memg := { g'.memg with
            vfifo := g'.memg.vfifo.popOldestEdge } }
          rw [hmemg]
          exact hdone
        · rw [ofResult_bind_error hfault]
          exact h.of_sameIndexes (refl_of SameIndexes _)
            (Or.inr (stuck_of_removed hwaiting hedges g.memg.expm))
  · have holdest : g.memg.vfifo.getOldestEdge = .ok e := by
      unfold EdgeFIFO.getOldestEdge
      rw [hfifo]
      rfl
    obtain ⟨fault, hremove⟩ := InMemoryGraph.removeEdge_of_gone hgone
    rw [ofResult_bind_ok holdest, get_bind, ofResult_bind_error hremove]
    exact h

/-- The loop returns when its condition is false, if ever. -/
theorem keptApart_expireWhile (more : EdgeFIFO T → Bool) (ω : Nat → Oracle S) (fuel : Nat)
    (h : KeptApart ts g) :
    Ends (expireWhile more ω fuel) g
      (fun _ g' => KeptApart ts g' ∧ more g'.memg.vfifo = false) (fun _ g' => KeptApart ts g') := by
  induction fuel generalizing g with
  | zero =>
      unfold expireWhile
      rw [Ends, get_bind]
      split_ifs with hmore
      · exact h
      · exact ⟨h, Bool.eq_false_iff.mpr hmore⟩
  | succ fuel ih =>
      unfold expireWhile
      rw [Ends, get_bind]
      split_ifs with hmore
      · exact (keptApart_expire (ω fuel) h).bind fun _ g' h' => ih h'
      · exact ⟨h, Bool.eq_false_iff.mpr hmore⟩

/-! ### Calls -/

/-- Blocks are written as long as the map has edges. -/
theorem keptApart_writeBlocks (ω : Nat → Oracle S) (fuel : Nat) (h : KeptApart ts g)
    (hempty : g.memg.vfifo.isEmpty = true) :
    Ends (writeBlocks ω fuel) g (fun _ g' => KeptApart ts g') (fun _ g' => KeptApart ts g') := by
  induction fuel generalizing g with
  | zero =>
      unfold writeBlocks
      rw [Ends, get_bind]
      split_ifs with hsize
      · exact h
      · exact h
  | succ fuel ih =>
      obtain ⟨expired, window, hwaiting⟩ := h.memory.resolve_right (by
        rintro ⟨e, rest, hfifo, -⟩
        unfold EdgeFIFO.isEmpty at hempty
        rw [hfifo] at hempty
        cases hempty)
      unfold writeBlocks
      rw [Ends, get_bind]
      split_ifs with hsize
      · rw [get_bind]
        by_cases husable : Usable g.memg.expm.conf
        · obtain ⟨block, expm, hwrite, hsound, -, hsplits, -⟩ :=
            ExpirationMap.writeBlock_ok (ω fuel) hwaiting.held.sound husable
              fun _ => Nat.pos_iff_ne_zero.mp hsize
          rw [ofResult_bind_ok hwrite]
          dsimp only
          rw [modifyMemory_bind]
          have hheld : Held expired window { g.memg with expm := expm } :=
            ⟨hwaiting.held.history, hsound, hwaiting.held.lists, hwaiting.held.edges,
              hwaiting.held.fifo⟩
          have hfront : ∀ w, written (some block).toList w
              ++ InMemoryGraph.pending { g.memg with expm := expm } w = g.memg.pending w := by
            intro w
            show written [block] w ++ (expm.neigLists.edges w ++ g.memg.neigLists.edges w)
              = g.memg.expm.neigLists.edges w ++ g.memg.neigLists.edges w
            rw [← hsplits w, written_cons, ← List.append_assoc]
            simp [written]
          have hrest := hwaiting.of_suffix hheld rfl fun w => ⟨_, hfront w⟩
          refine Ends.bind (keptApart_handOver (g := g) h hwaiting hheld rfl hfront
            (Or.inl ⟨_, _, hrest⟩)) ?_
          rintro - g' ⟨hmemg, hdone⟩
          rw [← hmemg] at hdone
          refine ih hdone ?_
          rw [hmemg]
          exact hempty
        · rw [ofResult_bind_error (ExpirationMap.writeBlock_unusable (ω fuel) husable)]
          exact h
      · exact h

theorem keptApart_flush (ω ω' : Nat → Oracle S) (fuel : Nat) (h : KeptApart ts g) :
    Ends (flush ω ω' fuel) g (fun _ g' => KeptApart ts g') (fun _ g' => KeptApart ts g') := by
  unfold flush
  rw [Ends, get_bind]
  refine (keptApart_expireWhile _ ω _ h).bind ?_
  rintro - g₁ ⟨h₁, hempty⟩
  refine Ends.bind (keptApart_writeBlocks ω' fuel h₁ (by simpa using hempty)) ?_
  intro _ g₂ h₂
  exact Ends.modify ⟨h₂.apart, h₂.ended, h₂.memory⟩

theorem keptApart_onVertices {T : Type} [LinearOrder T] [TimeScore T S] [Timestamp T] {ts : List T}
    {g : InteractionGraph P T S vertexSchema edgeSchema} (x : VertexManager.Vertices vertexSchema α)
    (h : KeptApart ts g) :
    Ends (onVertices x) g (fun _ g' => KeptApart ts g') (fun _ g' => KeptApart ts g') := by
  unfold Ends onVertices
  cases hx : x g.vman with
  | ok a vman => exact ⟨h.apart, h.ended, h.memory⟩
  | error e vman => exact ⟨h.apart, h.ended, h.memory⟩

theorem keptApart_countSizes {T : Type} [LinearOrder T] [TimeScore T S] [Timestamp T] {ts : List T}
    {g : InteractionGraph P T S vertexSchema edgeSchema} (fields : List (Nat × Value))
    (h : KeptApart ts g) :
    Ends (countSizes fields) g (fun _ g' => KeptApart ts g') (fun _ g' => KeptApart ts g') := by
  induction fields generalizing g with
  | nil => exact h
  | cons f fields ih =>
      unfold countSizes
      cases hsize : AttributeData.getFieldSize edgeSchema f with
      | error e =>
          rw [Ends, ofResult_bind_error rfl]
          exact h
      | ok size =>
          rw [Ends, ofResult_bind_ok rfl]
          refine Ends.bind (Ends.modify (Q := fun _ g' => KeptApart ts g') ?_) fun _ g' h' => ih h'
          exact ⟨h.apart, h.ended, h.memory⟩

theorem KeptApart.mono {T : Type} [LinearOrder T] [TimeScore T S] [Timestamp T] {ts : List T}
    {g : InteractionGraph P T S vertexSchema edgeSchema} (h : KeptApart ts g) {ts' : List T}
    (hsub : ts ⊆ ts') : KeptApart ts' g := by
  refine ⟨h.apart, fun e he => hsub (h.ended e he), h.memory.imp ?_ ?_⟩
  · rintro ⟨expired, window, hwaiting⟩
    exact ⟨expired, window, hwaiting.held, fun e he => hsub (hwaiting.known e he), hwaiting.later⟩
  · rintro ⟨e, rest, hfifo, hknown, hgone⟩
    exact ⟨e, rest, hfifo, hsub hknown, hgone⟩

variable {v u : VertexId} {time : T} {data : SharedPtr (AttributeData edgeSchema)}

/-- An edge later than all others enters the window. -/
theorem Waiting.enter {T : Type} [LinearOrder T] [TimeScore T S] {ts : List T}
    {iqIndex : List (IntervalData T)} {memg : InMemoryGraph T S (AttributeData edgeSchema)}
    {expired window : List (GraphEdge T (AttributeData edgeSchema))} {time : T}
    (h : Waiting ts iqIndex expired window memg) (hended : ∀ e ∈ iqIndex, e.intervalEnd ∈ ts)
    (hne : v ≠ u) (hlater : ∀ t ∈ ts, t < time) :
    Waiting (ts ++ [time]) iqIndex expired (window ++ [⟨v, u, time, data⟩])
      (memg.enter v u time data) := by
  have hes : History (expired ++ (window ++ [⟨v, u, time, data⟩])) := by
    rw [← List.append_assoc]
    refine ⟨List.pairwise_append.mpr ⟨h.held.history.increasing, List.pairwise_singleton _ _, ?_⟩,
      ?_⟩
    · intro e he e' he'
      rw [List.mem_singleton.mp he']
      exact hlater e.time (h.known e he)
    · intro e he
      rcases List.mem_append.mp he with he | he
      · exact h.held.history.distinct e he
      · rw [List.mem_singleton.mp he]
        exact hne
  refine ⟨InMemoryGraph.enter_held h.held hes, ?_, ?_⟩
  · intro e he
    rw [← List.append_assoc] at he
    rcases List.mem_append.mp he with he | he
    · exact List.mem_append_left _ (h.known e he)
    · rw [List.mem_singleton.mp he]
      exact List.mem_append_right _ List.mem_cons_self
  · intro e he x hx
    rw [h.held.pending_enter hes] at hx
    rcases List.mem_append.mp hx with hx | hx
    · exact h.later e he x hx
    · rw [(GraphEdge.at?_time (Option.mem_toList.mp hx)).1]
      exact hlater _ (hended e he)

/-- The edge at the front of the queue is still missing. -/
theorem Stuck.enter {T S : Type} [LinearOrder T] [LinearOrder S] {ts : List T}
    {memg : InMemoryGraph T S (AttributeData edgeSchema)} {time : T} (h : Stuck ts memg)
    (hlater : ∀ t ∈ ts, t < time) :
    Stuck (ts ++ [time]) (memg.enter v u time data) := by
  obtain ⟨e, rest, hfifo, hknown, hgone⟩ := h
  refine ⟨e, rest ++ [⟨v, u, time⟩], ?_, List.mem_append_left _ hknown, ?_⟩
  · show memg.vfifo.edges ++ [_] = _
    rw [hfifo]
    rfl
  · have hne : time ≠ e.time := ne_of_gt (hlater e.time hknown)
    intro x hx
    rcases InMemoryGraph.mem_edges_addEdge hx with hx | hx
    · rcases InMemoryGraph.mem_edges_addEdge hx with hx | hx
      · exact hgone x hx
      · rw [hx]
        exact hne
    · rw [hx]
      exact hne

theorem keptApart_insertEdge (ω : Nat → Oracle S) (edgeData : List Value) (h : KeptApart ts g)
    (hne : v ≠ u) (hlater : ∀ t ∈ ts, t < time) :
    Ends (insertEdge ω v u time edgeData) g (fun _ g' => KeptApart (ts ++ [time]) g')
      (fun _ g' => KeptApart (ts ++ [time]) g') := by
  have hmono : ∀ g' : InteractionGraph P T S vertexSchema edgeSchema, KeptApart ts g' →
      KeptApart (ts ++ [time]) g' := fun _ h' => h'.mono (List.subset_append_left _ _)
  unfold insertEdge getVertexData
  refine Ends.bind ((keptApart_onVertices _ h).mono (fun _ _ h' => h') fun _ => hmono) ?_
  intro _ g₁ h₁
  refine Ends.bind ((keptApart_onVertices _ h₁).mono (fun _ _ h' => h') fun _ => hmono) ?_
  intro _ g₂ h₂
  split_ifs with hlength
  · exact Ends.throw (hmono g₂ h₂)
  · rw [Ends, get_bind]
    refine Ends.bind (Ends.modify (Q := fun _ g' => KeptApart ts g') ?_) ?_
    · exact ⟨h₂.apart, h₂.ended, h₂.memory⟩
    · intro _ g₃ h₃
      unfold remember
      rw [Ends, modifyMemory_bind, get_bind]
      have hentered : KeptApart (ts ++ [time]) { g₃ with
          memg := g₃.memg.enter v u time ⟨g₂.nextAddr, collect (.new edgeSchema) 0 edgeData⟩ } := by
        refine ⟨h₃.apart, (hmono g₃ h₃).ended, h₃.memory.imp ?_ ?_⟩
        · rintro ⟨expired, window, hwaiting⟩
          exact ⟨_, _, hwaiting.enter h₃.ended hne hlater⟩
        · exact fun hstuck => hstuck.enter hlater
      refine Ends.bind ((keptApart_expireWhile _ ω _ hentered).mono (fun _ _ h' => h'.1)
        fun _ _ h' => h') ?_
      exact fun _ g' h' => keptApart_countSizes _ h'

/-! ### Sessions -/

/-- Any number of sessions that add edges and flush, with the times of the edges that passed the
asserts of `addEdge`, in order.  Each of them is given in a state that meets `ok`. -/
inductive Run (ok : List T → InteractionGraph P T S vertexSchema edgeSchema → T → Prop) :
    List T → InteractionGraph P T S vertexSchema edgeSchema → Prop
  | new (conf : Conf) (partIndex : P) : Run ok [] (.new conf partIndex)
  | createVertex {ts : List T} {g : InteractionGraph P T S vertexSchema edgeSchema} (id : VertexId)
      (vertexData : List Value) :
      Run ok ts g → Run ok ts ((Call.createVertex id vertexData).after g)
  | addEdge {ts : List T} {g : InteractionGraph P T S vertexSchema edgeSchema}
      (ω : Nat → Oracle S) (v u : VertexId) (time : T) (edgeData : List Value) :
      Run ok ts g → v ≠ u → g.lastTime < time → ok ts g time →
      Run ok (ts ++ [time]) ((Call.addEdge ω v u time edgeData).after g)
  | flush {ts : List T} {g : InteractionGraph P T S vertexSchema edgeSchema}
      (ω ω' : Nat → Oracle S) (fuel : Nat) :
      Run ok ts g → Run ok ts ((Call.flush ω ω' fuel).after g)
  | reopen {ts : List T} {g : InteractionGraph P T S vertexSchema edgeSchema} (conf : Conf) :
      Run ok ts g → Run ok ts (g.reopen conf)

/-- The first edge of a session is later than those of the sessions before. -/
def InOrder (ts : List T) (g : InteractionGraph P T S vertexSchema edgeSchema) (time : T) : Prop :=
  g.lastTime = BlockTime.zero → ∀ t ∈ ts, t < time

/-- The times so far increase, and the session has seen the last of them or none. -/
structure Clock (ts : List T) (g : InteractionGraph P T S vertexSchema edgeSchema) : Prop where
  increasing : ts.Pairwise (· < ·)
  last : g.lastTime = BlockTime.zero ∨ ∀ t ∈ ts, t ≤ g.lastTime

theorem Clock.later {T S : Type} [LinearOrder T] [LinearOrder S] [BlockTime T] {ts : List T}
    {g : InteractionGraph P T S vertexSchema edgeSchema} {time : T} (h : Clock ts g)
    (hlast : g.lastTime < time) (hfirst : InOrder ts g time) :
    ∀ t ∈ ts, t < time := by
  intro t ht
  rcases h.last with hzero | hle
  · exact hfirst hzero t ht
  · exact lt_of_le_of_lt (hle t ht) hlast

theorem Clock.of_sameClock {T S : Type} [LinearOrder T] [LinearOrder S] [BlockTime T] {ts : List T}
    {g : InteractionGraph P T S vertexSchema edgeSchema} (h : Clock ts g)
    {g' : InteractionGraph P T S vertexSchema edgeSchema} (hsame : SameClock g g') :
    Clock ts g' := by
  refine ⟨h.increasing, ?_⟩
  rw [show g'.lastTime = g.lastTime from hsame]
  exact h.last

theorem Clock.snoc {T S : Type} [LinearOrder T] [LinearOrder S] [BlockTime T] {ts : List T}
    {g : InteractionGraph P T S vertexSchema edgeSchema} {time : T} (h : Clock ts g)
    (hlater : ∀ t ∈ ts, t < time) {g' : InteractionGraph P T S vertexSchema edgeSchema}
    (hsame : g'.lastTime = time) :
    Clock (ts ++ [time]) g' := by
  refine ⟨List.pairwise_append.mpr ⟨h.increasing, List.pairwise_singleton _ _, ?_⟩, Or.inr ?_⟩
  · intro t ht t' ht'
    rw [List.mem_singleton.mp ht']
    exact hlater t ht
  · intro t ht
    rw [hsame]
    rcases List.mem_append.mp ht with ht | ht
    · exact (hlater t ht).le
    · exact (List.mem_singleton.mp ht).le

theorem sameClock_flush (ω ω' : Nat → Oracle S) (fuel : Nat) :
    Keeps SameClock (flush ω ω' fuel : Session P T S vertexSchema edgeSchema Unit) := by
  unfold flush
  refine Keeps.get.bind fun g => (sameClock_frame.expireWhile _ ω _).bind fun _ => ?_
  exact (sameClock_frame.writeBlocks ω' fuel).bind fun _ => Keeps.modify fun g => rfl

theorem after_addEdge {ω : Nat → Oracle S} {edgeData : List Value} (hne : v ≠ u)
    (hlast : g.lastTime < time) :
    (Call.addEdge ω v u time edgeData).after g
      = stateAfter (insertEdge ω v u time edgeData) { g with lastTime := time } := by
  unfold Call.after stateAfter
  dsimp only
  rw [addEdge_of_asserts hne hlast]

/-- What a run keeps, when the sessions follow each other in time. -/
theorem Run.kept (h : Run InOrder ts g) : Clock ts g ∧ KeptApart ts g := by
  induction h with
  | new conf partIndex =>
      exact ⟨⟨List.Pairwise.nil, Or.inl rfl⟩, Apart.nil _, fun e he => (List.not_mem_nil he).elim,
        Or.inl ⟨[], [], Waiting.new conf⟩⟩
  | createVertex id vertexData h ih =>
      obtain ⟨hclock, hkept⟩ := ih
      exact ⟨hclock.of_sameClock ((sameClock_frame.onVertices _).stateAfter _),
        (keptApart_onVertices _ hkept).stateAfter⟩
  | @addEdge ts g ω v u time edgeData h hne hlast hfirst ih =>
      obtain ⟨hclock, hkept⟩ := ih
      have hlater := hclock.later hlast hfirst
      have hnoted : KeptApart ts { g with lastTime := time } :=
        ⟨hkept.apart, hkept.ended, hkept.memory⟩
      rw [after_addEdge hne hlast]
      exact ⟨hclock.snoc hlater ((sameClock_frame.insertEdge ω v u time edgeData).stateAfter _),
        (keptApart_insertEdge ω edgeData hnoted hne hlater).stateAfter⟩
  | flush ω ω' fuel h ih =>
      obtain ⟨hclock, hkept⟩ := ih
      exact ⟨hclock.of_sameClock ((sameClock_flush ω ω' fuel).stateAfter _),
        (keptApart_flush ω ω' fuel hkept).stateAfter⟩
  | reopen conf h ih =>
      obtain ⟨hclock, hkept⟩ := ih
      exact ⟨⟨hclock.increasing, Or.inl rfl⟩, hkept.apart, hkept.ended,
        Or.inl ⟨[], [], Waiting.new conf⟩⟩

/-- **In every run whose sessions follow each other in time, the edges do too**: no record is
written over and the lists of a vertex stay apart.  An edge that is accepted next keeps it so when
it is later than all edges of the sessions before, or not the first of its session. -/
theorem run_times_increase (h : Run InOrder ts g) :
    ts.Pairwise (· < ·) ∧ Apart g.hisg.iqIndex g.hisg.fiqIndex ∧
      (g.hisg.iqIndex.map recordKey).Nodup ∧
      ∀ time, g.lastTime < time → ((∀ t ∈ ts, t < time) ↔ InOrder ts g time) := by
  obtain ⟨hclock, hkept⟩ := h.kept
  refine ⟨hclock.increasing, hkept.apart, hkept.apart.keys, ?_⟩
  intro time hlast
  exact ⟨fun hlater _ => hlater, hclock.later hlast⟩

section Examples

open Block

/-- A second session adds an edge at `time` and flushes. -/
def secondAt (time : Time) : InteractionGraph (PartitionIndex Time) Time ℚ textSchema textSchema :=
  [Call.addEdge (fun _ => Oracle.plain) 1 2 time [.string [122], .string [122]],
    Call.flush (fun _ => Oracle.plain) (fun _ => Oracle.plain) 1].foldl Call.after
      (flushed.reopen Conf.default)

theorem run_secondAt {ok : List Time →
      InteractionGraph (PartitionIndex Time) Time ℚ textSchema textSchema → Time → Prop}
    {time : Time} (hfirst : ∀ g, ok [] g atOne) (hpos : BlockTime.zero < time)
    (hsecond : ∀ g, ok [atOne] g time) : Run ok [atOne, time] (secondAt time) := by
  unfold secondAt flushed firstCalls
  simp only [List.foldl_cons, List.foldl_nil]
  refine Run.flush _ _ 1 ?_
  show Run ok ([atOne] ++ [time]) _
  refine Run.addEdge _ 1 2 time _ ?_ (by decide) hpos (hsecond _)
  refine Run.reopen _ (Run.flush _ _ 1 ?_)
  show Run ok ([] ++ [atOne]) _
  refine Run.addEdge _ 1 2 atOne _ ?_ (by decide) ?_ (hfirst _)
  · exact Run.createVertex 2 _ (Run.createVertex 1 _ (Run.new smallConf oneSlice))
  · decide +kernel

/-- A second session a second later. -/
theorem run_times_increase_later :
    (secondAt (Time.ofFloat 2.0)).hisg.iqIndex.length = 4 ∧
      Apart (secondAt (Time.ofFloat 2.0)).hisg.iqIndex
        (secondAt (Time.ofFloat 2.0)).hisg.fiqIndex := by
  have hlater : atOne < Time.ofFloat 2.0 := by decide +kernel
  have hrun : Run InOrder [atOne, Time.ofFloat 2.0] (secondAt (Time.ofFloat 2.0)) := by
    refine run_secondAt ?_ (by decide +kernel) ?_
    · exact fun _ _ t ht => (List.not_mem_nil ht).elim
    · intro _ _ t ht
      rw [List.mem_singleton.mp ht]
      exact hlater
  exact ⟨by decide +kernel, (run_times_increase hrun).2.1⟩

/-- The same time once more: the records of the first session are written over. -/
theorem times_repeated :
    Run (fun _ _ _ => True) [atOne, atOne] (secondAt atOne) ∧
      ¬ [atOne, atOne].Pairwise (· < ·) ∧
      (∃ e ∈ (secondAt atOne).hisg.iqIndex,
        (secondAt atOne).hisg.fiqIndex.find? (recordKey e)
          ≠ some (FocusedIntervalQueryIndex.recordData e)) ∧
      ¬ Apart (secondAt atOne).hisg.iqIndex (secondAt atOne).hisg.fiqIndex := by
  have hover : ∃ e ∈ (secondAt atOne).hisg.iqIndex,
      (secondAt atOne).hisg.fiqIndex.find? (recordKey e)
        ≠ some (FocusedIntervalQueryIndex.recordData e) := by
    decide +kernel
  refine ⟨run_secondAt (fun _ => trivial) (by decide +kernel) fun _ => trivial, ?_, hover, ?_⟩
  · intro hincreasing
    exact lt_irrefl _ ((List.pairwise_cons.mp hincreasing).1 atOne List.mem_cons_self)
  · intro hapart
    obtain ⟨e, he, hlost⟩ := hover
    exact hlost (hapart.found e he)

end Examples

end InteractionGraph

end RailwayDB
