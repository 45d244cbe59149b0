/-
The vertices with edges in a range of time.

An entry of the index has the times of the oldest and of the newest edge of a list.
When the range reaches beyond either, that edge alone tells; only a range within
the list has to open the block.  So the iterator stops at the entries whose list
has an edge in the range and at no others, and the vertices it has taken are the
ones not taken again.
-/
import RailwayDB.Core.HistoricalGraph
import RailwayDB.Proofs.Recombine

namespace RailwayDB

open Storage BlockManager

variable {P T : Type} {schema : Schema} [LinearOrder T]

/-! ### Lists in time order -/

/-- Some edge of the list is in the range. -/
def HasEdgeIn {D : Type} (edges : List (NLEdge T D)) (start stop : T) : Prop :=
  ∃ e ∈ edges, start ≤ e.time ∧ e.time < stop

theorem hasEdgeIn_iff_ends {D : Type} {edges : List (NLEdge T D)} {start stop : T} :
    HasEdgeIn edges start stop ↔ ∃ p ∈ ends edges, start ≤ p.2 ∧ p.2 < stop := by
  simp [HasEdgeIn, ends]

/-- The first edge not before the range tells. -/
theorem NeighborList.hasEdgesInRange_iff {D : Type} {nlist : NeighborList T D} {start stop : T}
    (hsorted : (ends nlist.edges).Pairwise fun p q => p.2 ≤ q.2) :
    nlist.hasEdgesInRange start stop = true ↔ HasEdgeIn nlist.edges start stop := by
  obtain ⟨head, edges⟩ := nlist
  unfold NeighborList.hasEdgesInRange
  simp only at hsorted ⊢
  induction edges with
  | nil => simp [HasEdgeIn]
  | cons e edges ih =>
      rw [ends, List.map_cons, List.pairwise_cons] at hsorted
      by_cases hlt : e.time < start
      · rw [List.dropWhile_cons_of_pos (by simpa using hlt), ih hsorted.2]
        unfold HasEdgeIn
        rw [List.exists_mem_cons_iff, or_iff_right]
        exact fun h => absurd hlt (not_lt.mpr h.1)
      · rw [List.dropWhile_cons_of_neg (by simpa using hlt)]
        simp only [decide_eq_true_eq]
        refine ⟨fun h => ⟨e, List.mem_cons_self, not_lt.mp hlt, h⟩, ?_⟩
        intro h
        obtain ⟨x, hx, -, hstop⟩ := h
        rcases List.mem_cons.mp hx with hxe | hx
        · rw [← hxe]
          exact hstop
        · exact lt_of_le_of_lt (hsorted.1 _ (List.mem_map_of_mem hx)) hstop

theorem times_between {D : Type} {edges : List (NLEdge T D)} {oldest newest : NLEdge T D}
    (hsorted : (ends edges).Pairwise fun p q => p.2 ≤ q.2) (hold : edges.head? = some oldest)
    (hnew : edges.getLast? = some newest) :
    ∀ e ∈ edges, oldest.time ≤ e.time ∧ e.time ≤ newest.time := by
  intro e he
  refine ⟨?_, ?_⟩
  · obtain ⟨tail, htail⟩ := List.head?_eq_some_iff.mp hold
    rw [htail] at he hsorted
    rw [ends, List.map_cons, List.pairwise_cons] at hsorted
    rcases List.mem_cons.mp he with heo | he
    · rw [heo]
    · exact hsorted.1 _ (List.mem_map_of_mem he)
  · obtain ⟨front, hfront⟩ := List.getLast?_eq_some_iff.mp hnew
    rw [hfront] at he hsorted
    rw [ends_append, List.pairwise_append] at hsorted
    rcases List.mem_append.mp he with he | he
    · exact hsorted.2.2 _ (List.mem_map_of_mem he) _ (List.mem_singleton_self _)
    · rw [List.mem_singleton.mp he]

/-- What the oldest and the newest edge tell of a list. -/
theorem hasEdgeIn_of_bounds {D : Type} {edges : List (NLEdge T D)} {oldest newest : NLEdge T D}
    (hsorted : (ends edges).Pairwise fun p q => p.2 ≤ q.2) (hold : edges.head? = some oldest)
    (hnew : edges.getLast? = some newest) (start stop : T) :
    (newest.time < start ∨ stop ≤ oldest.time → ¬ HasEdgeIn edges start stop) ∧
      (¬ (newest.time < start ∨ stop ≤ oldest.time) →
        ¬ (oldest.time < start ∧ stop ≤ newest.time) → HasEdgeIn edges start stop) := by
  have hbetween := times_between hsorted hold hnew
  refine ⟨?_, ?_⟩
  · intro h ⟨e, he, hstart, hstop⟩
    rcases h with h | h
    · exact absurd (lt_of_le_of_lt hstart (lt_of_le_of_lt (hbetween e he).2 h)) (lt_irrefl _)
    · exact absurd (lt_of_lt_of_le hstop (le_trans h (hbetween e he).1)) (lt_irrefl _)
  · intro hmeets hwithin
    rw [not_or, not_lt, not_le] at hmeets
    by_cases hbefore : oldest.time < start
    · have hafter : newest.time < stop := by
        by_contra hge
        exact hwithin ⟨hbefore, not_lt.mp hge⟩
      exact ⟨newest, List.mem_of_getLast? hnew, hmeets.1, hafter⟩
    · exact ⟨oldest, List.mem_of_head? hold, not_lt.mp hbefore, hmeets.2⟩

namespace RTree

/-- A tree that visits what it was asked for and nothing else. -/
def Exact (rtree : RTree T) : Prop :=
  ∀ entries a b, a ≤ b → ∀ e, e ∈ rtree.visit entries a b ↔
    e ∈ entries ∧ e.intervalStart ≤ b ∧ a ≤ e.intervalEnd

/-- Such a tree, with one node. -/
def scan (T : Type) [LinearOrder T] : RTree T where
  visit entries a b := entries.filter fun e => e.intervalStart ≤ b ∧ a ≤ e.intervalEnd
  mem_of_visit _ _ _ _ he := (List.mem_filter.mp he).1
  visit_of_meets _ _ _ _ he hb ha := List.mem_filter.mpr ⟨he, by simpa using ⟨hb, ha⟩⟩

theorem scan_exact : Exact (scan T) := by
  intro entries a b _ e
  simp [scan]

end RTree

/-! ### The entries of the index -/

section Index

variable [Timestamp T] [BlockTime T] [SliceIndex P T]

namespace IntervalQueryIndex

/-- What `indexBlock` adds for a block. -/
def intervals (block : Block T (AttributeData schema)) : Except Fault (List (IntervalData T)) :=
  block.neigs.entries.mapM fun e => interval block.id e.1 e.2

/-- The blocks that were indexed, in the store as they were. -/
structure Indexed (stored : BlockId → Option (Block T (AttributeData schema)))
    (blocks : List (Block T (AttributeData schema))) (entries : List (IntervalData T)) : Prop where
  stored : ∀ block ∈ blocks, stored block.id = some block
  entries : ∃ added, blocks.mapM intervals = .ok added ∧ entries.Perm added.flatten

/-- An entry with the times of a list of a stored block. -/
def Spans (stored : BlockId → Option (Block T (AttributeData schema))) (e : IntervalData T) :
    Prop :=
  ∃ block oldest newest, stored e.id = some block ∧
    (block.neigs.edges e.vertex).head? = some oldest ∧
    (block.neigs.edges e.vertex).getLast? = some newest ∧
    oldest.time = e.intervalStart ∧ newest.time = e.intervalEnd

/-- The entry of a list in the range. -/
def Matches (stored : BlockId → Option (Block T (AttributeData schema))) (start stop : T)
    (e : IntervalData T) : Prop :=
  ∃ block, stored e.id = some block ∧ HasEdgeIn (block.neigs.edges e.vertex) start stop

theorem matches_iff {T : Type} [LinearOrder T]
    {stored : BlockId → Option (Block T (AttributeData schema))} {start stop : T}
    {e : IntervalData T} {block : Block T (AttributeData schema)}
    (hstored : stored e.id = some block) :
    Matches stored start stop e ↔ HasEdgeIn (block.neigs.edges e.vertex) start stop := by
  unfold Matches
  simp [hstored]

theorem interval_eq_ok {T : Type} {id : BlockId} {v : VertexId}
    {nlist : NeighborList T (AttributeData schema)} {e : IntervalData T}
    (h : interval id v nlist = .ok e) :
    e.id = id ∧ e.vertex = v ∧ ∃ oldest newest, nlist.edges.head? = some oldest ∧
      nlist.edges.getLast? = some newest ∧ oldest.time = e.intervalStart ∧
      newest.time = e.intervalEnd := by
  unfold interval NeighborList.getOldestEdge NeighborList.getNewestEdge at h
  by_cases hhead : nlist.headVertex ≠ v
  · rw [if_pos hhead] at h
    cases h
  · rw [if_neg hhead] at h
    cases hold : nlist.edges.head? with
    | none =>
        rw [hold] at h
        cases h
    | some oldest =>
        cases hnew : nlist.edges.getLast? with
        | none =>
            rw [hold, hnew] at h
            cases h
        | some newest =>
            rw [hold, hnew] at h
            have he : (⟨id, nlist.headVertex, oldest.time, newest.time⟩ : IntervalData T) = e :=
              Except.ok.inj h
            rw [← he]
            exact ⟨rfl, not_not.mp hhead, oldest, newest, rfl, rfl, rfl, rfl⟩

variable {stored : BlockId → Option (Block T (AttributeData schema))}
  {blocks : List (Block T (AttributeData schema))} {entries : List (IntervalData T)}

theorem Indexed.mem_iff {T : Type} {stored : BlockId → Option (Block T (AttributeData schema))}
    {blocks : List (Block T (AttributeData schema))} {entries : List (IntervalData T)}
    (h : Indexed stored blocks entries) (e : IntervalData T) :
    e ∈ entries ↔ ∃ block ∈ blocks, ∃ x ∈ block.neigs.entries,
      interval block.id x.1 x.2 = .ok e := by
  obtain ⟨added, hadded, hperm⟩ := h.entries
  rw [hperm.mem_iff, List.mem_flatten]
  refine ⟨?_, ?_⟩
  · intro hmem
    obtain ⟨l, hl, he⟩ := hmem
    obtain ⟨block, hblock, hl⟩ := (Except.mem_of_mapM hadded l).mp hl
    exact ⟨block, hblock, (Except.mem_of_mapM hl e).mp he⟩
  · intro hmem
    obtain ⟨block, hblock, x, hx, he⟩ := hmem
    obtain ⟨l, hl⟩ := Except.ok_of_mapM hadded hblock
    exact ⟨l, (Except.mem_of_mapM hadded l).mpr ⟨block, hblock, hl⟩,
      (Except.mem_of_mapM hl e).mpr ⟨x, hx, he⟩⟩

/-- What an entry says of a block. -/
theorem Indexed.of_mem {T : Type} {stored : BlockId → Option (Block T (AttributeData schema))}
    {blocks : List (Block T (AttributeData schema))} {entries : List (IntervalData T)}
    (h : Indexed stored blocks entries) {e : IntervalData T} (he : e ∈ entries) :
    Spans stored e ∧ ∃ block ∈ blocks, block.id = e.id := by
  obtain ⟨block, hblock, x, hx, hinterval⟩ := (h.mem_iff e).mp he
  obtain ⟨hid, hvertex, oldest, newest, hold, hnew, hstart, hend⟩ := interval_eq_ok hinterval
  have hlookup : block.neigs.lookup e.vertex = some x.2 := by
    rw [hvertex]
    exact AList.mem_lookup_iff.mpr hx
  have hedges := NeighborListMap.edges_of_lookup hlookup
  refine ⟨⟨block, oldest, newest, ?_, ?_, ?_, hstart, hend⟩, block, hblock, hid.symm⟩
  · rw [hid]
    exact h.stored block hblock
  · rw [hedges]
    exact hold
  · rw [hedges]
    exact hnew

/-- Every list of an indexed block has an entry. -/
theorem Indexed.exists_mem {T : Type} {stored : BlockId → Option (Block T (AttributeData schema))}
    {blocks : List (Block T (AttributeData schema))} {entries : List (IntervalData T)}
    (h : Indexed stored blocks entries) {block : Block T (AttributeData schema)}
    (hblock : block ∈ blocks) {v : VertexId} (hv : block.neigs.edges v ≠ []) :
    ∃ e ∈ entries, e.id = block.id ∧ e.vertex = v := by
  obtain ⟨added, hadded, -⟩ := h.entries
  obtain ⟨l, hl⟩ := Except.ok_of_mapM hadded hblock
  cases hlookup : block.neigs.lookup v with
  | none =>
      exact absurd (NeighborListMap.edges_of_notMem (AList.lookup_eq_none.mp hlookup)) hv
  | some nlist =>
      have hx : (⟨v, nlist⟩ : Sigma fun _ : VertexId => NeighborList T (AttributeData schema))
          ∈ block.neigs.entries := AList.mem_lookup_iff.mp hlookup
      obtain ⟨e, he⟩ := Except.ok_of_mapM hl hx
      obtain ⟨hid, hvertex, -⟩ := interval_eq_ok he
      exact ⟨e, (h.mem_iff e).mpr ⟨block, hblock, _, hx, he⟩, hid, hvertex⟩

/-- The entries that match are those of the lists with an edge in the range. -/
theorem Indexed.exists_matches_iff {T : Type} [LinearOrder T]
    {stored : BlockId → Option (Block T (AttributeData schema))}
    {blocks : List (Block T (AttributeData schema))} {entries : List (IntervalData T)}
    (h : Indexed stored blocks entries) (start stop : T) (v : VertexId) :
    (∃ e ∈ entries, Matches stored start stop e ∧ e.vertex = v) ↔
      ∃ block ∈ blocks, HasEdgeIn (block.neigs.edges v) start stop := by
  refine ⟨?_, ?_⟩
  · intro hmatch
    obtain ⟨e, he, ⟨block, hstored, hin⟩, hv⟩ := hmatch
    obtain ⟨-, block', hblock', hid⟩ := h.of_mem he
    have hsame := h.stored block' hblock'
    rw [hid, hstored, Option.some.injEq] at hsame
    rw [← hv]
    exact ⟨block', hblock', hsame ▸ hin⟩
  · intro hin
    obtain ⟨block, hblock, hin⟩ := hin
    have hne : block.neigs.edges v ≠ [] := by
      obtain ⟨x, hx, -⟩ := hin
      exact List.ne_nil_of_mem hx
    obtain ⟨e, he, hid, hvertex⟩ := h.exists_mem hblock hne
    refine ⟨e, he, ?_, hvertex⟩
    rw [matches_iff (by rw [hid]; exact h.stored block hblock), hvertex]
    exact hin

/-! ### The iterator -/

/-- A block that was read, as far as its edges and times go. -/
structure SameEdges (block block' : Block T (AttributeData schema)) : Prop where
  formed : block'.Formed
  id : block'.id = block.id
  ends : ∀ v, ends (block'.neigs.edges v) = ends (block.neigs.edges v)

theorem SameEdges.of_comesBack {T : Type} [LinearOrder T]
    {block block' : Block T (AttributeData schema)} (h : Block.ComesBack block block') :
    SameEdges block block' :=
  ⟨h.formed, h.id, fun v => Block.ends_of_contents (h.edges v)⟩

variable {Ok : P → Prop} {parts : T → Option Partitioning} {g : HistoricalGraph P T schema}
  {start stop : T} {l : List (IntervalData T)}

/-- Reading the block of an entry tells whether its list has an edge in the range. -/
theorem opened_ok (hanswers : Answers Ok parts) (h : Held Ok parts SameEdges stored g)
    (hroom : 1 ≤ g.bman.blockBufferSize) {e : IntervalData T} (he : Spans stored e)
    (start stop : T) :
    ∃ block g' nlist, getBlock e.id g = .ok block g' ∧ block.neigs.lookup e.vertex = some nlist ∧
      (nlist.hasEdgesInRange start stop = true ↔ Matches stored start stop e) ∧
      Held Ok parts SameEdges stored g' ∧ ReadOnly g g' := by
  obtain ⟨block, oldest, newest, hstored, hold, -, -, -⟩ := he
  obtain ⟨block', g', hrun, hsame, hheld, hread⟩ :=
    getBlock_ok hanswers (fun b b' hb => hb.id) h hroom hstored
  obtain ⟨F, seen, hbuilt, hlisted⟩ := hsame.formed
  have hne : block'.neigs.edges e.vertex ≠ [] := by
    rw [Ne, ← ends_eq_nil, hsame.ends, ends_eq_nil]
    exact List.ne_nil_of_mem (List.mem_of_head? hold)
  have hlookup := hbuilt.lists.lookup_eq hne
  refine ⟨block', g', _, hrun, hlookup, ?_, hheld, hread⟩
  rw [NeighborList.hasEdgesInRange_iff (hlisted.sorted e.vertex), hasEdgeIn_iff_ends,
    hsame.ends e.vertex, ← hasEdgeIn_iff_ends, matches_iff hstored]

/-- The times of an entry are those of the list. -/
theorem Spans.times {T : Type} {stored : BlockId → Option (Block T (AttributeData schema))}
    {e : IntervalData T} (he : Spans stored e) {block : Block T (AttributeData schema)}
    (hstored : stored e.id = some block) {oldest newest : NLEdge T (AttributeData schema)}
    (hold : (block.neigs.edges e.vertex).head? = some oldest)
    (hnew : (block.neigs.edges e.vertex).getLast? = some newest) :
    oldest.time = e.intervalStart ∧ newest.time = e.intervalEnd := by
  obtain ⟨block', oldest', newest', hstored', hold', hnew', hstart, hend⟩ := he
  rw [hstored, Option.some.injEq] at hstored'
  rw [← hstored', hold, Option.some.injEq] at hold'
  rw [← hstored', hnew, Option.some.injEq] at hnew'
  rw [hold', hnew']
  exact ⟨hstart, hend⟩

theorem Spans.start_le {P : Type} {Ok : P → Prop} {g : HistoricalGraph P T schema}
    (h : Held Ok parts SameEdges stored g) {e : IntervalData T} (he : Spans stored e) :
    e.intervalStart ≤ e.intervalEnd := by
  obtain ⟨block, oldest, newest, hstored, hold, hnew, hstart, hend⟩ := he
  obtain ⟨-, -, ⟨⟨F, seen, -, hlisted⟩, -⟩, -⟩ := h.present e.id block hstored
  rw [← hstart, ← hend]
  exact (times_between (hlisted.sorted e.vertex) hold hnew newest (List.mem_of_getLast? hnew)).1

/-- What the times of an entry tell. -/
theorem Spans.bounds {P : Type} {Ok : P → Prop} {g : HistoricalGraph P T schema}
    (h : Held Ok parts SameEdges stored g) {e : IntervalData T} (he : Spans stored e)
    (start stop : T) :
    (e.intervalEnd < start ∨ stop ≤ e.intervalStart → ¬ Matches stored start stop e) ∧
      (¬ (e.intervalEnd < start ∨ stop ≤ e.intervalStart) →
        ¬ (e.intervalStart < start ∧ stop ≤ e.intervalEnd) → Matches stored start stop e) := by
  obtain ⟨block, oldest, newest, hstored, hold, hnew, hstart, hend⟩ := he
  obtain ⟨-, -, ⟨⟨F, seen, -, hlisted⟩, -⟩, -⟩ := h.present e.id block hstored
  rw [matches_iff hstored, ← hstart, ← hend]
  exact hasEdgeIn_of_bounds (hlisted.sorted e.vertex) hold hnew start stop

theorem Spans.meets {P : Type} {Ok : P → Prop} {g : HistoricalGraph P T schema}
    (h : Held Ok parts SameEdges stored g) {e : IntervalData T} (he : Spans stored e)
    (hmatch : Matches stored start stop e) :
    e.intervalStart ≤ stop ∧ start ≤ e.intervalEnd := by
  have hmeets : ¬ (e.intervalEnd < start ∨ stop ≤ e.intervalStart) :=
    fun hc => (he.bounds h start stop).1 hc hmatch
  rw [not_or, not_lt, not_le] at hmeets
  exact ⟨hmeets.2.le, hmeets.1⟩

/-- **The iterator stops at the next entry that matches.** -/
theorem findNext_ok (hanswers : Answers Ok parts) (h : Held Ok parts SameEdges stored g)
    (hroom : 1 ≤ g.bman.blockBufferSize) (start stop : T) (hl : ∀ e ∈ l, Spans stored e) :
    ∃ l' g', findNext start stop l g = .ok l' g' ∧ Held Ok parts SameEdges stored g' ∧
      ReadOnly g g' ∧ ∃ passed, l = passed ++ l' ∧
        (∀ e ∈ passed, ¬ Matches stored start stop e) ∧
        ∀ e ∈ l'.head?, Matches stored start stop e := by
  induction l generalizing g with
  | nil => exact ⟨[], g, rfl, h, .refl g, [], rfl, by simp, by simp⟩
  | cons e rest ih =>
      have hrest : ∀ e ∈ rest, Spans stored e := fun x hx => hl x (List.mem_cons_of_mem _ hx)
      have hspan := hl e List.mem_cons_self
      -- Going past an entry that does not match.
      have hpass : ∀ {g' : HistoricalGraph P T schema}, Held Ok parts SameEdges stored g' →
          ReadOnly g g' → ¬ Matches stored start stop e →
          ∃ l' g'', findNext start stop rest g' = .ok l' g'' ∧
            Held Ok parts SameEdges stored g'' ∧ ReadOnly g g'' ∧ ∃ passed,
              e :: rest = passed ++ l' ∧ (∀ e ∈ passed, ¬ Matches stored start stop e) ∧
              ∀ e ∈ l'.head?, Matches stored start stop e := by
        intro g' hheld hread hno
        obtain ⟨l', g'', hrun, hheld', hread', passed, hsplit, hpassed, hhead⟩ :=
          ih hheld (by rw [hread.blockBufferSize]; exact hroom) hrest
        refine ⟨l', g'', hrun, hheld', hread.trans hread', e :: passed, ?_, ?_, hhead⟩
        · rw [hsplit, List.cons_append]
        · intro x hx
          rcases List.mem_cons.mp hx with hxe | hx
          · rw [hxe]
            exact hno
          · exact hpassed x hx
      obtain ⟨hout, hin⟩ := hspan.bounds h start stop
      by_cases hc : e.intervalEnd < start ∨ stop ≤ e.intervalStart
      · rw [findNext, if_pos hc]
        exact hpass h (.refl g) (hout hc)
      · by_cases hwithin : e.intervalStart < start ∧ stop ≤ e.intervalEnd
        · obtain ⟨block', g', nlist, hrun, hlookup, htells, hheld, hread⟩ :=
            opened_ok hanswers h hroom hspan start stop
          rw [findNext, if_neg hc, if_pos hwithin, run_bind_ok hrun, hlookup]
          simp only
          by_cases hhas : nlist.hasEdgesInRange start stop = true
          · rw [if_pos hhas]
            refine ⟨e :: rest, g', rfl, hheld, hread, [], rfl, by simp, ?_⟩
            intro x hx
            rw [List.head?_cons, Option.mem_some_iff] at hx
            rw [← hx]
            exact htells.mp hhas
          · rw [if_neg hhas]
            exact hpass hheld hread fun hmatch => hhas (htells.mpr hmatch)
        · rw [findNext, if_neg hc, if_neg hwithin]
          refine ⟨e :: rest, g, rfl, h, .refl g, [], rfl, by simp, ?_⟩
          intro x hx
          rw [List.head?_cons, Option.mem_some_iff] at hx
          rw [← hx]
          exact hin hc hwithin

end IntervalQueryIndex

namespace HistoricalGraph

open IntervalQueryIndex

variable {Ok : P → Prop} {parts : T → Option Partitioning} {g : HistoricalGraph P T schema}
  {stored : BlockId → Option (Block T (AttributeData schema))} {start stop : T}

namespace VertexIterator

/-- The next entry that matches and has a vertex not taken yet. -/
theorem skip_ok (hanswers : Answers Ok parts) (h : Held Ok parts SameEdges stored g)
    (hroom : 1 ≤ g.bman.blockBufferSize) (start stop : T) (vertices : List VertexId)
    (e : IntervalData T) {rest : List (IntervalData T)} (hl : ∀ e ∈ rest, Spans stored e) {fuel : Nat}
    (hfuel : rest.length < fuel) :
    ∃ l' g', skip start stop vertices fuel (e :: rest) g = .ok l' g' ∧
      Held Ok parts SameEdges stored g' ∧ ReadOnly g g' ∧ ∃ passed, rest = passed ++ l' ∧
        (∀ e ∈ passed, Matches stored start stop e → e.vertex ∈ vertices) ∧
        ∀ e ∈ l'.head?, Matches stored start stop e ∧ e.vertex ∉ vertices := by
  induction fuel generalizing e rest g with
  | zero => omega
  | succ fuel ih =>
      obtain ⟨l', g', hrun, hheld, hread, passed, hsplit, hpassed, hhead⟩ :=
        findNext_ok hanswers h hroom start stop hl
      rw [skip, run_bind_ok (show IntervalQueryIndex.next start stop (e :: rest) g = _ from hrun)]
      cases l' with
      | nil =>
          refine ⟨[], g', rfl, hheld, hread, passed, hsplit, ?_, by simp⟩
          exact fun x hx hmatch => absurd hmatch (hpassed x hx)
      | cons e' rest' =>
          have hmatch : Matches stored start stop e' := hhead e' rfl
          simp only
          by_cases hseen : e'.vertex ∈ vertices
          · rw [if_pos hseen]
            have hlen : rest'.length < fuel := by
              rw [hsplit, List.length_append, List.length_cons] at hfuel
              omega
            have hl' : ∀ x ∈ rest', Spans stored x := by
              intro x hx
              refine hl x ?_
              rw [hsplit]
              exact List.mem_append_right _ (List.mem_cons_of_mem _ hx)
            obtain ⟨l'', g'', hrun', hheld', hread', passed', hsplit', hpassed', hhead'⟩ :=
              ih hheld (by rw [hread.blockBufferSize]; exact hroom) e' hl' hlen
            refine ⟨l'', g'', hrun', hheld', hread.trans hread', passed ++ e' :: passed', ?_, ?_,
              hhead'⟩
            · rw [hsplit, hsplit', List.append_assoc, List.cons_append]
            · intro x hx hx'
              rcases List.mem_append.mp hx with hx | hx
              · exact absurd hx' (hpassed x hx)
              · rcases List.mem_cons.mp hx with hxe | hx
                · rw [hxe]
                  exact hseen
                · exact hpassed' x hx hx'
          · rw [if_neg hseen]
            refine ⟨e' :: rest', g', rfl, hheld, hread, passed, hsplit, ?_, ?_⟩
            · exact fun x hx hx' => absurd hx' (hpassed x hx)
            · intro x hx
              rw [List.head?_cons, Option.mem_some_iff] at hx
              rw [← hx]
              exact ⟨hmatch, hseen⟩

theorem results_of_done (fuel : Nat) {vi : VertexIterator T} (h : vi.it = []) :
    results fuel vi g = .ok [] g := by
  have hvalid : vi.isValid = false := by simp [isValid, h]
  rw [results.eq_def]
  simp only [hvalid]
  rfl

/-- From an entry on, the iterator gives the vertex of the entry and then each vertex of a later
entry that matches and was not taken before, once. -/
theorem results_ok (hanswers : Answers Ok parts) (h : Held Ok parts SameEdges stored g)
    (hroom : 1 ≤ g.bman.blockBufferSize) {e : IntervalData T} {rest : List (IntervalData T)}
    {seen : List VertexId} (last : Option VertexId) (hl : ∀ e ∈ rest, Spans stored e) {fuel : Nat}
    (hfuel : rest.length < fuel) :
    ∃ vs g', results fuel (take ⟨e :: rest, start, stop, seen, last⟩) g
        = .ok (e.vertex :: vs) g' ∧ vs.Nodup ∧ ∀ v, v ∈ vs ↔ v ∉ e.vertex :: seen ∧
          ∃ x ∈ rest, Matches stored start stop x ∧ x.vertex = v := by
  induction fuel generalizing e rest seen last g with
  | zero => omega
  | succ fuel ih =>
      obtain ⟨l', g', hrun, hheld, hread, passed, hsplit, hpassed, hhead⟩ :=
        skip_ok hanswers h hroom start stop (e.vertex :: seen) e hl (Nat.lt_succ_self rest.length)
      have hnext : next (take ⟨e :: rest, start, stop, seen, last⟩) g
          = .ok (take ⟨l', start, stop, e.vertex :: seen, some e.vertex⟩) g' := by
        show (skip start stop (e.vertex :: seen) (rest.length + 1) (e :: rest) >>= fun _ => _) g = _
        rw [run_bind_ok hrun]
        rfl
      cases l' with
      | nil =>
          refine ⟨[], g', ?_, List.nodup_nil, ?_⟩
          · rw [results]
            show (next _ >>= fun _ => _) g = _
            rw [run_bind_ok hnext, run_bind_ok (results_of_done fuel rfl)]
            rfl
          · intro v
            simp only [List.not_mem_nil, false_iff, not_and]
            intro hv ⟨x, hx, hmatch, hxv⟩
            rw [hsplit, List.append_nil] at hx
            rw [← hxv] at hv
            exact hv (hpassed x hx hmatch)
      | cons e' rest' =>
          obtain ⟨hmatch, hnew⟩ := hhead e' rfl
          have hlen : rest'.length < fuel := by
            rw [hsplit, List.length_append, List.length_cons] at hfuel
            omega
          have hl' : ∀ x ∈ rest', Spans stored x := by
            intro x hx
            refine hl x ?_
            rw [hsplit]
            exact List.mem_append_right _ (List.mem_cons_of_mem _ hx)
          obtain ⟨vs, g'', hrun', hnodup, hmem⟩ :=
            ih hheld (by rw [hread.blockBufferSize]; exact hroom) (some e.vertex) hl' hlen
          refine ⟨e'.vertex :: vs, g'', ?_, ?_, ?_⟩
          · rw [results]
            show (next _ >>= fun _ => _) g = _
            rw [run_bind_ok hnext, run_bind_ok hrun']
            rfl
          · rw [List.nodup_cons]
            refine ⟨?_, hnodup⟩
            intro hv
            exact ((hmem _).mp hv).1 List.mem_cons_self
          · intro v
            rw [List.mem_cons, hmem, hsplit]
            refine ⟨?_, ?_⟩
            · intro hv
              rcases hv with hv | ⟨hv, x, hx, hxm, hxv⟩
              · rw [hv]
                exact ⟨hnew, e', List.mem_append_right _ List.mem_cons_self, hmatch, rfl⟩
              · exact ⟨fun hv' => hv (List.mem_cons_of_mem _ hv'), x,
                  List.mem_append_right _ (List.mem_cons_of_mem _ hx), hxm, hxv⟩
            · intro hv
              obtain ⟨hv, x, hx, hxm, hxv⟩ := hv
              by_cases hve : v = e'.vertex
              · exact Or.inl hve
              · refine Or.inr ⟨?_, x, ?_, hxm, hxv⟩
                · intro hv'
                  rcases List.mem_cons.mp hv' with hv' | hv'
                  · exact hve hv'
                  · exact hv hv'
                · rcases List.mem_append.mp hx with hx | hx
                  · rw [← hxv] at hv
                    exact absurd (hpassed x hx hxm) hv
                  · rcases List.mem_cons.mp hx with hx | hx
                    · rw [hx] at hxv
                      exact absurd hxv.symm hve
                    · exact hx

end VertexIterator

variable {blocks : List (Block T (AttributeData schema))}

/-- A range that is not backwards is looked up in the tree. -/
theorem intersectsWithQuery_eq {T : Type} [LinearOrder T] [BlockTime T]
    {g : HistoricalGraph P T schema} {start stop : T} (hrange : start ≤ stop) (rtree : RTree T) :
    intersectsWithQuery rtree start stop g = .ok (rtree.visit g.iqIndex start stop) g := by
  have hregion : checkRegion start stop = .ok () := if_neg fun hback => not_lt_of_ge hrange hback.1
  unfold intersectsWithQuery
  rw [Storage.ofResult_bind_ok hregion]
  rfl

/-- The vertices are those of the entries that match. -/
theorem intervalQuery_ok (hanswers : Answers Ok parts) (h : Held Ok parts SameEdges stored g)
    (hroom : 1 ≤ g.bman.blockBufferSize) (hspans : ∀ e ∈ g.iqIndex, Spans stored e)
    (rtree : RTree T) {start stop : T} (hrange : start ≤ stop) :
    ∃ vs g', intervalQuery rtree start stop g = .ok vs g' ∧ vs.Nodup ∧
      ∀ v, v ∈ vs ↔ ∃ e ∈ rtree.visit g.iqIndex start stop,
        Matches stored start stop e ∧ e.vertex = v := by
  have hl : ∀ e ∈ rtree.visit g.iqIndex start stop, Spans stored e :=
    fun e he => hspans e (rtree.mem_of_visit _ _ _ _ he)
  obtain ⟨l', g', hrun, hheld, hread, passed, hsplit, hpassed, hhead⟩ :=
    findNext_ok hanswers h hroom start stop hl
  have hquery : intervalQuery rtree start stop g
      = VertexIterator.results l'.length (.new start stop l') g' := by
    unfold intervalQuery query
    exact run_bind_ok ((run_bind_ok (intersectsWithQuery_eq hrange rtree)).trans hrun)
  rw [hquery]
  cases l' with
  | nil =>
      refine ⟨[], g', VertexIterator.results_of_done 0 rfl, List.nodup_nil, ?_⟩
      intro v
      simp only [List.not_mem_nil, false_iff]
      intro hv
      obtain ⟨e, he, hmatch, -⟩ := hv
      rw [hsplit, List.append_nil] at he
      exact hpassed e he hmatch
  | cons e rest =>
      have hmatch : Matches stored start stop e := hhead e rfl
      obtain ⟨vs, g'', hres, hnodup, hmem⟩ := VertexIterator.results_ok hanswers hheld
        (by rw [hread.blockBufferSize]; exact hroom) none
        (fun x hx => hl x (by
          rw [hsplit]
          exact List.mem_append_right _ (List.mem_cons_of_mem _ hx)))
        (Nat.lt_succ_self rest.length)
      refine ⟨e.vertex :: vs, g'', hres, ?_, ?_⟩
      · rw [List.nodup_cons]
        refine ⟨?_, hnodup⟩
        intro hv
        exact ((hmem _).mp hv).1 List.mem_cons_self
      · intro v
        rw [List.mem_cons, hmem, hsplit]
        refine ⟨?_, ?_⟩
        · intro hv
          rcases hv with hv | ⟨-, x, hx, hxm, hxv⟩
          · exact ⟨e, List.mem_append_right _ List.mem_cons_self, hmatch, hv.symm⟩
          · exact ⟨x, List.mem_append_right _ (List.mem_cons_of_mem _ hx), hxm, hxv⟩
        · intro hv
          obtain ⟨x, hx, hxm, hxv⟩ := hv
          by_cases hve : v = e.vertex
          · exact Or.inl hve
          · refine Or.inr ⟨by simpa using hve, x, ?_, hxm, hxv⟩
            rcases List.mem_append.mp hx with hx | hx
            · exact absurd hxm (hpassed x hx)
            · rcases List.mem_cons.mp hx with hx | hx
              · rw [hx] at hxv
                exact absurd hxv.symm hve
              · exact hx

/-- **Interval queries are exact**: a query gives each vertex with an edge in the range once, and
no other. -/
theorem intervalQuery_exact (hanswers : Answers Ok parts) (h : Held Ok parts SameEdges stored g)
    (hroom : 1 ≤ g.bman.blockBufferSize) (hindexed : Indexed stored blocks g.iqIndex)
    (rtree : RTree T) {start stop : T} (hrange : start ≤ stop) :
    ∃ vs g', intervalQuery rtree start stop g = .ok vs g' ∧ vs.Nodup ∧
      ∀ v, v ∈ vs ↔ ∃ block ∈ blocks, HasEdgeIn (block.neigs.edges v) start stop := by
  obtain ⟨vs, g', hrun, hnodup, hmem⟩ := intervalQuery_ok hanswers h hroom
    (fun e he => (hindexed.of_mem he).1) rtree hrange
  refine ⟨vs, g', hrun, hnodup, ?_⟩
  intro v
  rw [hmem, ← hindexed.exists_matches_iff]
  refine ⟨?_, ?_⟩
  · intro hv
    obtain ⟨e, he, hv⟩ := hv
    exact ⟨e, rtree.mem_of_visit _ _ _ _ he, hv⟩
  · intro hv
    obtain ⟨e, he, hmatch, hv⟩ := hv
    obtain ⟨hbegins, hends⟩ := (hindexed.of_mem he).1.meets h hmatch
    exact ⟨e, rtree.visit_of_meets _ _ _ _ he hbegins hends, hmatch, hv⟩

/-! ### The batch -/

/-- A list whose closed span meets the closed range without either of its end points being in the
half-open one: it begins where the range ends, or the range lies within it. -/
def Grazes {D : Type} (edges : List (NLEdge T D)) (start stop : T) : Prop :=
  ∃ oldest newest, edges.head? = some oldest ∧ edges.getLast? = some newest ∧
    (oldest.time = stop ∨ oldest.time < start ∧ stop ≤ newest.time)

/-- **The batch has the vertices of the iterator** exactly when every list that only grazes the
range is of a vertex with an edge in it. -/
theorem intervalQueryBatch_iff (hanswers : Answers Ok parts)
    (h : Held Ok parts SameEdges stored g) (hroom : 1 ≤ g.bman.blockBufferSize)
    (hindexed : Indexed stored blocks g.iqIndex) {rtree : RTree T} (hexact : rtree.Exact)
    (hrange : start ≤ stop) :
    ∃ batch vs g', intervalQueryBatch rtree start stop g = .ok batch g ∧
      intervalQuery rtree start stop g = .ok vs g' ∧
      ((∀ v, v ∈ batch ↔ v ∈ vs) ↔
        ∀ block ∈ blocks, ∀ v, Grazes (block.neigs.edges v) start stop →
          ∃ block' ∈ blocks, HasEdgeIn (block'.neigs.edges v) start stop) := by
  obtain ⟨vs, g', hrun, -, hmem⟩ := intervalQuery_exact hanswers h hroom hindexed rtree hrange
  have hbatched : intervalQueryBatch rtree start stop g
      = .ok ((rtree.visit g.iqIndex start stop).map IntervalData.vertex).dedup g := by
    unfold intervalQueryBatch queryBatch
    exact run_bind_ok (intersectsWithQuery_eq hrange rtree)
  refine ⟨_, vs, g', hbatched, hrun, ?_⟩
  have hbatch : ∀ v, v ∈ ((rtree.visit g.iqIndex start stop).map IntervalData.vertex).dedup ↔
      ∃ e ∈ g.iqIndex, (e.intervalStart ≤ stop ∧ start ≤ e.intervalEnd) ∧ e.vertex = v := by
    intro v
    rw [List.mem_dedup, List.mem_map]
    simp only [hexact _ _ _ hrange, and_assoc]
  simp only [hbatch, hmem]
  refine ⟨?_, ?_⟩
  · intro hagree block hblock v hgrazes
    refine (hagree v).mp ?_
    obtain ⟨oldest, newest, hold, hnew, hkind⟩ := hgrazes
    have hne : block.neigs.edges v ≠ [] := List.ne_nil_of_mem (List.mem_of_head? hold)
    obtain ⟨e, he, hid, hv⟩ := hindexed.exists_mem hblock hne
    have hspan := (hindexed.of_mem he).1
    obtain ⟨hstart, hend⟩ := hspan.times (by rw [hid]; exact hindexed.stored block hblock)
      (by rw [hv]; exact hold) (by rw [hv]; exact hnew)
    rw [hstart, hend] at hkind
    refine ⟨e, he, ?_, hv⟩
    rcases hkind with hkind | ⟨hbefore, hafter⟩
    · refine ⟨hkind.le, le_trans hrange ?_⟩
      rw [← hkind]
      exact hspan.start_le h
    · exact ⟨le_trans hbefore.le hrange, le_trans hrange hafter⟩
  · intro hcond v
    rw [← hindexed.exists_matches_iff]
    refine ⟨?_, ?_⟩
    · intro hv
      obtain ⟨e, he, hmeets, hv⟩ := hv
      obtain ⟨hspan, block, hblock, hid⟩ := hindexed.of_mem he
      by_cases hkind : e.intervalStart = stop ∨ e.intervalStart < start ∧ stop ≤ e.intervalEnd
      · rw [hindexed.exists_matches_iff]
        refine hcond block hblock v ?_
        have hstored := hindexed.stored block hblock
        obtain ⟨block', oldest, newest, hstored', hold, hnew, hstart, hend⟩ := hspan
        rw [← hid, hstored, Option.some.injEq] at hstored'
        rw [← hstart, ← hend] at hkind
        rw [← hv, hstored']
        exact ⟨oldest, newest, hold, hnew, hkind⟩
      · rw [not_or] at hkind
        refine ⟨e, he, (hspan.bounds h start stop).2 ?_ hkind.2, hv⟩
        rw [not_or, not_lt, not_le]
        exact ⟨hmeets.2, lt_of_le_of_ne hmeets.1 hkind.1⟩
    · intro hv
      obtain ⟨e, he, hmatch, hv⟩ := hv
      exact ⟨e, he, (hindexed.of_mem he).1.meets h hmatch, hv⟩

/-! ### Blocks that are added -/

/-- The records of a block leave everything else as it was. -/
theorem indexLists_only {T : Type} [LinearOrder T] [Timestamp T] {id : BlockId}
    {entries : List (Sigma fun _ : VertexId => NeighborList T (AttributeData schema))}
    {g g' : HistoricalGraph P T schema}
    (h : FocusedIntervalQueryIndex.indexLists id entries g = .ok () g') :
    g' = { g with fiqIndex := g'.fiqIndex } := by
  induction entries generalizing g with
  | nil =>
      obtain ⟨-, rfl⟩ := (EStateM.Result.ok.injEq ..).mp h
      rfl
  | cons e entries ih =>
      obtain ⟨_, g₁, hput, hrest⟩ := run_bind_eq_ok.mp h
      unfold FocusedIntervalQueryIndex.putList at hput
      obtain ⟨r, g₂, hlist, hdone⟩ := run_bind_eq_ok.mp hput
      obtain ⟨-, rfl⟩ := Storage.ofResult_eq_ok.mp hlist
      obtain ⟨-, rfl⟩ := (EStateM.Result.ok.injEq ..).mp hdone
      have hkept := ih hrest
      exact hkept

/-- What the two indices take of a block. -/
theorem indexBlock_only {T : Type} [LinearOrder T] [Timestamp T]
    {master : Block T (AttributeData schema)} {g g' : HistoricalGraph P T schema}
    (h : (IntervalQueryIndex.indexBlock master >>= fun _ =>
      FocusedIntervalQueryIndex.indexBlock master) g = .ok () g') :
    ∃ added, intervals master = .ok added ∧
      g' = { g with iqIndex := g.iqIndex ++ added, fiqIndex := g'.fiqIndex } := by
  obtain ⟨_, g₁, hindex, hrecords⟩ := run_bind_eq_ok.mp h
  unfold IntervalQueryIndex.indexBlock at hindex
  obtain ⟨added, g₂, hresult, hdone⟩ := run_bind_eq_ok.mp hindex
  obtain ⟨hadded, rfl⟩ := Storage.ofResult_eq_ok.mp hresult
  obtain ⟨-, rfl⟩ := (EStateM.Result.ok.injEq ..).mp hdone
  exact ⟨added, hadded, indexLists_only hrecords⟩

/-- **A block that is added is indexed** beside those that were. -/
theorem addBlock_indexed (hanswers : Answers Ok parts) (h : Held Ok parts SameEdges stored g)
    (hfresh : Block.FreshIds stored g) (hindexed : Indexed stored blocks g.iqIndex)
    {block : Block T (AttributeData schema)} (hformed : ∃ size, (block.counted size).Formed)
    (hfull : block.FullData) {t : T} (htime : block.getPartitioningTimestamp = .ok t)
    {part : Partitioning} (hpart : parts t = some part)
    (hnames : ∀ attributes ∈ part, schema.Has attributes) (hlen : part.length ≤ 2 ^ 31)
    (hids : g.metaData.nextBlockId + part.length + 1 ≤ 2 ^ 64)
    {g' : HistoricalGraph P T schema} (hrun : addBlock block g = .ok () g') :
    ∃ stored' master, Held Ok parts SameEdges stored' g' ∧ Block.FreshIds stored' g' ∧
      g'.bman.blockBufferSize = g.bman.blockBufferSize ∧
      Indexed stored' (blocks ++ [master]) g'.iqIndex ∧
      ∀ v, ends (master.neigs.edges v) = ends (block.neigs.edges v) := by
  obtain ⟨size, hcounted⟩ := hformed
  obtain ⟨first, second, others, g₁, ids, g₂, master, g₃, hsplit, hsubs, hmaster, hindex⟩ :=
    Block.stores_of_addBlock hrun
  obtain ⟨stored', hheld, hfresh', honly, hstored, -, -, -, hends, -, hkeep⟩ :=
    Block.stored_blocks hanswers h hfresh hcounted hfull htime hpart hnames hlen hids (fun _ _ _ hb => .of_comesBack hb) hsplit hsubs hmaster
  obtain ⟨added, hadded, hg'⟩ := indexBlock_only hindex
  rw [hg']
  refine ⟨stored', master, ⟨hheld.index, hheld.tidy, hheld.absent, hheld.present, hheld.cached⟩,
    hfresh', honly.blockBufferSize, ⟨?_, ?_⟩, hends⟩
  · intro b hb
    rcases List.mem_append.mp hb with hb | hb
    · exact hkeep _ _ (hindexed.stored b hb)
    · rw [List.mem_singleton.mp hb]
      exact hstored
  · obtain ⟨lists, hlists, hperm⟩ := hindexed.entries
    refine ⟨lists ++ [added], ?_, ?_⟩
    · rw [List.mapM_append, hlists, List.mapM_cons, hadded]
      rfl
    · rw [List.flatten_append]
      show (g₃.iqIndex ++ added).Perm (lists.flatten ++ (added ++ []))
      rw [honly.iqIndex, List.append_nil]
      exact hperm.append_right added

end HistoricalGraph

end Index

/-! ### Two blocks -/

namespace HistoricalGraph

open Block IntervalQueryIndex

/-- Two blocks are stored, one of two heads and one more edge between its times. -/
def storeTwo : Storage (PartitionIndex Time) Time textSchema Unit := do
  addBlock twoHeads
  addBlock (oneEdge [120] [121])

/-- Both are stored and indexed, in two parts. -/
theorem indexed_twoBlocks :
    ∃ (stored : BlockId → Option (Block Time (AttributeData textSchema)))
      (first second : Block Time (AttributeData textSchema))
      (g : HistoricalGraph (PartitionIndex Time) Time textSchema),
      storeTwo splitGraph = .ok () g ∧
      Held (LookedUp atOne [[[97]], [[98]]] splitSlice) splitParts SameEdges stored g ∧
      1 ≤ g.bman.blockBufferSize ∧ Indexed stored [first, second] g.iqIndex ∧
      (∀ v, ends (first.neigs.edges v) = ends (twoHeads.neigs.edges v)) ∧
      ∀ v, ends (second.neigs.edges v) = ends ((oneEdge [120] [121]).neigs.edges v) := by
  have hrun : answer? (storeTwo splitGraph) = some () := by decide +kernel
  obtain ⟨g, hrun⟩ := of_answer? hrun
  obtain ⟨_, g₁, hfirst, hsecond⟩ := run_bind_eq_ok.mp hrun
  have hindex : LookedUp atOne [[[97]], [[98]]] splitSlice splitGraph.partIndex := Or.inl rfl
  have hnew : splitGraph.bman = BlockManager.new 2 .empty := rfl
  have hempty : Indexed (fun _ => none : BlockId → Option (Block Time (AttributeData textSchema)))
      [] splitGraph.iqIndex :=
    ⟨fun _ h => (List.not_mem_nil h).elim, [], rfl, List.Perm.refl _⟩
  obtain ⟨stored₁, first, hheld₁, hfresh₁, hsize₁, hindexed₁, hends₁⟩ :=
    addBlock_indexed splitSlice_answers (held_new hindex hnew _) (fun _ hne => absurd rfl hne)
      hempty formed_twoHeads fullData_twoHeads getPartitioningTimestamp_twoHeads splitParts_atOne
      has_splitSlice (by decide) (by decide) hfirst
  have hnext : (stateAfter (addBlock twoHeads) splitGraph).metaData.nextBlockId = 3 := by
    decide +kernel
  have hstate : stateAfter (addBlock twoHeads) splitGraph = g₁ := by
    unfold stateAfter
    rw [hfirst]
  have hformed : ∃ size, ((oneEdge [120] [121]).counted size).Formed :=
    ⟨(oneEdge [120] [121]).serializedSize, formed_oneEdge [120] [121]⟩
  obtain ⟨stored, second, hheld, -, hsize, hindexed, hends⟩ :=
    addBlock_indexed splitSlice_answers hheld₁ hfresh₁ hindexed₁ hformed
      (fullData_oneEdge _ _) (getPartitioningTimestamp_oneEdge _ _) splitParts_atOne has_splitSlice
      (by decide) (by rw [← hstate, hnext]; decide) hsecond
  refine ⟨stored, first, second, g, hrun, hheld, ?_, hindexed, hends₁, hends⟩
  rw [hsize, hsize₁]
  decide

/-- The vertices but 1 and 2 have no edges, and 2 has one, before the range. -/
theorem ends_twoBlocks_of_ne {v : VertexId} (hv : v ≠ 1) :
    ends ((oneEdge [120] [121]).neigs.edges v) = [] ∧
      (ends (twoHeads.neigs.edges v) = [] ∨ ends (twoHeads.neigs.edges v) = [(1, atHalf)]) := by
  rw [edges_oneEdge, if_neg hv]
  refine ⟨rfl, ?_⟩
  by_cases h2 : v = 2
  · rw [h2]
    exact Or.inr rfl
  · rw [edges_twoHeads_of_ne hv h2]
    exact Or.inl rfl

/-- Of two blocks in two parts, only the edge of the second is from one second to one and a half:
vertex 1 has a list around the range as well, vertex 2 one before it. -/
theorem hasEdgeIn_twoBlocks {first second : Block Time (AttributeData textSchema)}
    (hfirst : ∀ v, ends (first.neigs.edges v) = ends (twoHeads.neigs.edges v))
    (hsecond : ∀ v, ends (second.neigs.edges v) = ends ((oneEdge [120] [121]).neigs.edges v))
    (v : VertexId) :
    (∃ block ∈ [first, second], HasEdgeIn (block.neigs.edges v) atOne atOneAndHalf) ↔ v = 1 := by
  simp only [List.mem_cons, List.not_mem_nil, or_false, exists_eq_or_imp, exists_eq_left,
    hasEdgeIn_iff_ends, hfirst, hsecond]
  refine ⟨?_, ?_⟩
  · intro h
    by_contra hv
    obtain ⟨hnone, hends⟩ := ends_twoBlocks_of_ne hv
    rw [hnone] at h
    rcases hends with hends | hends
    · rw [hends] at h
      simp at h
    · rw [hends] at h
      revert h
      decide +kernel
  · intro hv
    rw [hv]
    exact Or.inr ⟨(2, atOne), List.mem_singleton_self _, le_refl _, by decide +kernel⟩

/-- The query gives vertex 1. -/
theorem intervalQuery_exact_twoBlocks :
    ∃ (stored : BlockId → Option (Block Time (AttributeData textSchema)))
      (first second : Block Time (AttributeData textSchema))
      (g g' : HistoricalGraph (PartitionIndex Time) Time textSchema) (vs : List VertexId),
      storeTwo splitGraph = .ok () g ∧ Indexed stored [first, second] g.iqIndex ∧
      intervalQuery (.scan Time) atOne atOneAndHalf g = .ok vs g' ∧ vs.Nodup ∧
      ∀ v, v ∈ vs ↔ v = 1 := by
  obtain ⟨stored, first, second, g, hstore, hheld, hroom, hindexed, hfirst, hsecond⟩ :=
    indexed_twoBlocks
  obtain ⟨vs, g', hrun, hnodup, hmem⟩ := intervalQuery_exact splitSlice_answers hheld hroom hindexed
    (.scan Time) (show atOne ≤ atOneAndHalf by decide +kernel)
  refine ⟨stored, first, second, g, g', vs, hstore, hindexed, hrun, hnodup, ?_⟩
  intro v
  rw [hmem, hasEdgeIn_twoBlocks hfirst hsecond]

/-- And the batch agrees: the list around the range is of a vertex with an edge in it. -/
theorem intervalQueryBatch_iff_twoBlocks :
    ∃ (stored : BlockId → Option (Block Time (AttributeData textSchema)))
      (first second : Block Time (AttributeData textSchema))
      (g g' : HistoricalGraph (PartitionIndex Time) Time textSchema) (batch vs : List VertexId),
      storeTwo splitGraph = .ok () g ∧ Indexed stored [first, second] g.iqIndex ∧
      intervalQueryBatch (.scan Time) atOne atOneAndHalf g = .ok batch g ∧
      intervalQuery (.scan Time) atOne atOneAndHalf g = .ok vs g' ∧
      ∀ v, v ∈ batch ↔ v ∈ vs := by
  obtain ⟨stored, first, second, g, hstore, hheld, hroom, hindexed, hfirst, hsecond⟩ :=
    indexed_twoBlocks
  have hrange : atOne ≤ atOneAndHalf := by decide +kernel
  obtain ⟨batch, vs, g', hbatch, hrun, hiff⟩ := intervalQueryBatch_iff splitSlice_answers hheld
    hroom hindexed RTree.scan_exact hrange
  refine ⟨stored, first, second, g, g', batch, vs, hstore, hindexed, hbatch, hrun, hiff.mpr ?_⟩
  intro block hblock v hgrazes
  rw [hasEdgeIn_twoBlocks hfirst hsecond]
  by_contra hv
  obtain ⟨oldest, newest, hold, hnew, hkind⟩ := hgrazes
  have hin : (oldest.toVertex, oldest.time) ∈ ends (block.neigs.edges v) :=
    List.mem_map_of_mem (List.mem_of_head? hold)
  have hin' : (newest.toVertex, newest.time) ∈ ends (block.neigs.edges v) :=
    List.mem_map_of_mem (List.mem_of_getLast? hnew)
  obtain ⟨hnone, hends⟩ := ends_twoBlocks_of_ne hv
  have hbefore : ∀ p ∈ ends (block.neigs.edges v), p.2 = atHalf := by
    simp only [List.mem_cons, List.not_mem_nil, or_false] at hblock
    rcases hblock with rfl | rfl
    · rw [hfirst]
      rcases hends with hends | hends
      · simp [hends]
      · simp [hends]
    · rw [hsecond, hnone]
      simp
  have holdest : oldest.time = atHalf := hbefore _ hin
  have hnewest : newest.time = atHalf := hbefore _ hin'
  rw [holdest, hnewest] at hkind
  revert hkind
  decide +kernel

/-- Store the edge and ask both ways. -/
def askBoth (start stop : Time) :
    Storage (PartitionIndex Time) Time textSchema (List VertexId × List VertexId) := do
  addBlock (oneEdge [120] [121])
  let batch ← intervalQueryBatch (.scan Time) start stop
  let vs ← intervalQuery (.scan Time) start stop
  return (batch, vs)

/-- From zero to one second the batch has vertex 1 and the iterator has no vertex: the edge is at
one second. -/
theorem batch_has_vertex_without_edge :
    RTree.Exact (.scan Time) ∧ Time.ofFloat 0.0 ≤ atOne ∧
      ∃ batch vs g, askBoth (Time.ofFloat 0.0) atOne oneGraph = .ok (batch, vs) g ∧
        ¬ ∀ v, v ∈ batch ↔ v ∈ vs := by
  have hrun : answer? (askBoth (Time.ofFloat 0.0) atOne oneGraph) = some ([1], []) := by
    decide +kernel
  obtain ⟨g, hg⟩ := of_answer? hrun
  refine ⟨RTree.scan_exact, by decide +kernel, [1], [], g, hg, ?_⟩
  intro hagree
  have hmem := (hagree 1).mp (List.mem_singleton_self 1)
  simp at hmem

end HistoricalGraph

end RailwayDB
