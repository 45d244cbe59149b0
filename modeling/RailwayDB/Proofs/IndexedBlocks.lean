/-
What storing a block adds to the indices.

A block that is stored gets an entry in the interval index for each of its lists, and
a record in the focused index under the head of the list and the time of its newest
edge.  Both come from the master block, whose lists have the edges of the block that
was split.  So as long as every list starts after the lists its vertex has already,
the records never meet, and the entries of a vertex stay apart.
-/
import RailwayDB.Proofs.BlockFill
import RailwayDB.Proofs.IntervalQuery
import RailwayDB.Proofs.KeyOrder
import RailwayDB.Proofs.StorageFrame

namespace RailwayDB

variable {P T : Type} {schema : Schema} [LinearOrder T]

/-! ### The master block of a block -/

theorem ends_append_singleton {T : Type} {D : Type} (l : List (NLEdge T D)) (e : NLEdge T D) :
    ends (l ++ [e]) = ends l ++ [(e.toVertex, e.time)] := by
  rw [ends_append]
  rfl

namespace Block

variable {D : Type} [SerializedSize D]

/-- An edge that was added stands last under its head. -/
theorem ends_of_addEdge {block block' : Block T D} {v w : VertexId} {tm : T} {data : SharedPtr D}
    (h : block.addEdge v w tm data = .ok block') (u : VertexId) :
    ends (block'.neigs.edges u)
      = if u = v then ends (block.neigs.edges v) ++ [(w, tm)] else ends (block.neigs.edges u) := by
  -- Whatever data the edge ends up with, it is the same edge.
  have hlast : ∃ sdata size, block' = { block with
      neigs := block.neigs.addEdge v ⟨w, tm, sdata⟩, serializedSize := size } := by
    unfold addEdge at h
    cases hshared : block.sharedData v w tm with
    | none =>
        rw [hshared] at h
        exact ⟨data, _, (Except.ok.inj h).symm.trans (addNeighborList_addEdge
          { block with serializedSize := block.serializedSize + getSerializedSizeOf data.val } v _)⟩
    | some d =>
        rw [hshared] at h
        by_cases haddr : d.addr ≠ data.addr
        · dsimp only at h
          rw [if_pos haddr] at h
          cases h
        · dsimp only at h
          rw [if_neg haddr] at h
          exact ⟨d, _, (Except.ok.inj h).symm.trans (addNeighborList_addEdge block v _)⟩
  obtain ⟨sdata, size, rfl⟩ := hlast
  show ends ((block.neigs.addEdge v ⟨w, tm, sdata⟩).edges u) = _
  rw [NeighborListMap.edges_addEdge]
  split_ifs
  · exact ends_append_singleton _ _
  · rfl

/-- The master block has the edges of the block. -/
theorem ends_masterBlock {block master : Block T (AttributeData schema)}
    (h : block.masterBlock = .ok master) (v : VertexId) :
    ends (master.neigs.edges v) = ends (block.neigs.edges v) := by
  have hwalk : block.walk.foldlM (fun acc p => acc.addEdge p.1 p.2.1.toVertex p.2.1.time
      (⟨0, .empty schema⟩ : SharedPtr (AttributeData schema))) { Block.new with partition := -1 }
      = .ok master := by
    rw [← h, ← foldlM_walk fun (acc : Block T (AttributeData schema)) headVertex
      (edge : NLEdge T (AttributeData schema) × Nat) =>
        acc.addEdge headVertex edge.1.toVertex edge.1.time ⟨0, .empty schema⟩]
    rfl
  have hdone := Except.foldlM_inv (P := fun l acc => ∀ v,
    ends (acc.neigs.edges v) ++ toCome l v = ends (block.neigs.edges v)) ?_ ?_ hwalk v
  · simpa [toCome] using hdone
  · rintro ⟨w, e, k⟩ l acc acc' hcome hadd u
    rw [ends_of_addEdge hadd, ← hcome u, toCome_cons]
    by_cases hu : u = w
    · rw [if_pos hu, hu, Function.update_self, List.append_assoc]
      rfl
    · rw [if_neg hu, Function.update_of_ne hu]
  · intro v
    rw [toCome_walk]
    rfl

variable [Timestamp T] [BlockTime T] [SliceIndex P T]

/-- The first block of a split is the master. -/
theorem partitionBlock_head {T : Type} [LinearOrder T] [BlockTime T] [SliceIndex P T]
    {block master : Block T (AttributeData schema)} {subs : List (Block T (AttributeData schema))}
    {idx idx' : P} (h : block.partitionBlock idx = .ok (master :: subs, idx')) :
    block.masterBlock = .ok master := by
  unfold partitionBlock at h
  obtain ⟨t, -, h⟩ := Except.bind_eq_ok.mp h
  obtain ⟨⟨tpart, idx₁⟩, -, h⟩ := Except.bind_eq_ok.mp h
  obtain ⟨blocks, hsplit, h⟩ := Except.bind_eq_ok.mp h
  obtain ⟨hblocks, -⟩ := Prod.mk.inj (Except.ok.inj h)
  unfold partitionWith at hsplit
  obtain ⟨first, hfirst, hsplit⟩ := Except.bind_eq_ok.mp hsplit
  obtain ⟨rest, -, hsplit⟩ := Except.bind_eq_ok.mp hsplit
  rw [hblocks] at hsplit
  rw [hfirst, (List.cons.inj (Except.ok.inj hsplit)).1]

end Block

/-! ### The entries of a block -/

/-- The entries of a block's lists: one for each head, from its oldest edge to its newest. -/
structure EntriesOf (block : Block T (AttributeData schema)) (added : List (IntervalData T)) :
    Prop where
  once : (added.map IntervalData.vertex).Nodup
  times : ∀ e ∈ added, ∃ oldest newest, (block.neigs.edges e.vertex).head? = some oldest ∧
    (block.neigs.edges e.vertex).getLast? = some newest ∧ oldest.time = e.intervalStart ∧
    newest.time = e.intervalEnd

namespace IntervalQueryIndex

variable [Timestamp T] [BlockTime T] [SliceIndex P T]

theorem map_vertex_intervals {T : Type} {id : BlockId}
    {entries : List (Sigma fun _ : VertexId => NeighborList T (AttributeData schema))}
    {added : List (IntervalData T)} (h : entries.mapM (fun e => interval id e.1 e.2) = .ok added) :
    added.map IntervalData.vertex = entries.map Sigma.fst := by
  induction entries generalizing added with
  | nil =>
      rw [List.mapM_nil, Except.pure_eq_ok, Except.ok.injEq] at h
      rw [← h]
      rfl
  | cons x entries ih =>
      rw [List.mapM_cons] at h
      obtain ⟨e, he, h⟩ := Except.bind_eq_ok.mp h
      obtain ⟨rest, hrest, h⟩ := Except.bind_eq_ok.mp h
      rw [← Except.ok.inj h, List.map_cons, List.map_cons, ih hrest, (interval_eq_ok he).2.1]

/-- The lists of a master block with the edges of `block`. -/
theorem entriesOf_intervals {T : Type} {block master : Block T (AttributeData schema)}
    (hends : ∀ v, ends (master.neigs.edges v) = ends (block.neigs.edges v))
    {added : List (IntervalData T)} (h : intervals master = .ok added) :
    EntriesOf block added := by
  refine ⟨?_, ?_⟩
  · rw [map_vertex_intervals h]
    exact master.neigs.nodupKeys
  · intro e he
    obtain ⟨x, hx, hinterval⟩ := (Except.mem_of_mapM h e).mp he
    obtain ⟨-, hvertex, oldest, newest, hold, hnew, hstart, hstop⟩ := interval_eq_ok hinterval
    have hlist : master.neigs.edges e.vertex = x.2.edges := by
      rw [hvertex]
      exact NeighborListMap.edges_of_lookup (AList.mem_lookup_iff.mpr hx)
    have hends' := hends e.vertex
    rw [hlist] at hends'
    unfold ends at hends'
    have hhead := congrArg List.head? hends'
    have hlast := congrArg List.getLast? hends'
    rw [List.head?_map, List.head?_map, hold] at hhead
    rw [List.getLast?_map, List.getLast?_map, hnew] at hlast
    obtain ⟨first, hfirst, hfirst'⟩ := Option.map_eq_some_iff.mp hhead.symm
    obtain ⟨last, hlast, hlast'⟩ := Option.map_eq_some_iff.mp hlast.symm
    refine ⟨first, last, hfirst, hlast, ?_, ?_⟩
    · rw [← hstart]
      exact (Prod.mk.inj hfirst').2
    · rw [← hstop]
      exact (Prod.mk.inj hlast').2

end IntervalQueryIndex

namespace FocusedIntervalQueryIndex

variable [Timestamp T]

/-! ### The records of a block -/

/-- The key of a list. -/
def recordKey (e : IntervalData T) : List Byte :=
  Bytes.bigEndian 8 e.vertex.val ++ timeBytes e.intervalEnd

/-- What is stored of it. -/
def recordData (e : IntervalData T) : List Byte :=
  Bytes.bigEndian 8 e.id.val ++ timeBytes e.intervalStart

/-- One `db_->Put` for each list. -/
def putRecords (db : SortedMap (List Byte) (List Byte)) (added : List (IntervalData T)) :
    SortedMap (List Byte) (List Byte) :=
  added.foldl (fun db e => db.insert (recordKey e) (recordData e)) db

theorem recordKey_inj {e e' : IntervalData T} (h : recordKey e = recordKey e') :
    e.vertex = e'.vertex ∧ e.intervalEnd = e'.intervalEnd := by
  have hlen : (Bytes.bigEndian 8 e.vertex.val).length
      = (Bytes.bigEndian 8 e'.vertex.val).length := by
    simp
  obtain ⟨hvertex, htime⟩ := List.append_inj h hlen
  exact ⟨Fin.ext (Bytes.bigEndian_injective e.vertex.isLt e'.vertex.isLt hvertex),
    timeBytes_injective htime⟩

/-- Other keys keep their records. -/
theorem find?_putRecords_ne {key : List Byte} {added : List (IntervalData T)}
    (h : ∀ e ∈ added, key ≠ recordKey e) (db : SortedMap (List Byte) (List Byte)) :
    (putRecords db added).find? key = db.find? key := by
  induction added generalizing db with
  | nil => rfl
  | cons e added ih =>
      show (putRecords (db.insert (recordKey e) (recordData e)) added).find? key = _
      rw [ih (fun e' he' => h e' (List.mem_cons_of_mem _ he')), SortedMap.find?_insert,
        if_neg (h e List.mem_cons_self)]

/-- Records under keys of their own are all there afterwards. -/
theorem find?_putRecords {added : List (IntervalData T)}
    (hkeys : (added.map recordKey).Nodup) (db : SortedMap (List Byte) (List Byte))
    {e : IntervalData T} (he : e ∈ added) :
    (putRecords db added).find? (recordKey e) = some (recordData e) := by
  induction added generalizing db with
  | nil => simp at he
  | cons e' added ih =>
      rw [List.map_cons, List.nodup_cons] at hkeys
      show (putRecords (db.insert (recordKey e') (recordData e')) added).find? (recordKey e) = _
      rcases List.mem_cons.mp he with rfl | he
      · rw [find?_putRecords_ne, SortedMap.find?_insert, if_pos rfl]
        intro e' he' heq
        exact hkeys.1 (List.mem_map.mpr ⟨e', he', heq.symm⟩)
      · exact ih hkeys.2 _ he

variable [BlockTime T] [SliceIndex P T]

theorem data_eq {T : Type} [LinearOrder T] [Timestamp T] (id : BlockId) (start : T) :
    data id start = .ok (Bytes.bigEndian 8 id.val ++ timeBytes start) := key_eq id start

/-- A list the interval index takes can be put. -/
theorem indexList_eq {T : Type} [LinearOrder T] [Timestamp T] {id : BlockId} {v : VertexId}
    {nlist : NeighborList T (AttributeData schema)} {e : IntervalData T}
    (h : IntervalQueryIndex.interval id v nlist = .ok e) :
    indexList id nlist = .ok (recordKey e, recordData e) := by
  have hhead : nlist.headVertex = v := by
    by_contra hne
    unfold IntervalQueryIndex.interval at h
    rw [if_pos hne] at h
    cases h
  obtain ⟨hid, hvertex, oldest, newest, hold, hnew, hstart, hstop⟩ :=
    IntervalQueryIndex.interval_eq_ok h
  unfold indexList NeighborList.getOldestEdge NeighborList.getNewestEdge
  rw [hold, hnew]
  simp only [Except.ok_bind, key_eq, data_eq]
  unfold recordKey recordData
  rw [hhead, ← hvertex, hstart, hstop, ← hid]
  rfl

/-- The lists are put one after the other. -/
theorem indexLists_eq {T : Type} [LinearOrder T] [Timestamp T] {id : BlockId}
    {entries : List (Sigma fun _ : VertexId => NeighborList T (AttributeData schema))}
    {added : List (IntervalData T)}
    (h : entries.mapM (fun e => IntervalQueryIndex.interval id e.1 e.2) = .ok added)
    (g : HistoricalGraph P T schema) :
    indexLists id entries g = .ok () { g with fiqIndex := putRecords g.fiqIndex added } := by
  induction entries generalizing added g with
  | nil =>
      rw [List.mapM_nil, Except.pure_eq_ok, Except.ok.injEq] at h
      rw [← h]
      rfl
  | cons x entries ih =>
      rw [List.mapM_cons] at h
      obtain ⟨e, he, h⟩ := Except.bind_eq_ok.mp h
      obtain ⟨rest, hrest, h⟩ := Except.bind_eq_ok.mp h
      have hput : (putList id x.2 : Storage P T schema Unit) g
          = .ok () { g with fiqIndex := g.fiqIndex.insert (recordKey e) (recordData e) } := by
        unfold putList
        rw [Storage.ofResult_bind_ok (indexList_eq he)]
        rfl
      unfold indexLists
      rw [run_bind_ok hput, ih hrest, ← Except.ok.inj h]
      rfl

end FocusedIntervalQueryIndex

/-! ### Lists apart -/

open FocusedIntervalQueryIndex

/-- The lists of a vertex lie one after the other, and the record of every list is there. -/
structure Apart [Timestamp T] (iqIndex : List (IntervalData T))
    (fiqIndex : SortedMap (List Byte) (List Byte)) : Prop where
  ordered : ∀ e ∈ iqIndex, e.intervalStart ≤ e.intervalEnd
  disjoint : iqIndex.Pairwise fun e e' => e.vertex = e'.vertex → e.intervalEnd < e'.intervalStart
  found : ∀ e ∈ iqIndex, fiqIndex.find? (recordKey e) = some (recordData e)

section Apart

variable [Timestamp T] {iqIndex added : List (IntervalData T)}
  {fiqIndex : SortedMap (List Byte) (List Byte)} {block : Block T (AttributeData schema)}

theorem Apart.nil (fiqIndex : SortedMap (List Byte) (List Byte)) :
    Apart ([] : List (IntervalData T)) fiqIndex :=
  ⟨fun _ he => (List.not_mem_nil he).elim, List.Pairwise.nil,
    fun _ he => (List.not_mem_nil he).elim⟩

/-- No two lists have one key. -/
theorem Apart.keys (h : Apart iqIndex fiqIndex) : (iqIndex.map recordKey).Nodup := by
  refine List.pairwise_map.mpr (h.disjoint.imp_of_mem ?_)
  intro e e' _ he' hdisjoint heq
  obtain ⟨hvertex, hstop⟩ := recordKey_inj heq
  have hlt := hdisjoint hvertex
  have hle := h.ordered e' he'
  rw [hstop] at hlt
  exact absurd (lt_of_lt_of_le hlt hle) (lt_irrefl _)

/-- The times of an entry are those of edges of the block. -/
theorem EntriesOf.mem {T : Type} {added : List (IntervalData T)}
    {block : Block T (AttributeData schema)} (h : EntriesOf block added) {e : IntervalData T}
    (he : e ∈ added) :
    (∃ x ∈ block.neigs.edges e.vertex, x.time = e.intervalStart) ∧
      ∃ x ∈ block.neigs.edges e.vertex, x.time = e.intervalEnd := by
  obtain ⟨oldest, newest, hold, hnew, hstart, hstop⟩ := h.times e he
  exact ⟨⟨oldest, List.mem_of_head? hold, hstart⟩, newest, List.mem_of_getLast? hnew, hstop⟩

/-- **A block whose lists come after those of their vertices keeps them apart.** -/
theorem Apart.store (h : Apart iqIndex fiqIndex) (hentries : EntriesOf block added)
    (hsorted : ∀ w, (block.neigs.edges w).Pairwise fun x y => x.time < y.time)
    (hlater : ∀ e ∈ iqIndex, ∀ x ∈ block.neigs.edges e.vertex, e.intervalEnd < x.time) :
    Apart (iqIndex ++ added) (putRecords fiqIndex added) := by
  have hkeys : (added.map recordKey).Nodup := by
    refine List.pairwise_map.mpr ((List.pairwise_map.mp hentries.once).imp ?_)
    intro e e' hne heq
    exact hne (recordKey_inj heq).1
  have hcross : ∀ e ∈ iqIndex, ∀ e' ∈ added, e.vertex = e'.vertex →
      e.intervalEnd < e'.intervalStart ∧ e.intervalEnd < e'.intervalEnd := by
    intro e he e' he' hvertex
    obtain ⟨⟨x, hx, hstart⟩, y, hy, hstop⟩ := hentries.mem he'
    rw [← hvertex] at hx hy
    rw [← hstart, ← hstop]
    exact ⟨hlater e he x hx, hlater e he y hy⟩
  refine ⟨?_, ?_, ?_⟩
  · intro e he
    rcases List.mem_append.mp he with he | he
    · exact h.ordered e he
    · obtain ⟨oldest, newest, hold, hnew, hstart, hstop⟩ := hentries.times e he
      have hends : (ends (block.neigs.edges e.vertex)).Pairwise fun p q => p.2 ≤ q.2 :=
        List.pairwise_map.mpr ((hsorted e.vertex).imp fun hlt => hlt.le)
      rw [← hstart, ← hstop]
      exact (times_between hends hold hnew newest (List.mem_of_getLast? hnew)).1
  · refine List.pairwise_append.mpr
      ⟨h.disjoint, ?_, fun e he e' he' hvertex => (hcross e he e' he' hvertex).1⟩
    refine (List.pairwise_map.mp hentries.once).imp ?_
    intro e e' hne hvertex
    exact absurd hvertex hne
  · intro e he
    rcases List.mem_append.mp he with he | he
    · rw [find?_putRecords_ne, h.found e he]
      intro e' he' heq
      obtain ⟨hvertex, hstop⟩ := recordKey_inj heq
      have hlt := (hcross e he e' he' hvertex).2
      rw [hstop] at hlt
      exact absurd hlt (lt_irrefl _)
    · exact find?_putRecords hkeys _ he

end Apart

/-! ### Storing a block -/

namespace Storage

variable [Timestamp T] [BlockTime T] [SliceIndex P T]

/-- The indices are as they were. -/
def SameIndexes (g g' : HistoricalGraph P T schema) : Prop :=
  g'.iqIndex = g.iqIndex ∧ g'.fiqIndex = g.fiqIndex

instance isPreorder_sameIndexes : IsPreorder (HistoricalGraph P T schema) SameIndexes where
  refl _ := ⟨rfl, rfl⟩
  trans _ _ _ h h' := ⟨h'.1.trans h.1, h'.2.trans h.2⟩

/-- The block comes back with its lists. -/
theorem ends_addBlock_neigs {P : Type} (g : HistoricalGraph P T schema)
    (block : Block T (AttributeData schema)) :
    Ends (BlockManager.addBlock block) g
      (fun added g' => added.neigs = block.neigs ∧ SameIndexes g g')
      (fun _ g' => SameIndexes g g') := by
  have hput : ∀ b : Block T (AttributeData schema),
      Keeps SameIndexes (BlockManager.put b : Storage P T schema Unit) := fun b =>
    (keeps_ofResult _).bind fun _ => (keeps_ofResult _).bind fun _ =>
      Keeps.modify fun _ => ⟨rfl, rfl⟩
  have hdone := hput { block with id := g.metaData.blockId } { g with metaData := { g.metaData with
    nextBlockId := g.metaData.nextBlockId + 1 } }
  unfold BlockManager.addBlock
  rw [Ends, get_bind]
  exact hdone.bind fun _ _ hsame => Ends.pure ⟨rfl, hsame⟩

theorem sameIndexes_addBlock {P : Type} (block : Block T (AttributeData schema)) :
    Keeps SameIndexes (BlockManager.addBlock block : Storage P T schema _) :=
  fun g => (ends_addBlock_neigs g block).mono (fun _ _ h => h.2) fun _ _ h => h

theorem sameIndexes_addSubBlocks {P : Type} (blocks : List (Block T (AttributeData schema))) :
    Keeps SameIndexes (PartitionIndex.addSubBlocks blocks : Storage P T schema _) := by
  induction blocks with
  | nil => exact Keeps.pure _
  | cons block blocks ih =>
      unfold PartitionIndex.addSubBlocks
      exact (sameIndexes_addBlock block).bind fun _ => ih.bind fun _ => Keeps.pure _

theorem ends_indexBlock {T : Type} (g : HistoricalGraph P T schema)
    (block : Block T (AttributeData schema)) :
    Ends (IntervalQueryIndex.indexBlock block : Storage P T schema Unit) g
      (fun _ g' => ∃ entries, IntervalQueryIndex.intervals block = .ok entries ∧
        g' = { g with iqIndex := g.iqIndex ++ entries })
      (fun _ g' => g' = g) := by
  unfold IntervalQueryIndex.indexBlock IntervalQueryIndex.intervals
  cases hentries : block.neigs.entries.mapM fun e =>
      IntervalQueryIndex.interval block.id e.1 e.2 with
  | error e =>
      rw [Ends, ofResult_bind_error rfl]
  | ok entries =>
      rw [Ends, ofResult_bind_ok rfl]
      exact ⟨entries, rfl, rfl⟩

/-- **A block that is stored gets its entries and its records; one that is not leaves none.** -/
theorem ends_storeBlock (g : HistoricalGraph P T schema) (block : Block T (AttributeData schema)) :
    Ends (HistoricalGraph.addBlock block) g
      (fun _ g' => ∃ added, EntriesOf block added ∧ g'.iqIndex = g.iqIndex ++ added ∧
        g'.fiqIndex = FocusedIntervalQueryIndex.putRecords g.fiqIndex added)
      (fun _ g' => SameIndexes g g') := by
  have hsplit : Ends (onIndex block.partitionBlock : Storage P T schema _) g
      (fun blocks g' => (∃ idx, block.partitionBlock g.partIndex = .ok (blocks, idx)) ∧
        SameIndexes g g') (fun _ g' => SameIndexes g g') := by
    unfold onIndex
    rw [Ends, get_bind]
    cases hpart : block.partitionBlock g.partIndex with
    | error e => exact ⟨rfl, rfl⟩
    | ok r => exact ⟨⟨r.2, rfl⟩, rfl, rfl⟩
  unfold HistoricalGraph.addBlock
  refine hsplit.bind ?_
  rintro blocks g₁ ⟨⟨idx, hpart⟩, hsame₁⟩
  split
  · rename_i master sub subs
    refine Ends.bind (sameIndexes_addSubBlocks (sub :: subs) g₁ |>.mono (fun _ _ h => h)
      fun _ _ h => trans_of SameIndexes hsame₁ h) ?_
    intro ids g₂ hsame₂
    refine Ends.bind (ends_addBlock_neigs g₂ _ |>.mono (fun _ _ h => h)
      fun _ _ h => trans_of SameIndexes (trans_of SameIndexes hsame₁ hsame₂) h) ?_
    rintro added g₃ ⟨hneigs, hsame₃⟩
    have hsame := trans_of SameIndexes (trans_of SameIndexes hsame₁ hsame₂) hsame₃
    have hends : ∀ v, ends (added.neigs.edges v) = ends (block.neigs.edges v) := by
      intro v
      rw [hneigs]
      exact Block.ends_masterBlock (Block.partitionBlock_head hpart) v
    refine Ends.bind ((ends_indexBlock g₃ added).mono (fun _ _ h => h) ?_) ?_
    · rintro - g' rfl
      exact hsame
    · rintro - g₄ ⟨entries, hentries, rfl⟩
      have hput := FocusedIntervalQueryIndex.indexLists_eq hentries
        { g₃ with iqIndex := g₃.iqIndex ++ entries }
      unfold FocusedIntervalQueryIndex.indexBlock
      rw [Ends, hput]
      refine ⟨entries, IntervalQueryIndex.entriesOf_intervals hends hentries, ?_, ?_⟩
      · show g₃.iqIndex ++ entries = _
        rw [hsame.1]
      · show FocusedIntervalQueryIndex.putRecords g₃.fiqIndex entries = _
        rw [hsame.2]
  · exact Ends.throw hsame₁

end Storage

end RailwayDB
