/-
The edges of a vertex in a range of time.

The focused index has the lists of the vertex in the order of time from the first one
that reaches the range.  The iterator goes through them, one after the other, and
stops at the first edge past the range: every edge after it is later.  So what it
gives is what is left of the lists, filtered by the range; at each edge it reads the
sub-blocks of the parts that were chosen for the names asked for, and these have the
values of the edge under the names.

`Filed` says what the store has for an entry of the index.  `Remains` says what an
iterator has still to give, and each step takes one edge off it.
-/
import RailwayDB.Proofs.FocusedIndex
import RailwayDB.Proofs.NeighborList
import RailwayDB.Proofs.PartitionLookup
import RailwayDB.Proofs.QueryCover

namespace RailwayDB

open Storage BlockManager NetworkByteBuffer

variable {P T : Type} {schema : Schema} [LinearOrder T] [Timestamp T] [BlockTime T]
  [SliceIndex P T]

/-! ### The index iterator -/

namespace FocusedIntervalQueryIndex

/-- What is read of a record. -/
def currentsOf (e : IntervalData T) : Currents T :=
  ⟨e.vertex, e.intervalEnd, e.id, e.intervalStart⟩

namespace Iterator

theorem readCurrents_record {T : Type} [LinearOrder T] [Timestamp T] (e : IntervalData T) :
    readCurrents (record e) = .ok (currentsOf e) := by
  have hread : ∀ (n : BitVec 64) (t : T), ∃ sb sb',
      (ofBytes (Bytes.bigEndian 8 n.toNat ++ timeBytes t)).getUInt64 = .ok (n, sb) ∧
        sb.getDouble = .ok (Timestamp.toBits t, sb') := by
    intro n t
    have hunread : Unread (ofBytes (Bytes.bigEndian 8 n.toNat ++ timeBytes t))
        (Bytes.bigEndian 8 n.toNat ++ (timeBytes t ++ [])) := by
      rw [List.append_nil]
      exact unread_ofBytes _
    obtain ⟨hn, hrest⟩ := Reads.getUInt64 n _ _ hunread
    obtain ⟨ht, -⟩ := Reads.getDouble (Timestamp.toBits t) _ _ hrest
    exact ⟨_, _, hn, ht⟩
  obtain ⟨kb, kb', hvertex, hend⟩ := hread (BitVec.ofFin e.vertex) e.intervalEnd
  obtain ⟨vb, vb', hid, hstart⟩ := hread (BitVec.ofFin e.id) e.intervalStart
  unfold readCurrents
  rw [show (record e).1 = Bytes.bigEndian 8 (BitVec.ofFin e.vertex).toNat ++ timeBytes e.intervalEnd
      from rfl, show (record e).2 = Bytes.bigEndian 8 (BitVec.ofFin e.id).toNat
      ++ timeBytes e.intervalStart from rfl]
  simp only [hvertex, hend, hid, hstart, Except.ok_bind, Timestamp.ofBits_toBits]
  rfl

/-- The iterator is at the records of `l`, and after them there are lists of other vertices. -/
structure Positioned (it : Iterator T) (v : VertexId) (start stop : T) (l : List (IntervalData T)) :
    Prop where
  vertex : it.vertex = v
  rangeStart : it.rangeStart = start
  rangeEnd : it.rangeEnd = stop
  records : ∃ rest, it.dbIter = l.map record ++ rest ∧
    ∀ p ∈ rest, ∃ e : IntervalData T, e.vertex ≠ v ∧ p = record e
  currents : ∀ e : IntervalData T, it.dbIter.head? = some (record e) →
    it.currents = some (currentsOf e)

section At

variable {it : Iterator T} {v : VertexId} {start stop : T} {l : List (IntervalData T)}
  {rest : List (List Byte × List Byte)}

/-- Wherever it is put, the iterator reads the record there. -/
theorem at_ok {T : Type} [LinearOrder T] [Timestamp T] {it : Iterator T} {start stop : T}
    {l : List (IntervalData T)} (hvertex : it.vertex = v) (hstart : it.rangeStart = start)
    (hstop : it.rangeEnd = stop)
    (hrest : ∀ p ∈ rest, ∃ e : IntervalData T, e.vertex ≠ v ∧ p = record e) :
    ∃ it', it.at_ (l.map record ++ rest) = .ok it' ∧ Positioned it' v start stop l := by
  cases hl : l.map record ++ rest with
  | nil =>
      refine ⟨{ it with dbIter := [] }, rfl, ⟨hvertex, hstart, hstop, ⟨rest, ?_, hrest⟩, ?_⟩⟩
      · exact hl.symm
      · intro e he
        simp at he
  | cons p tail =>
      obtain ⟨e, rfl⟩ : ∃ e : IntervalData T, p = record e := by
        have hp : p ∈ l.map record ++ rest := by
          rw [hl]
          exact List.mem_cons_self
        rcases List.mem_append.mp hp with hp | hp
        · obtain ⟨e, -, he⟩ := List.mem_map.mp hp
          exact ⟨e, he.symm⟩
        · obtain ⟨e, -, he⟩ := hrest p hp
          exact ⟨e, he⟩
      refine ⟨{ it with dbIter := record e :: tail, currents := some (currentsOf e) }, ?_,
        ⟨hvertex, hstart, hstop, ⟨rest, hl.symm, hrest⟩, ?_⟩⟩
      · unfold at_
        simp only [readCurrents_record, Except.ok_map]
      · intro e' he'
        have heq : record e = record e' := by simpa using he'
        have hread := readCurrents_record e
        rw [heq, readCurrents_record, Except.ok.injEq] at hread
        show some (currentsOf e) = _
        rw [hread]

/-- Past the lists of the vertex it is not valid. -/
theorem Positioned.valid?_nil {T : Type} [LinearOrder T] [Timestamp T] {it : Iterator T}
    {start stop : T} (h : Positioned it v start stop []) : it.valid? = none := by
  obtain ⟨rest, hrecords, hrest⟩ := h.records
  rw [List.map_nil, List.nil_append] at hrecords
  unfold valid?
  cases hr : rest with
  | nil => rw [hrecords, hr]
  | cons p tail =>
      obtain ⟨e, hne, rfl⟩ := hrest p (by rw [hr]; exact List.mem_cons_self)
      rw [hr] at hrecords
      rw [h.currents e (by rw [hrecords]; rfl), hrecords]
      dsimp only
      rw [if_neg]
      rw [h.vertex]
      exact fun hc => hne hc.1

/-- At a list it is valid when the list starts before the end of the range. -/
theorem Positioned.valid?_cons {T : Type} [LinearOrder T] [Timestamp T] {it : Iterator T}
    {start stop : T} {l : List (IntervalData T)} {e : IntervalData T}
    (h : Positioned it v start stop (e :: l)) (hv : e.vertex = v) :
    it.valid? = if e.intervalStart < stop then some (currentsOf e) else none := by
  obtain ⟨rest, hrecords, -⟩ := h.records
  rw [List.map_cons, List.cons_append] at hrecords
  unfold valid?
  rw [h.currents e (by rw [hrecords]; rfl), hrecords]
  dsimp only
  rw [h.vertex, h.rangeEnd]
  by_cases hlt : e.intervalStart < stop
  · rw [if_pos hlt, if_pos ⟨hv, hlt⟩]
  · rw [if_neg hlt, if_neg fun hc => hlt hc.2]

/-- The iterator of a query stands at the first list that reaches the range. -/
theorem new_ok [WrittenInOrder T] {iqIndex : List (IntervalData T)}
    {fiqIndex : SortedMap (List Byte) (List Byte)} (h : Cataloged iqIndex fiqIndex) (v : VertexId)
    (hstart : BlockTime.zero ≤ start) (stop : T) :
    ∃ it, Iterator.new fiqIndex v start stop = .ok it ∧ Positioned it v start stop
      ((entriesFor iqIndex v).filter fun e => start ≤ e.intervalEnd) := by
  obtain ⟨rest, hrecords, hrest⟩ := h.lowerBound_key v hstart
  unfold Iterator.new
  rw [key_eq, Except.ok_bind, hrecords]
  exact at_ok rfl rfl rfl hrest

/-- The next list. -/
theorem Positioned.next_ok {T : Type} [LinearOrder T] [Timestamp T] {it : Iterator T}
    {start stop : T} {l : List (IntervalData T)} {e : IntervalData T}
    (h : Positioned it v start stop (e :: l)) (hv : e.vertex = v) (hlt : e.intervalStart < stop) :
    ∃ it', it.next = .ok it' ∧ Positioned it' v start stop l := by
  obtain ⟨rest, hrecords, hrest⟩ := h.records
  unfold next
  rw [h.valid?_cons hv, if_pos hlt, hrecords]
  exact at_ok h.vertex h.rangeStart h.rangeEnd hrest

end At

end Iterator

end FocusedIntervalQueryIndex

/-! ### The parts of an edge -/

namespace AttributeData

/-- What a query for some names gives of the data of an edge: under each name what the wire keeps,
and nothing else. -/
def Tells (names : List Text) (data answer : AttributeData schema) : Prop :=
  ∀ i, answer.find? i
    = if ∃ name ∈ names, schema.names.idxOf name = i then (data.find? i).map Value.wire else none

/-- The parts chosen for the names have their values. -/
theorem tells_foldl_picked {data : AttributeData schema} (hfull : data.Full) {part : Partitioning}
    (hpart : ∀ attributes ∈ part, schema.Has attributes) {names : List Text}
    (hnames : schema.Has names) {chosen : List Nat} (hchosen : Chooses part names chosen)
    {target : AttributeData schema} (htarget : target.Over names) :
    Tells names data ((chosen.map fun i => part.getD i []).foldl
      (fun acc attributes => acc.setAttributes (Block.picked attributes data).wire) target) := by
  intro i
  split_ifs with hi
  · obtain ⟨name, hname, rfl⟩ := hi
    refine find?_foldl_picked hfull (idxOf_lt (hnames name hname)) _ target ?_ ?_ (Or.inl ?_)
    · intro attributes hmem
      obtain ⟨j, hj, rfl⟩ := List.mem_map.mp hmem
      exact hpart _ (partAt_ok (hchosen.lt j hj)).2
    · rw [Ne, find?_eq_none, not_not]
      exact (htarget _).mpr ⟨name, hname, rfl⟩
    · obtain ⟨j, hj, hmem⟩ := hchosen.covers name hname
      exact ⟨_, List.mem_map_of_mem hj, name, hmem, rfl⟩
  · rw [find?_eq_none, keys_foldl_picked]
    exact fun hc => hi ((htarget i).mp hc)

end AttributeData

/-! ### What the store has for an entry -/

namespace BlockManager

/-- A slice that was looked up has the partitioning of each of its times. -/
structure AnswersSlices (Ok : P → Prop) (parts : T → Option Partitioning) : Prop
    extends Answers Ok parts where
  slice : ∀ idx t tpart idx', Ok idx → parts t ≠ none →
    SliceIndex.getTimeSlicedPartitioning idx t = .ok (tpart, idx') →
    ∀ t' part', tpart.startTime ≤ t' → t' < tpart.endTime → parts t' = some part' →
      tpart.partitioning = part'

end BlockManager

namespace Block

/-- A block stored in parts, with its master under `id`. -/
structure StoredApart (parts : T → Option Partitioning)
    (stored : BlockId → Option (Block T (AttributeData schema))) (id : BlockId)
    (block : Block T (AttributeData schema)) : Prop where
  formed : block.Formed
  full : block.FullData
  master : ∃ master t part, stored id = some master ∧ master.partition = -1 ∧
    master.subBlocks ≠ [] ∧ (∀ v, ends (master.neigs.edges v) = ends (block.neigs.edges v)) ∧
    block.getPartitioningTimestamp = .ok t ∧ parts t = some part ∧
    List.Forall₂ (StoredPart block stored) master.subBlocks part

/-- The list of an entry. -/
structure Lists (block : Block T (AttributeData schema)) (e : IntervalData T) : Prop where
  first : ∃ oldest, (block.neigs.edges e.vertex).head? = some oldest ∧
    oldest.time = e.intervalStart
  last : ∃ newest, (block.neigs.edges e.vertex).getLast? = some newest ∧
    newest.time = e.intervalEnd

end Block

/-- The block of every entry is stored in parts; `blocks` has what was stored. -/
def Filed (parts : T → Option Partitioning)
    (stored blocks : BlockId → Option (Block T (AttributeData schema)))
    (iqIndex : List (IntervalData T)) : Prop :=
  ∀ e ∈ iqIndex, ∃ block, blocks e.id = some block ∧ block.StoredApart parts stored e.id ∧
    block.Lists e

/-- The edges of an entry. -/
def edgesOf (blocks : BlockId → Option (Block T (AttributeData schema))) (e : IntervalData T) :
    List (NLEdge T (AttributeData schema)) :=
  match blocks e.id with
  | some block => block.neigs.edges e.vertex
  | none => []

theorem edgesOf_eq {T : Type} {blocks : BlockId → Option (Block T (AttributeData schema))}
    {e : IntervalData T} {block : Block T (AttributeData schema)} (h : blocks e.id = some block) :
    edgesOf blocks e = block.neigs.edges e.vertex := by
  unfold edgesOf
  rw [h]

/-- All edges of a vertex. -/
def edgesFor (blocks : BlockId → Option (Block T (AttributeData schema)))
    (iqIndex : List (IntervalData T)) (v : VertexId) : List (NLEdge T (AttributeData schema)) :=
  (entriesFor iqIndex v).flatMap (edgesOf blocks)

section Filed

variable {parts : T → Option Partitioning}
  {stored blocks : BlockId → Option (Block T (AttributeData schema))}
  {iqIndex : List (IntervalData T)}

theorem times_of_ends {T : Type} [LinearOrder T] {l : List (NLEdge T (AttributeData schema))}
    (h : (ends l).Pairwise fun p q => p.2 ≤ q.2) : l.Pairwise fun x y => x.time ≤ y.time := by
  rw [ends, List.pairwise_map] at h
  exact h

/-- The edges of an entry are in order, from its start to its end. -/
theorem Filed.edges {T : Type} [LinearOrder T] [BlockTime T] {parts : T → Option Partitioning}
    {stored blocks : BlockId → Option (Block T (AttributeData schema))}
    {iqIndex : List (IntervalData T)} (h : Filed parts stored blocks iqIndex) {e : IntervalData T}
    (he : e ∈ iqIndex) :
    edgesOf blocks e ≠ [] ∧ (edgesOf blocks e).Pairwise (fun x y => x.time ≤ y.time) ∧
      (∀ x ∈ edgesOf blocks e, e.intervalStart ≤ x.time ∧ x.time ≤ e.intervalEnd) ∧
      ∃ newest ∈ edgesOf blocks e, newest.time = e.intervalEnd := by
  obtain ⟨block, hblock, hstored, ⟨oldest, hold, hstart⟩, newest, hnew, hend⟩ := h e he
  obtain ⟨F, seen, -, hlisted⟩ := hstored.formed
  rw [edgesOf_eq hblock, ← hstart, ← hend]
  have hmem := List.mem_of_getLast? hnew
  exact ⟨List.ne_nil_of_mem hmem, times_of_ends (hlisted.sorted e.vertex),
    times_between (hlisted.sorted e.vertex) hold hnew, newest, hmem, rfl⟩

/-- Lists that come one after the other have their edges in order. -/
theorem Filed.sorted {T : Type} [LinearOrder T] [BlockTime T] {parts : T → Option Partitioning}
    {stored blocks : BlockId → Option (Block T (AttributeData schema))}
    {iqIndex : List (IntervalData T)} (h : Filed parts stored blocks iqIndex)
    {l : List (IntervalData T)} (hl : ∀ e ∈ l, e ∈ iqIndex)
    (hapart : l.Pairwise fun e e' => e.intervalEnd < e'.intervalStart) :
    (l.flatMap (edgesOf blocks)).Pairwise fun x y => x.time ≤ y.time := by
  refine List.pairwise_flatMap.mpr ⟨fun e he => (h.edges (hl e he)).2.1, ?_⟩
  refine hapart.imp_of_mem ?_
  intro e e' he he' hlt x hx y hy
  have hx' := ((h.edges (hl e he)).2.2.1 x hx).2
  have hy' := ((h.edges (hl e' he')).2.2.1 y hy).1
  exact le_trans hx' (le_trans hlt.le hy')

end Filed

namespace HistoricalGraph.EdgeIterator

open FocusedIntervalQueryIndex

/-! ### The edge iterator -/

section Steps

variable {Ok : P → Prop} {parts : T → Option Partitioning}
  {stored blocks : BlockId → Option (Block T (AttributeData schema))}
  {g : HistoricalGraph P T schema} {names : List Text} {ω : SetOrder}
  {iqIndex : List (IntervalData T)} {ei : EdgeIterator T} {v : VertexId} {start stop : T}
  {e : IntervalData T} {l : List (IntervalData T)}

/-- The names can be read from every partitioning in use. -/
def Askable (schema : Schema) (parts : T → Option Partitioning) (stats : SchemaStats)
    (names : List Text) : Prop :=
  ∀ t part, parts t = some part → Readable schema stats part names ∧ Counted schema stats part names

/-- The parts that are kept serve every block of the slice that is kept. -/
def Tuned (parts : T → Option Partitioning) (names : List Text) (ei : EdgeIterator T) : Prop :=
  ei.partitionIndices ≠ [] →
    ∀ t part, ei.partitioning.startTime ≤ t → t < ei.partitioning.endTime → parts t = some part →
      Chooses part names ei.partitionIndices

/-- The parts for a block are found, kept or chosen anew. -/
theorem usePartitioning_ok (hanswers : AnswersSlices Ok parts)
    (h : Held Ok parts Block.ComesBack stored g)
    (hasked : Askable schema parts g.metaData.schemaStats names)
    (hnames : ei.queryAttributes = names) (htuned : Tuned parts names ei) {t : T}
    {part : Partitioning} (hpart : parts t = some part) :
    ∃ partitioning indices g', usePartitioning ω ei t g
        = .ok { ei with partitioning := partitioning, partitionIndices := indices } g' ∧
      Chooses part names indices ∧
      Tuned parts names { ei with partitioning := partitioning, partitionIndices := indices } ∧
      Held Ok parts Block.ComesBack stored g' ∧ ReadOnly g g' := by
  unfold usePartitioning
  split_ifs with hfresh
  · obtain ⟨tpart, idx', hlookup, htpart, hok⟩ := hanswers.write _ _ _ h.index hpart
    have hslice := hanswers.slice _ _ _ _ h.index (by rw [hpart]; simp) hlookup
    obtain ⟨hreadable, hcounted⟩ := hasked t part hpart
    obtain ⟨indices, hindices, hchooses⟩ :=
      recomputePartitionIndices_chooses hreadable hcounted ω
    refine ⟨tpart, indices, { g with partIndex := idx' }, ?_, hchooses, ?_,
      ⟨hok, h.tidy, h.absent, h.present, h.cached⟩, ⟨rfl, rfl, rfl, rfl, rfl⟩⟩
    · rw [onIndex_bind_ok rfl hlookup, get_bind, htpart, hnames]
      simp only [ofResult_bind_ok hindices]
      rfl
    · intro _ t' part' hle hlt hpart'
      have hsame := hslice t' part' hle hlt hpart'
      rw [htpart] at hsame
      rw [← hsame]
      exact hchooses
  · push Not at hfresh
    exact ⟨ei.partitioning, ei.partitionIndices, g, rfl,
      htuned hfresh.1 t part hfresh.2.1 hfresh.2.2 hpart, htuned, h, ReadOnly.refl g⟩

/-- What the master block of an entry has when it is read. -/
structure Opened (parts : T → Option Partitioning)
    (stored blocks : BlockId → Option (Block T (AttributeData schema))) (e : IntervalData T)
    (b : Block T (AttributeData schema)) : Prop where
  list : ∃ nlist, listOf b (currentsOf e).vertex = .ok nlist ∧ ends nlist.edges = ends (edgesOf blocks e)
  partition : b.partition = -1
  subBlocks : b.subBlocks ≠ []
  parts : ∃ block t part, blocks e.id = some block ∧ block.FullData ∧
    block.getPartitioningTimestamp = .ok t ∧ b.getPartitioningTimestamp = .ok t ∧
    parts t = some part ∧ List.Forall₂ (Block.StoredPart block stored) b.subBlocks part

theorem getBlock_entry (hanswers : Answers Ok parts) (hfiled : Filed parts stored blocks iqIndex)
    (he : e ∈ iqIndex) (h : Held Ok parts Block.ComesBack stored g)
    (hroom : 1 ≤ g.bman.blockBufferSize) :
    ∃ b g', getBlock (currentsOf e).block g = .ok b g' ∧ Opened parts stored blocks e b ∧
      Held Ok parts Block.ComesBack stored g' ∧ ReadOnly g g' := by
  have hsome := (hfiled.edges he).1
  obtain ⟨block, hblock, ⟨hformed, hfull, master, t, part, hmaster, hpartition, hsubs, hends, htime,
    hpart, hstored⟩, -⟩ := hfiled e he
  obtain ⟨b, g', hrun, hback, hheld, hread⟩ :=
    getBlock_ok hanswers (fun _ _ hb => hb.id) h hroom hmaster
  obtain ⟨F, seen, hbuilt, -⟩ := hformed
  obtain ⟨F', seen', hbuilt', -⟩ := hback.formed
  have hends' : ∀ u, ends (b.neigs.edges u) = ends (block.neigs.edges u) := by
    intro u
    rw [← hends u]
    exact Block.ends_of_contents (hback.edges u)
  have hedges := edgesOf_eq hblock
  refine ⟨b, g', hrun, ⟨⟨⟨e.vertex, b.neigs.edges e.vertex⟩, ?_, ?_⟩, ?_, ?_,
    block, t, part, hblock, hfull, htime, ?_, hpart, ?_⟩, hheld, hread⟩
  · have hne : b.neigs.edges e.vertex ≠ [] := by
      rw [Ne, ← ends_eq_nil, hends', ends_eq_nil, ← hedges]
      exact hsome
    unfold listOf
    rw [show (currentsOf e).vertex = e.vertex from rfl, hbuilt'.lists.lookup_eq hne]
  · rw [hends', hedges]
  · rw [hback.partition, hpartition]
  · rw [hback.subBlocks]
    exact hsubs
  · rw [← htime]
    unfold Block.getPartitioningTimestamp
    rw [Block.findMinMaxTimestamps_congr hbuilt.lists hbuilt'.lists hends']
  · rw [hback.subBlocks]
    exact hstored

/-- The edges of a list that was read, as far as other ends and times go. -/
theorem getElem?_of_ends {T : Type} {l l' : List (NLEdge T (AttributeData schema))}
    (h : ends l' = ends l) {k : Nat} {x : NLEdge T (AttributeData schema)} (hx : l[k]? = some x) :
    ∃ x', l'[k]? = some x' ∧ x'.toVertex = x.toVertex ∧ x'.time = x.time := by
  have hk := congrArg (fun l => l[k]?) h
  unfold ends at hk
  simp only [List.getElem?_map, hx, Option.map_some] at hk
  obtain ⟨x', hx', heq⟩ := Option.map_eq_some_iff.mp hk
  exact ⟨x', hx', (Prod.mk.inj heq).1, (Prod.mk.inj heq).2⟩

theorem length_of_ends {T : Type} {l l' : List (NLEdge T (AttributeData schema))}
    (h : ends l' = ends l) :
    l'.length = l.length := by
  have hlen := congrArg List.length h
  simpa [ends] using hlen

theorem takeWhile_of_ends {T : Type} [LinearOrder T] {l l' : List (NLEdge T (AttributeData schema))}
    (h : ends l' = ends l) (start : T) : (l'.takeWhile fun e => e.time < start).length
      = (l.takeWhile fun e => e.time < start).length := by
  have hcount : ∀ l : List (NLEdge T (AttributeData schema)),
      (l.takeWhile fun e => e.time < start).length
        = ((ends l).takeWhile fun p => p.2 < start).length := by
    intro l
    rw [ends, List.takeWhile_map, List.length_map]
    rfl
  rw [hcount, hcount, h]

end Steps

/-! #### What is left -/

section Left

variable (parts : T → Option Partitioning)
  (stored blocks : BlockId → Option (Block T (AttributeData schema)))
  (iqIndex : List (IntervalData T)) (query : FocusedIntervalQuery T)

/-- The entries of the vertex that do not end before the range. -/
def reached : List (IntervalData T) :=
  (entriesFor iqIndex query.headVertex).filter fun e => query.startTime ≤ e.intervalEnd

/-- The edges in the range, of a list. -/
def inRange (l : List (NLEdge T (AttributeData schema))) : List (NLEdge T (AttributeData schema)) :=
  l.filter fun x => query.startTime ≤ x.time ∧ x.time < query.endTime

/-- The edges in the range from the `k`-th edge of an entry on. -/
def pending (e : IntervalData T) (k : Nat) (l : List (IntervalData T)) :
    List (NLEdge T (AttributeData schema)) :=
  inRange query ((edgesOf blocks e).drop k ++ l.flatMap (edgesOf blocks))

/-- The index iterator has come to some entries, and the edge iterator has not gone in. -/
structure Ready (ei : EdgeIterator T) (l : List (IntervalData T)) : Prop where
  it : ei.it.Positioned query.headVertex query.startTime query.endTime l
  suffix : l <:+ reached iqIndex query
  notDone : ei.done = false
  names : ei.queryAttributes = query.attributeNames.dedup
  tuned : Tuned parts query.attributeNames.dedup ei

/-- The edge iterator is at an edge in the range. -/
structure Stands (ei : EdgeIterator T) (e : IntervalData T) (l : List (IntervalData T))
    (x : NLEdge T (AttributeData schema)) : Prop
    extends Ready parts iqIndex query ei (e :: l) where
  here : (edgesOf blocks e)[ei.currentEdgeIndex]? = some x
  after : query.startTime ≤ x.time
  before : x.time < query.endTime
  count : ei.currentNumEdges = (edgesOf blocks e).length
  chosen : ∀ block t part, blocks e.id = some block → block.getPartitioningTimestamp = .ok t →
    parts t = some part → Chooses part query.attributeNames.dedup ei.partitionIndices

/-- The edges the iterator has still to give. -/
def Remains (ei : EdgeIterator T) (todo : List (NLEdge T (AttributeData schema))) : Prop :=
  ei.valid? = none ∧ todo = [] ∨
    ∃ e l x, Stands parts blocks iqIndex query ei e l x ∧
      todo = pending blocks query e ei.currentEdgeIndex l

variable {parts stored blocks iqIndex query}
variable {Ok : P → Prop} {g : HistoricalGraph P T schema} {ω : SetOrder}
  {fiqIndex : SortedMap (List Byte) (List Byte)}
  {ei : EdgeIterator T} {e : IntervalData T} {l : List (IntervalData T)}
  {x : NLEdge T (AttributeData schema)}

theorem mem_of_suffix {T : Type} [LinearOrder T] {iqIndex : List (IntervalData T)}
    {query : FocusedIntervalQuery T} {e : IntervalData T} {l : List (IntervalData T)}
    (h : e :: l <:+ reached iqIndex query) :
    e ∈ iqIndex ∧ e.vertex = query.headVertex ∧ query.startTime ≤ e.intervalEnd := by
  have hmem := h.subset List.mem_cons_self
  unfold reached at hmem
  rw [List.mem_filter, mem_entriesFor, decide_eq_true_eq] at hmem
  exact ⟨hmem.1.1, hmem.1.2, hmem.2⟩

theorem suffix_tail {T : Type} [LinearOrder T] {iqIndex : List (IntervalData T)}
    {query : FocusedIntervalQuery T} {e : IntervalData T} {l : List (IntervalData T)}
    (h : e :: l <:+ reached iqIndex query) : l <:+ reached iqIndex query :=
  (List.suffix_cons e l).trans h

/-- The edges still to come are in order. -/
theorem sorted_of_suffix (hcatalog : Cataloged iqIndex fiqIndex)
    (hfiled : Filed parts stored blocks iqIndex) (h : l <:+ reached iqIndex query) :
    (l.flatMap (edgesOf blocks)).Pairwise fun x y => x.time ≤ y.time := by
  refine hfiled.sorted ?_ (((hcatalog.disjoint query.headVertex).filter _).sublist h.sublist)
  intro e he
  have hmem := h.subset he
  unfold reached at hmem
  exact (mem_entriesFor.mp (List.mem_filter.mp hmem).1).1

theorem sorted_pending (hcatalog : Cataloged iqIndex fiqIndex)
    (hfiled : Filed parts stored blocks iqIndex) (h : e :: l <:+ reached iqIndex query) (k : Nat) :
    ((edgesOf blocks e).drop k ++ l.flatMap (edgesOf blocks)).Pairwise
      fun x y => x.time ≤ y.time := by
  have hsorted := sorted_of_suffix hcatalog hfiled h
  rw [List.flatMap_cons] at hsorted
  exact hsorted.sublist ((List.drop_sublist k _).append_right _)

/-- Once an edge is past the range nothing is left. -/
theorem pending_eq_nil (hcatalog : Cataloged iqIndex fiqIndex)
    (hfiled : Filed parts stored blocks iqIndex) (h : e :: l <:+ reached iqIndex query) {k : Nat}
    (hx : (edgesOf blocks e)[k]? = some x) (hlate : query.endTime ≤ x.time) :
    pending blocks query e k l = [] := by
  have hsorted := sorted_pending hcatalog hfiled h k
  obtain ⟨hk, hget⟩ := List.getElem?_eq_some_iff.mp hx
  unfold pending inRange
  rw [List.drop_eq_getElem_cons hk, hget, List.cons_append] at hsorted ⊢
  rw [List.filter_eq_nil_iff]
  intro y hy
  have hle : x.time ≤ y.time := by
    rcases List.mem_cons.mp hy with heq | hy
    · rw [heq]
    · exact (List.pairwise_cons.mp hsorted).1 y hy
  rw [decide_eq_true_eq]
  exact fun hc => absurd hc.2 (not_lt.mpr (le_trans hlate hle))

/-- The edge the iterator is at comes first. -/
theorem Stands.pending_eq_cons (h : Stands parts blocks iqIndex query ei e l x) :
    pending blocks query e ei.currentEdgeIndex l
      = x :: pending blocks query e (ei.currentEdgeIndex + 1) l := by
  obtain ⟨hk, hget⟩ := List.getElem?_eq_some_iff.mp h.here
  unfold pending inRange
  rw [List.drop_eq_getElem_cons hk, hget, List.cons_append, List.filter_cons_of_pos]
  exact decide_eq_true ⟨h.after, h.before⟩

theorem Stands.valid? (h : Stands parts blocks iqIndex query ei e l x)
    (hfiled : Filed parts stored blocks iqIndex) : ei.valid? = some (currentsOf e) := by
  obtain ⟨hmem, hv, -⟩ := mem_of_suffix h.suffix
  have hstart := ((hfiled.edges hmem).2.2.1 x (List.mem_of_getElem? h.here)).1
  unfold EdgeIterator.valid?
  rw [h.notDone, h.it.valid?_cons hv, if_pos (lt_of_le_of_lt hstart h.before)]
  rfl

/-- The first edge of a list that is not before the range. -/
theorem exists_first {T : Type} [LinearOrder T] [BlockTime T] {parts : T → Option Partitioning}
    {stored blocks : BlockId → Option (Block T (AttributeData schema))}
    {iqIndex : List (IntervalData T)} {query : FocusedIntervalQuery T} {e : IntervalData T}
    {l : List (IntervalData T)} (hfiled : Filed parts stored blocks iqIndex)
    (h : e :: l <:+ reached iqIndex query) :
    ∃ first, (edgesOf blocks e)[((edgesOf blocks e).takeWhile
        fun x => x.time < query.startTime).length]? = some first ∧ query.startTime ≤ first.time ∧
      pending blocks query e ((edgesOf blocks e).takeWhile
        fun x => x.time < query.startTime).length l
          = inRange query ((e :: l).flatMap (edgesOf blocks)) := by
  obtain ⟨hmem, -, hle⟩ := mem_of_suffix h
  obtain ⟨newest, hnewest, hend⟩ := (hfiled.edges hmem).2.2.2
  have hsplit := List.takeWhile_append_dropWhile
    (p := fun x : NLEdge T (AttributeData schema) => decide (x.time < query.startTime))
    (l := edgesOf blocks e)
  have hbefore : ∀ x ∈ (edgesOf blocks e).takeWhile fun x => x.time < query.startTime,
      x.time < query.startTime := by
    intro x hx
    have hlt := List.mem_takeWhile_imp hx
    rwa [decide_eq_true_eq] at hlt
  have hdrop := (congrArg (List.drop ((edgesOf blocks e).takeWhile
    fun x => x.time < query.startTime).length) hsplit.symm).trans List.drop_left
  have hpending : pending blocks query e ((edgesOf blocks e).takeWhile
      fun x => x.time < query.startTime).length l
        = inRange query ((e :: l).flatMap (edgesOf blocks)) := by
    have hnone : inRange query ((edgesOf blocks e).takeWhile fun x => x.time < query.startTime)
        = [] := by
      refine List.filter_eq_nil_iff.mpr ?_
      intro x hx
      rw [decide_eq_true_eq]
      exact fun hc => absurd (hbefore x hx) (not_lt.mpr hc.1)
    have hedges := congrArg (inRange query) hsplit
    unfold pending inRange at *
    rw [List.filter_append, hnone, List.nil_append] at hedges
    rw [hdrop, List.flatMap_cons, List.filter_append, List.filter_append, hedges]
  cases hrest : (edgesOf blocks e).dropWhile fun x => x.time < query.startTime with
  | nil =>
      rw [hrest, List.append_nil] at hsplit
      rw [← hsplit] at hnewest
      exact absurd (hbefore newest hnewest) (not_lt.mpr (by rw [hend]; exact hle))
  | cons first rest =>
      refine ⟨first, ?_, ?_, hpending⟩
      · rw [← List.head?_drop, hdrop, hrest]
        rfl
      · have hnot := List.head?_dropWhile_not
          (fun x : NLEdge T (AttributeData schema) => decide (x.time < query.startTime))
          (edgesOf blocks e)
        rw [hrest, List.head?_cons] at hnot
        simpa using hnot

/-- The place in the list that was read is the place in the list that was stored. -/
theorem enterList_ok {T : Type} [LinearOrder T]
    {blocks : BlockId → Option (Block T (AttributeData schema))} {e : IntervalData T}
    (ei : EdgeIterator T) {nlist : NeighborList T (AttributeData schema)}
    (hends : ends nlist.edges = ends (edgesOf blocks e)) {first : NLEdge T (AttributeData schema)}
    (hfirst : (edgesOf blocks e)[((edgesOf blocks e).takeWhile
      fun x => x.time < ei.it.rangeStart).length]? = some first) :
    ei.enterList nlist = .ok { ei with
      currentEdgeIndex := ((edgesOf blocks e).takeWhile fun x => x.time < ei.it.rangeStart).length
      currentNumEdges := (edgesOf blocks e).length
      done := ei.done || decide (ei.it.rangeEnd ≤ first.time) } := by
  obtain ⟨x', hx', -, htime⟩ := getElem?_of_ends hends hfirst
  unfold enterList
  simp only [takeWhile_of_ends hends, hx', htime, length_of_ends hends]

theorem initFromBlock_ok (hanswers : AnswersSlices Ok parts) (hcatalog : Cataloged iqIndex fiqIndex)
    (hfiled : Filed parts stored blocks iqIndex) (h : Held Ok parts Block.ComesBack stored g)
    (hroom : 1 ≤ g.bman.blockBufferSize)
    (hasked : Askable schema parts g.metaData.schemaStats query.attributeNames.dedup)
    (hready : Ready parts iqIndex query ei (e :: l)) :
    ∃ ei' g', initFromBlock ω ei (currentsOf e) g = .ok ei' g' ∧
      Remains parts blocks iqIndex query ei'
        (inRange query ((e :: l).flatMap (edgesOf blocks))) ∧
      Held Ok parts Block.ComesBack stored g' ∧ ReadOnly g g' := by
  obtain ⟨hmem, hv, -⟩ := mem_of_suffix hready.suffix
  obtain ⟨first, hfirst, hafter, hpending⟩ := exists_first hfiled hready.suffix
  obtain ⟨b, g₁, hget, hopened, hheld₁, hread₁⟩ :=
    getBlock_entry hanswers.toAnswers hfiled hmem h hroom
  obtain ⟨nlist, hlist, hends⟩ := hopened.list
  obtain ⟨block, t, part, hblock, -, htime, htime', hpart, -⟩ := hopened.parts
  obtain ⟨partitioning, indices, g₂, huse, hchooses, htuned, hheld₂, hread₂⟩ :=
    usePartitioning_ok (ω := ω) hanswers hheld₁ (by rw [hread₁.metaData]; exact hasked) hready.names
      hready.tuned hpart
  rw [← hready.it.rangeStart] at hfirst
  have henter := enterList_ok { ei with
    partitioning := partitioning, partitionIndices := indices } hends hfirst
  have hrun : initFromBlock ω ei (currentsOf e) g = .ok { ei with
      partitioning := partitioning
      partitionIndices := indices
      currentEdgeIndex := ((edgesOf blocks e).takeWhile fun x => x.time < ei.it.rangeStart).length
      currentNumEdges := (edgesOf blocks e).length
      done := ei.done || decide (ei.it.rangeEnd ≤ first.time) } g₂ := by
    unfold initFromBlock
    rw [run_bind_ok hget, ofResult_bind_ok htime', run_bind_ok huse]
    rw [ofResult_bind_ok hlist, henter]
    rfl
  refine ⟨_, g₂, hrun, ?_, hheld₂, hread₁.trans hread₂⟩
  · rw [← hpending, ← hready.it.rangeStart]
    by_cases hlate : query.endTime ≤ first.time
    · refine Or.inl ⟨?_, pending_eq_nil hcatalog hfiled hready.suffix hfirst hlate⟩
      unfold EdgeIterator.valid?
      dsimp only
      rw [hready.it.rangeEnd, decide_eq_true hlate, Bool.or_true]
      rfl
    · refine Or.inr ⟨e, l, first, ⟨⟨hready.it, hready.suffix, ?_, hready.names, htuned⟩, hfirst, hafter,
        not_le.mp hlate, rfl, ?_⟩, rfl⟩
      · rw [hready.it.rangeEnd, decide_eq_false hlate, Bool.or_false]
        exact hready.notDone
      · intro block' t' part' hblock' ht' hpart'
        rw [hblock, Option.some.injEq] at hblock'
        rw [← hblock', htime, Except.ok.injEq] at ht'
        rw [← ht', hpart, Option.some.injEq] at hpart'
        rw [← hpart']
        exact hchooses

/-- Going into the list the index iterator is at. -/
theorem initIfValid_ok (hanswers : AnswersSlices Ok parts) (hcatalog : Cataloged iqIndex fiqIndex)
    (hfiled : Filed parts stored blocks iqIndex) (h : Held Ok parts Block.ComesBack stored g)
    (hroom : 1 ≤ g.bman.blockBufferSize)
    (hasked : Askable schema parts g.metaData.schemaStats query.attributeNames.dedup)
    (hready : Ready parts iqIndex query ei l) :
    ∃ ei' g', initIfValid ω ei g = .ok ei' g' ∧
      Remains parts blocks iqIndex query ei' (inRange query (l.flatMap (edgesOf blocks))) ∧
      Held Ok parts Block.ComesBack stored g' ∧ ReadOnly g g' := by
  unfold initIfValid
  cases l with
  | nil =>
      rw [hready.it.valid?_nil]
      refine ⟨ei, g, rfl, Or.inl ⟨?_, rfl⟩, h, ReadOnly.refl g⟩
      unfold EdgeIterator.valid?
      rw [hready.it.valid?_nil, ite_self]
  | cons e l =>
      obtain ⟨hmem, hv, -⟩ := mem_of_suffix hready.suffix
      obtain ⟨first, hfirst, hafter, hpending⟩ := exists_first hfiled hready.suffix
      rw [hready.it.valid?_cons hv]
      by_cases hlt : e.intervalStart < query.endTime
      · rw [if_pos hlt]
        exact initFromBlock_ok hanswers hcatalog hfiled h hroom hasked hready
      · rw [if_neg hlt]
        have hlate := ((hfiled.edges hmem).2.2.1 first (List.mem_of_getElem? hfirst)).1
        refine ⟨ei, g, rfl, Or.inl ⟨?_, ?_⟩, h, ReadOnly.refl g⟩
        · unfold EdgeIterator.valid?
          rw [hready.it.valid?_cons hv, if_neg hlt, ite_self]
        · rw [← hpending]
          exact pending_eq_nil hcatalog hfiled hready.suffix hfirst
            (le_trans (not_lt.mp hlt) hlate)

/-- Reading an edge of an entry. -/
theorem getEdge_ok (ei : EdgeIterator T) (hanswers : Answers Ok parts)
    (hfiled : Filed parts stored blocks iqIndex)
    (he : e ∈ iqIndex) (h : Held Ok parts Block.ComesBack stored g)
    (hroom : 1 ≤ g.bman.blockBufferSize)
    (hx : (edgesOf blocks e)[ei.currentEdgeIndex]? = some x) :
    ∃ x' g', ei.getEdge (currentsOf e) g = .ok x' g' ∧ x'.toVertex = x.toVertex ∧
      x'.time = x.time ∧ Held Ok parts Block.ComesBack stored g' ∧ ReadOnly g g' := by
  obtain ⟨b, g', hget, hopened, hheld, hread⟩ := getBlock_entry hanswers hfiled he h hroom
  obtain ⟨nlist, hlist, hends⟩ := hopened.list
  obtain ⟨x', hx', hto, htime⟩ := getElem?_of_ends hends hx
  refine ⟨x', g', ?_, hto, htime, hheld, hread⟩
  unfold getEdge NeighborList.getNthOldestEdge
  rw [run_bind_ok hget, ofResult_bind_ok hlist]
  simp only [hx']
  rfl

/-- Collecting the parts that were chosen. -/
theorem collectParts_ok (hanswers : Answers Ok parts) {block : Block T (AttributeData schema)}
    {v : VertexId} {k : Nat} (hx : (block.neigs.edges v)[k]? = some x) {ids : List BlockId}
    {part : Partitioning} (hparts : List.Forall₂ (Block.StoredPart block stored) ids part)
    (chosen : List Nat) (hchosen : ∀ i ∈ chosen, i < part.length) (data : AttributeData schema)
    (h : Held Ok parts Block.ComesBack stored g) (hroom : 1 ≤ g.bman.blockBufferSize) :
    ∃ g', collectParts v k ids chosen data g
        = .ok ((chosen.map fun i => part.getD i []).foldl (fun acc attributes =>
          acc.setAttributes (Block.picked attributes x.data.val).wire) data) g' ∧
      Held Ok parts Block.ComesBack stored g' ∧ ReadOnly g g' := by
  induction chosen generalizing data g with
  | nil => exact ⟨g, rfl, h, ReadOnly.refl g⟩
  | cons i chosen ih =>
      have hi := hchosen i List.mem_cons_self
      have hlen := hparts.length_eq
      have hid : i < ids.length := by omega
      obtain ⟨sub, hsub, hedges⟩ := (List.forall₂_iff_get.mp hparts).2 i hid hi
      obtain ⟨b, g₁, hget, hback, hheld, hread⟩ :=
        getBlock_ok hanswers (fun _ _ hb => hb.id) h hroom hsub
      have hdata : b.dataAt v k = .ok (Block.picked (part.getD i []) x.data.val).wire := by
        refine Block.dataAt_ok hback.formed
          (f := fun d => (Block.picked (part.getD i []) d).wire) ?_ hx
        rw [hback.edges v, hedges v, List.map_map, List.getD_eq_getElem _ _ hi]
        rfl
      obtain ⟨g₂, hrun, hheld₂, hread₂⟩ := ih (fun j hj => hchosen j (List.mem_cons_of_mem _ hj))
        (data.setAttributes (Block.picked (part.getD i []) x.data.val).wire) hheld
        (by rw [hread.blockBufferSize]; exact hroom)
      refine ⟨g₂, ?_, hheld₂, hread.trans hread₂⟩
      have hat : ids[i]? = some (ids.get ⟨i, hid⟩) := List.getElem?_eq_getElem hid
      unfold collectParts
      simp only [hat]
      rw [run_bind_ok hget, ofResult_bind_ok hdata, List.map_cons, List.foldl_cons]
      exact hrun

/-- The names asked for can be asked for of the schema. -/
theorem Askable.has {T : Type} {parts : T → Option Partitioning} {names : List Text}
    {stats : SchemaStats} (h : Askable schema parts stats names) {t : T} {part : Partitioning}
    (hpart : parts t = some part) :
    schema.Has names ∧ ∀ attributes ∈ part, schema.Has attributes := by
  obtain ⟨hreadable, -⟩ := h t part hpart
  refine ⟨?_, hreadable.drawn⟩
  intro name hname
  obtain ⟨attributes, hmem, hin⟩ := hreadable.covers name hname
  exact hreadable.drawn attributes hmem name hin

theorem Stands.getEdgeData_ok (hanswers : Answers Ok parts)
    (hfiled : Filed parts stored blocks iqIndex) (hs : Stands parts blocks iqIndex query ei e l x)
    (h : Held Ok parts Block.ComesBack stored g) (hroom : 1 ≤ g.bman.blockBufferSize)
    (hasked : Askable schema parts g.metaData.schemaStats query.attributeNames.dedup) :
    ∃ data g', ei.getEdgeData (currentsOf e) g = .ok data g' ∧
      AttributeData.Tells query.attributeNames.dedup x.data.val data ∧
      Held Ok parts Block.ComesBack stored g' ∧ ReadOnly g g' := by
  obtain ⟨hmem, -, -⟩ := mem_of_suffix hs.suffix
  obtain ⟨b, g₁, hget, hopened, hheld, hread⟩ := getBlock_entry hanswers hfiled hmem h hroom
  obtain ⟨block, t, part, hblock, hfull, htime, -, hpart, hparts⟩ := hopened.parts
  obtain ⟨hnames, hdrawn⟩ := hasked.has hpart
  have hchosen := hs.chosen block t part hblock htime hpart
  have hx := hs.here
  rw [edgesOf_eq hblock] at hx
  obtain ⟨target, htarget, hover⟩ := AttributeData.ofNames_ok hnames
  obtain ⟨g₂, hcollect, hheld₂, hread₂⟩ := collectParts_ok hanswers hx hparts ei.partitionIndices
    hchosen.lt target hheld (by rw [hread.blockBufferSize]; exact hroom)
  refine ⟨_, g₂, ?_, AttributeData.tells_foldl_picked (hfull e.vertex x (List.mem_of_getElem? hx))
    hdrawn hnames hchosen hover, hheld₂, hread.trans hread₂⟩
  unfold getEdgeData
  rw [hs.names, ofResult_bind_ok htarget, run_bind_ok hget, if_neg (not_not.mpr hopened.partition),
    if_neg hopened.subBlocks]
  exact hcollect

/-- Going on takes one edge off what is left. -/
theorem Stands.next_ok (hanswers : AnswersSlices Ok parts) (hcatalog : Cataloged iqIndex fiqIndex)
    (hfiled : Filed parts stored blocks iqIndex) (hs : Stands parts blocks iqIndex query ei e l x)
    (h : Held Ok parts Block.ComesBack stored g) (hroom : 1 ≤ g.bman.blockBufferSize)
    (hasked : Askable schema parts g.metaData.schemaStats query.attributeNames.dedup) :
    ∃ ei' g', EdgeIterator.next ω ei (currentsOf e) g = .ok ei' g' ∧
      Remains parts blocks iqIndex query ei'
        (pending blocks query e (ei.currentEdgeIndex + 1) l) ∧
      Held Ok parts Block.ComesBack stored g' ∧ ReadOnly g g' := by
  obtain ⟨hmem, hv, -⟩ := mem_of_suffix hs.suffix
  unfold EdgeIterator.next
  by_cases hmore : ei.currentEdgeIndex + 1 < ei.currentNumEdges
  · rw [if_pos hmore]
    rw [hs.count] at hmore
    have hnext : (edgesOf blocks e)[ei.currentEdgeIndex + 1]?
        = some (edgesOf blocks e)[ei.currentEdgeIndex + 1] := List.getElem?_eq_getElem hmore
    have hle : x.time ≤ (edgesOf blocks e)[ei.currentEdgeIndex + 1].time := by
      obtain ⟨hk, hget⟩ := List.getElem?_eq_some_iff.mp hs.here
      rw [← hget]
      exact List.pairwise_iff_getElem.mp (hfiled.edges hmem).2.1 _ _ hk hmore (Nat.lt_succ_self _)
    obtain ⟨x', g', hrun, -, htime, hheld, hread⟩ := getEdge_ok
      { ei with currentEdgeIndex := ei.currentEdgeIndex + 1 } hanswers.toAnswers hfiled hmem h
      hroom hnext
    refine ⟨{ ei with
      currentEdgeIndex := ei.currentEdgeIndex + 1
      done := ei.done || decide (ei.it.rangeEnd ≤ x'.time) }, g', ?_, ?_, hheld, hread⟩
    · rw [run_bind_ok hrun]
      rfl
    · rw [htime, hs.it.rangeEnd]
      by_cases hlate : query.endTime ≤ (edgesOf blocks e)[ei.currentEdgeIndex + 1].time
      · refine Or.inl ⟨?_, pending_eq_nil hcatalog hfiled hs.suffix hnext hlate⟩
        unfold EdgeIterator.valid?
        dsimp only
        rw [decide_eq_true hlate, Bool.or_true]
        rfl
      · refine Or.inr ⟨e, l, _, ⟨⟨hs.it, hs.suffix, ?_, hs.names, hs.tuned⟩, hnext,
          le_trans hs.after hle, not_le.mp hlate, hs.count, hs.chosen⟩, rfl⟩
        rw [decide_eq_false hlate, Bool.or_false]
        exact hs.notDone
  · obtain ⟨it', hit, hpositioned⟩ := hs.it.next_ok hv
      (lt_of_le_of_lt ((hfiled.edges hmem).2.2.1 x (List.mem_of_getElem? hs.here)).1 hs.before)
    have hlast : pending blocks query e (ei.currentEdgeIndex + 1) l
        = inRange query (l.flatMap (edgesOf blocks)) := by
      unfold pending
      rw [List.drop_eq_nil_of_le (by rw [← hs.count]; omega), List.nil_append]
    have hready : Ready parts iqIndex query
        { ei with currentEdgeIndex := ei.currentEdgeIndex + 1, it := it' } l :=
      ⟨hpositioned, suffix_tail hs.suffix, hs.notDone, hs.names, hs.tuned⟩
    rw [if_neg hmore, ofResult_bind_ok hit, hlast]
    exact initIfValid_ok hanswers hcatalog hfiled h hroom hasked hready

/-- What the iterator gives of an edge: its other end, its time and the values under the names. -/
structure Gives (names : List Text) (x : NLEdge T (AttributeData schema)) (found : Found T schema) :
    Prop where
  toVertex : found.toVertex = x.toVertex
  time : found.time = x.time
  data : AttributeData.Tells names x.data.val found.data

/-- The iterator gives what is left, one edge after the other. -/
theorem results_ok (hanswers : AnswersSlices Ok parts) (hcatalog : Cataloged iqIndex fiqIndex)
    (hfiled : Filed parts stored blocks iqIndex) {fuel : Nat}
    {todo : List (NLEdge T (AttributeData schema))} (hfuel : todo.length ≤ fuel)
    (hremains : Remains parts blocks iqIndex query ei todo)
    (h : Held Ok parts Block.ComesBack stored g) (hroom : 1 ≤ g.bman.blockBufferSize)
    (hasked : Askable schema parts g.metaData.schemaStats query.attributeNames.dedup) :
    ∃ found g', results ω fuel ei g = .ok found g' ∧
      List.Forall₂ (Gives query.attributeNames.dedup) todo found ∧
      Held Ok parts Block.ComesBack stored g' ∧ ReadOnly g g' := by
  induction todo generalizing ei g fuel with
  | nil =>
      rcases hremains with ⟨hvalid, -⟩ | ⟨e, l, x, hs, htodo⟩
      · refine ⟨[], g, ?_, .nil, h, ReadOnly.refl g⟩
        unfold results
        rw [hvalid]
        rfl
      · rw [hs.pending_eq_cons] at htodo
        cases htodo
  | cons y todo ih =>
      rcases hremains with ⟨-, hnil⟩ | ⟨e, l, x, hs, htodo⟩
      · cases hnil
      · rw [hs.pending_eq_cons, List.cons.injEq] at htodo
        obtain ⟨rfl, rfl⟩ := htodo
        obtain ⟨hmem, -, -⟩ := mem_of_suffix hs.suffix
        obtain ⟨fuel, rfl⟩ : ∃ n, fuel = n + 1 := Nat.exists_eq_succ_of_ne_zero (by
          rw [List.length_cons] at hfuel
          omega)
        obtain ⟨x', g₁, hedge, hto, htime, hheld₁, hread₁⟩ :=
          getEdge_ok ei hanswers.toAnswers hfiled hmem h hroom hs.here
        obtain ⟨data, g₂, hdata, htells, hheld₂, hread₂⟩ := hs.getEdgeData_ok hanswers.toAnswers hfiled
          hheld₁ (by rw [hread₁.blockBufferSize]; exact hroom) (by rw [hread₁.metaData]; exact hasked)
        have hread₂ := hread₁.trans hread₂
        obtain ⟨ei', g₃, hnext, hremains', hheld₃, hread₃⟩ := hs.next_ok (ω := ω) hanswers hcatalog
          hfiled hheld₂ (by rw [hread₂.blockBufferSize]; exact hroom)
          (by rw [hread₂.metaData]; exact hasked)
        have hread₃ := hread₂.trans hread₃
        obtain ⟨found, g₄, hrest, hgives, hheld₄, hread₄⟩ := ih (Nat.le_of_succ_le_succ hfuel)
          hremains' hheld₃ (by rw [hread₃.blockBufferSize]; exact hroom)
          (by rw [hread₃.metaData]; exact hasked)
        refine ⟨⟨x'.toVertex, x'.time, data⟩ :: found, g₄, ?_, .cons ⟨hto, htime, htells⟩ hgives,
          hheld₄, hread₃.trans hread₄⟩
        unfold results
        rw [hs.valid? hfiled]
        dsimp only
        rw [run_bind_ok hedge, run_bind_ok hdata, run_bind_ok hnext, run_bind_ok hrest]
        rfl

/-- Lists that end before the range have no edge in it. -/
theorem inRange_filter {T : Type} [LinearOrder T] [BlockTime T] {parts : T → Option Partitioning}
    {stored blocks : BlockId → Option (Block T (AttributeData schema))}
    {iqIndex : List (IntervalData T)} {query : FocusedIntervalQuery T}
    (hfiled : Filed parts stored blocks iqIndex) (l : List (IntervalData T))
    (hl : ∀ e ∈ l, e ∈ iqIndex) :
    inRange query ((l.filter fun e => query.startTime ≤ e.intervalEnd).flatMap (edgesOf blocks))
      = inRange query (l.flatMap (edgesOf blocks)) := by
  induction l with
  | nil => rfl
  | cons e l ih =>
      have ih := ih fun e' he' => hl e' (List.mem_cons_of_mem _ he')
      unfold inRange at ih ⊢
      rw [List.flatMap_cons, List.filter_append, ← ih]
      by_cases hle : query.startTime ≤ e.intervalEnd
      · rw [List.filter_cons_of_pos (by simpa using hle), List.flatMap_cons, List.filter_append]
      · have hnone : (edgesOf blocks e).filter
            (fun x => query.startTime ≤ x.time ∧ x.time < query.endTime) = [] := by
          refine List.filter_eq_nil_iff.mpr ?_
          intro x hx
          have hbefore := ((hfiled.edges (hl e List.mem_cons_self)).2.2.1 x hx).2
          rw [decide_eq_true_eq]
          exact fun hc => hle (le_trans hc.1 hbefore)
        rw [List.filter_cons_of_neg (by simpa using hle), hnone, List.nil_append]

/-- **A focused query gives the edges of its vertex in its range**, in the order of time, each with
the values under the names asked for, and changes nothing but the cache. -/
theorem focusedIntervalQuery_exact [WrittenInOrder T] (hanswers : AnswersSlices Ok parts)
    (h : Held Ok parts Block.ComesBack stored g) (hroom : 1 ≤ g.bman.blockBufferSize)
    (hcatalog : Cataloged g.iqIndex g.fiqIndex) (hfiled : Filed parts stored blocks g.iqIndex)
    (hstart : BlockTime.zero ≤ query.startTime)
    (hasked : Askable schema parts g.metaData.schemaStats query.attributeNames.dedup)
    {fuel : Nat}
    (hfuel : (inRange query (edgesFor blocks g.iqIndex query.headVertex)).length ≤ fuel) :
    ∃ found g', focusedIntervalQuery ω query fuel g = .ok found g' ∧
      List.Forall₂ (Gives query.attributeNames.dedup)
        (inRange query (edgesFor blocks g.iqIndex query.headVertex)) found ∧
      Held Ok parts Block.ComesBack stored g' ∧ ReadOnly g g' := by
  obtain ⟨it, hit, hpositioned⟩ :=
    Iterator.new_ok hcatalog query.headVertex hstart query.endTime
  have hready : Ready parts g.iqIndex query
      { done := false, currentEdgeIndex := 0, currentNumEdges := 0, partitioning := .new,
        partitionIndices := [], it := it, queryAttributes := query.attributeNames.dedup }
      (reached g.iqIndex query) :=
    ⟨hpositioned, List.suffix_refl _, rfl, rfl, fun hne => absurd rfl hne⟩
  obtain ⟨ei, g₁, hinit, hremains, hheld₁, hread₁⟩ :=
    initIfValid_ok (ω := ω) hanswers hcatalog hfiled h hroom hasked hready
  have hrange : inRange query ((reached g.iqIndex query).flatMap (edgesOf blocks))
      = inRange query (edgesFor blocks g.iqIndex query.headVertex) :=
    inRange_filter hfiled _ fun e he => (mem_entriesFor.mp he).1
  rw [hrange] at hremains
  obtain ⟨found, g₂, hresults, hgives, hheld₂, hread₂⟩ := results_ok (ω := ω) hanswers hcatalog hfiled
    hfuel hremains hheld₁ (by rw [hread₁.blockBufferSize]; exact hroom)
    (by rw [hread₁.metaData]; exact hasked)
  refine ⟨found, g₂, ?_, hgives, hheld₂, hread₁.trans hread₂⟩
  have hnew : EdgeIterator.new ω query g = .ok ei g₁ := by
    unfold EdgeIterator.new
    rw [get_bind, ofResult_bind_ok hit]
    exact hinit
  unfold focusedIntervalQuery
  rw [run_bind_ok hnew, hresults]

end Left

end HistoricalGraph.EdgeIterator

end RailwayDB
