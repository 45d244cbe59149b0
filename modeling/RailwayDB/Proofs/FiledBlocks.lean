/-
Storing a block files its edges.

A block whose lists are fronts of what a history has of its vertices is as the code
builds one, but for the running count of its bytes, which nothing on the way to the
store reads.  Once it is stored every list has its entry, the record of the entry and
a master block with the sub-blocks of the parts, so a focused query finds the edges
after those its vertices had.
-/
import RailwayDB.Proofs.BlockIds
import RailwayDB.Proofs.FocusedQuery
import RailwayDB.Proofs.IntervalQuery
import RailwayDB.Proofs.Pipeline
import RailwayDB.Proofs.ReplaceBlocks

namespace RailwayDB

open Storage BlockManager FocusedIntervalQueryIndex

variable {P T : Type} {schema : Schema} [LinearOrder T]

/-! ### Blocks cut from a history -/

namespace Block

variable {block : Block T (AttributeData schema)}

/-- What the edges of a block have to do with what was added. -/
structure CutFrom (es : List (GraphEdge T (AttributeData schema)))
    (block : Block T (AttributeData schema)) : Prop where
  lists : ListsOK block.neigs
  mem : ∀ w, ∀ x ∈ block.neigs.edges w, x ∈ incident w es
  sorted : ∀ w, (block.neigs.edges w).Pairwise fun x y => x.time < y.time

theorem CutFrom.mono {es : List (GraphEdge T (AttributeData schema))} (h : CutFrom es block)
    (more : List (GraphEdge T (AttributeData schema))) : CutFrom (es ++ more) block := by
  refine ⟨h.lists, ?_, h.sorted⟩
  intro w x hx
  rw [incident_append]
  exact List.mem_append_left _ (h.mem w x hx)

theorem CutFrom.counted {es : List (GraphEdge T (AttributeData schema))} (h : CutFrom es block)
    (size : Nat) : CutFrom es (block.counted size) := ⟨h.lists, h.mem, h.sorted⟩

/-- The data of the edge added at a time. -/
def dataOf (es : List (GraphEdge T (AttributeData schema))) (t : T) :
    SharedPtr (AttributeData schema) :=
  match es.find? fun e => e.time = t with
  | some e => e.data
  | none => ⟨0, .empty schema⟩

theorem dataOf_eq {es : List (GraphEdge T (AttributeData schema))} (hes : History es)
    {w : VertexId} {x : NLEdge T (AttributeData schema)} (hx : x ∈ incident w es) :
    dataOf es x.time = x.data := by
  obtain ⟨e, he, hat⟩ := mem_incident.mp hx
  obtain ⟨htime, hdata⟩ := GraphEdge.at?_time hat
  unfold dataOf
  cases hfind : es.find? fun e => e.time = x.time with
  | none =>
      rw [List.find?_eq_none] at hfind
      exact absurd (decide_eq_true htime.symm) (hfind e he)
  | some e' =>
      have htime' : e'.time = x.time := by simpa using List.find?_some hfind
      have heq : e' = e := hes.eq_of_time (List.mem_of_find?_eq_some hfind) he (htime'.trans htime)
      rw [heq]
      exact hdata.symm

/-- A block cut from a history is formed, with the right count. -/
theorem CutFrom.formed {es : List (GraphEdge T (AttributeData schema))} (h : CutFrom es block)
    (hes : History es) : ∃ size, (block.counted size).Formed := by
  refine exists_formed h.lists ⟨?_, ?_⟩ ?_
  · intro v
    exact List.pairwise_map.mpr ((h.sorted v).imp fun hlt => hlt.le)
  · intro v
    refine List.pairwise_map.mpr ((h.sorted v).imp ?_)
    intro x y hlt heq
    exact absurd (Prod.mk.inj heq).2 hlt.ne
  · intro v w e he e' he' htrip
    have htime : e.time = e'.time := (EdgeTriplet.of_eq_of.mp htrip).1
    rw [← dataOf_eq hes (h.mem v e he), ← dataOf_eq hes (h.mem w e' he'), htime]

variable [Timestamp T] [BlockTime T]

/-- A block may be looked up at its middle: between any two times, or of a block without edges. -/
structure Sliced (Asked : T → Prop) (times : List T) : Prop where
  finite : ∀ a ∈ times, a ≤ BlockTime.maxValue
  none : Asked (BlockTime.midpoint BlockTime.maxValue BlockTime.zero)
  pair : ∀ a ∈ times, ∀ b ∈ times, a ≤ b → Asked (BlockTime.midpoint a b)

theorem Sliced.left {T : Type} [LinearOrder T] [BlockTime T] {Asked : T → Prop}
    {times more : List T} (h : Sliced Asked (times ++ more)) :
    Sliced Asked times :=
  ⟨fun a ha => h.finite a (List.mem_append_left _ ha), h.none,
    fun a ha b hb => h.pair a (List.mem_append_left _ ha) b (List.mem_append_left _ hb)⟩

/-- The time a block cut from a history is filed under. -/
theorem CutFrom.asked {T : Type} [LinearOrder T] {block : Block T (AttributeData schema)}
    [BlockTime T] {es : List (GraphEdge T (AttributeData schema))} (h : CutFrom es block)
    {Asked : T → Prop} (hpos : ∀ e ∈ es, BlockTime.zero < e.time)
    (hsliced : Sliced Asked (es.map GraphEdge.time)) {t : T}
    (ht : block.getPartitioningTimestamp = .ok t) : Asked t := by
  have htime : ∀ w, ∀ x ∈ block.neigs.edges w, x.time ∈ es.map GraphEdge.time := by
    intro w x hx
    obtain ⟨e, he, hat⟩ := mem_incident.mp (h.mem w x hx)
    rw [(GraphEdge.at?_time hat).1]
    exact List.mem_map_of_mem he
  obtain ⟨mn, mx, hfind, hleast, hgreatest⟩ := findMinMaxTimestamps_ok h.lists
  unfold getPartitioningTimestamp at ht
  rw [hfind] at ht
  rw [← Except.ok.inj ht]
  dsimp only
  by_cases hempty : ∀ w, block.neigs.edges w = []
  · have hnone : ∀ f : List (NLEdge T (AttributeData schema)) → Option _, f [] = none →
        block.endTimes f = ∅ := by
      intro f hf
      refine Set.eq_empty_iff_forall_notMem.mpr ?_
      rintro t ⟨v, e, he, -⟩
      rw [hempty v, hf] at he
      cases he
    have hmn := hleast.1
    have hmx := hgreatest.1
    rw [hnone _ rfl, Set.union_empty] at hmn hmx
    rw [show mn = BlockTime.maxValue from hmn, show mx = BlockTime.zero from hmx]
    exact hsliced.none
  · rw [not_forall] at hempty
    obtain ⟨w, hw⟩ := hempty
    -- The list of some vertex lies between the two times.
    have hhead := List.head?_eq_some_head hw
    have hlast := List.getLast?_eq_some_getLast hw
    have hsorted : (ends (block.neigs.edges w)).Pairwise fun p q => p.2 ≤ q.2 :=
      List.pairwise_map.mpr ((h.sorted w).imp fun hlt => hlt.le)
    have hmid := (times_between hsorted hhead hlast _ (List.head_mem hw)).2
    have hle : mn ≤ ((block.neigs.edges w).head hw).time :=
      hleast.2 (Or.inr ⟨w, _, hhead, rfl⟩)
    have hge : ((block.neigs.edges w).getLast hw).time ≤ mx :=
      hgreatest.2 (Or.inr ⟨w, _, hlast, rfl⟩)
    have hmn : mn ∈ es.map GraphEdge.time := by
      rcases hleast.1 with hmax | ⟨v, e, he, rfl⟩
      · have hmax' : mn = BlockTime.maxValue := hmax
        have heq := le_antisymm hle (by rw [hmax']; exact hsliced.finite _ (htime w _ (List.head_mem hw)))
        rw [heq]
        exact htime w _ (List.head_mem hw)
      · exact htime v e (List.mem_of_head? he)
    have hmx : mx ∈ es.map GraphEdge.time := by
      rcases hgreatest.1 with hzero | ⟨v, e, he, rfl⟩
      · have hzero' : mx = BlockTime.zero := hzero
        rw [hzero'] at hge
        obtain ⟨e, he, heq⟩ := List.mem_map.mp (htime w _ (List.getLast_mem hw))
        rw [← heq] at hge
        exact absurd (hpos e he) (not_lt.mpr hge)
      · exact htime v e (List.mem_of_getLast? he)
    exact hsliced.pair mn hmn mx hmx (hle.trans (hmid.trans hge))

variable [SliceIndex P T]

/-- Nothing on the way to the store reads the count. -/
theorem addBlock_counted (block : Block T (AttributeData schema)) (size : Nat) :
    (HistoricalGraph.addBlock (block.counted size) : Storage P T schema Unit)
      = HistoricalGraph.addBlock block := rfl

end Block

/-! ### The records -/

section Records

variable [Timestamp T] [BlockTime T]

theorem mem_putRecords {T : Type} [LinearOrder T] [Timestamp T]
    {db : SortedMap (List Byte) (List Byte)} {added : List (IntervalData T)}
    {p : List Byte × List Byte} (h : p ∈ (putRecords db added).entries) :
    p ∈ db.entries ∨ ∃ e ∈ added, p = record e := by
  induction added generalizing db with
  | nil => exact Or.inl h
  | cons e added ih =>
      rcases ih h with hin | ⟨e', he', rfl⟩
      · rcases SortedMap.mem_insert_iff.mp hin with rfl | ⟨hin, -⟩
        · exact Or.inr ⟨e, List.mem_cons_self, rfl⟩
        · exact Or.inl hin
      · exact Or.inr ⟨e', List.mem_cons_of_mem _ he', rfl⟩

variable {iqIndex added : List (IntervalData T)} {fiqIndex : SortedMap (List Byte) (List Byte)}
  {block : Block T (AttributeData schema)}

theorem Cataloged.nil : Cataloged ([] : List (IntervalData T)) .empty :=
  ⟨Apart.nil _, fun _ hp => (List.not_mem_nil hp).elim, fun _ he => (List.not_mem_nil he).elim⟩

/-- **A block whose lists come after those of their vertices is cataloged.** -/
theorem Cataloged.store (h : Cataloged iqIndex fiqIndex) (hentries : EntriesOf block added)
    (hsorted : ∀ w, (block.neigs.edges w).Pairwise fun x y => x.time < y.time)
    (hlater : ∀ e ∈ iqIndex, ∀ x ∈ block.neigs.edges e.vertex, e.intervalEnd < x.time)
    (hnonneg : ∀ w, ∀ x ∈ block.neigs.edges w, BlockTime.zero ≤ x.time) :
    Cataloged (iqIndex ++ added) (putRecords fiqIndex added) := by
  refine ⟨h.apart.store hentries hsorted hlater, ?_, ?_⟩
  · intro p hp
    rcases mem_putRecords hp with hp | ⟨e, he, rfl⟩
    · obtain ⟨e, he, rfl⟩ := h.only p hp
      exact ⟨e, List.mem_append_left _ he, rfl⟩
    · exact ⟨e, List.mem_append_right _ he, rfl⟩
  · intro e he
    rcases List.mem_append.mp he with he | he
    · exact h.nonneg e he
    · obtain ⟨-, x, hx, htime⟩ := hentries.mem he
      rw [← htime]
      exact hnonneg e.vertex x hx

end Records

/-! ### The entries of a block -/

section Entries

variable [Timestamp T] [BlockTime T] [SliceIndex P T]

open IntervalQueryIndex

theorem entriesFor_append {T : Type} (l l' : List (IntervalData T)) (v : VertexId) :
    entriesFor (l ++ l') v = entriesFor l v ++ entriesFor l' v :=
  List.filter_append ..

theorem entriesFor_eq_nil {T : Type} {l : List (IntervalData T)} {v : VertexId}
    (h : v ∉ l.map IntervalData.vertex) : entriesFor l v = [] := by
  refine List.filter_eq_nil_iff.mpr ?_
  intro e he hv
  exact h (List.mem_map.mpr ⟨e, he, of_decide_eq_true hv⟩)

theorem entriesFor_eq_singleton {T : Type} {l : List (IntervalData T)} {v : VertexId}
    (honce : (l.map IntervalData.vertex).Nodup) {e : IntervalData T} (he : e ∈ l)
    (hv : e.vertex = v) : entriesFor l v = [e] := by
  obtain ⟨front, back, rfl⟩ := List.append_of_mem he
  rw [List.map_append, List.map_cons, List.nodup_append, List.nodup_cons] at honce
  obtain ⟨-, ⟨hback, -⟩, hfront⟩ := honce
  have hfront' : v ∉ front.map IntervalData.vertex := by
    intro hmem
    exact hfront v hmem v (by rw [hv]; exact List.mem_cons_self) rfl
  rw [hv] at hback
  rw [entriesFor_append, entriesFor_eq_nil hfront', List.nil_append]
  show (e :: back).filter _ = [e]
  rw [List.filter_cons_of_pos (by simpa using hv)]
  exact congrArg (e :: ·) (entriesFor_eq_nil hback)

/-- Each list of a block that is indexed has its entry, under the id of the block. -/
theorem entriesFor_intervals {T : Type} {master : Block T (AttributeData schema)}
    {added : List (IntervalData T)} (h : intervals master = .ok added) :
    (∀ e ∈ added, e.id = master.id) ∧ ∀ v,
      (v ∈ master.neigs → ∃ e ∈ added, e.vertex = v ∧ entriesFor added v = [e]) ∧
      (v ∉ master.neigs → entriesFor added v = []) := by
  have hvertices : added.map IntervalData.vertex = master.neigs.keys := map_vertex_intervals h
  have hnodup : (added.map IntervalData.vertex).Nodup := by
    rw [hvertices]
    exact master.neigs.keys_nodup
  refine ⟨?_, ?_⟩
  · intro e he
    obtain ⟨x, -, hinterval⟩ := (Except.mem_of_mapM h e).mp he
    exact (interval_eq_ok hinterval).1
  · intro v
    refine ⟨?_, ?_⟩
    · intro hmem
      rw [AList.mem_keys, ← hvertices] at hmem
      obtain ⟨e, he, hv⟩ := List.mem_map.mp hmem
      exact ⟨e, he, hv, entriesFor_eq_singleton hnodup he hv⟩
    · intro hnot
      rw [AList.mem_keys, ← hvertices] at hnot
      exact entriesFor_eq_nil hnot

/-- What a call that stored a block went through. -/
theorem addBlock_eq_ok {block : Block T (AttributeData schema)} {g g' : HistoricalGraph P T schema}
    (h : HistoricalGraph.addBlock block g = .ok () g') :
    ∃ first second others g₁ ids g₂ master g₃ added,
      onIndex block.partitionBlock g = .ok (first :: second :: others) g₁ ∧
      PartitionIndex.addSubBlocks (second :: others) g₁ = .ok ids g₂ ∧
      BlockManager.addBlock { first with subBlocks := first.subBlocks ++ ids } g₂
        = .ok master g₃ ∧
      intervals master = .ok added ∧ g' = { g₃ with
        iqIndex := g₃.iqIndex ++ added
        fiqIndex := putRecords g₃.fiqIndex added } := by
  obtain ⟨first, second, others, g₁, ids, g₂, master, g₃, hsplit, hsubs, hmaster, h⟩ :=
    Block.stores_of_addBlock h
  obtain ⟨_, g₄, hindex, h⟩ := run_bind_eq_ok.mp h
  have hdone := ends_indexBlock g₃ master
  rw [Ends, hindex] at hdone
  obtain ⟨added, hadded, rfl⟩ := hdone
  have hput := FocusedIntervalQueryIndex.indexLists_eq hadded
    { g₃ with iqIndex := g₃.iqIndex ++ added }
  have hput' : FocusedIntervalQueryIndex.indexLists master.id master.neigs.entries
      { g₃ with iqIndex := g₃.iqIndex ++ added } = .ok () g' := h
  rw [hput, EStateM.Result.ok.injEq] at hput'
  exact ⟨first, second, others, g₁, ids, g₂, master, g₃, added, hsplit, hsubs, hmaster,
    hadded, hput'.2.symm⟩

/-- A block that was added has the next id, and the store is another only there. -/
theorem addBlock_next {P T : Type} {schema : Schema} [LinearOrder T] [Timestamp T] [BlockTime T]
    {block added : Block T (AttributeData schema)}
    {g g' : HistoricalGraph P T schema} (h : BlockManager.addBlock block g = .ok added g') :
    added = { block with id := g.metaData.blockId } ∧
      g'.metaData.nextBlockId = g.metaData.nextBlockId + 1 ∧
      ∀ id ≠ g.metaData.blockId,
        g'.bman.db.find? (keyBytes id) = g.bman.db.find? (keyBytes id) := by
  have hadded : added = { block with id := g.metaData.blockId } := by
    have h' : (BlockManager.put { block with id := g.metaData.blockId } >>= fun _ =>
        (pure { block with id := g.metaData.blockId } : Storage P T schema _))
        { g with metaData := { g.metaData with nextBlockId := g.metaData.nextBlockId + 1 } }
          = .ok added g' := h
    obtain ⟨_, g₁, -, hdone⟩ := run_bind_eq_ok.mp h'
    exact ((EStateM.Result.ok.injEq ..).mp hdone).1.symm
  obtain ⟨hnext, data, hbman⟩ := (ends_addBlock g block).of_ok h
  refine ⟨hadded, hnext, ?_⟩
  intro id hne
  rw [hbman]
  show (g.bman.db.insert _ data).find? _ = _
  rw [SortedMap.find?_insert, if_neg fun heq => hne (keyBytes_injective heq)]

/-- The ids of sub-blocks that were added are the next ones. -/
theorem addSubBlocks_next {P T : Type} {schema : Schema} [LinearOrder T] [Timestamp T]
    [BlockTime T] {subs : List (Block T (AttributeData schema))} {ids : List BlockId}
    {g g' : HistoricalGraph P T schema} (h : PartitionIndex.addSubBlocks subs g = .ok ids g') :
    g'.metaData.nextBlockId = g.metaData.nextBlockId + subs.length ∧
      ids = PartitionIndex.nextIds g.metaData.nextBlockId subs.length ∧
      ∀ id ∉ ids, g'.bman.db.find? (keyBytes id) = g.bman.db.find? (keyBytes id) := by
  induction subs generalizing g ids with
  | nil =>
      obtain ⟨rfl, rfl⟩ := (EStateM.Result.ok.injEq ..).mp h
      exact ⟨rfl, rfl, fun _ _ => rfl⟩
  | cons sub subs ih =>
      unfold PartitionIndex.addSubBlocks at h
      obtain ⟨added, g₁, hadd, h⟩ := run_bind_eq_ok.mp h
      obtain ⟨rest, g₂, hrest, hdone⟩ := run_bind_eq_ok.mp h
      obtain ⟨rfl, rfl⟩ := (EStateM.Result.ok.injEq ..).mp hdone
      obtain ⟨hadded, hnext₁, hother₁⟩ := addBlock_next hadd
      obtain ⟨hnext, hids, hother⟩ := ih hrest
      have hid : added.id = g.metaData.blockId := by rw [hadded]
      refine ⟨by rw [hnext, hnext₁, List.length_cons]; omega, ?_, ?_⟩
      · unfold PartitionIndex.nextIds at hids ⊢
        rw [List.length_cons, List.range_succ_eq_map, List.map_cons, List.map_map, hids, hid, hnext₁]
        refine congrArg₂ _ rfl (List.map_congr_left fun i _ => ?_)
        show Fin.ofNat (2 ^ 64) (g.metaData.nextBlockId + 1 + i)
          = Fin.ofNat (2 ^ 64) (g.metaData.nextBlockId + (i + 1))
        rw [Nat.add_right_comm, Nat.add_assoc]
      · intro id hnot
        rw [List.mem_cons, not_or, hid] at hnot
        rw [hother id hnot.2, hother₁ id hnot.1]

end Entries

/-! ### The blocks of an entry -/

section Families

variable {stored stored' : BlockId → Option (Block T (AttributeData schema))}
  {iqIndex added : List (IntervalData T)}

/-- A block and its sub-blocks. -/
def family (stored : BlockId → Option (Block T (AttributeData schema))) (id : BlockId) :
    List BlockId :=
  id :: ((stored id).map Block.subBlocks).getD []

theorem family_eq {T : Type} {stored : BlockId → Option (Block T (AttributeData schema))}
    {id : BlockId} {master : Block T (AttributeData schema)} (h : stored id = some master) :
    family stored id = id :: master.subBlocks := by
  unfold family
  rw [h]
  rfl

theorem mem_family_self {T : Type} {stored : BlockId → Option (Block T (AttributeData schema))}
    (id : BlockId) : id ∈ family stored id := List.mem_cons_self

/-- The blocks of one entry are those of no other, and a block that is no entry's has no edge. -/
structure Families (stored : BlockId → Option (Block T (AttributeData schema)))
    (iqIndex : List (IntervalData T)) : Prop where
  nodup : ∀ e ∈ iqIndex, (family stored e.id).Nodup
  disjoint : ∀ e ∈ iqIndex, ∀ e' ∈ iqIndex, e.id ≠ e'.id →
    (family stored e.id).Disjoint (family stored e'.id)
  owned : ∀ id block, stored id = some block → (∃ w, block.neigs.edges w ≠ []) →
    ∃ e ∈ iqIndex, id ∈ family stored e.id

theorem Families.nil {T : Type} :
    Families (fun _ => none : BlockId → Option (Block T (AttributeData schema))) [] :=
  ⟨fun _ he => (List.not_mem_nil he).elim, fun _ he => (List.not_mem_nil he).elim,
    fun _ _ hb => absurd hb (Option.some_ne_none _).symm⟩

/-- Blocks under new ids are a family of their own. -/
theorem Families.store {T : Type}
    {stored stored' : BlockId → Option (Block T (AttributeData schema))}
    {iqIndex added : List (IntervalData T)} (h : Families stored iqIndex)
    (hthere : ∀ e ∈ iqIndex, ∀ id ∈ family stored e.id, stored id ≠ none)
    {master : Block T (AttributeData schema)} {id : BlockId} (hmaster : stored' id = some master)
    (hnodup : (id :: master.subBlocks).Nodup) (hnew : ∀ i ∈ id :: master.subBlocks, stored i = none)
    (hother : ∀ i ∉ id :: master.subBlocks, stored' i = stored i) (hids : ∀ e ∈ added, e.id = id)
    (hedges : ∀ i ∈ id :: master.subBlocks, ∀ block, stored' i = some block →
      (∃ w, block.neigs.edges w ≠ []) → added ≠ []) : Families stored' (iqIndex ++ added) := by
  have hnewFamily : family stored' id = id :: master.subBlocks := family_eq hmaster
  have hapart : ∀ e ∈ iqIndex, (family stored e.id).Disjoint (id :: master.subBlocks) :=
    fun e he i hi hi' => hthere e he i hi (hnew i hi')
  have hold : ∀ e ∈ iqIndex, family stored' e.id = family stored e.id := by
    intro e he
    unfold family
    rw [hother e.id fun hin => hapart e he (mem_family_self e.id) hin]
  refine ⟨?_, ?_, ?_⟩
  · intro e he
    rcases List.mem_append.mp he with he | he
    · rw [hold e he]
      exact h.nodup e he
    · rw [hids e he, hnewFamily]
      exact hnodup
  · intro e he e' he' hne
    rcases List.mem_append.mp he with he | he
    · rw [hold e he]
      rcases List.mem_append.mp he' with he' | he'
      · rw [hold e' he']
        exact h.disjoint e he e' he' hne
      · rw [hids e' he', hnewFamily]
        exact hapart e he
    · rw [hids e he, hnewFamily]
      rcases List.mem_append.mp he' with he' | he'
      · rw [hold e' he']
        exact (hapart e' he').symm
      · exact absurd ((hids e he).trans (hids e' he').symm) hne
  · intro i block hblock hnonempty
    by_cases hi : i ∈ id :: master.subBlocks
    · obtain ⟨e, he⟩ := List.exists_mem_of_ne_nil _ (hedges i hi block hblock hnonempty)
      refine ⟨e, List.mem_append_right _ he, ?_⟩
      rw [hids e he, hnewFamily]
      exact hi
    · rw [hother i hi] at hblock
      obtain ⟨e, he, hin⟩ := h.owned i block hblock hnonempty
      refine ⟨e, List.mem_append_left _ he, ?_⟩
      rw [hold e he]
      exact hin

end Families

/-! ### Storing a block -/

section Store

variable [Timestamp T] [BlockTime T] [SliceIndex P T]

/-- The slices in force: what a lookup gives at a time it may be asked for, and that their parts are
sets of names of the schema. -/
structure Governs (schema : Schema) (Ok : P → Prop) (parts : T → Option Partitioning)
    (Asked : T → Prop) : Prop extends AnswersSlices Ok parts where
  only : ∀ idx t tpart idx', Ok idx → Asked t →
    SliceIndex.getTimeSlicedPartitioning idx t = .ok (tpart, idx') →
    parts t = some tpart.partitioning
  names : ∀ t part, parts t = some part → ∀ attributes ∈ part, schema.Has attributes
  length : ∀ t part, parts t = some part → part.length ≤ 2 ^ 31

/-- Every list of a block that is filed has an entry. -/
def ListsIndexed (blocks : BlockId → Option (Block T (AttributeData schema)))
    (iqIndex : List (IntervalData T)) : Prop :=
  ∀ e ∈ iqIndex, ∀ block, blocks e.id = some block → ∀ w, block.neigs.edges w ≠ [] →
    ∃ e' ∈ iqIndex, e'.id = e.id ∧ e'.vertex = w

/-- The stores and the indices have these blocks. -/
structure Files (Ok : P → Prop) (parts : T → Option Partitioning)
    (stored blocks : BlockId → Option (Block T (AttributeData schema)))
    (g : HistoricalGraph P T schema) : Prop where
  held : Held Ok parts Block.ComesBack stored g
  fresh : Block.FreshIds stored g
  catalog : Cataloged g.iqIndex g.fiqIndex
  filed : Filed parts stored blocks g.iqIndex
  families : Families stored g.iqIndex
  listed : ListsIndexed blocks g.iqIndex

variable {Ok : P → Prop} {parts : T → Option Partitioning} {Asked : T → Prop}
  {stored stored' blocks : BlockId → Option (Block T (AttributeData schema))}
  {g g' : HistoricalGraph P T schema} {block : Block T (AttributeData schema)} {id : BlockId}

/-- Blocks that are added do not touch those that are there. -/
theorem Block.StoredApart.mono {T : Type} [LinearOrder T] [BlockTime T]
    {parts : T → Option Partitioning}
    {stored stored' : BlockId → Option (Block T (AttributeData schema))}
    {block : Block T (AttributeData schema)} (h : block.StoredApart parts stored id)
    (hkeep : ∀ id b, stored id = some b → stored' id = some b) :
    block.StoredApart parts stored' id := by
  obtain ⟨hformed, hfull, master, t, part, hmaster, hpartition, hsubs, hends, htime, hpart,
    hparts⟩ := h
  refine ⟨hformed, hfull, master, t, part, hkeep _ _ hmaster, hpartition, hsubs, hends, htime, hpart,
    hparts.imp ?_⟩
  rintro i attributes ⟨sub, hsub, hedges⟩
  exact ⟨sub, hkeep _ _ hsub, hedges⟩

theorem edges_eq_nil {T : Type} {lists : NeighborListMap T (AttributeData schema)} {w : VertexId}
    (h : w ∉ lists) : lists.edges w = [] := by
  unfold NeighborListMap.edges
  rw [AList.lookup_eq_none.mpr h]
  rfl

theorem exists_storedPart {T : Type} {stored : BlockId → Option (Block T (AttributeData schema))}
    {block : Block T (AttributeData schema)} {ids : List BlockId} {part : Partitioning}
    (h : List.Forall₂ (Block.StoredPart block stored) ids part) :
    ∀ i ∈ ids, ∃ attributes, Block.StoredPart block stored i attributes := by
  induction h with
  | nil => exact fun i hi => (List.not_mem_nil hi).elim
  | cons hpart hrest ih =>
      intro i hi
      rcases List.mem_cons.mp hi with heq | hi
      · rw [heq]
        exact ⟨_, hpart⟩
      · exact ih i hi

/-- The blocks of an entry are there. -/
theorem Filed.there {T : Type} [LinearOrder T] [BlockTime T] {parts : T → Option Partitioning}
    {stored blocks : BlockId → Option (Block T (AttributeData schema))}
    {iqIndex : List (IntervalData T)} (h : Filed parts stored blocks iqIndex) :
    ∀ e ∈ iqIndex, ∀ i ∈ family stored e.id, stored i ≠ none := by
  intro e he i hi
  obtain ⟨block, -, happart, -⟩ := h e he
  obtain ⟨master, t, part, hmaster, -, -, -, -, -, hparts⟩ := happart.master
  rw [family_eq hmaster] at hi
  rcases List.mem_cons.mp hi with heq | hi
  · rw [heq, hmaster]
    exact Option.some_ne_none _
  · obtain ⟨attributes, sub, hsub, -⟩ := exists_storedPart hparts i hi
    rw [hsub]
    exact Option.some_ne_none _

/-- Where the store is the same, so is the block. -/
theorem stored_eq_of_find? {P : Type} {Ok : P → Prop} {g g' : HistoricalGraph P T schema}
    (h : Held Ok parts Block.ComesBack stored g) (h' : Held Ok parts Block.ComesBack stored' g')
    (hkeep : ∀ id b, stored id = some b → stored' id = some b)
    (hsame : g'.bman.db.find? (keyBytes id) = g.bman.db.find? (keyBytes id)) :
    stored' id = stored id := by
  cases hstored : stored id with
  | some b => exact hkeep id b hstored
  | none =>
      rw [h.absent id hstored] at hsame
      cases hstored' : stored' id with
      | none => rfl
      | some b =>
          rw [(h'.present id b hstored').1] at hsame
          cases hsame

theorem nodup_nextIds {next n : Nat} (h : next + n ≤ 2 ^ 64) :
    (PartitionIndex.nextIds next n).Nodup := by
  refine List.Nodup.map_on ?_ List.nodup_range
  intro i hi j hj heq
  rw [List.mem_range] at hi hj
  have hval := congrArg Fin.val heq
  rw [PartitionIndex.val_nextId (by omega), PartitionIndex.val_nextId (by omega)] at hval
  omega

theorem le_of_mem_nextIds {next n : Nat} (h : next + n ≤ 2 ^ 64) {i : BlockId}
    (hi : i ∈ PartitionIndex.nextIds next n) : next ≤ i.val := by
  obtain ⟨k, hk, rfl⟩ := List.mem_map.mp hi
  rw [List.mem_range] at hk
  rw [PartitionIndex.val_nextId (by omega)]
  omega

/-- A block with an edge has an entry. -/
theorem intervals_ne_nil {T : Type} {master : Block T (AttributeData schema)}
    {added : List (IntervalData T)} (h : IntervalQueryIndex.intervals master = .ok added)
    {w : VertexId} (hedges : master.neigs.edges w ≠ []) : added ≠ [] := by
  have hmem : w ∈ master.neigs := by
    by_contra hnot
    exact hedges (edges_eq_nil hnot)
  obtain ⟨e, he, -⟩ := ((entriesFor_intervals h).2 w).1 hmem
  exact List.ne_nil_of_mem he

/-- The slice a block was split by. -/
theorem partitionBlock_eq_ok {T : Type} [LinearOrder T] [BlockTime T] [SliceIndex P T]
    {block : Block T (AttributeData schema)} {idx idx' : P}
    {made : List (Block T (AttributeData schema))}
    (h : block.partitionBlock idx = .ok (made, idx')) :
    ∃ t tpart, block.getPartitioningTimestamp = .ok t ∧
      SliceIndex.getTimeSlicedPartitioning idx t = .ok (tpart, idx') ∧
      made.length = tpart.partitioning.length + 1 := by
  unfold Block.partitionBlock at h
  obtain ⟨t, ht, h⟩ := Except.bind_eq_ok.mp h
  obtain ⟨⟨tpart, idx₁⟩, hlookup, h⟩ := Except.bind_eq_ok.mp h
  obtain ⟨blocks, hsplit, h⟩ := Except.bind_eq_ok.mp h
  obtain ⟨rfl, rfl⟩ := Prod.mk.inj (Except.ok.inj h)
  refine ⟨t, tpart, ht, hlookup, ?_⟩
  unfold Block.partitionWith at hsplit
  obtain ⟨first, -, hsplit⟩ := Except.bind_eq_ok.mp hsplit
  obtain ⟨rest, hrest, hsplit⟩ := Except.bind_eq_ok.mp hsplit
  rw [← Except.ok.inj hsplit, List.length_cons, Except.length_of_mapM hrest, List.length_zipIdx]

theorem onIndex_eq_ok {T : Type} {g g' : HistoricalGraph P T schema} {α : Type}
    {x : P → Except Fault (α × P)} {a : α} (h : onIndex x g = .ok a g') :
    ∃ idx, x g.partIndex = .ok (a, idx) ∧ g' = { g with partIndex := idx } := by
  unfold onIndex at h
  rw [get_bind] at h
  cases hx : x g.partIndex with
  | error e =>
      rw [ofResult_bind_error hx] at h
      cases h
  | ok r =>
      rw [ofResult_bind_ok hx] at h
      obtain ⟨hr, hg⟩ := (EStateM.Result.ok.injEq ..).mp h
      exact ⟨r.2, by rw [← hr], hg.symm⟩

/-- The id of a block is that of a number no block has. -/
theorem Block.FreshIds.none_of_le {T : Type}
    {stored : BlockId → Option (Block T (AttributeData schema))} {g : HistoricalGraph P T schema}
    (h : Block.FreshIds stored g) (hle : g.metaData.nextBlockId ≤ id.val) :
    stored id = none := by
  by_contra hne
  exact absurd (h id hne) (not_lt.mpr hle)

/-- What the call that stores a block keeps, and the edges it files. -/
structure Adds (block : Block T (AttributeData schema))
    (blocks blocks' : BlockId → Option (Block T (AttributeData schema)))
    (g g' : HistoricalGraph P T schema) : Prop where
  filed : ∀ w, edgesFor blocks' g'.iqIndex w = edgesFor blocks g.iqIndex w ++ block.neigs.edges w
  blocks : ∀ e ∈ g'.iqIndex, ∀ b, blocks' e.id = some b →
    (e ∈ g.iqIndex ∧ blocks e.id = some b) ∨ ∃ size, b = block.counted size
  blockBufferSize : g'.bman.blockBufferSize = g.bman.blockBufferSize
  schemaStats : g'.metaData.schemaStats = g.metaData.schemaStats

/-- The entries of a block under a new id. -/
theorem edgesFor_store {T : Type} {blocks : BlockId → Option (Block T (AttributeData schema))}
    {block : Block T (AttributeData schema)} {master : Block T (AttributeData schema)}
    {iqIndex added : List (IntervalData T)} (hold : ∀ e ∈ iqIndex, e.id ≠ master.id)
    (hends : ∀ v, ends (master.neigs.edges v) = ends (block.neigs.edges v))
    (hadded : IntervalQueryIndex.intervals master = .ok added) (w : VertexId) :
    edgesFor (Function.update blocks master.id (some block)) (iqIndex ++ added) w
      = edgesFor blocks iqIndex w ++ block.neigs.edges w := by
  obtain ⟨hids, hentries⟩ := entriesFor_intervals hadded
  unfold edgesFor
  rw [entriesFor_append, List.flatMap_append]
  refine congrArg₂ _ ?_ ?_
  · refine List.flatMap_congr ?_
    intro e he
    unfold edgesOf
    rw [Function.update_of_ne (hold e (mem_entriesFor.mp he).1)]
  · by_cases hmem : w ∈ master.neigs
    · obtain ⟨e, he, hv, hone⟩ := (hentries w).1 hmem
      have hat : Function.update blocks master.id (some block) e.id = some block := by
        rw [hids e he, Function.update_self]
      rw [hone, List.flatMap_singleton, edgesOf_eq hat, hv]
    · have hnil : ends (block.neigs.edges w) = [] := by
        rw [← hends, edges_eq_nil hmem]
        rfl
      rw [(hentries w).2 hmem, ends_eq_nil.mp hnil]
      rfl

/-- The lists of a block under a new id have their entries. -/
theorem ListsIndexed.store {T : Type} {blocks : BlockId → Option (Block T (AttributeData schema))}
    {block : Block T (AttributeData schema)} {iqIndex added : List (IntervalData T)}
    (h : ListsIndexed blocks iqIndex) {master : Block T (AttributeData schema)}
    (hold : ∀ e ∈ iqIndex, e.id ≠ master.id)
    (hends : ∀ v, ends (master.neigs.edges v) = ends (block.neigs.edges v))
    (hadded : IntervalQueryIndex.intervals master = .ok added) :
    ListsIndexed (Function.update blocks master.id (some block)) (iqIndex ++ added) := by
  obtain ⟨hids, hentries⟩ := entriesFor_intervals hadded
  intro e he b hb w hw
  rcases List.mem_append.mp he with he | he
  · rw [Function.update_of_ne (hold e he)] at hb
    obtain ⟨e', he', hid, hv⟩ := h e he b hb w hw
    exact ⟨e', List.mem_append_left _ he', hid, hv⟩
  · rw [hids e he, Function.update_self, Option.some.injEq] at hb
    have hmem : w ∈ master.neigs := by
      by_contra hnot
      refine hw ?_
      rw [← ends_eq_nil, ← hb, ← hends, edges_eq_nil hnot]
      rfl
    obtain ⟨e', he', hv, -⟩ := (hentries w).1 hmem
    exact ⟨e', List.mem_append_right _ he', (hids e' he').trans (hids e he).symm, hv⟩

/-- The blocks of a new master are a family of their own. -/
theorem Files.families_store {P T : Type} {schema : Schema} [LinearOrder T] [Timestamp T]
    [BlockTime T] {Ok : P → Prop} {parts : T → Option Partitioning}
    {stored stored' blocks : BlockId → Option (Block T (AttributeData schema))}
    {g g' : HistoricalGraph P T schema} {block : Block T (AttributeData schema)}
    (h : Files Ok parts stored blocks g)
    (hheld : Held Ok parts Block.ComesBack stored' g')
    (hkeep : ∀ id b, stored id = some b → stored' id = some b)
    {subs : List (Block T (AttributeData schema))} {ids : List BlockId}
    {first master : Block T (AttributeData schema)} {g₁ g₂ : HistoricalGraph P T schema}
    (hbman : g₁.bman = g.bman) (hmeta : g₁.metaData = g.metaData)
    (hsubs : PartitionIndex.addSubBlocks subs g₁ = .ok ids g₂)
    (hmaster : BlockManager.addBlock first g₂ = .ok master g')
    (hroom : g'.metaData.nextBlockId ≤ 2 ^ 64) (hat : stored' master.id = some master)
    (hmids : master.subBlocks = ids)
    (hends : ∀ v, ends (master.neigs.edges v) = ends (block.neigs.edges v)) {part : Partitioning}
    (hparts : List.Forall₂ (Block.StoredPart block stored') ids part) {added : List (IntervalData T)}
    (hadded : IntervalQueryIndex.intervals master = .ok added) :
    Families stored' (g.iqIndex ++ added) := by
  obtain ⟨hsubsNext, hids, hsubsOther⟩ := addSubBlocks_next hsubs
  obtain ⟨hmasterEq, hmasterNext, hmasterOther⟩ := addBlock_next hmaster
  rw [hmeta] at hsubsNext hids
  have hid : master.id = Fin.ofNat (2 ^ 64) (g.metaData.nextBlockId + subs.length) := by
    rw [hmasterEq, ← hsubsNext]
    rfl
  have hval : master.id.val = g.metaData.nextBlockId + subs.length := by
    rw [hid]
    exact PartitionIndex.val_nextId (by omega)
  have hedges : ∀ i ∈ master.id :: master.subBlocks, ∀ b, stored' i = some b →
      ∀ w, b.neigs.edges w ≠ [] → master.neigs.edges w ≠ [] := by
    intro i hi b hb w hne
    rcases List.mem_cons.mp hi with heq | hi
    · rw [heq, hat, Option.some.injEq] at hb
      rw [hb]
      exact hne
    · rw [hmids] at hi
      obtain ⟨attributes, sub, hsub, hcontents⟩ := exists_storedPart hparts i hi
      rw [hsub, Option.some.injEq] at hb
      rw [Ne, ← ends_eq_nil, hends, ← Block.ends_of_contents (hcontents w), ends_eq_nil, hb]
      exact hne
  refine h.families.store h.filed.there hat ?_ ?_ ?_ (entriesFor_intervals hadded).1 ?_
  · rw [hmids, hid, hids]
    exact List.nodup_cons.mpr ⟨PartitionIndex.nextId_notMem (by omega), nodup_nextIds (by omega)⟩
  · intro i hi
    refine h.fresh.none_of_le ?_
    rcases List.mem_cons.mp hi with heq | hi
    · rw [heq, hval]
      omega
    · rw [hmids, hids] at hi
      exact le_of_mem_nextIds (by omega) hi
  · intro i hi
    rw [List.mem_cons, not_or, hmids] at hi
    refine stored_eq_of_find? h.held hheld hkeep ?_
    have hne : i ≠ g₂.metaData.blockId := by
      intro heq
      rw [heq] at hi
      exact hi.1 (by rw [hmasterEq])
    rw [hmasterOther i hne, hsubsOther i hi.2, hbman]
  · intro i hi b hb hne
    obtain ⟨w, hw⟩ := hne
    exact intervals_ne_nil hadded (hedges i hi b hb w hw)

/-- **A block whose edges come after those of their vertices is filed.** -/
theorem Files.store (hgoverns : Governs schema Ok parts Asked) (h : Files Ok parts stored blocks g)
    {es : List (GraphEdge T (AttributeData schema))} (hes : History es)
    (hfull : ∀ e ∈ es, e.data.val.Full) (hcut : block.CutFrom es)
    (hlater : ∀ e ∈ g.iqIndex, ∀ x ∈ block.neigs.edges e.vertex, e.intervalEnd < x.time)
    (hnonneg : ∀ w, ∀ x ∈ block.neigs.edges w, BlockTime.zero ≤ x.time)
    (hasked : ∀ t, block.getPartitioningTimestamp = .ok t → Asked t)
    (hrun : HistoricalGraph.addBlock block g = .ok () g')
    (hids : g'.metaData.nextBlockId ≤ 2 ^ 64) :
    ∃ stored' blocks', Files Ok parts stored' blocks' g' ∧ Adds block blocks blocks' g g' := by
  obtain ⟨size, hformed⟩ := hcut.formed hes
  have hdata : (block.counted size).FullData := by
    intro v e he
    obtain ⟨e', he', hat⟩ := mem_incident.mp (hcut.mem v e he)
    rw [(GraphEdge.at?_time hat).2]
    exact hfull e' he'
  rw [← Block.addBlock_counted block size] at hrun
  obtain ⟨first, second, others, g₁, ids, g₂, master, g₃, added, hsplit, hsubs, hmaster, hadded,
    hg'⟩ := addBlock_eq_ok hrun
  -- The slice the block was split by is the one in force at its time.
  obtain ⟨idx, hpb, hg₁⟩ := onIndex_eq_ok hsplit
  obtain ⟨t, tpart, htime, hlookup, hlength⟩ := partitionBlock_eq_ok hpb
  have hpart := hgoverns.only _ _ _ _ h.held.index (hasked t htime) hlookup
  have hnext : g₃.metaData.nextBlockId = g.metaData.nextBlockId + tpart.partitioning.length + 1 := by
    rw [(addBlock_next hmaster).2.1, (addSubBlocks_next hsubs).1, hg₁, ← Nat.succ.inj hlength]
  have hlast : g'.metaData.nextBlockId = g₃.metaData.nextBlockId := by rw [hg']
  obtain ⟨stored', hheld, hfresh, honly, hat, hpartition, hmids, hne, hends, hparts, hkeep⟩ :=
    Block.stored_blocks hgoverns.toAnswers h.held h.fresh hformed hdata htime hpart
      (hgoverns.names t _ hpart) (hgoverns.length t _ hpart) (by omega) (fun _ _ _ hb => hb) hsplit hsubs
      hmaster
  have hnone : stored master.id = none := by
    refine h.fresh.none_of_le ?_
    have hnext₂ := (addBlock_next hmaster).2.1
    rw [(addBlock_next hmaster).1]
    show _ ≤ g₂.metaData.nextBlockId % 2 ^ 64
    rw [Nat.mod_eq_of_lt (by omega)]
    omega
  have hold : ∀ e ∈ g.iqIndex, e.id ≠ master.id := by
    intro e he heq
    obtain ⟨b, -, hstored, -⟩ := h.filed e he
    obtain ⟨m, -, -, hm, -⟩ := hstored.master
    rw [heq, hnone] at hm
    cases hm
  have hentries := IntervalQueryIndex.entriesOf_intervals hends hadded
  have hiq : g'.iqIndex = g.iqIndex ++ added := by rw [hg', ← honly.iqIndex]
  have hfiq : g'.fiqIndex = putRecords g.fiqIndex added := by rw [hg', ← honly.fiqIndex]
  refine ⟨stored', Function.update blocks master.id (some (block.counted size)),
    ⟨?_, ?_, ?_, ?_, ?_, ?_⟩, ?_, ?_, ?_, ?_⟩
  · rw [hg']
    exact ⟨hheld.index, hheld.tidy, hheld.absent, hheld.present, hheld.cached⟩
  · rw [Block.FreshIds, hlast]
    exact hfresh
  · rw [hiq, hfiq]
    exact h.catalog.store hentries hcut.sorted hlater hnonneg
  · rw [hiq]
    intro e he
    rcases List.mem_append.mp he with he | he
    · obtain ⟨b, hb, hstored, hlists⟩ := h.filed e he
      refine ⟨b, ?_, hstored.mono hkeep, hlists⟩
      rw [Function.update_of_ne (hold e he), hb]
    · have hid := (entriesFor_intervals hadded).1 e he
      refine ⟨block.counted size, by rw [hid, Function.update_self], ⟨hformed, hdata, master, t,
        tpart.partitioning, ?_, hpartition, hne, hends, htime, hpart, ?_⟩, ?_⟩
      · rw [hid, hat]
      · rw [hmids]
        exact hparts
      · obtain ⟨oldest, newest, hhead, hnew, hstart, hstop⟩ := hentries.times e he
        exact ⟨⟨oldest, hhead, hstart⟩, newest, hnew, hstop⟩
  · rw [hiq]
    exact h.families_store hheld hkeep (by rw [hg₁]) (by rw [hg₁]) hsubs hmaster (by omega) hat hmids
      hends hparts hadded
  · rw [hiq]
    exact h.listed.store hold hends hadded
  · intro w
    rw [hiq]
    exact edgesFor_store hold hends hadded w
  · rw [hiq]
    intro e he b hb
    rcases List.mem_append.mp he with he | he
    · rw [Function.update_of_ne (hold e he)] at hb
      exact Or.inl ⟨he, hb⟩
    · rw [(entriesFor_intervals hadded).1 e he, Function.update_self, Option.some.injEq] at hb
      exact Or.inr ⟨size, hb.symm⟩
  · rw [hg']
    exact honly.blockBufferSize
  · rw [hg']
    exact honly.schemaStats

end Store

end RailwayDB
