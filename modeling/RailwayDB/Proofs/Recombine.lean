/-
Joining a block that was split.

`recombineBlock` walks over the edges of the master block and collects the data of
each from the sub-blocks, which it finds by the place of the edge in its list.  The
sub-blocks have the lists of the block that was split, so the place is right; what
they have of the data is what the wire kept of the attributes of their part.
-/
import RailwayDB.Core.HistoricalGraph
import RailwayDB.Core.IntervalQueryIndex
import RailwayDB.Proofs.BlockManager

namespace RailwayDB

open NetworkByteBuffer Storage

variable {P T : Type} {schema : Schema}

/-! ### The data of an edge -/

namespace AttributeData

/-- What the parts of a partitioning keep of some data, put together again. -/
def recombined (part : Partitioning) (data : AttributeData schema) : AttributeData schema :=
  part.foldl (fun acc attributes => acc.setAttributes (Block.picked attributes data).wire)
    (new schema)

/-- The parts have every attribute. -/
def Covers (schema : Schema) (part : Partitioning) : Prop :=
  ∀ i < schema.attributes.length, ∃ attributes ∈ part, ∃ name ∈ attributes,
    schema.getIndex name = .ok i

theorem find?_wire (data : AttributeData schema) (i : Nat) :
    data.wire.find? i = (data.find? i).map Value.wire := by
  apply Option.ext
  intro w
  rw [find?_eq_some, Option.map_eq_some_iff]
  show (i, w) ∈ data.fields.map (fun f => (f.1, f.2.wire)) ↔ _
  rw [List.mem_map]
  refine ⟨?_, ?_⟩
  · rintro ⟨f, hf, heq⟩
    obtain ⟨hi, hw⟩ := Prod.mk.inj heq
    exact ⟨f.2, find?_eq_some.mpr (by rw [← hi]; exact hf), hw⟩
  · rintro ⟨v, hv, hw⟩
    exact ⟨(i, v), find?_eq_some.mp hv, by rw [← hw]⟩

theorem find?_picked {data : AttributeData schema} (hfull : data.Full) {attributes : List Text}
    (hnames : schema.Has attributes) (i : Nat) :
    (Block.picked attributes data).find? i
      = if (∃ name ∈ attributes, schema.names.idxOf name = i) then data.find? i else none := by
  obtain ⟨target, sdata, -, hselect, -, hover, hfind⟩ := select_ok hnames hfull
  rw [Block.select_eq_picked hnames hfull, Except.ok.injEq] at hselect
  rw [hselect]
  split_ifs with hi
  · exact hfind i ((hover i).mpr hi)
  · rw [find?_eq_none, hover]
    exact hi

theorem mem_keys_new (i : Nat) : i ∈ (new schema).keys ↔ i < schema.attributes.length := by
  show i ∈ (schema.attributes.zipIdx.map fun a => (a.2, Value.ofType a.1.type)).map Prod.fst ↔ _
  rw [List.map_map]
  show i ∈ schema.attributes.zipIdx.map Prod.snd ↔ _
  rw [List.zipIdx_map_snd]
  simp

/-- A value that some part has is what the wire keeps, whatever the parts before and after it. -/
theorem find?_foldl_picked {data : AttributeData schema} (hfull : data.Full) {i : Nat}
    (hi : i < schema.attributes.length) (l : Partitioning) (acc : AttributeData schema)
    (hl : ∀ attributes ∈ l, schema.Has attributes) (hacc : acc.find? i ≠ none)
    (hor : (∃ attributes ∈ l, ∃ name ∈ attributes, schema.names.idxOf name = i) ∨
      acc.find? i = (data.find? i).map Value.wire) :
    (l.foldl (fun acc attributes => acc.setAttributes (Block.picked attributes data).wire)
      acc).find? i = (data.find? i).map Value.wire := by
  induction l generalizing acc with
  | nil =>
      rcases hor with ⟨attributes, hmem, -⟩ | hacc
      · simp at hmem
      · exact hacc
  | cons attributes l ih =>
      obtain ⟨old, hold⟩ := Option.ne_none_iff_exists'.mp hacc
      obtain ⟨value, hvalue⟩ : ∃ value, data.find? i = some value := by
        refine Option.ne_none_iff_exists'.mp ?_
        rw [Ne, find?_eq_none, not_not]
        exact (hfull.mem_keys i).mpr hi
      have hstep : (acc.setAttributes (Block.picked attributes data).wire).find? i
          = if (∃ name ∈ attributes, schema.names.idxOf name = i) then some value.wire
            else some old := by
        rw [find?_setAttributes, hold, find?_wire,
          find?_picked hfull (hl _ List.mem_cons_self)]
        split_ifs with hin
        · rw [hvalue]
          rfl
        · rfl
      rw [List.foldl_cons]
      refine ih _ (fun a ha => hl a (List.mem_cons_of_mem _ ha)) ?_ ?_
      · rw [hstep]
        split_ifs <;> simp
      · rw [hstep, hvalue]
        by_cases hin : ∃ name ∈ attributes, schema.names.idxOf name = i
        · rw [if_pos hin]
          exact Or.inr rfl
        · rw [if_neg hin]
          rcases hor with ⟨a, ha, hname⟩ | hacc'
          · rcases List.mem_cons.mp ha with heq | ha
            · rw [heq] at hname
              exact absurd hname hin
            · exact Or.inl ⟨a, ha, hname⟩
          · rw [hold, hvalue] at hacc'
            exact Or.inr hacc'

theorem keys_foldl_picked (l : Partitioning) (data acc : AttributeData schema) :
    (l.foldl (fun acc attributes => acc.setAttributes (Block.picked attributes data).wire)
      acc).keys = acc.keys := by
  induction l generalizing acc with
  | nil => rfl
  | cons attributes l ih => rw [List.foldl_cons, ih, keys_setAttributes]

/-- **Parts that cover the schema keep of every value what the wire keeps.** -/
theorem find?_recombined {data : AttributeData schema} (hfull : data.Full) {part : Partitioning}
    (hnames : ∀ attributes ∈ part, schema.Has attributes) (hcovers : Covers schema part) {i : Nat}
    (hi : i < schema.attributes.length) :
    (recombined part data).find? i = (data.find? i).map Value.wire := by
  have hnew : (new schema).find? i ≠ none := by
    rw [Ne, find?_eq_none, not_not, mem_keys_new]
    exact hi
  refine find?_foldl_picked hfull hi part (new schema) hnames hnew (Or.inl ?_)
  obtain ⟨attributes, hmem, name, hname, hidx⟩ := hcovers i hi
  refine ⟨attributes, hmem, name, hname, ?_⟩
  rw [getIndex_ok (hnames _ hmem name hname), Except.ok.injEq] at hidx
  exact hidx

theorem keys_recombined (part : Partitioning) (data : AttributeData schema) :
    (recombined part data).keys = (new schema).keys :=
  keys_foldl_picked part data (new schema)

/-- Put together again, data is what it was exactly when none of its texts is too long. -/
theorem recombined_same_iff {data : AttributeData schema} (hfull : data.Full) {part : Partitioning}
    (hnames : ∀ attributes ∈ part, schema.Has attributes) (hcovers : Covers schema part) :
    (∀ i, (recombined part data).find? i = data.find? i) ↔ data.Short := by
  refine ⟨?_, ?_⟩
  · intro h f hf
    have hfind : data.find? f.1 = some f.2 := find?_eq_some.mpr hf
    have hi := (hfull.mem_keys f.1).mp (List.mem_map_of_mem hf)
    have hsame := h f.1
    rw [find?_recombined hfull hnames hcovers hi, hfind, Option.map_some, Option.some.injEq] at hsame
    exact Value.wire_eq_self.mp hsame
  · intro h i
    by_cases hi : i < schema.attributes.length
    · rw [find?_recombined hfull hnames hcovers hi]
      cases hfind : data.find? i with
      | none => rfl
      | some v =>
          rw [Option.map_some, Value.wire_eq_self.mpr (h _ (find?_eq_some.mp hfind))]
    · have hnone : data.find? i = none := by
        rw [find?_eq_none, hfull.mem_keys]
        exact hi
      rw [hnone, find?_eq_none, keys_recombined, mem_keys_new]
      exact hi

end AttributeData

namespace Block

open BlockManager

variable [LinearOrder T] [Timestamp T] [BlockTime T] [SliceIndex P T]

/-! ### Storing the blocks of a partitioning -/

/-- The ids in use have all been handed out. -/
def FreshIds (stored : BlockId → Option (Block T (AttributeData schema)))
    (g : HistoricalGraph P T schema) : Prop :=
  ∀ id, stored id ≠ none → id.val < g.metaData.nextBlockId

variable {Ok : P → Prop} {parts : T → Option Partitioning}
  {R : Block T (AttributeData schema) → Block T (AttributeData schema) → Prop}
  {stored : BlockId → Option (Block T (AttributeData schema))} {g g' : HistoricalGraph P T schema}

/-- What a call that only adds blocks leaves alone. -/
structure AddsOnly (g g' : HistoricalGraph P T schema) : Prop where
  blockBufferSize : g'.bman.blockBufferSize = g.bman.blockBufferSize
  iqIndex : g'.iqIndex = g.iqIndex
  fiqIndex : g'.fiqIndex = g.fiqIndex
  schemaStats : g'.metaData.schemaStats = g.metaData.schemaStats

theorem AddsOnly.trans {T : Type} {g g' g'' : HistoricalGraph P T schema} (h : AddsOnly g g')
    (h' : AddsOnly g' g'') : AddsOnly g g'' :=
  ⟨h'.blockBufferSize.trans h.blockBufferSize, h'.iqIndex.trans h.iqIndex,
    h'.fiqIndex.trans h.fiqIndex, h'.schemaStats.trans h.schemaStats⟩

theorem blockId_val {meta_ : MetaDataManager} (h : meta_.nextBlockId < 2 ^ 64) :
    meta_.blockId.val = meta_.nextBlockId := by
  unfold MetaDataManager.blockId
  rw [Fin.val_ofNat, Nat.mod_eq_of_lt h]

/-- A block that was added has an id of its own. -/
theorem addBlock_of_ok {P : Type} {Ok : P → Prop} {g g' : HistoricalGraph P T schema}
    (h : Held Ok parts R stored g) (hfresh : FreshIds stored g)
    (hroom : g.metaData.nextBlockId < 2 ^ 64) {block added : Block T (AttributeData schema)}
    (hlaid : LaidBy parts block)
    (hcomes : ∀ id block', ComesBack { block with id := id } block' →
      R { block with id := id } block') (hrun : BlockManager.addBlock block g = .ok added g') :
    added = { block with id := added.id } ∧ stored added.id = none ∧
      Held Ok parts R (Function.update stored added.id (some added)) g' ∧
      FreshIds (Function.update stored added.id (some added)) g' ∧ AddsOnly g g' ∧
      g'.metaData.nextBlockId = g.metaData.nextBlockId + 1 ∧ g'.partIndex = g.partIndex := by
  have hid := blockId_val hroom
  have hnone : stored g.metaData.blockId = none := by
    by_contra hne
    have hlt := hfresh _ hne
    omega
  have hmiss : g.bman.cache.lookup g.metaData.blockId = none := by
    cases hlookup : g.bman.cache.lookup g.metaData.blockId with
    | none => rfl
    | some entry =>
        obtain ⟨b, hb, -⟩ := h.cached _ entry hlookup
        rw [hnone] at hb
        cases hb
  by_cases hfit : ({ block with id := g.metaData.blockId } : Block T _).encoding.length ≤ 2 ^ 32
  · obtain ⟨g₁, hok, hheld, hsize, hiq, hfiq, hmeta, hindex⟩ :=
      addBlock_ok h hlaid hfit (hcomes _) hmiss
    rw [hok, EStateM.Result.ok.injEq] at hrun
    obtain ⟨hadded, hg⟩ := hrun
    rw [← hadded, ← hg]
    refine ⟨rfl, hnone, hheld, ?_, ⟨hsize, hiq, hfiq, by rw [hmeta]⟩, by rw [hmeta], hindex⟩
    intro id hne
    rw [hmeta]
    by_cases heq : id = g.metaData.blockId
    · rw [heq, hid]
      exact Nat.lt_succ_self _
    · have hstored : stored id ≠ none := by
        have hupdate : Function.update stored g.metaData.blockId _ id ≠ none := hne
        rwa [Function.update_of_ne heq] at hupdate
      exact Nat.lt_succ_of_lt (hfresh id hstored)
  · rw [addBlock_full hlaid (Nat.lt_of_not_le hfit)] at hrun
    cases hrun

/-- The sub-blocks are stored under the ids that come out, in order. -/
theorem addSubBlocks_of_ok {P : Type} {Ok : P → Prop} {g g' : HistoricalGraph P T schema}
    (subs : List (Block T (AttributeData schema))) (h : Held Ok parts R stored g)
    (hfresh : FreshIds stored g) (hroom : g.metaData.nextBlockId + subs.length ≤ 2 ^ 64)
    (hlaid : ∀ sub ∈ subs, LaidBy parts sub)
    (hcomes : ∀ sub ∈ subs, ∀ id block', ComesBack { sub with id := id } block' →
      R { sub with id := id } block') {ids : List BlockId}
    (hrun : PartitionIndex.addSubBlocks subs g = .ok ids g') :
    ∃ stored', Held Ok parts R stored' g' ∧ FreshIds stored' g' ∧
      List.Forall₂ (fun id sub => stored' id = some { sub with id := id }) ids subs ∧
      (∀ id block, stored id = some block → stored' id = some block) ∧ AddsOnly g g' ∧
      g'.metaData.nextBlockId = g.metaData.nextBlockId + subs.length ∧
      g'.partIndex = g.partIndex := by
  induction subs generalizing stored g g' ids with
  | nil =>
      obtain ⟨hids, hg⟩ := (EStateM.Result.ok.injEq ..).mp hrun
      rw [← hids, ← hg]
      exact ⟨stored, h, hfresh, .nil, fun _ _ hb => hb, ⟨rfl, rfl, rfl, rfl⟩, rfl, rfl⟩
  | cons sub subs ih =>
      rw [List.length_cons] at hroom
      unfold PartitionIndex.addSubBlocks at hrun
      cases hadd : BlockManager.addBlock sub g with
      | error e g₁ =>
          rw [run_bind_error hadd] at hrun
          cases hrun
      | ok added g₁ =>
          rw [run_bind_ok hadd] at hrun
          obtain ⟨hadded, hnone, hheld₁, hfresh₁, honly₁, hnext₁, hindex₁⟩ := addBlock_of_ok h hfresh
            (by omega) (hlaid sub List.mem_cons_self) (hcomes sub List.mem_cons_self) hadd
          cases hrest : PartitionIndex.addSubBlocks subs g₁ with
          | error e g₂ =>
              rw [run_bind_error hrest] at hrun
              cases hrun
          | ok rest g₂ =>
              rw [run_bind_ok hrest] at hrun
              obtain ⟨hids, hg⟩ := (EStateM.Result.ok.injEq ..).mp hrun
              rw [← hids, ← hg]
              obtain ⟨stored', hheld₂, hfresh₂, hall, hkeep, honly₂, hnext₂, hindex₂⟩ :=
                ih hheld₁ hfresh₁ (by omega) (fun b hb => hlaid b (List.mem_cons_of_mem _ hb))
                  (fun b hb => hcomes b (List.mem_cons_of_mem _ hb)) hrest
              refine ⟨stored', hheld₂, hfresh₂, .cons ?_ hall, ?_, honly₁.trans honly₂,
                by rw [List.length_cons]; omega, hindex₂.trans hindex₁⟩
              · have hself := hkeep added.id added (Function.update_self ..)
                rw [hself, ← hadded]
              · intro id b hb
                refine hkeep id b ?_
                rw [Function.update_of_ne, hb]
                intro heq
                rw [heq, hnone] at hb
                cases hb

/-! ### Collecting the data -/

/-- The data of the `k`-th edge of a head. -/
theorem dataAt_ok {T : Type} [LinearOrder T] {block block' : Block T (AttributeData schema)}
    (h : block'.Formed) {f : AttributeData schema → AttributeData schema} {v : VertexId}
    (hedges : contents (block'.neigs.edges v)
      = (contents (block.neigs.edges v)).map fun p => (p.1, p.2.1, f p.2.2)) {k : Nat}
    {e : NLEdge T (AttributeData schema)} (hget : (block.neigs.edges v)[k]? = some e) :
    block'.dataAt v k = .ok (f e.data.val) := by
  obtain ⟨F, seen, hbuilt, -⟩ := h
  have hk := congrArg (fun l => l[k]?) hedges
  unfold contents at hk
  simp only [List.getElem?_map, hget, Option.map_some] at hk
  obtain ⟨e', he', heq⟩ := Option.map_eq_some_iff.mp hk
  have hlookup := hbuilt.lists.lookup_eq (List.ne_nil_of_mem (List.mem_of_getElem? he'))
  unfold dataAt NeighborList.getNthOldestEdge
  rw [hlookup]
  simp only [he', Except.ok_map]
  rw [(Prod.mk.inj (Prod.mk.inj heq).2).2]

/-- The sub-block of a part, as it is stored. -/
def StoredPart (block : Block T (AttributeData schema))
    (stored : BlockId → Option (Block T (AttributeData schema))) (id : BlockId)
    (attributes : List Text) : Prop :=
  ∃ sub, stored id = some sub ∧ ∀ v, contents (sub.neigs.edges v)
    = (contents (block.neigs.edges v)).map fun p => (p.1, p.2.1, picked attributes p.2.2)

theorem collect_ok (hreads : ReadsBy Ok parts) {block : Block T (AttributeData schema)}
    {v : VertexId} {k : Nat} {e : NLEdge T (AttributeData schema)}
    (hget : (block.neigs.edges v)[k]? = some e) {ids : List BlockId} {part : Partitioning}
    (hparts : List.Forall₂ (StoredPart block stored) ids part)
    (hlaid : ∀ id ∈ ids, ∀ sub, stored id = some sub → LaidBy parts sub) (sdata : AttributeData schema)
    (h : Shelved Ok ComesBack stored g) (hroom : 1 ≤ g.bman.blockBufferSize) :
    ∃ g', collect v k ids sdata g = .ok (part.foldl (fun acc attributes =>
        acc.setAttributes (picked attributes e.data.val).wire) sdata) g' ∧
      Shelved Ok ComesBack stored g' ∧ ReadOnly g g' := by
  induction hparts generalizing sdata g with
  | nil => exact ⟨g, rfl, h, ReadOnly.refl g⟩
  | @cons id attributes ids part hid hrest ih =>
      obtain ⟨sub, hsub, hedges⟩ := hid
      obtain ⟨b, g₁, hrun, hback, hheld, hread⟩ :=
        h.getBlock_ok hreads (fun _ _ hb => hb.id) hroom hsub (hlaid id List.mem_cons_self sub hsub)
      have hdata : b.dataAt v k = .ok (picked attributes e.data.val).wire := by
        refine dataAt_ok hback.formed (f := fun d => (picked attributes d).wire) ?_ hget
        rw [hback.edges v, hedges v, List.map_map]
        rfl
      obtain ⟨g₂, hrun₂, hheld₂, hread₂⟩ :=
        ih (fun i hi => hlaid i (List.mem_cons_of_mem _ hi))
          (sdata.setAttributes (picked attributes e.data.val).wire) hheld
          (by rw [hread.blockBufferSize]; exact hroom)
      refine ⟨g₂, ?_, hheld₂, hread.trans hread₂⟩
      unfold collect
      rw [run_bind_ok hrun, ofResult_bind_ok hdata, List.foldl_cons]
      exact hrun₂

/-! ### The block -/

/-- One edge of the walk. -/
theorem recombineEdge_ok (hreads : ReadsBy Ok parts) {block : Block T (AttributeData schema)}
    {F : EdgeTriplet T → SharedPtr (AttributeData schema)}
    (hdata : ∀ v, ∀ e ∈ block.neigs.edges v, e.data = F (e.triplet v))
    {goal rest : VertexId → List (VertexId × T)} (hgoal : Listed goal) {ids : List BlockId}
    {part : Partitioning} (hparts : List.Forall₂ (StoredPart block stored) ids part)
    (hlaid : ∀ id ∈ ids, ∀ sub, stored id = some sub → LaidBy parts sub)
    {v : VertexId} {k : Nat} {e : NLEdge T (AttributeData schema)}
    (hget : (block.neigs.edges v)[k]? = some e) {l : List (VertexId × T)}
    {edge : NLEdge T (AttributeData schema)} (hedge : edge.toVertex = e.toVertex ∧ edge.time = e.time)
    {acc : Block T (AttributeData schema) × Shared T schema}
    (hshare : Sharing (fun t => AttributeData.recombined part (F t).val) goal
      (Function.update rest v ((e.toVertex, e.time) :: l)) acc.1 acc.2)
    (h : Shelved Ok ComesBack stored g) (hroom : 1 ≤ g.bman.blockBufferSize) :
    ∃ acc' g', recombineEdge ids v acc (edge, k) g = .ok acc' g' ∧
      Sharing (fun t => AttributeData.recombined part (F t).val) goal
        (Function.update rest v l) acc'.1 acc'.2 ∧
      acc'.1.partition = acc.1.partition ∧ acc'.1.subBlocks = acc.1.subBlocks ∧
      Shelved Ok ComesBack stored g' ∧ ReadOnly g g' := by
  unfold recombineEdge
  simp only [hedge.1, hedge.2]
  cases hlookup : acc.2.lookup (EdgeTriplet.of v e.toVertex e.time) with
  | some sdata =>
      obtain ⟨block', hok, hshare', -, hpart, hsub⟩ := hshare.next_old hgoal hlookup
      refine ⟨(block', acc.2), g, ?_, hshare', hpart, hsub, h, ReadOnly.refl g⟩
      show (ofResult (acc.1.addEdge v e.toVertex e.time sdata) >>= fun _ => _) g = _
      rw [ofResult_bind_ok hok]
      rfl
  | none =>
      obtain ⟨g₁, hrun, hheld, hread⟩ :=
        collect_ok hreads hget hparts hlaid (AttributeData.new schema) h hroom
      have hval : (F (EdgeTriplet.of v e.toVertex e.time)).val = e.data.val := by
        rw [hdata v e (List.mem_of_getElem? hget)]
        rfl
      obtain ⟨block', hok, hshare', -, hpart, hsub⟩ :=
        hshare.next_new hgoal hlookup acc.2.length
      simp only [hval] at hok hshare'
      refine ⟨(block', _), g₁, ?_, hshare', hpart, hsub, hheld, hread⟩
      show (collect v k ids (AttributeData.new schema) >>= fun _ => _) g = _
      rw [run_bind_ok hrun]
      show (ofResult (acc.1.addEdge v e.toVertex e.time
        ⟨acc.2.length, AttributeData.recombined part e.data.val⟩) >>= fun _ => _) g₁ = _
      rw [ofResult_bind_ok hok]
      rfl

/-- What `recombineBlock` should make of the parts of a block. -/
structure Recombined (block block' : Block T (AttributeData schema)) : Prop where
  heads : ∀ v, v ∈ block'.neigs ↔ v ∈ block.neigs
  ends : ∀ v, ends (block'.neigs.edges v) = ends (block.neigs.edges v)
  data : ∀ v (k : Nat) e e', (block.neigs.edges v)[k]? = some e →
    (block'.neigs.edges v)[k]? = some e' → ∀ i, e'.data.val.find? i = e.data.val.find? i
  shared : ∀ v w, ∀ e ∈ block'.neigs.edges v, ∀ e' ∈ block'.neigs.edges w,
    e.triplet v = e'.triplet w → e.data = e'.data

/-- The walk over a master block puts the data of every edge together again. -/
theorem recombineBlock_ok (hreads : ReadsBy Ok parts) {block master : Block T (AttributeData schema)}
    (hformed : block.Formed) {part : Partitioning} (hne : master.subBlocks ≠ [])
    (hends : ∀ v, ends (master.neigs.edges v) = ends (block.neigs.edges v))
    (hparts : List.Forall₂ (StoredPart block stored) master.subBlocks part)
    (hlaid : ∀ id ∈ master.subBlocks, ∀ sub, stored id = some sub → LaidBy parts sub)
    (h : Shelved Ok ComesBack stored g) (hroom : 1 ≤ g.bman.blockBufferSize) :
    ∃ block' g', recombineBlock master g = .ok block' g' ∧ block'.Formed ∧
      (∀ v, contents (block'.neigs.edges v) = (contents (block.neigs.edges v)).map
        fun p => (p.1, p.2.1, AttributeData.recombined part p.2.2)) ∧
      Shelved Ok ComesBack stored g' ∧ ReadOnly g g' := by
  obtain ⟨F, seen, hbuilt, hlisted⟩ := hformed
  have hwalk := Ends.foldlM (E := fun _ _ => False)
    (h := fun acc p => recombineEdge master.subBlocks p.1 acc p.2)
    (I := fun l acc g' => (∀ p ∈ l, p ∈ master.walk) ∧
      Sharing (fun t => AttributeData.recombined part (F t).val)
        (fun v => ends (block.neigs.edges v)) (toCome l) acc.1 acc.2 ∧
      Shelved Ok ComesBack stored g' ∧ ReadOnly g g') (by
      rintro ⟨v, edge, k⟩ l acc g₁ ⟨hmem, hshare, hheld, hread⟩
      have hmaster := getElem?_of_mem_walk (hmem _ List.mem_cons_self)
      -- The place of the edge in the master is its place in the block.
      have hk := congrArg (fun l => l[k]?) (hends v)
      unfold ends at hk
      simp only [List.getElem?_map, hmaster, Option.map_some] at hk
      obtain ⟨e, hget, heq⟩ := Option.map_eq_some_iff.mp hk.symm
      obtain ⟨hto, htm⟩ := Prod.mk.inj heq
      rw [toCome_cons, ← hto, ← htm] at hshare
      obtain ⟨acc', g₂, hrun, hshare', -, -, hheld', hread'⟩ := recombineEdge_ok hreads hbuilt.data
        hlisted hparts hlaid hget ⟨hto.symm, htm.symm⟩ hshare hheld
        (by rw [hread.blockBufferSize]; exact hroom)
      rw [Function.update_eq_self] at hshare'
      unfold Ends
      rw [hrun]
      exact ⟨fun p hp => hmem p (List.mem_cons_of_mem _ hp), hshare', hheld', hread.trans hread'⟩)
    master.walk (a := ({ Block.new with partition := -1 }, [])) (s := g)
    ⟨fun _ hp => hp, by
      have hgoal : toCome master.walk = fun v => ends (block.neigs.edges v) := by
        rw [toCome_walk]
        exact funext hends
      rw [hgoal]
      exact Sharing.new _ _ _, h, ReadOnly.refl g⟩
  obtain ⟨acc, g', hrun, -, ⟨F', seen', hbuild, hrem⟩, hheld, hread⟩ := hwalk.returns
  have hends' : ∀ v, ends (acc.1.neigs.edges v) = ends (block.neigs.edges v) := by
    intro v
    rw [← hbuild.come v]
    exact (List.append_nil _).symm
  refine ⟨acc.1, g', ?_, ⟨F', seen', hbuild.toBuilt, by simpa only [hends'] using hlisted⟩, ?_, hheld,
    hread⟩
  · unfold recombineBlock
    rw [if_neg hne]
    have hfold := foldlM_walk (fun acc v e => recombineEdge (P := P) master.subBlocks v acc e) master
      ({ Block.new with partition := -1 }, [])
    show ((master.neigs.entries.foldlM _ _ : Storage P T schema _) >>= fun _ => _) g = _
    rw [hfold, run_bind_ok hrun]
    rfl
  · refine contents_map hbuilt hbuild.toBuilt hends' ?_
    intro t ht
    rw [← hrem.keys, ← lookup_ne_none] at ht
    obtain ⟨p, hp⟩ := Option.ne_none_iff_exists'.mp ht
    obtain ⟨hpF, hval⟩ := hrem.data t p hp
    rw [← hpF, hval]

/-- The blocks of a partitioning are laid out by the partitioning of their time. -/
theorem Derived.laidBy {T : Type} [LinearOrder T] [BlockTime T] {parts : T → Option Partitioning}
    {f : AttributeData schema → AttributeData schema} {i : Int}
    {block made stored : Block T (AttributeData schema)} (h : Derived f i block made)
    (hstored : StoredAs made stored) (hformed : block.Formed) {t : T} {part : Partitioning}
    (htime : block.getPartitioningTimestamp = .ok t) (hpart : parts t = some part)
    (hlaid : stored.Laid part) : LaidBy parts stored := by
  obtain ⟨hformed', -, hedges⟩ := h.stored hstored
  refine ⟨hformed', t, part, ?_, hpart, hlaid⟩
  obtain ⟨F, seen, hbuilt, -⟩ := hformed
  obtain ⟨F', seen', hbuilt', -⟩ := hformed'
  rw [← htime]
  unfold getPartitioningTimestamp
  rw [findMinMaxTimestamps_congr hbuilt.lists hbuilt'.lists fun v => ends_of_contents (hedges v)]

theorem StoredAs.refl {T : Type} (block : Block T (AttributeData schema)) : StoredAs block block :=
  ⟨rfl, rfl, List.Perm.refl _⟩

theorem Split.laidBy_subs {T : Type} [LinearOrder T] [BlockTime T] {parts : T → Option Partitioning}
    {part : Partitioning} {block master : Block T (AttributeData schema)}
    {subs : List (Block T (AttributeData schema))} (h : Split part block master subs)
    (hformed : block.Formed) (hfull : block.FullData)
    (hnames : ∀ attributes ∈ part, schema.Has attributes) (hlen : part.length ≤ 2 ^ 31) {t : T}
    (htime : block.getPartitioningTimestamp = .ok t) (hpart : parts t = some part) :
    ∀ sub ∈ subs, LaidBy parts sub := by
  intro sub hsub
  obtain ⟨i, hget⟩ := List.getElem?_of_mem hsub
  obtain ⟨attributes, hattributes, hderived⟩ := h.sub_of_getElem? hget
  have hi : i < part.length := (List.getElem?_eq_some_iff.mp hattributes).1
  refine hderived.laidBy (StoredAs.refl sub) hformed htime hpart ?_
  exact hderived.laid_sub hfull (hnames _ (List.mem_of_getElem? hattributes)) (by omega)
    hattributes (StoredAs.refl sub)

/-- The stored sub-blocks are those of the parts. -/
theorem Split.storedParts {T : Type} [LinearOrder T]
    {stored : BlockId → Option (Block T (AttributeData schema))} {part : Partitioning}
    {block master : Block T (AttributeData schema)} {subs : List (Block T (AttributeData schema))}
    (h : Split part block master subs) {ids : List BlockId}
    (hids : List.Forall₂ (fun id sub => stored id = some { sub with id := id }) ids subs) :
    List.Forall₂ (StoredPart block stored) ids part := by
  rw [List.forall₂_iff_get]
  have hlen : subs.length = part.length := by
    have hzip := h.subs.length_eq
    rw [List.length_zipIdx] at hzip
    exact hzip.symm
  refine ⟨hids.length_eq.trans hlen, ?_⟩
  intro i hi hi'
  obtain ⟨-, hall⟩ := List.forall₂_iff_get.mp hids
  have hisub : i < subs.length := by omega
  have hget : subs[i]? = some (subs.get ⟨i, hisub⟩) := List.getElem?_eq_getElem hisub
  obtain ⟨attributes, hattributes, hderived⟩ := h.sub_of_getElem? hget
  have hpart : part.get ⟨i, hi'⟩ = attributes := by
    rw [List.getElem?_eq_getElem hi', Option.some.injEq] at hattributes
    exact hattributes
  rw [hpart]
  exact ⟨_, hall i hi hisub, hderived.edges⟩

theorem getElem?_of_contents {T : Type} {f : AttributeData schema → AttributeData schema}
    {l l' : List (NLEdge T (AttributeData schema))}
    (h : contents l' = (contents l).map fun p => (p.1, p.2.1, f p.2.2)) {k : Nat}
    {e : NLEdge T (AttributeData schema)} (hget : l[k]? = some e) :
    ∃ e', l'[k]? = some e' ∧ e'.data.val = f e.data.val := by
  have hk := congrArg (fun l => l[k]?) h
  unfold contents at hk
  simp only [List.getElem?_map, hget, Option.map_some] at hk
  obtain ⟨e', he', heq⟩ := Option.map_eq_some_iff.mp hk
  exact ⟨e', he', (Prod.mk.inj (Prod.mk.inj heq).2).2⟩

/-- The state after the blocks of a partitioning have been stored: the master lists sub-blocks that
have the lists of the block and the attributes of their part. -/
theorem stored_blocks (hanswers : Answers Ok parts) (h : Held Ok parts R stored g)
    (hfresh : FreshIds stored g) {block : Block T (AttributeData schema)} (hformed : block.Formed)
    (hfull : block.FullData) {t : T} (htime : block.getPartitioningTimestamp = .ok t)
    {part : Partitioning} (hpart : parts t = some part)
    (hnames : ∀ attributes ∈ part, schema.Has attributes) (hlen : part.length ≤ 2 ^ 31)
    (hids : g.metaData.nextBlockId + part.length + 1 ≤ 2 ^ 64)
    (hcomes : ∀ made, LaidBy parts made → ∀ b, ComesBack made b → R made b)
    {first second : Block T (AttributeData schema)} {others : List (Block T (AttributeData schema))}
    {g₁ g₂ g₃ : HistoricalGraph P T schema} {ids : List BlockId}
    {master : Block T (AttributeData schema)}
    (hsplit : onIndex block.partitionBlock g = .ok (first :: second :: others) g₁)
    (hsubs : PartitionIndex.addSubBlocks (second :: others) g₁ = .ok ids g₂)
    (hmaster : BlockManager.addBlock { first with subBlocks := first.subBlocks ++ ids } g₂
      = .ok master g₃) :
    ∃ stored', Held Ok parts R stored' g₃ ∧ FreshIds stored' g₃ ∧ AddsOnly g g₃ ∧
      stored' master.id = some master ∧ master.partition = -1 ∧ master.subBlocks = ids ∧
      master.subBlocks ≠ [] ∧
      (∀ v, ends (master.neigs.edges v) = ends (block.neigs.edges v)) ∧
      List.Forall₂ (StoredPart block stored') ids part ∧
      (∀ id b, stored id = some b → stored' id = some b) := by
  obtain ⟨tpart, idx', hlookup, htpart, hok⟩ := hanswers.write _ _ _ h.index hpart
  obtain ⟨m, subs, hblocks, hs⟩ := partitionWith_ok hformed hfull hnames
  have hpb : block.partitionBlock g.partIndex = .ok (m :: subs, idx') := by
    unfold partitionBlock
    simp only [htime, Except.ok_bind, hlookup, htpart, hblocks, Except.pure_eq_ok]
  have hrun : onIndex block.partitionBlock g = .ok (m :: subs) { g with partIndex := idx' } := by
    unfold onIndex
    rw [get_bind, ofResult_bind_ok hpb]
    rfl
  rw [hrun, EStateM.Result.ok.injEq, List.cons.injEq] at hsplit
  obtain ⟨⟨hfirst, hrest⟩, hg₁⟩ := hsplit
  rw [hfirst] at hs
  rw [hrest] at hs
  have hcount : (second :: others).length = part.length := by
    have hzip := hs.subs.length_eq
    rw [List.length_zipIdx] at hzip
    exact hzip.symm
  have hheld₁ : Held Ok parts R stored g₁ := by
    rw [← hg₁]
    exact ⟨hok, h.tidy, h.absent, h.present, h.cached⟩
  have hnext₁ : g₁.metaData.nextBlockId = g.metaData.nextBlockId := by
    rw [← hg₁]
  have hlaid := hs.laidBy_subs hformed hfull hnames hlen htime hpart
  obtain ⟨stored₂, hheld₂, hfresh₂, hall, hkeep, honly, hnext₂, -⟩ := addSubBlocks_of_ok
    (second :: others) hheld₁ (by rw [FreshIds, hnext₁]; exact hfresh) (by omega) hlaid
    (fun sub hsub id b hb => hcomes _ ((hlaid sub hsub).withId id) b hb) hsubs
  have hidsne : ids ≠ [] := by
    intro hnil
    have hlen' := hall.length_eq
    rw [hnil] at hlen'
    simp at hlen'
  have hstoredAs : StoredAs first { first with subBlocks := first.subBlocks ++ ids } :=
    ⟨rfl, rfl, List.Perm.refl _⟩
  have hlaidm : LaidBy parts { first with subBlocks := first.subBlocks ++ ids } := by
    refine hs.master.laidBy hstoredAs hformed htime hpart ?_
    refine hs.master.laid_master hstoredAs ?_
    simp [hidsne]
  obtain ⟨hadded, hnone, hheld₃, hfresh₃, honly₃, -⟩ := addBlock_of_ok hheld₂ hfresh₂ (by omega)
    hlaidm (fun id b hb => hcomes _ (hlaidm.withId id) b hb) hmaster
  have hmids : master.subBlocks = ids := by
    rw [hadded]
    show first.subBlocks ++ ids = ids
    rw [hs.master.subBlocks, List.nil_append]
  have honly₁ : AddsOnly g g₁ := by
    rw [← hg₁]
    exact ⟨rfl, rfl, rfl, rfl⟩
  refine ⟨_, hheld₃, hfresh₃, (honly₁.trans honly).trans honly₃, Function.update_self .., ?_, hmids,
    by rw [hmids]; exact hidsne, ?_, ?_, ?_⟩
  · rw [hadded]
    exact hs.master.partition
  · intro v
    rw [hadded]
    exact ends_of_contents (g := fun _ => .empty schema) (hs.master.edges v)
  · refine hs.storedParts (hall.imp ?_)
    intro id sub hsub
    rw [Function.update_of_ne, hsub]
    intro heq
    rw [heq, hnone] at hsub
    cases hsub
  · intro id b hb
    have hb₂ := hkeep id b hb
    rw [Function.update_of_ne, hb₂]
    intro heq
    rw [heq, hnone] at hb₂
    cases hb₂

/-- Edges whose data was put together again have what they had exactly when none of their texts is
too long. -/
theorem recombined_iff {T : Type} [LinearOrder T] {block block' : Block T (AttributeData schema)}
    (hformed : block.Formed) (hfull : block.FullData) {part : Partitioning}
    (hnames : ∀ attributes ∈ part, schema.Has attributes)
    (hcovers : AttributeData.Covers schema part) (hformed' : block'.Formed)
    (hedges : ∀ v, contents (block'.neigs.edges v) = (contents (block.neigs.edges v)).map
      fun p => (p.1, p.2.1, AttributeData.recombined part p.2.2)) :
    Recombined block block' ↔ ∀ v, ∀ e ∈ block.neigs.edges v, e.data.val.Short := by
  refine ⟨?_, ?_⟩
  · intro hrec v e he
    obtain ⟨k, hget⟩ := List.getElem?_of_mem he
    obtain ⟨e', hget', hval⟩ := getElem?_of_contents (hedges v) hget
    refine (AttributeData.recombined_same_iff (hfull v e he) hnames hcovers).mp ?_
    intro i
    rw [← hval]
    exact hrec.data v k e e' hget hget' i
  · intro hshort
    obtain ⟨F', seen', hbuilt', -⟩ := hformed'
    obtain ⟨F, seen, hbuilt, -⟩ := hformed
    have hsame : ∀ v, ends (block'.neigs.edges v) = ends (block.neigs.edges v) :=
      fun v => ends_of_contents (hedges v)
    refine ⟨?_, hsame, ?_, ?_⟩
    · intro v
      rw [hbuilt'.lists.mem_iff, hbuilt.lists.mem_iff, Ne, Ne, ← ends_eq_nil, hsame, ends_eq_nil]
    · intro v k e e' hget hget' i
      obtain ⟨e'', hget'', hval⟩ := getElem?_of_contents (hedges v) hget
      rw [hget', Option.some.injEq] at hget''
      rw [hget'', hval]
      have hmem := List.mem_of_getElem? hget
      exact (AttributeData.recombined_same_iff (hfull v e hmem) hnames hcovers).mpr
        (hshort v e hmem) i
    · intro v w e he e' he' htrip
      rw [hbuilt'.data v e he, hbuilt'.data w e' he', htrip]

section Store

variable {block : Block T (AttributeData schema)} {t : T} {part : Partitioning}
  {first second : Block T (AttributeData schema)} {others : List (Block T (AttributeData schema))}
  {g₁ g₂ g₃ : HistoricalGraph P T schema} {ids : List BlockId}
  {master m : Block T (AttributeData schema)}

/-- Whatever the texts, joining returns, with the data put together again. -/
theorem recombineBlock_stored (hanswers : Answers Ok parts) (h : Held Ok parts ComesBack stored g)
    (hfresh : FreshIds stored g) (hroom : 1 ≤ g.bman.blockBufferSize) (hformed : block.Formed)
    (hfull : block.FullData) (htime : block.getPartitioningTimestamp = .ok t)
    (hpart : parts t = some part) (hnames : ∀ attributes ∈ part, schema.Has attributes)
    (hlen : part.length ≤ 2 ^ 31) (hids : g.metaData.nextBlockId + part.length + 1 ≤ 2 ^ 64)
    (hsplit : onIndex block.partitionBlock g = .ok (first :: second :: others) g₁)
    (hsubs : PartitionIndex.addSubBlocks (second :: others) g₁ = .ok ids g₂)
    (hmaster : BlockManager.addBlock { first with subBlocks := first.subBlocks ++ ids } g₂
      = .ok master g₃) (hm : m = master ∨ ComesBack master m) :
    ∃ block' g', recombineBlock m g₃ = .ok block' g' ∧ block'.Formed ∧
      ∀ v, contents (block'.neigs.edges v) = (contents (block.neigs.edges v)).map
        fun p => (p.1, p.2.1, AttributeData.recombined part p.2.2) := by
  obtain ⟨stored', hheld, -, honly, -, -, hmids, hne, hends, hparts, -⟩ :=
    stored_blocks hanswers h hfresh hformed hfull htime hpart hnames hlen hids (fun _ _ _ hb => hb)
      hsplit hsubs hmaster
  obtain ⟨hne', hids', hends'⟩ : m.subBlocks ≠ [] ∧ m.subBlocks = master.subBlocks ∧
      ∀ v, ends (m.neigs.edges v) = ends (block.neigs.edges v) := by
    rcases hm with hm | hm
    · rw [hm]
      exact ⟨hne, rfl, hends⟩
    · refine ⟨by rw [hm.subBlocks]; exact hne, hm.subBlocks, ?_⟩
      intro v
      rw [← hends v]
      exact ends_of_contents (hm.edges v)
  rw [← hmids, ← hids'] at hparts
  obtain ⟨block', g', hrun, hformed', hedges, -⟩ := recombineBlock_ok hanswers.read hformed hne'
    hends' hparts (fun _ _ _ hsub => hheld.laid hsub) hheld.shelved
    (by rw [honly.blockBufferSize]; exact hroom)
  exact ⟨block', g', hrun, hformed', hedges⟩

/-- What a call that stored a block went through before the indexes. -/
theorem stores_of_addBlock {g' : HistoricalGraph P T schema}
    (h : HistoricalGraph.addBlock block g = .ok () g') :
    ∃ first second others g₁ ids g₂ master g₃,
      onIndex block.partitionBlock g = .ok (first :: second :: others) g₁ ∧
      PartitionIndex.addSubBlocks (second :: others) g₁ = .ok ids g₂ ∧
      BlockManager.addBlock { first with subBlocks := first.subBlocks ++ ids } g₂
        = .ok master g₃ ∧
      (IntervalQueryIndex.indexBlock master >>= fun _ =>
        FocusedIntervalQueryIndex.indexBlock master) g₃ = .ok () g' := by
  unfold HistoricalGraph.addBlock at h
  obtain ⟨blocks, g₁, hsplit, h⟩ := run_bind_eq_ok.mp h
  cases blocks with
  | nil => exact absurd h throw_ne_ok
  | cons first blocks =>
      cases blocks with
      | nil => exact absurd h throw_ne_ok
      | cons second others =>
          obtain ⟨ids, g₂, hsubs, h⟩ := run_bind_eq_ok.mp h
          obtain ⟨master, g₃, hmaster, h⟩ := run_bind_eq_ok.mp h
          exact ⟨first, second, others, g₁, ids, g₂, master, g₃, hsplit, hsubs, hmaster, h⟩

/-- **Splitting, storing and joining gives back the block** exactly when none of its texts is too
long for its length field.  What the block counts as its bytes does not matter. -/
theorem recombineBlock_iff (hanswers : Answers Ok parts) (h : Held Ok parts ComesBack stored g)
    (hfresh : FreshIds stored g) (hroom : 1 ≤ g.bman.blockBufferSize)
    (hformed : ∃ size, (block.counted size).Formed)
    (hfull : block.FullData) (htime : block.getPartitioningTimestamp = .ok t)
    (hpart : parts t = some part) (hnames : ∀ attributes ∈ part, schema.Has attributes)
    (hcovers : AttributeData.Covers schema part)
    (hlen : part.length ≤ 2 ^ 31) (hids : g.metaData.nextBlockId + part.length + 1 ≤ 2 ^ 64)
    (hsplit : onIndex block.partitionBlock g = .ok (first :: second :: others) g₁)
    (hsubs : PartitionIndex.addSubBlocks (second :: others) g₁ = .ok ids g₂)
    (hmaster : BlockManager.addBlock { first with subBlocks := first.subBlocks ++ ids } g₂
      = .ok master g₃) (hm : m = master ∨ ComesBack master m) :
    (∃ block' g', recombineBlock m g₃ = .ok block' g' ∧ Recombined block block') ↔
      ∀ v, ∀ e ∈ block.neigs.edges v, e.data.val.Short := by
  obtain ⟨size, hcounted⟩ := hformed
  obtain ⟨block', g', hrun, hformed', hedges⟩ := recombineBlock_stored
    hanswers h hfresh hroom hcounted hfull htime hpart hnames hlen hids hsplit hsubs hmaster hm
  have hiff : Recombined block block' ↔ ∀ v, ∀ e ∈ block.neigs.edges v, e.data.val.Short := by
    obtain ⟨hsound, hcomplete⟩ := recombined_iff hcounted hfull hnames hcovers hformed' hedges
    refine ⟨fun hrec => hsound ⟨hrec.heads, hrec.ends, hrec.data, hrec.shared⟩, fun hshort => ?_⟩
    obtain ⟨hheads, hends, hdata, hshared⟩ := hcomplete hshort
    exact ⟨hheads, hends, hdata, hshared⟩
  rw [← hiff]
  refine ⟨?_, fun hrec => ⟨block', g', hrun, hrec⟩⟩
  intro hrec
  obtain ⟨b, g'', hrun', hrec⟩ := hrec
  rw [hrun, EStateM.Result.ok.injEq] at hrun'
  rw [hrun'.1]
  exact hrec

end Store

/-! ### One edge -/

section OneEdge

theorem split_oneEdge (a b : Text) :
    Split [[[97], [98]]] (oneEdge a b) oneMaster [oneSub a b] := by
  obtain ⟨master, subs, hok, hsplit⟩ :=
    partitionWith_ok (formed_oneEdge a b) (fullData_oneEdge a b) has_textSchema
  rw [partitionWith_oneEdge, Except.ok.injEq, List.cons.injEq] at hok
  rw [← hok.1, ← hok.2] at hsplit
  exact hsplit

theorem oneMaster_laidBy {ids : List BlockId} (hids : ids ≠ []) :
    LaidBy oneParts { oneMaster with subBlocks := ids } := by
  have hstoredAs : StoredAs oneMaster { oneMaster with subBlocks := ids } :=
    ⟨rfl, rfl, List.Perm.refl _⟩
  exact (split_oneEdge [] []).master.laidBy hstoredAs (formed_oneEdge [] [])
    (getPartitioningTimestamp_oneEdge [] []) oneParts_atOne
    ((split_oneEdge [] []).master.laid_master hstoredAs hids)

/-- Its master block with one sub-block fits. -/
theorem length_encoding_oneMaster :
    ({ oneMaster with subBlocks := [0], id := 1 } : Block Time (AttributeData textSchema)).encoding.length
      ≤ 2 ^ 32 := by
  decide +kernel

/-- An edge whose texts are not too long together is stored in three steps. -/
theorem stores_oneEdge {a b : Text} (hfit : a.length % 2 ^ 32 + b.length % 2 ^ 32 ≤ 2 ^ 31) :
    ∃ g₁ g₂ g₃ master,
      onIndex (oneEdge a b).partitionBlock oneGraph = .ok [oneMaster, oneSub a b] g₁ ∧
      PartitionIndex.addSubBlocks [oneSub a b] g₁ = .ok [0] g₂ ∧
      BlockManager.addBlock { oneMaster with subBlocks := oneMaster.subBlocks ++ [0] } g₂
        = .ok master g₃ := by
  obtain ⟨tpart, idx, hlookup, htpart, hidx⟩ :=
    oneIndex_answers.write _ _ _ oneIndex_oneGraph oneParts_atOne
  have hpb : (oneEdge a b).partitionBlock oneGraph.partIndex
      = .ok ([oneMaster, oneSub a b], idx) := by
    unfold partitionBlock
    simp only [getPartitioningTimestamp_oneEdge, Except.ok_bind, hlookup, htpart,
      partitionWith_oneEdge, Except.pure_eq_ok]
    rfl
  have hsplit : onIndex (oneEdge a b).partitionBlock oneGraph
      = .ok [oneMaster, oneSub a b] { oneGraph with partIndex := idx } := by
    unfold onIndex
    rw [get_bind, ofResult_bind_ok hpb]
    rfl
  have hheld : Held OneIndex oneParts ComesBack (fun _ => none) { oneGraph with partIndex := idx } :=
    held_new hidx (by exact bman_oneGraph) _
  have hzero : ({ oneGraph with partIndex := idx } :
      HistoricalGraph (PartitionIndex Time) Time textSchema).metaData.blockId = 0 := rfl
  have hself : ({ oneSub a b with id := 0 } : Block Time (AttributeData textSchema))
      = oneSub a b := rfl
  have hadd := addBlock_ok hheld (oneSub_laidBy a b)
  rw [hzero, hself] at hadd
  obtain ⟨g₂, hrun, hheld₂, -, -, -, hmeta, -⟩ :=
    hadd (by rw [length_encoding_oneSub]; omega) (fun _ hback => hback) rfl
  have hsubs : PartitionIndex.addSubBlocks [oneSub a b] { oneGraph with partIndex := idx }
      = .ok [0] g₂ := by
    unfold PartitionIndex.addSubBlocks
    rw [run_bind_ok hrun]
    rfl
  have hlaid : LaidBy oneParts { oneMaster with subBlocks := oneMaster.subBlocks ++ [0] } :=
    oneMaster_laidBy (by simp)
  have honeId : g₂.metaData.blockId = 1 := by
    rw [hmeta]
    rfl
  have hmiss : g₂.bman.cache.lookup g₂.metaData.blockId = none := by
    rw [honeId]
    cases hlookup : g₂.bman.cache.lookup 1 with
    | none => rfl
    | some entry =>
        obtain ⟨block, hblock, -⟩ := hheld₂.cached 1 entry hlookup
        rw [Function.update_of_ne (by decide)] at hblock
        cases hblock
  have hmaster := addBlock_ok hheld₂ hlaid
  rw [honeId] at hmaster hmiss
  obtain ⟨g₃, hrun₃, -⟩ := hmaster length_encoding_oneMaster (fun _ hback => hback) hmiss
  exact ⟨_, g₂, g₃, _, hsplit, hsubs, hrun₃⟩

theorem covers_textSchema : AttributeData.Covers textSchema [[[97], [98]]] := by
  intro i hi
  have hi' : i < 2 := hi
  refine ⟨[[97], [98]], List.mem_singleton_self _, ?_⟩
  have hcases : i = 0 ∨ i = 1 := by omega
  rcases hcases with rfl | rfl
  · exact ⟨[97], by decide, rfl⟩
  · exact ⟨[98], by decide, rfl⟩

/-- No id of an empty store is in use. -/
theorem freshIds_oneGraph : FreshIds (fun _ => none) oneGraph := by
  intro id hne
  exact absurd rfl hne

theorem short_oneEdge {a b : Text} :
    (∀ v, ∀ e ∈ (oneEdge a b).neigs.edges v, e.data.val.Short) ↔
      a.length < 2 ^ 32 ∧ b.length < 2 ^ 32 := by
  refine ⟨?_, ?_⟩
  · intro h
    have hmem : (⟨2, atOne, ⟨0, texts a b⟩⟩ : NLEdge Time (AttributeData textSchema))
        ∈ (oneEdge a b).neigs.edges 1 := by
      rw [edges_oneEdge, if_pos rfl]
      exact List.mem_singleton_self _
    exact short_texts.mp (h 1 _ hmem)
  · intro hshort v e he
    rw [edges_oneEdge] at he
    split_ifs at he
    · rw [List.mem_singleton.mp he]
      exact short_texts.mpr hshort
    · simp at he

/-- An edge whose text has 2^32 bytes comes back without it. -/
theorem not_recombined_of_long {text : Text} (hlen : text.length = 2 ^ 32) :
    (oneEdge text []).Formed ∧ (oneEdge text []).FullData ∧
      AttributeData.Covers textSchema [[[97], [98]]] ∧
      ∃ g₁ g₂ g₃ master,
        onIndex (oneEdge text []).partitionBlock oneGraph = .ok [oneMaster, oneSub text []] g₁ ∧
        PartitionIndex.addSubBlocks [oneSub text []] g₁ = .ok [0] g₂ ∧
        BlockManager.addBlock { oneMaster with subBlocks := oneMaster.subBlocks ++ [0] } g₂
          = .ok master g₃ ∧
        ∃ block' g', recombineBlock master g₃ = .ok block' g' ∧
          ¬ Recombined (oneEdge text []) block' := by
  obtain ⟨g₁, g₂, g₃, master, hsplit, hsubs, hmaster⟩ :=
    stores_oneEdge (a := text) (b := []) (by rw [hlen]; decide)
  refine ⟨formed_oneEdge _ _, fullData_oneEdge _ _, covers_textSchema, g₁, g₂, g₃, master, hsplit,
    hsubs, hmaster, ?_⟩
  obtain ⟨block', g', hrun, hformed', hedges⟩ := recombineBlock_stored oneIndex_answers
    (held_new oneIndex_oneGraph bman_oneGraph _) freshIds_oneGraph (le_refl 1)
    (formed_oneEdge text []) (fullData_oneEdge _ _) (getPartitioningTimestamp_oneEdge _ _)
    oneParts_atOne has_textSchema (by decide) (by decide) hsplit hsubs hmaster
    (Or.inl rfl)
  refine ⟨block', g', hrun, ?_⟩
  rw [recombined_iff (formed_oneEdge text []) (fullData_oneEdge _ _) has_textSchema
    covers_textSchema hformed' hedges, short_oneEdge, hlen]
  simp

/-- Joining loses a text of 2^32 bytes. -/
theorem recombineBlock_loses_long_text :
    (oneEdge (List.replicate (2 ^ 32) 120) []).Formed ∧
      (oneEdge (List.replicate (2 ^ 32) 120) []).FullData ∧
      AttributeData.Covers textSchema [[[97], [98]]] ∧
      ∃ g₁ g₂ g₃ master,
        onIndex (oneEdge (List.replicate (2 ^ 32) 120) []).partitionBlock oneGraph
          = .ok [oneMaster, oneSub (List.replicate (2 ^ 32) 120) []] g₁ ∧
        PartitionIndex.addSubBlocks [oneSub (List.replicate (2 ^ 32) 120) []] g₁ = .ok [0] g₂ ∧
        BlockManager.addBlock { oneMaster with subBlocks := oneMaster.subBlocks ++ [0] } g₂
          = .ok master g₃ ∧
        ∃ block' g', recombineBlock master g₃ = .ok block' g' ∧
          ¬ Recombined (oneEdge (List.replicate (2 ^ 32) 120) []) block' :=
  not_recombined_of_long List.length_replicate

end OneEdge

/-! ### Two heads and two parts -/

section TwoHeads

/-- At one second each attribute has a part of its own. -/
def splitParts : Time → Option Partitioning := partsAt atOne [[[97]], [[98]]]

theorem splitParts_atOne : splitParts atOne = some [[[97]], [[98]]] := by
  unfold splitParts partsAt
  rw [if_pos rfl]

theorem splitSlice_answers : Answers (LookedUp atOne [[[97]], [[98]]] splitSlice) splitParts :=
  lookedUp_answers (by decide +kernel) (by decide +kernel)

/-- An empty store with room for two blocks. -/
def splitGraph : HistoricalGraph (PartitionIndex Time) Time textSchema :=
  { oneGraph with partIndex := splitSlice, bman := .new 2 .empty }

theorem covers_splitSlice : AttributeData.Covers textSchema [[[97]], [[98]]] := by
  intro i hi
  have hi' : i < 2 := hi
  have hcases : i = 0 ∨ i = 1 := by omega
  rcases hcases with rfl | rfl
  · exact ⟨[[97]], by decide, [97], by decide, rfl⟩
  · exact ⟨[[98]], by decide, [98], by decide, rfl⟩

/-- The three edges come back from the two parts they were stored in. -/
theorem recombineBlock_iff_twoHeads :
    ∃ first second others g₁ ids g₂ master g₃,
      onIndex twoHeads.partitionBlock splitGraph = .ok (first :: second :: others) g₁ ∧
      PartitionIndex.addSubBlocks (second :: others) g₁ = .ok ids g₂ ∧
      BlockManager.addBlock { first with subBlocks := first.subBlocks ++ ids } g₂
        = .ok master g₃ ∧
      ∃ block' g', recombineBlock master g₃ = .ok block' g' ∧ Recombined twoHeads block' := by
  have hadd : answer? (HistoricalGraph.addBlock twoHeads splitGraph) = some () := by decide +kernel
  obtain ⟨g', hadd⟩ := of_answer? hadd
  obtain ⟨first, second, others, g₁, ids, g₂, master, g₃, hsplit, hsubs, hmaster, -⟩ :=
    stores_of_addBlock hadd
  refine ⟨first, second, others, g₁, ids, g₂, master, g₃, hsplit, hsubs, hmaster, ?_⟩
  have hindex : LookedUp atOne [[[97]], [[98]]] splitSlice splitGraph.partIndex := Or.inl rfl
  have hnew : splitGraph.bman = BlockManager.new 2 .empty := rfl
  exact (recombineBlock_iff splitSlice_answers (held_new hindex hnew _) (fun _ hne => absurd rfl hne)
    (by decide) formed_twoHeads fullData_twoHeads getPartitioningTimestamp_twoHeads splitParts_atOne
    has_splitSlice covers_splitSlice (by decide) (by decide) hsplit hsubs hmaster
    (Or.inl rfl)).mpr short_twoHeads

end TwoHeads

end Block

end RailwayDB
