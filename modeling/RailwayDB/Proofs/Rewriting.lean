/-
The blocks are brought up to date.

While slices are replaced the index still reads the blocks of a slice that goes by its
partitioning, and looks up the one that comes.  The blocks that have edges in a slice
are visited; one whose time is in it is put together, split anew and put in the place
of its old parts.  At any point of this the blocks that are done are stored in the new
parts and the others in the old, so once every slice was gone over all are stored in
the new parts, with the edges they had.
-/
import RailwayDB.Proofs.KeptEdges
import RailwayDB.Proofs.ShelvedBlocks

namespace RailwayDB

open Storage BlockManager

variable {P T : Type} {schema : Schema} [LinearOrder T] [Timestamp T] [BlockTime T]
  [SliceIndex P T]

/-! ### The ids it takes -/

namespace PartitionIndex

section Next

variable {masterBlock newMaster : Block T (AttributeData schema)}
  {newBlocks newSubs : List (Block T (AttributeData schema))}

/-- The number of the next id after a call that returns. -/
def NextIs (n : Nat) (g : HistoricalGraph P T schema) : Prop := g.metaData.nextBlockId = n

theorem nextIs_of_keeps {T : Type} {α : Type} {x : Storage P T schema α} (hx : Keeps SameMeta x)
    {n : Nat} {g : HistoricalGraph P T schema} (h : NextIs n g) :
    Ends x g (fun _ g' => NextIs n g') (fun _ _ => True) := by
  refine (hx g).mono (fun _ g' hsame => ?_) fun _ _ _ => trivial
  unfold NextIs
  rw [show g'.metaData = g.metaData from hsame]
  exact h

theorem sameMeta_updateBlock (block : Block T (AttributeData schema)) :
    Keeps SameMeta (updateBlock block : Storage P T schema Unit) :=
  (sameMeta_getBlock block.id).bind fun _ => (sameMeta_modifyBlocks _).bind fun _ =>
    sameMeta_put block

theorem sameMeta_removeBlock {T : Type} (id : BlockId) :
    Keeps SameMeta (removeBlock id : Storage P T schema Unit) :=
  (keeps_ofResult _).bind fun _ => (sameMeta_modifyBlocks _).bind fun _ =>
    Keeps.get.bind fun _ => (keeps_ofResult _).bind fun _ => sameMeta_modifyBlocks _

theorem nextIs_addSubBlock {P T : Type} {schema : Schema} [LinearOrder T] [Timestamp T]
    [BlockTime T] {newBlocks : List (Block T (AttributeData schema))}
    (subBlocks : List BlockId) (i n : Nat)
    {g : HistoricalGraph P T schema} (h : NextIs n g) :
    Ends (addSubBlock subBlocks newBlocks i) g (fun _ g' => NextIs (n + 1) g')
      (fun _ _ => True) := by
  unfold addSubBlock
  cases hat : elementAt newBlocks (i + subBlocks.length + 1) with
  | error e =>
      rw [Ends, ofResult_bind_error rfl]
      trivial
  | ok block =>
      rw [Ends, ofResult_bind_ok rfl]
      have hnext : Ends (BlockManager.addBlock block) g (fun _ g' => NextIs (n + 1) g')
          (fun _ _ => True) := by
        refine (ends_addBlock g block).mono (fun _ g' hadd => ?_) fun _ _ _ => trivial
        unfold NextIs
        rw [hadd.1, h]
      exact hnext.bind fun _ _ h' => Ends.pure h'

/-- A replacement takes an id for each new sub-block beyond the old ones. -/
theorem nextIs_replaceCounted (replaces adds removes : Nat) {n : Nat}
    {g : HistoricalGraph P T schema} (h : NextIs n g) :
    Ends (replaceCounted masterBlock newBlocks replaces adds removes) g
      (fun _ g' => NextIs (n + adds) g') (fun _ _ => True) := by
  unfold replaceCounted
  refine Ends.bind (nextIs_of_keeps (Keeps.foldlM (fun newBlocks i => ?_) _ _) h) ?_
  · unfold replaceSubBlock
    exact (keeps_ofResult _).bind fun _ => (keeps_ofResult _).bind fun _ =>
      (sameMeta_updateBlock _).bind fun _ => Keeps.pure _
  intro newBlocks g₁ h₁
  refine Ends.bind (Ends.foldlM_range (I := fun i _ g' => NextIs (n + i) g')
    (fun i newBlocks g' _ h' => nextIs_addSubBlock _ i _ h') h₁) ?_
  intro newBlocks g₂ h₂
  refine Ends.bind (nextIs_of_keeps (Keeps.foldlM (fun u i => ?_) _ _) h₂) ?_
  · unfold removeSubBlock
    exact (keeps_ofResult _).bind fun _ => sameMeta_removeBlock _
  intro _ g₃ h₃
  refine nextIs_of_keeps ?_ h₃
  exact (keeps_ofResult _).bind fun _ => sameMeta_updateBlock _

end Next

end PartitionIndex

/-! ### The blocks of the other entries -/

section Families

variable {stored stored' : BlockId → Option (Block T (AttributeData schema))} {id : BlockId}
  {subBlocks ids : List BlockId} {newMaster : Block T (AttributeData schema)}
  {newSubs : List (Block T (AttributeData schema))} {iqIndex : List (IntervalData T)}

/-- The blocks of another entry are not touched. -/
theorem Block.Replaced.apart {T : Type}
    {stored stored' : BlockId → Option (Block T (AttributeData schema))}
    {newMaster : Block T (AttributeData schema)} {newSubs : List (Block T (AttributeData schema))}
    (h : Block.Replaced stored stored' id subBlocks newMaster newSubs ids) {others : List BlockId}
    (hapart : (id :: subBlocks).Disjoint others) (hthere : ∀ i ∈ others, stored i ≠ none) :
    (∀ i ∈ others, stored' i = stored i) ∧ (id :: ids).Disjoint others := by
  have hnot : ∀ i ∈ others, i ∉ ids := by
    intro i hi hmem
    rcases h.known i hmem with hold | hnone
    · exact hapart (List.mem_cons_of_mem _ hold) hi
    · exact hthere i hi hnone
  refine ⟨fun i hi => h.other i (fun hold => hapart hold hi) (hnot i hi), ?_⟩
  intro i hi hothers
  rcases List.mem_cons.mp hi with heq | hi
  · exact hapart (heq ▸ List.mem_cons_self) hothers
  · exact hnot i hothers hi

theorem family_congr {T : Type} {stored stored' : BlockId → Option (Block T (AttributeData schema))}
    (h : stored' id = stored id) : family stored' id = family stored id := by
  unfold family
  rw [h]

/-- **The families stay families** when the blocks of one are replaced. -/
theorem Families.replaced {T : Type}
    {stored stored' : BlockId → Option (Block T (AttributeData schema))}
    {newMaster : Block T (AttributeData schema)} {newSubs : List (Block T (AttributeData schema))}
    {iqIndex : List (IntervalData T)} (h : Families stored iqIndex)
    (hthere : ∀ e ∈ iqIndex, ∀ i ∈ family stored e.id, stored i ≠ none)
    (hown : family stored id = id :: subBlocks) (hid : ∃ e ∈ iqIndex, e.id = id)
    (hreplaced : Block.Replaced stored stored' id subBlocks newMaster newSubs ids) :
    Families stored' iqIndex ∧
      ∀ e ∈ iqIndex, e.id ≠ id → ∀ i ∈ family stored e.id, stored' i = stored i := by
  obtain ⟨e₀, he₀, rfl⟩ := hid
  have hnew : family stored' e₀.id = e₀.id :: ids := family_eq hreplaced.master
  have hother : ∀ e ∈ iqIndex, e.id ≠ e₀.id →
      (∀ i ∈ family stored e.id, stored' i = stored i) ∧
        (e₀.id :: ids).Disjoint (family stored e.id) := by
    intro e he hne
    refine hreplaced.apart ?_ (hthere e he)
    rw [← hown]
    exact h.disjoint e₀ he₀ e he hne.symm
  have hsame : ∀ e ∈ iqIndex, e.id ≠ e₀.id → family stored' e.id = family stored e.id :=
    fun e he hne => family_congr ((hother e he hne).1 e.id (mem_family_self e.id))
  refine ⟨⟨?_, ?_, ?_⟩, fun e he hne => (hother e he hne).1⟩
  · intro e he
    by_cases heq : e.id = e₀.id
    · rw [heq, hnew]
      exact hreplaced.nodup
    · rw [hsame e he heq]
      exact h.nodup e he
  · intro e he e' he' hne
    by_cases heq : e.id = e₀.id
    · have hne' : e'.id ≠ e₀.id := fun heq' => hne (heq.trans heq'.symm)
      rw [heq, hnew, hsame e' he' hne']
      exact (hother e' he' hne').2
    · rw [hsame e he heq]
      by_cases heq' : e'.id = e₀.id
      · rw [heq', hnew]
        exact (hother e he heq).2.symm
      · rw [hsame e' he' heq']
        exact h.disjoint e he e' he' hne
  · intro i block hblock hedges
    by_cases hin : i ∈ e₀.id :: ids
    · exact ⟨e₀, he₀, by rw [hnew]; exact hin⟩
    · rw [List.mem_cons, not_or] at hin
      by_cases hold : i ∈ subBlocks
      · rw [hreplaced.gone i hold hin.2] at hblock
        cases hblock
      · rw [hreplaced.other i (by simp [hin.1, hold]) hin.2] at hblock
        obtain ⟨e, he, hmem⟩ := h.owned i block hblock hedges
        refine ⟨e, he, ?_⟩
        by_cases heq : e.id = e₀.id
        · rw [heq, hown] at hmem
          exact absurd hmem (by simp [hin.1, hold])
        · rw [hsame e he heq]
          exact hmem

end Families

/-! ### How far it got -/

/-- What is known of the partitionings before and after, in the states `Mid` of the index. -/
structure Moves (schema : Schema) (Mid : P → Prop) (old new : T → Option Partitioning) : Prop where
  reads : ReadsBy Mid old
  writes : ∀ idx t tpart idx', Mid idx → new t ≠ none →
    SliceIndex.getTimeSlicedPartitioning idx t = .ok (tpart, idx') →
    new t = some tpart.partitioning ∧ Mid idx'
  names : ∀ t part, old t = some part ∨ new t = some part →
    ∀ attributes ∈ part, schema.Has attributes
  covers : ∀ t part, old t = some part → AttributeData.Covers schema part
  length : ∀ t part, old t = some part ∨ new t = some part → part.length < 2 ^ 29
  nonempty : ∀ t part, new t = some part → part ≠ []

variable {Mid : P → Prop} {old new : T → Option Partitioning}
  {blocks stored stored' : BlockId → Option (Block T (AttributeData schema))}
  {g₀ g g' : HistoricalGraph P T schema} {done : BlockId → Prop} {e : IntervalData T}

/-- The block of an entry, in the old parts or in the new. -/
structure Moving (old new : T → Option Partitioning) (done : Prop)
    (stored : BlockId → Option (Block T (AttributeData schema))) (id : BlockId)
    (block : Block T (AttributeData schema)) (t : T) (part : Partitioning) : Prop where
  time : block.getPartitioningTimestamp = .ok t
  before : old t ≠ none
  after : new t ≠ none
  place : done ∧ new t = some part ∨ ¬ done ∧ old t = some part
  stored : block.StoredIn part stored id

/-- The blocks of the entries `done` are in the new parts, those of the others in the old. -/
structure Rewriting (Mid : P → Prop) (old new : T → Option Partitioning)
    (blocks : BlockId → Option (Block T (AttributeData schema))) (g₀ : HistoricalGraph P T schema)
    (done : BlockId → Prop) (stored : BlockId → Option (Block T (AttributeData schema)))
    (g : HistoricalGraph P T schema) : Prop where
  shelved : ShelvedFrom Mid g₀ stored g
  fresh : Block.FreshIds stored g
  families : Families stored g₀.iqIndex
  entries : ∀ e ∈ g₀.iqIndex, ∃ block t part, blocks e.id = some block ∧ block.Lists e ∧
    Moving old new (done e.id) stored e.id block t part
  rest : ∀ id b, stored id = some b →
    (∃ e ∈ g₀.iqIndex, id ∈ family stored e.id) ∨ LaidBy new b

/-- The blocks of an entry are there. -/
theorem Rewriting.there {P : Type} {Mid : P → Prop} {g₀ g : HistoricalGraph P T schema}
    (h : Rewriting Mid old new blocks g₀ done stored g) :
    ∀ e ∈ g₀.iqIndex, ∀ i ∈ family stored e.id, stored i ≠ none := by
  intro e he i hi
  obtain ⟨block, t, part, -, -, hmoving⟩ := h.entries e he
  obtain ⟨b, hb, -⟩ := hmoving.stored.laid i hi
  rw [hb]
  exact Option.some_ne_none _

/-- Reading does not matter. -/
theorem Rewriting.of_read {P : Type} {Mid : P → Prop} {g₀ g g' : HistoricalGraph P T schema}
    (h : Rewriting Mid old new blocks g₀ done stored g)
    (hshelved : Shelved Mid Block.ComesBack stored g') (hread : ReadOnly g g') :
    Rewriting Mid old new blocks g₀ done stored g' := by
  refine ⟨⟨hshelved, ?_, h.shelved.same.trans ⟨hread.blockBufferSize, hread.iqIndex, hread.fiqIndex,
    by rw [hread.metaData]⟩⟩, ?_, h.families, h.entries, h.rest⟩
  · rw [hread.blockBufferSize]
    exact h.shelved.room
  · rw [Block.FreshIds, hread.metaData]
    exact h.fresh

/-- The master of an entry can be read. -/
theorem Rewriting.readMaster (hmoves : Moves schema Mid old new)
    (h : Rewriting Mid old new blocks g₀ done stored g) (he : e ∈ g₀.iqIndex) :
    ∃ master b g', getBlock e.id g = .ok b g' ∧ stored e.id = some master ∧ LaidBy old master ∧
      master.ComesBack b ∧ Rewriting Mid old new blocks g₀ done stored g' ∧ ReadOnly g g' := by
  obtain ⟨block, t, part, -, -, hmoving⟩ := h.entries e he
  obtain ⟨master, hmaster, -⟩ := hmoving.stored.master
  obtain ⟨part', hpart'⟩ := Option.ne_none_iff_exists'.mp hmoving.before
  have hlaid := hmoving.stored.laidBy_master hmoving.time hpart' hmaster
  obtain ⟨b, g', hrun, hback, hshelved, hread⟩ := h.shelved.shelved.getBlock_ok hmoves.reads
    (fun _ _ hb => hb.id) h.shelved.room hmaster hlaid
  exact ⟨master, b, g', hrun, hmaster, hlaid, hback, h.of_read hshelved hread, hread⟩

/-- Only what is done of the entries matters. -/
theorem Rewriting.of_iff {P : Type} {Mid : P → Prop} {g₀ g : HistoricalGraph P T schema}
    {done' : BlockId → Prop} (h : Rewriting Mid old new blocks g₀ done stored g)
    (hiff : ∀ e ∈ g₀.iqIndex, done' e.id ↔ done e.id) :
    Rewriting Mid old new blocks g₀ done' stored g := by
  refine ⟨h.shelved, h.fresh, h.families, ?_, h.rest⟩
  intro e he
  obtain ⟨block, t, part, hblock, hlists, hmoving⟩ := h.entries e he
  refine ⟨block, t, part, hblock, hlists, hmoving.time, hmoving.before, hmoving.after, ?_,
    hmoving.stored⟩
  rw [hiff e he]
  exact hmoving.place

/-- A lookup of the index does not matter. -/
theorem Rewriting.withIndex {P : Type} {Mid : P → Prop} {g₀ g : HistoricalGraph P T schema}
    (h : Rewriting Mid old new blocks g₀ done stored g) {idx : P} (hidx : Mid idx) :
    Rewriting Mid old new blocks g₀ done stored { g with partIndex := idx } :=
  ⟨⟨⟨hidx, h.shelved.shelved.tidy, h.shelved.shelved.absent, h.shelved.shelved.present,
    h.shelved.shelved.cached⟩, h.shelved.room, h.shelved.same.trans ⟨rfl, rfl, rfl, rfl⟩⟩, h.fresh,
    h.families, h.entries, h.rest⟩

/-- An entry outside the range has no edge in it. -/
theorem Rewriting.outside {P : Type} {Mid : P → Prop} {g₀ g : HistoricalGraph P T schema}
    (h : Rewriting Mid old new blocks g₀ done stored g) (he : e ∈ g₀.iqIndex) {start stop : T}
    (hout : e.intervalEnd < start ∨ stop ≤ e.intervalStart) :
    ¬ HasEdgeIn (edgesOf blocks e) start stop := by
  obtain ⟨block, t, part, hblock, ⟨⟨oldest, hold, hstart⟩, newest, hnew, hend⟩, hmoving⟩ :=
    h.entries e he
  obtain ⟨F, seen, -, hlisted⟩ := hmoving.stored.formed
  rw [edgesOf_eq hblock]
  rw [← hstart, ← hend] at hout
  exact (hasEdgeIn_of_bounds (hlisted.sorted e.vertex) hold hnew start stop).1 hout

/-- The list that is read tells whether the block has an edge in the range. -/
theorem Rewriting.hasEdges {P : Type} {Mid : P → Prop} {g₀ g : HistoricalGraph P T schema}
    (h : Rewriting Mid old new blocks g₀ done stored g) (he : e ∈ g₀.iqIndex)
    {master b : Block T (AttributeData schema)} (hmaster : stored e.id = some master)
    (hback : master.ComesBack b) {nlist : NeighborList T (AttributeData schema)}
    (hlookup : b.neigs.lookup e.vertex = some nlist) (start stop : T) :
    nlist.hasEdgesInRange start stop = true ↔ HasEdgeIn (edgesOf blocks e) start stop := by
  obtain ⟨block, t, part, hblock, -, hmoving⟩ := h.entries e he
  obtain ⟨master', hmaster', -, -, hends, -⟩ := hmoving.stored.master
  rw [hmaster, Option.some.injEq] at hmaster'
  rw [← hmaster'] at hends
  obtain ⟨F, seen, -, hlisted⟩ := hback.formed
  have hedges : b.neigs.edges e.vertex = nlist.edges := NeighborListMap.edges_of_lookup hlookup
  have hsorted := hlisted.sorted e.vertex
  rw [hedges] at hsorted
  rw [NeighborList.hasEdgesInRange_iff hsorted, edgesOf_eq hblock, hasEdgeIn_iff_ends,
    hasEdgeIn_iff_ends, ← hedges, Block.ends_of_contents (hback.edges e.vertex), hends]

/-! ### Where it starts and where it ends -/

/-- Before the first block is rewritten all are in the old parts. -/
theorem Files.rewriting {P : Type} {Mid : P → Prop} {g₀ : HistoricalGraph P T schema}
    {Ok : P → Prop} (h : Files Ok old stored blocks g₀) (hroom : 1 ≤ g₀.bman.blockBufferSize)
    (hblocks : ∀ e ∈ g₀.iqIndex, ∀ block, blocks e.id = some block → block.ShortTexts ∧
      ∀ t, block.getPartitioningTimestamp = .ok t → new t ≠ none)
    (hrest : ∀ id b, stored id = some b → (∀ w, b.neigs.edges w = []) → LaidBy new b) {idx : P}
    (hidx : Mid idx) :
    Rewriting Mid old new blocks g₀ (fun _ => False) stored { g₀ with partIndex := idx } := by
  have hshelved := h.held.shelved
  refine ⟨⟨⟨hidx, hshelved.tidy, hshelved.absent, hshelved.present, hshelved.cached⟩, hroom,
    ⟨rfl, rfl, rfl, rfl⟩⟩, h.fresh, h.families, ?_, ?_⟩
  · intro e he
    obtain ⟨block, hblock, hapart, hlists⟩ := h.filed e he
    obtain ⟨hshort, hafter⟩ := hblocks e he block hblock
    obtain ⟨master, t, part, -, -, -, -, htime, hpart, -⟩ := hapart.master
    refine ⟨block, t, part, hblock, hlists, htime, ?_, hafter t htime, Or.inr ⟨not_false, hpart⟩,
      hapart.storedIn h.held hshort htime hpart⟩
    rw [hpart]
    exact Option.some_ne_none _
  · intro id b hb
    by_cases hedges : ∃ w, b.neigs.edges w ≠ []
    · exact Or.inl (h.families.owned id b hb hedges)
    · rw [not_exists] at hedges
      exact Or.inr (hrest id b hb fun w => not_not.mp (hedges w))

/-- When every block is rewritten or in parts that stay, all are in the new parts. -/
theorem Rewriting.files {P : Type} {Mid : P → Prop} {g₀ g : HistoricalGraph P T schema}
    {Ok : P → Prop} (h : Rewriting Mid old new blocks g₀ done stored g)
    (hcatalog : Cataloged g₀.iqIndex g₀.fiqIndex) (hlisted : ListsIndexed blocks g₀.iqIndex)
    (hall : ∀ e ∈ g₀.iqIndex, ∀ block t, blocks e.id = some block →
      block.getPartitioningTimestamp = .ok t → done e.id ∨ old t = new t) {idx : P}
    (hidx : Ok idx) :
    Files Ok new stored blocks { g with partIndex := idx } := by
  have hin : ∀ e ∈ g₀.iqIndex, ∃ block t part, blocks e.id = some block ∧ block.Lists e ∧
      block.getPartitioningTimestamp = .ok t ∧ new t = some part ∧
      block.StoredIn part stored e.id := by
    intro e he
    obtain ⟨block, t, part, hblock, hlists, hmoving⟩ := h.entries e he
    refine ⟨block, t, part, hblock, hlists, hmoving.time, ?_, hmoving.stored⟩
    rcases hmoving.place with ⟨-, hnew⟩ | ⟨hnot, hold⟩
    · exact hnew
    · rw [← (hall e he block t hblock hmoving.time).resolve_left hnot, hold]
  have hlaid : ∀ id b, stored id = some b → LaidBy new b := by
    intro id b hb
    rcases h.rest id b hb with ⟨e, he, hmem⟩ | hlaid
    · obtain ⟨block, t, part, -, -, htime, hnew, hstored⟩ := hin e he
      exact hstored.laidBy htime hnew hmem hb
    · exact hlaid
  have hshelved := h.shelved.shelved
  refine ⟨⟨hidx, hshelved.tidy, hshelved.absent, (hshelved.held hlaid).present, hshelved.cached⟩,
    h.fresh, ?_, ?_, ?_, ?_⟩
  · show Cataloged g.iqIndex g.fiqIndex
    rw [h.shelved.same.iqIndex, h.shelved.same.fiqIndex]
    exact hcatalog
  · show Filed new stored blocks g.iqIndex
    rw [h.shelved.same.iqIndex]
    intro e he
    obtain ⟨block, t, part, hblock, hlists, htime, hnew, hstored⟩ := hin e he
    exact ⟨block, hblock, hstored.apart htime hnew, hlists⟩
  · show Families stored g.iqIndex
    rw [h.shelved.same.iqIndex]
    exact h.families
  · show ListsIndexed blocks g.iqIndex
    rw [h.shelved.same.iqIndex]
    exact hlisted

/-! ### One block -/

/-- A block and what it was split into once its parts were joined. -/
structure Remade (old new : T → Option Partitioning)
    (stored : BlockId → Option (Block T (AttributeData schema))) (id : BlockId)
    (block : Block T (AttributeData schema)) (t : T) (part newPart : Partitioning)
    (newMaster : Block T (AttributeData schema)) (newSubs : List (Block T (AttributeData schema))) :
    Prop where
  moving : Moving old new False stored id block t part
  after : new t = some newPart
  split : ∃ block', block'.Formed ∧ Block.Joined part block block' ∧
    Block.Split newPart block' newMaster newSubs

section Remade

variable {block master was newMaster : Block T (AttributeData schema)}
  {newSubs : List (Block T (AttributeData schema))} {t : T} {part newPart : Partitioning}
  {id : BlockId}

theorem Remade.before {T : Type} [LinearOrder T] [BlockTime T] {old new : T → Option Partitioning}
    {stored : BlockId → Option (Block T (AttributeData schema))}
    {block newMaster : Block T (AttributeData schema)}
    {newSubs : List (Block T (AttributeData schema))} {t : T}
    (h : Remade old new stored id block t part newPart newMaster newSubs) :
    old t = some part :=
  (h.moving.place.resolve_left fun hdone => hdone.1).2

/-- The new blocks can be written. -/
theorem Remade.writable {T : Type} [LinearOrder T] [BlockTime T] [SliceIndex P T]
    {old new : T → Option Partitioning} {stored : BlockId → Option (Block T (AttributeData schema))}
    {block newMaster : Block T (AttributeData schema)}
    {newSubs : List (Block T (AttributeData schema))} {t : T} (hmoves : Moves schema Mid old new)
    (h : Remade old new stored id block t part newPart newMaster newSubs) :
    (∀ sub ∈ newSubs, Writable new sub) ∧ ∀ ids : List BlockId, ids.length = newSubs.length →
      Writable new { newMaster with subBlocks := ids } := by
  obtain ⟨block', hformed, hjoined, hsplit⟩ := h.split
  have hnames := hmoves.names t newPart (Or.inr h.after)
  obtain ⟨hfull, hshort⟩ := hjoined.full h.moving.stored.full h.moving.stored.short
    (hmoves.names t part (Or.inl h.before)) (hmoves.covers t part h.before)
  have htime : block'.getPartitioningTimestamp = .ok t :=
    (Block.getPartitioningTimestamp_congr h.moving.stored.formed hformed
      fun v => Block.ends_of_contents (hjoined v)).trans h.moving.time
  obtain ⟨hshortMaster, hshortSubs⟩ := hsplit.shortTexts hfull hshort hnames
  refine ⟨?_, ?_⟩
  · intro sub hsub
    obtain ⟨i, hget⟩ := List.getElem?_of_mem hsub
    obtain ⟨attributes, hattributes, hderived⟩ := hsplit.sub_of_getElem? hget
    have hi : i < newPart.length := (List.getElem?_eq_some_iff.mp hattributes).1
    have hlength := hmoves.length t newPart (Or.inr h.after)
    exact ⟨hderived.laidBy (Block.StoredAs.refl sub) hformed htime h.after
      (hderived.laid_sub hfull (hnames _ (List.mem_of_getElem? hattributes)) (by omega) hattributes
        (Block.StoredAs.refl sub)), hshortSubs sub hsub⟩
  · intro ids hids
    refine ⟨hsplit.laidBy_master hformed htime h.after ?_, hshortMaster⟩
    intro hnil
    rw [hnil, hsplit.length_subs, List.length_nil] at hids
    exact hmoves.nonempty t newPart h.after (List.length_eq_zero_iff.mp hids.symm)

/-- The block is stored in the new parts once they have taken the place of the old. -/
theorem Remade.storedIn {T : Type} [LinearOrder T] [BlockTime T] [SliceIndex P T]
    {old new : T → Option Partitioning}
    {stored stored' : BlockId → Option (Block T (AttributeData schema))}
    {block newMaster : Block T (AttributeData schema)}
    {newSubs : List (Block T (AttributeData schema))} {t : T} (hmoves : Moves schema Mid old new)
    (h : Remade old new stored id block t part newPart newMaster newSubs)
    {subBlocks ids : List BlockId}
    (hreplaced : Block.Replaced stored stored' id subBlocks newMaster newSubs ids) :
    block.StoredIn newPart stored' id := by
  obtain ⟨block', hformed, hjoined, hsplit⟩ := h.split
  have hlength := hmoves.length t newPart (Or.inr h.after)
  exact h.moving.stored.replaced hjoined (hmoves.names t part (Or.inl h.before))
    (hmoves.covers t part h.before) (hmoves.nonempty t newPart h.after)
    (hmoves.names t newPart (Or.inr h.after)) (by omega) hsplit hreplaced

/-- The old parts can be read. -/
theorem Remade.readable {T : Type} [LinearOrder T] [BlockTime T] {old new : T → Option Partitioning}
    {stored : BlockId → Option (Block T (AttributeData schema))}
    {block newMaster : Block T (AttributeData schema)}
    {newSubs : List (Block T (AttributeData schema))} {t : T}
    (h : Remade old new stored id block t part newPart newMaster newSubs) :
    ∀ i ∈ family stored id, ∃ b, stored i = some b ∧ LaidBy old b := by
  intro i hi
  obtain ⟨b, hb, -⟩ := h.moving.stored.laid i hi
  exact ⟨b, hb, h.moving.stored.laidBy h.moving.time h.before hi hb⟩

/-- There are as many parts as the partitionings have. -/
theorem Remade.length {T : Type} [LinearOrder T] [BlockTime T] [SliceIndex P T]
    {old new : T → Option Partitioning} {stored : BlockId → Option (Block T (AttributeData schema))}
    {block was newMaster : Block T (AttributeData schema)}
    {newSubs : List (Block T (AttributeData schema))} {t : T} (hmoves : Moves schema Mid old new)
    (h : Remade old new stored id block t part newPart newMaster newSubs)
    (hwas : stored id = some was) :
    was.subBlocks.length < 2 ^ 29 ∧ newSubs.length < 2 ^ 29 := by
  obtain ⟨was', hwas', -, -, -, hparts⟩ := h.moving.stored.master
  rw [hwas, Option.some.injEq] at hwas'
  obtain ⟨block', -, -, hsplit⟩ := h.split
  rw [hwas', hparts.length_eq, hsplit.length_subs]
  exact ⟨hmoves.length t part (Or.inl h.before), hmoves.length t newPart (Or.inr h.after)⟩

/-- The other blocks are as they were. -/
theorem Rewriting.replaced (hmoves : Moves schema Mid old new)
    (h : Rewriting Mid old new blocks g₀ done stored g) (he : e ∈ g₀.iqIndex)
    (hblock : blocks e.id = some block)
    (hremade : Remade old new stored e.id block t part newPart newMaster newSubs)
    (hwas : stored e.id = some was) {ids : List BlockId}
    (hshelved : ShelvedFrom Mid g₀ stored' g') (hfresh : Block.FreshIds stored' g')
    (hreplaced : Block.Replaced stored stored' e.id was.subBlocks newMaster newSubs ids) :
    Rewriting Mid old new blocks g₀ (fun id => done id ∨ id = e.id) stored' g' := by
  have hown := family_eq hwas
  obtain ⟨hfamilies, hsame⟩ := h.families.replaced h.there hown ⟨e, he, rfl⟩ hreplaced
  refine ⟨hshelved, hfresh, hfamilies, ?_, ?_⟩
  · intro e' he'
    obtain ⟨b, t', part', hb, hlists, hmoving⟩ := h.entries e' he'
    by_cases heq : e'.id = e.id
    · rw [heq, hblock, Option.some.injEq] at hb
      rw [← hb] at hlists
      refine ⟨block, t, newPart, by rw [heq, hblock], hlists, hremade.moving.time,
        hremade.moving.before, hremade.moving.after, Or.inl ⟨Or.inr heq, hremade.after⟩, ?_⟩
      rw [heq]
      exact hremade.storedIn hmoves hreplaced
    · refine ⟨b, t', part', hb, hlists, hmoving.time, hmoving.before, hmoving.after, ?_,
        hmoving.stored.congr (hsame e' he' heq)⟩
      rw [or_iff_left heq]
      exact hmoving.place
  · intro i b hb
    by_cases hin : i ∈ e.id :: ids
    · exact Or.inl ⟨e, he, by rw [family_eq hreplaced.master]; exact hin⟩
    · rw [List.mem_cons, not_or] at hin
      by_cases hold : i ∈ was.subBlocks
      · rw [hreplaced.gone i hold hin.2] at hb
        cases hb
      · rw [hreplaced.other i (by simp [hin.1, hold]) hin.2] at hb
        refine (h.rest i b hb).imp_left ?_
        rintro ⟨e', he', hmem⟩
        have hne : e'.id ≠ e.id := by
          intro heq
          rw [heq, hown] at hmem
          exact absurd hmem (by simp [hin.1, hold])
        refine ⟨e', he', ?_⟩
        rw [family_congr (hsame e' he' hne e'.id (mem_family_self e'.id))]
        exact hmem

end Remade

namespace PartitionIndex

/-- A block is split by the new slice of its time. -/
theorem ends_partitionBlock (hmoves : Moves schema Mid old new)
    (h : Rewriting Mid old new blocks g₀ done stored g) {block : Block T (AttributeData schema)}
    (hformed : block.Formed) (hfull : block.FullData) {t : T}
    (htime : block.getPartitioningTimestamp = .ok t) (hafter : new t ≠ none) :
    Ends (onIndex block.partitionBlock) g
      (fun made g' => ∃ part master subs, new t = some part ∧ made = master :: subs ∧
        Block.Split part block master subs ∧ Rewriting Mid old new blocks g₀ done stored g')
      (fun _ _ => True) := by
  unfold Ends
  cases hrun : onIndex block.partitionBlock g with
  | error e g' => trivial
  | ok made g' =>
      obtain ⟨idx, hsplit, hg'⟩ := onIndex_eq_ok hrun
      unfold Block.partitionBlock at hsplit
      rw [htime, Except.ok_bind] at hsplit
      obtain ⟨⟨tpart, idx'⟩, hlookup, hsplit⟩ := Except.bind_eq_ok.mp hsplit
      obtain ⟨made', hmade, hsplit⟩ := Except.bind_eq_ok.mp hsplit
      obtain ⟨rfl, rfl⟩ := Prod.mk.inj (Except.ok.inj hsplit)
      obtain ⟨hpart, hmid⟩ := hmoves.writes _ _ _ _ h.shelved.shelved.index hafter hlookup
      obtain ⟨master, subs, hmade', hsplit'⟩ :=
        Block.partitionWith_ok hformed hfull (hmoves.names t _ (Or.inr hpart))
      rw [hmade, Except.ok.injEq] at hmade'
      rw [hg']
      exact ⟨_, master, subs, hpart, hmade', hsplit', h.withIndex hmid⟩

section Replace

variable {block master was newMaster : Block T (AttributeData schema)}
  {newSubs : List (Block T (AttributeData schema))} {t : T} {part newPart : Partitioning}

/-- **The new parts of a block take the place of the old**, unless the ids are used up. -/
theorem ends_replaceParts (hmoves : Moves schema Mid old new)
    (h : Rewriting Mid old new blocks g₀ done stored g) (he : e ∈ g₀.iqIndex)
    (hblock : blocks e.id = some block)
    (hremade : Remade old new stored e.id block t part newPart newMaster newSubs)
    (hwas : stored e.id = some was) (hback : was.ComesBack master) :
    Ends (replaceCounted master (newMaster :: newSubs)
        (min master.subBlocks.length newSubs.length) (newSubs.length - master.subBlocks.length)
        (master.subBlocks.length - newSubs.length)) g
      (fun _ g' => 2 ^ 64 < g'.metaData.nextBlockId ∨ ∃ stored',
        Rewriting Mid old new blocks g₀ (fun id => done id ∨ id = e.id) stored' g')
      (fun _ _ => True) := by
  by_cases hroom : g.metaData.nextBlockId + (newSubs.length - master.subBlocks.length) ≤ 2 ^ 64
  · have hid : master.id = e.id := hback.id.trans (h.shelved.shelved.present _ _ hwas).2.1
    have hown : family stored e.id = e.id :: master.subBlocks := by
      rw [family_eq hwas, hback.subBlocks]
    obtain ⟨hsubs, hmaster⟩ := hremade.writable hmoves
    obtain ⟨was', hwas', hopen⟩ := hremade.readable e.id (mem_family_self e.id)
    obtain ⟨block', -, -, hsplit⟩ := hremade.split
    rw [← hid] at hwas'
    have hacts : ActsOn (ShelvedFrom Mid g₀) (Writable new) (LaidBy old) fun _ _ => True :=
      shelved_actsOn hmoves.reads g₀
    refine (ends_replaceCounted hacts h.shelved hwas' hopen
      (by rw [hid, ← hown]; exact h.families.nodup e he)
      (fun i hi => hremade.readable i (by rw [hown]; exact List.mem_cons_of_mem _ hi)) h.fresh hroom
      hsplit.master.subBlocks hsubs hmaster).mono ?_ fun _ _ _ => trivial
    rintro - g' ⟨stored', ids, hshelved, hfresh, hreplaced⟩
    rw [hid, hback.subBlocks] at hreplaced
    exact Or.inr ⟨stored', h.replaced hmoves he hblock hremade hwas hshelved hfresh hreplaced⟩
  · refine (nextIs_replaceCounted _ _ _ rfl).mono (fun _ g' hnext => Or.inl ?_) fun _ _ _ => trivial
    rw [show g'.metaData.nextBlockId = _ from hnext]
    exact not_le.mp hroom

end Replace

/-- A state of the rewriting, unless the ids are used up. -/
def Goes (Mid : P → Prop) (old new : T → Option Partitioning)
    (blocks : BlockId → Option (Block T (AttributeData schema))) (g₀ : HistoricalGraph P T schema)
    (done : BlockId → Prop) (g : HistoricalGraph P T schema) : Prop :=
  2 ^ 64 < g.metaData.nextBlockId ∨ ∃ stored, Rewriting Mid old new blocks g₀ done stored g

/-- **A block whose time is in the slice is rewritten**, and no other. -/
theorem ends_rewriteBlock (hmoves : Moves schema Mid old new)
    (h : Rewriting Mid old new blocks g₀ done stored g) (he : e ∈ g₀.iqIndex)
    {start stop : T} {block : Block T (AttributeData schema)} {t : T}
    (hblock : blocks e.id = some block) (htime : block.getPartitioningTimestamp = .ok t)
    (hnot : start ≤ t → t < stop → ¬ done e.id) :
    Ends (rewriteBlock start stop e.id) g
      (fun _ g' => Goes Mid old new blocks g₀
        (fun id => done id ∨ id = e.id ∧ start ≤ t ∧ t < stop) g') (fun _ _ => True) := by
  obtain ⟨was, master, g₁, hread, hwas, -, hback, h₁, -⟩ := h.readMaster hmoves he
  obtain ⟨block', t', part, hblock', hlists, hmoving⟩ := h₁.entries e he
  rw [hblock, Option.some.injEq] at hblock'
  rw [← hblock'] at hmoving
  obtain ⟨was', hwas', hpartition, hne, hends, hparts⟩ := hmoving.stored.master
  rw [hwas, Option.some.injEq] at hwas'
  rw [← hwas'] at hne hends hparts
  have htime' : master.getPartitioningTimestamp = .ok t :=
    (Block.getPartitioningTimestamp_congr hmoving.stored.formed hback.formed fun v =>
      (Block.ends_of_contents (hback.edges v)).trans (hends v)).trans htime
  have hsame := hmoving.time
  rw [htime, Except.ok.injEq] at hsame
  rw [← hsame] at hmoving
  unfold rewriteBlock
  rw [Ends, run_bind_ok hread, ofResult_bind_ok htime']
  split_ifs with hout
  · refine Or.inr ⟨stored, h₁.of_iff fun e' _ => ?_⟩
    refine or_iff_left ?_
    rintro ⟨-, hstart, hstop⟩
    rcases hout with hout | hout
    · exact absurd hstart (not_le.mpr hout)
    · exact absurd hstop (not_lt.mpr hout)
  · rw [not_or, not_lt, not_le] at hout
    have hdone := hnot hout.1 hout.2
    have hmoving' : Moving old new False stored e.id block t part :=
      ⟨hmoving.time, hmoving.before, hmoving.after,
        Or.inr ⟨not_false, (hmoving.place.resolve_left fun hd => hdone hd.1).2⟩, hmoving.stored⟩
    have hold : old t = some part := (hmoving'.place.resolve_left fun hd => hd.1).2
    obtain ⟨block₂, g₂, hjoin, hformed, hjoined, hshelved, hread₂⟩ :=
      Block.recombineBlock_ok hmoves.reads hmoving.stored.formed
        (by rw [hback.subBlocks]; exact hne : master.subBlocks ≠ [])
        (fun v => (Block.ends_of_contents (hback.edges v)).trans (hends v))
        (by rw [hback.subBlocks]; exact hparts)
        (by
          intro i hi sub hsub
          rw [hback.subBlocks] at hi
          exact hmoving.stored.laidBy htime hold
            (by rw [family_eq hwas]; exact List.mem_cons_of_mem _ hi) hsub)
        h₁.shelved.shelved h₁.shelved.room
    have hjoined' : Block.Joined part block block₂ := hjoined
    have hfull := (hjoined'.full hmoving.stored.full hmoving.stored.short
      (hmoves.names t part (Or.inl hold)) (hmoves.covers t part hold)).1
    have htime₂ : block₂.getPartitioningTimestamp = .ok t :=
      (Block.getPartitioningTimestamp_congr hmoving.stored.formed hformed fun v =>
        Block.ends_of_contents (hjoined v)).trans htime
    rw [run_bind_ok hjoin]
    refine (ends_partitionBlock hmoves (h₁.of_read hshelved hread₂) hformed hfull htime₂
      hmoving.after).bind ?_
    rintro made g₃ ⟨newPart, newMaster, newSubs, hnew, hmade, hsplit, h₃⟩
    have hremade : Remade old new stored e.id block t part newPart newMaster newSubs :=
      ⟨hmoving', hnew, block₂, hformed, hjoined', hsplit⟩
    have hlength := hremade.length hmoves hwas
    rw [← hback.subBlocks] at hlength
    rw [hmade, funext (replaceBlocks_eq hlength.1 hlength.2)]
    refine (ends_replaceParts hmoves h₃ he hblock hremade hwas hback).mono ?_ fun _ _ _ => trivial
    rintro - g' (hspent | ⟨stored', h'⟩)
    · exact Or.inl hspent
    · refine Or.inr ⟨stored', h'.of_iff fun e' _ => ?_⟩
      simp only [hout.1, hout.2, and_true]

/-! ### All blocks with edges in a slice -/

/-- The iterator passes over entries without an edge in the range. -/
theorem ends_findNext (hmoves : Moves schema Mid old new)
    (h : Rewriting Mid old new blocks g₀ done stored g) (start stop : T)
    (l : List (IntervalData T)) (hl : ∀ e ∈ l, e ∈ g₀.iqIndex) :
    Ends (IntervalQueryIndex.findNext start stop l) g
      (fun it g' => Rewriting Mid old new blocks g₀ done stored g' ∧ ∃ passed, l = passed ++ it ∧
        ∀ e ∈ passed, ¬ HasEdgeIn (edgesOf blocks e) start stop) (fun _ _ => True) := by
  induction l generalizing g with
  | nil => exact ⟨h, [], rfl, fun e he => (List.not_mem_nil he).elim⟩
  | cons e rest ih =>
      have he := hl e List.mem_cons_self
      have hstep : ∀ g', Rewriting Mid old new blocks g₀ done stored g' →
          ¬ HasEdgeIn (edgesOf blocks e) start stop →
          Ends (IntervalQueryIndex.findNext start stop rest) g'
            (fun it g' => Rewriting Mid old new blocks g₀ done stored g' ∧ ∃ passed,
              e :: rest = passed ++ it ∧ ∀ e ∈ passed, ¬ HasEdgeIn (edgesOf blocks e) start stop)
            (fun _ _ => True) := by
        intro g' h' hnot
        refine (ih h' fun e' he' => hl e' (List.mem_cons_of_mem _ he')).mono ?_ fun _ _ _ => trivial
        rintro it g'' ⟨h'', passed, heq, hpassed⟩
        refine ⟨h'', e :: passed, by rw [heq, List.cons_append], ?_⟩
        intro e' he'
        rcases List.mem_cons.mp he' with rfl | he'
        · exact hnot
        · exact hpassed e' he'
      have hstop : ∀ g', Rewriting Mid old new blocks g₀ done stored g' →
          Ends (pure (e :: rest) : Storage P T schema _) g'
            (fun it g' => Rewriting Mid old new blocks g₀ done stored g' ∧ ∃ passed,
              e :: rest = passed ++ it ∧ ∀ e ∈ passed, ¬ HasEdgeIn (edgesOf blocks e) start stop)
            (fun _ _ => True) :=
        fun g' h' => Ends.pure ⟨h', [], rfl, fun e he => (List.not_mem_nil he).elim⟩
      unfold IntervalQueryIndex.findNext
      split_ifs with hout hwithin
      · exact hstep g h (h.outside he hout)
      · obtain ⟨master, b, g₁, hread, hmaster, -, hback, h₁, -⟩ := h.readMaster hmoves he
        rw [Ends, run_bind_ok hread]
        cases hlookup : b.neigs.lookup e.vertex with
        | none => trivial
        | some nlist =>
            dsimp only
            split_ifs with hedges
            · exact hstop g₁ h₁
            · refine hstep g₁ h₁ ?_
              rw [← h.hasEdges he hmaster hback hlookup start stop]
              exact hedges
      · exact hstop g h

/-- The time of the block of an entry is in the range. -/
def InSlice (blocks : BlockId → Option (Block T (AttributeData schema))) (start stop : T)
    (id : BlockId) : Prop :=
  ∃ block t, blocks id = some block ∧ block.getPartitioningTimestamp = .ok t ∧ start ≤ t ∧ t < stop

theorem inSlice_iff {T : Type} [LinearOrder T] [BlockTime T]
    {blocks : BlockId → Option (Block T (AttributeData schema))}
    {block : Block T (AttributeData schema)} {t start stop : T} {id : BlockId}
    (hblock : blocks id = some block) (htime : block.getPartitioningTimestamp = .ok t) :
    InSlice blocks start stop id ↔ start ≤ t ∧ t < stop := by
  unfold InSlice
  refine ⟨?_, fun h => ⟨block, t, hblock, htime, h⟩⟩
  rintro ⟨block', t', hblock', htime', h⟩
  rw [hblock, Option.some.injEq] at hblock'
  rw [← hblock', htime, Except.ok.injEq] at htime'
  rw [htime']
  exact h

/-- **The loop visits the entries with an edge in the slice**, and rewrites the blocks among theirs
whose time is in it. -/
theorem ends_updateLoop (hmoves : Moves schema Mid old new) {start stop : T}
    (hnot : ∀ e ∈ g₀.iqIndex, InSlice blocks start stop e.id → ¬ done e.id) (fuel : Nat)
    (it : List (IntervalData T)) (hit : ∀ e ∈ it, e ∈ g₀.iqIndex) (seenIds : List BlockId)
    (h : Goes Mid old new blocks g₀
      (fun id => done id ∨ id ∈ seenIds ∧ InSlice blocks start stop id) g) :
    Ends (updateLoop start stop fuel it seenIds) g
      (fun _ g' => 2 ^ 64 < g'.metaData.nextBlockId ∨ ∃ seenIds', seenIds ⊆ seenIds' ∧
        (∀ e ∈ it, HasEdgeIn (edgesOf blocks e) start stop → e.id ∈ seenIds') ∧
        Goes Mid old new blocks g₀
          (fun id => done id ∨ id ∈ seenIds' ∧ InSlice blocks start stop id) g')
      (fun _ _ => True) := by
  rcases h with hspent | ⟨stored, h⟩
  · refine ((steps_frame.updateLoop start stop fuel it seenIds) g).mono ?_ fun _ _ _ => trivial
    exact fun _ g' hsteps => Or.inl (lt_of_lt_of_le hspent (nextBlockId_le hsteps))
  induction fuel generalizing g it seenIds stored with
  | zero =>
      cases it with
      | nil => exact Ends.pure (Or.inr ⟨seenIds, fun _ h => h, fun e he => (List.not_mem_nil he).elim,
          Or.inr ⟨stored, h⟩⟩)
      | cons e rest => exact Ends.throw trivial
  | succ fuel ih =>
      cases it with
      | nil => exact Ends.pure (Or.inr ⟨seenIds, fun _ h => h, fun e he => (List.not_mem_nil he).elim,
          Or.inr ⟨stored, h⟩⟩)
      | cons e rest =>
          have he := hit e List.mem_cons_self
          have hrest : ∀ e ∈ rest, e ∈ g₀.iqIndex := fun e he => hit e (List.mem_cons_of_mem _ he)
          unfold updateLoop
          refine (ends_findNext hmoves h start stop rest hrest).bind ?_
          rintro it g₁ ⟨h₁, passed, hpassed, hnone⟩
          have hmore : ∀ e ∈ it, e ∈ g₀.iqIndex := by
            intro e he
            exact hrest e (by rw [hpassed]; exact List.mem_append_right _ he)
          -- What the rest of the loop sees, with the entries passed over.
          have hall : ∀ {seenIds' : List BlockId}, e.id ∈ seenIds' →
              (∀ e ∈ it, HasEdgeIn (edgesOf blocks e) start stop → e.id ∈ seenIds') →
              ∀ e' ∈ e :: rest, HasEdgeIn (edgesOf blocks e') start stop → e'.id ∈ seenIds' := by
            intro seenIds' hself hseen e' he' hedge
            rcases List.mem_cons.mp he' with rfl | he'
            · exact hself
            · rw [hpassed] at he'
              rcases List.mem_append.mp he' with he' | he'
              · exact absurd hedge (hnone e' he')
              · exact hseen e' he' hedge
          split_ifs with hseen
          · refine (ih it hmore seenIds _ h₁).mono ?_ fun _ _ _ => trivial
            rintro - g' (hspent | ⟨seenIds', hsub, hvisited, hgoes⟩)
            · exact Or.inl hspent
            · exact Or.inr ⟨seenIds', hsub, hall (hsub hseen) hvisited, hgoes⟩
          · obtain ⟨block, t, part, hblock, -, hmoving⟩ := h₁.entries e he
            have htime := hmoving.time
            refine (ends_rewriteBlock hmoves h₁ he hblock htime ?_).bind ?_
            · rintro hstart hstop (hdone | ⟨hmem, -⟩)
              · exact hnot e he ((inSlice_iff hblock htime).mpr ⟨hstart, hstop⟩) hdone
              · exact hseen hmem
            · rintro - g₂ (hspent | ⟨stored₂, h₂⟩)
              · refine ((steps_frame.updateLoop start stop fuel it (e.id :: seenIds)) g₂).mono ?_
                  fun _ _ _ => trivial
                exact fun _ g' hsteps => Or.inl (lt_of_lt_of_le hspent (nextBlockId_le hsteps))
              · refine (ih it hmore (e.id :: seenIds) stored₂ (h₂.of_iff fun e' _ => ?_)).mono ?_
                  fun _ _ _ => trivial
                · rw [or_assoc, List.mem_cons, or_and_right, or_comm (a := e'.id = e.id ∧ _)]
                  refine or_congr_right (or_congr_right ?_)
                  refine and_congr_right fun heq => ?_
                  rw [heq]
                  exact inSlice_iff hblock htime
                · rintro - g' (hspent | ⟨seenIds', hsub, hvisited, hgoes⟩)
                  · exact Or.inl hspent
                  · exact Or.inr ⟨seenIds', fun id hid => hsub (List.mem_cons_of_mem _ hid),
                      hall (hsub List.mem_cons_self) hvisited, hgoes⟩

/-- A block whose time is in the slice has a list with an edge in it. -/
def Met (blocks : BlockId → Option (Block T (AttributeData schema)))
    (iqIndex : List (IntervalData T)) (start stop : T) : Prop :=
  ∀ e ∈ iqIndex, InSlice blocks start stop e.id →
    ∃ e' ∈ iqIndex, e'.id = e.id ∧ HasEdgeIn (edgesOf blocks e') start stop

/-- **Every block whose time is in a slice is rewritten.** -/
theorem ends_updateBlocks (hmoves : Moves schema Mid old new) (rtree : RTree T) {start stop : T}
    (hnot : ∀ e ∈ g₀.iqIndex, InSlice blocks start stop e.id → ¬ done e.id)
    (hmet : Met blocks g₀.iqIndex start stop) (h : Goes Mid old new blocks g₀ done g) :
    Ends (updateBlocks rtree start stop) g
      (fun _ g' => Goes Mid old new blocks g₀ (fun id => done id ∨ InSlice blocks start stop id) g')
      (fun _ _ => True) := by
  rcases h with hspent | ⟨stored, h⟩
  · refine ((steps_frame.updateBlocks rtree start stop) g).mono ?_ fun _ _ _ => trivial
    exact fun _ g' hsteps => Or.inl (lt_of_lt_of_le hspent (nextBlockId_le hsteps))
  have hvisit : ∀ e ∈ rtree.visit g.iqIndex start stop, e ∈ g₀.iqIndex := by
    intro e he
    rw [← h.shelved.same.iqIndex]
    exact rtree.mem_of_visit _ _ _ _ he
  have hquery : Ends (IntervalQueryIndex.query rtree start stop) g
      (fun it g' => Rewriting Mid old new blocks g₀ done stored g' ∧ ∃ passed,
        rtree.visit g.iqIndex start stop = passed ++ it ∧
        ∀ e ∈ passed, ¬ HasEdgeIn (edgesOf blocks e) start stop) (fun _ _ => True) := by
    refine (ends_intersectsWithQuery rtree start stop g).bind ?_
    rintro it g' ⟨rfl, rfl⟩
    exact ends_findNext hmoves h start stop _ hvisit
  unfold updateBlocks
  refine hquery.bind ?_
  rintro it g₁ ⟨h₁, passed, hpassed, hnone⟩
  have hit : ∀ e ∈ it, e ∈ g₀.iqIndex := by
    intro e he
    exact hvisit e (by rw [hpassed]; exact List.mem_append_right _ he)
  have hstart : Goes Mid old new blocks g₀
      (fun id => done id ∨ id ∈ [] ∧ InSlice blocks start stop id) g₁ :=
    Or.inr ⟨stored, h₁.of_iff fun e _ => or_iff_left fun hno => List.not_mem_nil hno.1⟩
  refine (ends_updateLoop hmoves hnot _ it hit [] hstart).mono ?_ fun _ _ _ => trivial
  rintro - g' (hspent | ⟨seenIds, -, hvisited, hspent | ⟨stored', h'⟩⟩)
  · exact Or.inl hspent
  · exact Or.inl hspent
  · refine Or.inr ⟨stored', h'.of_iff fun e he => or_congr_right ?_⟩
    refine ⟨fun hin => ⟨?_, hin⟩, fun hin => hin.2⟩
    obtain ⟨e', he', hid, hedge⟩ := hmet e he hin
    rw [← hid]
    refine hvisited e' ?_ hedge
    have hmem : e' ∈ rtree.visit g.iqIndex start stop := by
      have hmeets : ¬ (e'.intervalEnd < start ∨ stop ≤ e'.intervalStart) :=
        fun hout => h.outside he' hout hedge
      rw [not_or, not_lt, not_le] at hmeets
      refine rtree.visit_of_meets _ _ _ _ ?_ hmeets.2.le hmeets.1
      rw [h.shelved.same.iqIndex]
      exact he'
    rw [hpassed] at hmem
    exact (List.mem_append.mp hmem).resolve_left fun hno => hnone e' hno hedge

/-- **After all slices every block whose time is in one of them is rewritten.** -/
theorem ends_updateSlices (hmoves : Moves schema Mid old new) (rtree : RTree T)
    (slices : List (TimeSlicedPartitioning T))
    (hapart : slices.Pairwise fun s s' => ∀ id, InSlice blocks s.startTime s.endTime id →
      ¬ InSlice blocks s'.startTime s'.endTime id)
    (hnot : ∀ s ∈ slices, ∀ e ∈ g₀.iqIndex, InSlice blocks s.startTime s.endTime e.id → ¬ done e.id)
    (hmet : ∀ s ∈ slices, Met blocks g₀.iqIndex s.startTime s.endTime)
    (h : Goes Mid old new blocks g₀ done g) :
    Ends (updateSlices rtree slices) g
      (fun _ g' => Goes Mid old new blocks g₀
        (fun id => done id ∨ ∃ s ∈ slices, InSlice blocks s.startTime s.endTime id) g')
      (fun _ _ => True) := by
  induction slices generalizing g done with
  | nil =>
      refine Ends.pure (h.imp_right ?_)
      rintro ⟨stored, h⟩
      exact ⟨stored, h.of_iff fun e _ => or_iff_left fun hno => by simp at hno⟩
  | cons s slices ih =>
      obtain ⟨hfirst, hrest⟩ := List.pairwise_cons.mp hapart
      unfold updateSlices
      refine (ends_updateBlocks hmoves rtree (hnot s List.mem_cons_self) (hmet s List.mem_cons_self)
        h).bind fun _ g₁ h₁ => ?_
      refine (ih hrest ?_ (fun s' hs' => hmet s' (List.mem_cons_of_mem _ hs')) h₁).mono ?_
        fun _ _ _ => trivial
      · rintro s' hs' e he hin (hdone | hin')
        · exact hnot s' (List.mem_cons_of_mem _ hs') e he hin hdone
        · exact hfirst s' hs' e.id hin' hin
      · intro _ g' h'
        refine h'.imp_right ?_
        rintro ⟨stored, h'⟩
        refine ⟨stored, h'.of_iff fun e _ => ?_⟩
        simp only [List.mem_cons, exists_eq_or_imp, or_assoc]

/-! ### The whole call -/

theorem forSlices_eq_ok {T : Type} {g g' : HistoricalGraph P T schema}
    {f : P → TimeSlicedPartitioning T → Except Fault P} (l : List (TimeSlicedPartitioning T))
    (h : (forSlices f l : Storage P T schema Unit) g = .ok () g') :
    ∃ idx, l.foldlM f g.partIndex = .ok idx ∧ g' = { g with partIndex := idx } := by
  induction l generalizing g with
  | nil => exact ⟨g.partIndex, rfl, ((EStateM.Result.ok.injEq ..).mp h).2.symm⟩
  | cons s l ih =>
      obtain ⟨u, g₁, hone, hrest⟩ := run_bind_eq_ok.mp h
      obtain ⟨idx, hf, hg₁⟩ := onIndex_eq_ok hone
      obtain ⟨idx', hf', heq⟩ := Except.map_eq_ok.mp hf
      obtain ⟨idx'', hfold, hg'⟩ := ih hrest
      refine ⟨idx'', ?_, by rw [hg', hg₁]⟩
      rw [List.foldlM_cons, hf', Except.ok_bind, (Prod.mk.inj heq).2]
      rw [hg₁] at hfold
      exact hfold

/-- **Replacing slices keeps every block**: a call that returns leaves the blocks filed as they were,
each in the parts of the slice its time is in now. -/
theorem Files.replaceSlices {Ok Ok' : P → Prop} (hmoves : Moves schema Mid old new)
    (h : Files Ok old stored blocks g) (hroom : 1 ≤ g.bman.blockBufferSize)
    (hblocks : ∀ e ∈ g.iqIndex, ∀ block, blocks e.id = some block → block.ShortTexts ∧
      ∀ t, block.getPartitioningTimestamp = .ok t → new t ≠ none)
    (hrest : ∀ id b, stored id = some b → (∀ w, b.neigs.edges w = []) → LaidBy new b)
    {removed added updated : List (TimeSlicedPartitioning T)} {rtree : RTree T}
    (henter : ∀ idx₁ idx₂, removed.foldlM SliceIndex.initiatePartitioningRemoval g.partIndex
      = .ok idx₁ → added.foldlM SliceIndex.addPartitioning idx₁ = .ok idx₂ → Mid idx₂)
    (hleave : ∀ idx, Mid idx → Ok' (SliceIndex.completePartitioningRemovals idx))
    (hapart : updated.Pairwise fun s s' => ∀ t, s.startTime ≤ t → t < s.endTime →
      ¬ (s'.startTime ≤ t ∧ t < s'.endTime))
    (hmet : ∀ s ∈ updated, Met blocks g.iqIndex s.startTime s.endTime)
    (hsame : ∀ t, (∀ s ∈ updated, ¬ (s.startTime ≤ t ∧ t < s.endTime)) → old t = new t)
    (hrun : (replaceSlices rtree removed added updated : Storage P T schema Unit) g = .ok () g') :
    2 ^ 64 < g'.metaData.nextBlockId ∨
      ∃ stored', Files Ok' new stored' blocks g' ∧ Block.AddsOnly g g' := by
  unfold PartitionIndex.replaceSlices at hrun
  obtain ⟨_, g₁, hremove, hrun⟩ := run_bind_eq_ok.mp hrun
  obtain ⟨_, g₂, hadd, hrun⟩ := run_bind_eq_ok.mp hrun
  obtain ⟨_, g₃, hupdate, hdone⟩ := run_bind_eq_ok.mp hrun
  have hg' : g' = { g₃ with partIndex := SliceIndex.completePartitioningRemovals g₃.partIndex } :=
    ((EStateM.Result.ok.injEq ..).mp hdone).2.symm
  obtain ⟨idx₁, hfold₁, hg₁⟩ := forSlices_eq_ok removed hremove
  obtain ⟨idx₂, hfold₂, hg₂⟩ := forSlices_eq_ok added hadd
  rw [hg₁] at hfold₂ hg₂
  have hstart : Rewriting Mid old new blocks g (fun _ => False) stored g₂ := by
    rw [hg₂]
    exact h.rewriting hroom hblocks hrest (henter idx₁ idx₂ hfold₁ hfold₂)
  have hslices : updated.Pairwise fun s s' => ∀ id, InSlice blocks s.startTime s.endTime id →
      ¬ InSlice blocks s'.startTime s'.endTime id := by
    refine hapart.imp ?_
    rintro s s' hno id ⟨block, t, hblock, htime, hstart, hstop⟩ hin
    exact hno t hstart hstop ((inSlice_iff hblock htime).mp hin)
  rw [hg']
  rcases (ends_updateSlices hmoves rtree updated hslices (fun _ _ _ _ _ hno => hno) hmet
    (Or.inr ⟨stored, hstart⟩)).of_ok hupdate with hspent | ⟨stored', h'⟩
  · exact Or.inl hspent
  · refine Or.inr ⟨stored', h'.files h.catalog h.listed ?_ (hleave _ h'.shelved.shelved.index),
      h'.shelved.same.trans ⟨rfl, rfl, rfl, rfl⟩⟩
    intro e he block t hblock htime
    by_cases hin : ∃ s ∈ updated, s.startTime ≤ t ∧ t < s.endTime
    · obtain ⟨s, hs, hbetween⟩ := hin
      exact Or.inl (Or.inr ⟨s, hs, (inSlice_iff hblock htime).mpr hbetween⟩)
    · refine Or.inr (hsame t fun s hs hbetween => hin ⟨s, hs, hbetween⟩)

end PartitionIndex

end RailwayDB
