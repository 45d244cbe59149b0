/-
Replacing the blocks of a master while two partitionings are in use.

While the blocks of a slice are rewritten the index reads by the partitioning that goes
and writes by the one that comes.  A sub-block that was written is not read again before
the change is over, so a block has to be laid out the old way only when it is read.  A
block that does not fit makes the call throw; nothing is said of that.
-/
import RailwayDB.Proofs.FiledBlocks

namespace RailwayDB

open Storage BlockManager

variable {P T : Type} {schema : Schema}

/-! ### Data that was put together again -/

namespace AttributeData

variable {data data' : AttributeData schema} {attributes : List Text}

theorem select_congr (h : ∀ i, data'.find? i = data.find? i) (attributes : List Text) :
    data'.select attributes = data.select attributes := by
  have hcopy : data'.copyAttribute = data.copyAttribute := by
    funext sdata name
    unfold copyAttribute getAttribute
    simp only [h]
  unfold select
  rw [hcopy]

theorem short_picked (hfull : data.Full) (hnames : schema.Has attributes) (h : data.Short) :
    (Block.picked attributes data).Short := by
  intro f hf
  have hfind := find?_picked hfull hnames f.1
  rw [find?_eq_some.mpr hf] at hfind
  split_ifs at hfind with hi
  exact h f (find?_eq_some.mp hfind.symm)

/-- Data with the values of other data under the indices of the schema. -/
theorem full_of_find? (hfull : data.Full) (hkeys : data'.keys = (new schema).keys)
    (h : ∀ i, data'.find? i = data.find? i) : data'.Full := by
  refine ⟨?_, ?_⟩
  · intro f hf
    have hfind := h f.1
    rw [find?_eq_some.mpr hf] at hfind
    exact hfull.typed f (find?_eq_some.mp hfind.symm)
  · intro i
    rw [hkeys, mem_keys_new]

end AttributeData

/-! ### Blocks laid out by a partitioning -/

namespace Block

variable [LinearOrder T] {block block' : Block T (AttributeData schema)} {part : Partitioning}
  {stored stored' : BlockId → Option (Block T (AttributeData schema))} {id : BlockId}

/-- A block without long texts comes back as it is. -/
theorem comesBack_refl (hformed : block.Formed) (hshort : block.ShortTexts) :
    ComesBack block block := by
  refine ⟨hformed, rfl, rfl, rfl, ?_⟩
  intro v
  unfold contents
  rw [List.map_map]
  refine List.map_congr_left fun e he => ?_
  simp only [Function.comp_apply, AttributeData.wire_eq_self.mpr (hshort v e he)]

/-- The layout of a master is that of every partitioning. -/
theorem Laid.of_master {T : Type} {block : Block T (AttributeData schema)} (h : block.Laid part)
    (hmaster : block.partition = -1) (part' : Partitioning) : block.Laid part' := by
  rcases h with h | ⟨i, -, hi, -⟩
  · exact Or.inl h
  · rw [hmaster] at hi
    omega

variable [Timestamp T] [BlockTime T]

theorem getPartitioningTimestamp_congr {T : Type} [LinearOrder T]
    {block block' : Block T (AttributeData schema)} [BlockTime T] (h : block.Formed)
    (h' : block'.Formed) (hends : ∀ v, ends (block'.neigs.edges v) = ends (block.neigs.edges v)) :
    block'.getPartitioningTimestamp = block.getPartitioningTimestamp := by
  obtain ⟨F, seen, hbuilt, -⟩ := h
  obtain ⟨F', seen', hbuilt', -⟩ := h'
  unfold getPartitioningTimestamp
  rw [findMinMaxTimestamps_congr hbuilt.lists hbuilt'.lists hends]

/-- A block stored in the parts of `part`, which a reader that has `part` reads. -/
structure StoredIn (part : Partitioning)
    (stored : BlockId → Option (Block T (AttributeData schema))) (id : BlockId)
    (block : Block T (AttributeData schema)) : Prop where
  formed : block.Formed
  full : block.FullData
  short : block.ShortTexts
  master : ∃ master, stored id = some master ∧ master.partition = -1 ∧ master.subBlocks ≠ [] ∧
    (∀ v, ends (master.neigs.edges v) = ends (block.neigs.edges v)) ∧
    List.Forall₂ (StoredPart block stored) master.subBlocks part
  laid : ∀ i ∈ family stored id, ∃ b, stored i = some b ∧ b.Formed ∧
    (∀ v, ends (b.neigs.edges v) = ends (block.neigs.edges v)) ∧ b.Laid part

/-- Only the blocks of the family matter. -/
theorem StoredIn.congr {T : Type} [LinearOrder T] {block : Block T (AttributeData schema)}
    {stored stored' : BlockId → Option (Block T (AttributeData schema))}
    (h : block.StoredIn part stored id) (hsame : ∀ i ∈ family stored id, stored' i = stored i) :
    block.StoredIn part stored' id := by
  obtain ⟨hformed, hfull, hshort, ⟨master, hmaster, hpartition, hne, hends, hparts⟩, hlaid⟩ := h
  have hid := hsame id (mem_family_self id)
  have hfamily : family stored' id = family stored id := by
    unfold family
    rw [hid]
  refine ⟨hformed, hfull, hshort, ⟨master, hid.trans hmaster, hpartition, hne, hends, ?_⟩, ?_⟩
  · refine List.forall₂_iff_get.mpr ?_
    obtain ⟨hlength, hall⟩ := List.forall₂_iff_get.mp hparts
    refine ⟨hlength, fun k hk hk' => ?_⟩
    obtain ⟨sub, hsub, hedges⟩ := hall k hk hk'
    refine ⟨sub, ?_, hedges⟩
    rw [hsame, hsub]
    rw [family_eq hmaster]
    exact List.mem_cons_of_mem _ (List.get_mem _ _)
  · intro i hi
    rw [hfamily] at hi
    rw [hsame i hi]
    exact hlaid i hi

section Index

variable [SliceIndex P T] {parts : T → Option Partitioning} {t : T}

theorem StoredIn.apart {T : Type} [LinearOrder T] {block : Block T (AttributeData schema)}
    {stored : BlockId → Option (Block T (AttributeData schema))} [BlockTime T]
    {parts : T → Option Partitioning} {t : T} (h : block.StoredIn part stored id)
    (htime : block.getPartitioningTimestamp = .ok t) (hpart : parts t = some part) :
    block.StoredApart parts stored id := by
  obtain ⟨hformed, hfull, -, ⟨master, hmaster, hpartition, hne, hends, hparts⟩, -⟩ := h
  exact ⟨hformed, hfull, master, t, part, hmaster, hpartition, hne, hends, htime, hpart, hparts⟩

/-- The blocks of the family are read by the partitioning of their time. -/
theorem StoredIn.laidBy {T : Type} [LinearOrder T] {block : Block T (AttributeData schema)}
    {stored : BlockId → Option (Block T (AttributeData schema))} [BlockTime T]
    {parts : T → Option Partitioning} {t : T} (h : block.StoredIn part stored id)
    (htime : block.getPartitioningTimestamp = .ok t) (hpart : parts t = some part) {i : BlockId}
    (hi : i ∈ family stored id) {b : Block T (AttributeData schema)} (hb : stored i = some b) :
    LaidBy parts b := by
  obtain ⟨b', hb', hformed, hends, hlaid⟩ := h.laid i hi
  rw [hb', Option.some.injEq] at hb
  rw [hb] at hformed hends hlaid
  exact ⟨hformed, t, part, (getPartitioningTimestamp_congr h.formed hformed hends).trans htime, hpart,
    hlaid⟩

/-- The master is read by every partitioning. -/
theorem StoredIn.laidBy_master {T : Type} [LinearOrder T] {block : Block T (AttributeData schema)}
    {stored : BlockId → Option (Block T (AttributeData schema))} [BlockTime T]
    {parts : T → Option Partitioning} {t : T} (h : block.StoredIn part stored id)
    (htime : block.getPartitioningTimestamp = .ok t) {part' : Partitioning}
    (hpart : parts t = some part') {b : Block T (AttributeData schema)} (hb : stored id = some b) :
    LaidBy parts b := by
  obtain ⟨master, hmaster, hpartition, -⟩ := h.master
  obtain ⟨b', hb', hformed, hends, hlaid⟩ := h.laid id (mem_family_self id)
  rw [hb', Option.some.injEq] at hb
  rw [hmaster, Option.some.injEq] at hb'
  rw [← hb'] at hb
  rw [← hb', hb] at hformed hends hlaid
  rw [hb] at hpartition
  exact ⟨hformed, t, part', (getPartitioningTimestamp_congr h.formed hformed hends).trans htime, hpart,
    hlaid.of_master hpartition part'⟩

/-- A block that is held is stored in the parts of the partitioning of its time. -/
theorem StoredApart.storedIn {P : Type} {Ok : P → Prop}
    {R : Block T (AttributeData schema) → Block T (AttributeData schema) → Prop}
    {g : HistoricalGraph P T schema} (h : block.StoredApart parts stored id)
    (hheld : Held Ok parts R stored g) (hshort : block.ShortTexts)
    (htime : block.getPartitioningTimestamp = .ok t) (hpart : parts t = some part) :
    block.StoredIn part stored id := by
  obtain ⟨hformed, hfull, master, t', part', hmaster, hpartition, hne, hends, htime', hpart',
    hparts⟩ := h
  rw [htime, Except.ok.injEq] at htime'
  rw [← htime', hpart, Option.some.injEq] at hpart'
  rw [← hpart'] at hparts
  refine ⟨hformed, hfull, hshort, ⟨master, hmaster, hpartition, hne, hends, hparts⟩, ?_⟩
  have hlaid : ∀ {i b}, stored i = some b →
      (∀ v, ends (b.neigs.edges v) = ends (block.neigs.edges v)) →
      ∃ b, stored i = some b ∧ b.Formed ∧
        (∀ v, ends (b.neigs.edges v) = ends (block.neigs.edges v)) ∧ b.Laid part := by
    intro i b hb hsame
    obtain ⟨hformed', t₁, part₁, htime₁, hpart₁, hlaid⟩ := hheld.laid hb
    rw [getPartitioningTimestamp_congr hformed hformed' hsame, htime, Except.ok.injEq] at htime₁
    rw [← htime₁, hpart, Option.some.injEq] at hpart₁
    rw [← hpart₁] at hlaid
    exact ⟨b, hb, hformed', hsame, hlaid⟩
  intro i hi
  rw [family_eq hmaster] at hi
  rcases List.mem_cons.mp hi with heq | hi
  · rw [heq]
    exact hlaid hmaster hends
  · obtain ⟨attributes, sub, hsub, hedges⟩ := exists_storedPart hparts i hi
    exact hlaid hsub fun v => ends_of_contents (hedges v)

end Index

/-! ### The blocks of another partitioning -/

/-- The sub-blocks of a master have been replaced: `subs` are there under `ids`. -/
structure Replaced (stored stored' : BlockId → Option (Block T (AttributeData schema)))
    (id : BlockId) (subBlocks : List BlockId) (newMaster : Block T (AttributeData schema))
    (subs : List (Block T (AttributeData schema))) (ids : List BlockId) : Prop where
  master : stored' id = some { newMaster with id := id, subBlocks := ids }
  nodup : (id :: ids).Nodup
  subs : List.Forall₂ (fun i sub => stored' i = some { sub with id := i }) ids subs
  known : ∀ i ∈ ids, i ∈ subBlocks ∨ stored i = none
  gone : ∀ i ∈ subBlocks, i ∉ ids → stored' i = none
  other : ∀ i, i ∉ id :: subBlocks → i ∉ ids → stored' i = stored i

/-- What the parts of a block make when they are put together. -/
def Joined (part : Partitioning) (block block' : Block T (AttributeData schema)) : Prop :=
  ∀ v, contents (block'.neigs.edges v) = (contents (block.neigs.edges v)).map
    fun p => (p.1, p.2.1, AttributeData.recombined part p.2.2)

/-- An edge of the joined block has the values of an edge of the block. -/
theorem Joined.find? {T : Type} {block block' : Block T (AttributeData schema)}
    (h : Joined part block block') (hfull : block.FullData) (hshort : block.ShortTexts)
    (hnames : ∀ attributes ∈ part, schema.Has attributes)
    (hcovers : AttributeData.Covers schema part) {v : VertexId}
    {e' : NLEdge T (AttributeData schema)} (he' : e' ∈ block'.neigs.edges v) :
    ∃ e ∈ block.neigs.edges v, e'.data.val.keys = (AttributeData.new schema).keys ∧
      ∀ i, e'.data.val.find? i = e.data.val.find? i := by
  obtain ⟨e, he, -, -, hval⟩ := mem_of_contents (h v) he'
  rw [hval]
  exact ⟨e, he, AttributeData.keys_recombined part e.data.val,
    (AttributeData.recombined_same_iff (hfull v e he) hnames hcovers).mpr (hshort v e he)⟩

theorem Joined.full {T : Type} {block block' : Block T (AttributeData schema)}
    (h : Joined part block block') (hfull : block.FullData) (hshort : block.ShortTexts)
    (hnames : ∀ attributes ∈ part, schema.Has attributes)
    (hcovers : AttributeData.Covers schema part) : block'.FullData ∧ block'.ShortTexts := by
  refine ⟨?_, ?_⟩
  · intro v e' he'
    obtain ⟨e, he, hkeys, hfind⟩ := h.find? hfull hshort hnames hcovers he'
    exact AttributeData.full_of_find? (hfull v e he) hkeys hfind
  · intro v e' he' f hf
    obtain ⟨e, he, -, hfind⟩ := h.find? hfull hshort hnames hcovers he'
    have hsame := hfind f.1
    rw [AttributeData.find?_eq_some.mpr hf] at hsame
    exact hshort v e he f (AttributeData.find?_eq_some.mp hsame.symm)

/-- A part of the joined block is a part of the block. -/
theorem Joined.picked {T : Type} {block block' : Block T (AttributeData schema)}
    (h : Joined part block block') (hfull : block.FullData) (hshort : block.ShortTexts)
    (hnames : ∀ attributes ∈ part, schema.Has attributes)
    (hcovers : AttributeData.Covers schema part) (attributes : List Text) (v : VertexId) :
    (contents (block'.neigs.edges v)).map (fun p => (p.1, p.2.1, Block.picked attributes p.2.2))
      = (contents (block.neigs.edges v)).map
        fun p => (p.1, p.2.1, Block.picked attributes p.2.2) := by
  rw [h v, List.map_map]
  refine List.map_congr_left fun p hp => ?_
  obtain ⟨e, he, rfl⟩ := List.mem_map.mp hp
  have hsame := (AttributeData.recombined_same_iff (hfull v e he) hnames hcovers).mpr (hshort v e he)
  simp only [Function.comp_apply]
  unfold Block.picked
  rw [AttributeData.select_congr hsame]

section Split

variable [SliceIndex P T] {parts : T → Option Partitioning} {newPart : Partitioning}
  {newMaster : Block T (AttributeData schema)} {subs : List (Block T (AttributeData schema))}

theorem Split.length_subs {T : Type} [LinearOrder T]
    {block newMaster : Block T (AttributeData schema)}
    {subs : List (Block T (AttributeData schema))} (h : Split newPart block newMaster subs) :
    subs.length = newPart.length := by
  have hzip := h.subs.length_eq
  rw [List.length_zipIdx] at hzip
  exact hzip.symm

/-- No text of a sub-block is too long when none of the block is. -/
theorem Split.shortTexts {T : Type} [LinearOrder T]
    {block newMaster : Block T (AttributeData schema)}
    {subs : List (Block T (AttributeData schema))} (h : Split newPart block newMaster subs)
    (hfull : block.FullData) (hshort : block.ShortTexts)
    (hnames : ∀ attributes ∈ newPart, schema.Has attributes) :
    newMaster.ShortTexts ∧ ∀ sub ∈ subs, sub.ShortTexts := by
  refine ⟨?_, ?_⟩
  · intro v e he
    obtain ⟨-, -, -, -, hval⟩ :=
      mem_of_contents (g := fun _ => .empty schema) (h.master.edges v) he
    rw [hval]
    exact fun f hf => absurd hf List.not_mem_nil
  · intro sub hsub v e he
    obtain ⟨i, hget⟩ := List.getElem?_of_mem hsub
    obtain ⟨attributes, hattributes, hderived⟩ := h.sub_of_getElem? hget
    obtain ⟨e₀, he₀, -, -, hval⟩ := mem_of_contents (hderived.edges v) he
    rw [hval]
    exact AttributeData.short_picked (hfull v e₀ he₀)
      (hnames _ (List.mem_of_getElem? hattributes)) (hshort v e₀ he₀)

/-- A master with its sub-blocks is laid out by every partitioning. -/
theorem Split.laidBy_master {T : Type} [LinearOrder T] {block : Block T (AttributeData schema)}
    [BlockTime T] {parts : T → Option Partitioning} {newMaster : Block T (AttributeData schema)}
    {subs : List (Block T (AttributeData schema))} (h : Split newPart block newMaster subs)
    (hformed : block.Formed) {t : T} (htime : block.getPartitioningTimestamp = .ok t)
    {part : Partitioning} (hpart : parts t = some part) {ids : List BlockId} (hids : ids ≠ []) :
    LaidBy parts { newMaster with subBlocks := ids } := by
  have hstored : StoredAs newMaster { newMaster with subBlocks := ids } :=
    ⟨rfl, rfl, List.Perm.refl _⟩
  exact h.master.laidBy hstored hformed htime hpart (h.master.laid_master hstored hids)

end Split

variable {newPart : Partitioning} {newMaster : Block T (AttributeData schema)}
  {subs : List (Block T (AttributeData schema))} {subBlocks ids : List BlockId}

/-- **A block whose parts were joined, split anew and put in place is stored in the new parts.** -/
theorem StoredIn.replaced {T : Type} [LinearOrder T] {block block' : Block T (AttributeData schema)}
    {stored stored' : BlockId → Option (Block T (AttributeData schema))}
    {newMaster : Block T (AttributeData schema)} {subs : List (Block T (AttributeData schema))}
    (h : block.StoredIn part stored id) (hjoined : Joined part block block')
    (hnames : ∀ attributes ∈ part, schema.Has attributes)
    (hcovers : AttributeData.Covers schema part) (hne : newPart ≠ [])
    (hnames' : ∀ attributes ∈ newPart, schema.Has attributes) (hlength : newPart.length ≤ 2 ^ 31)
    (hsplit : Split newPart block' newMaster subs)
    (hreplaced : Replaced stored stored' id subBlocks newMaster subs ids) :
    block.StoredIn newPart stored' id := by
  obtain ⟨hfull', -⟩ := hjoined.full h.full h.short hnames hcovers
  have hends' : ∀ v, ends (block'.neigs.edges v) = ends (block.neigs.edges v) :=
    fun v => ends_of_contents (hjoined v)
  have hids : ids ≠ [] := by
    intro hnil
    have hlength := hreplaced.subs.length_eq
    rw [hnil, hsplit.length_subs, List.length_nil] at hlength
    exact hne (List.length_eq_zero_iff.mp hlength.symm)
  have hmaster : StoredAs newMaster { newMaster with id := id, subBlocks := ids } :=
    ⟨rfl, rfl, List.Perm.refl _⟩
  have hparts : List.Forall₂ (StoredPart block stored') ids newPart := by
    refine (hsplit.storedParts hreplaced.subs).imp ?_
    rintro i attributes ⟨sub, hsub, hedges⟩
    exact ⟨sub, hsub, fun v => (hedges v).trans
      (hjoined.picked h.full h.short hnames hcovers attributes v)⟩
  refine ⟨h.formed, h.full, h.short, ⟨_, hreplaced.master, hsplit.master.partition, hids, ?_, hparts⟩,
    ?_⟩
  · intro v
    rw [← hends' v]
    exact ends_of_contents (g := fun _ => .empty schema) (hsplit.master.edges v)
  · intro i hi
    rw [family_eq hreplaced.master] at hi
    rcases List.mem_cons.mp hi with heq | hi
    · rw [heq]
      obtain ⟨hformed, -, hedges⟩ := hsplit.master.stored hmaster
      exact ⟨_, hreplaced.master, hformed, fun v => (ends_of_contents (g := fun _ => .empty schema)
        (hedges v)).trans (hends' v), hsplit.master.laid_master hmaster hids⟩
    · obtain ⟨k, hk, hget⟩ := List.getElem_of_mem (show i ∈ ids from hi)
      obtain ⟨hlen, hall⟩ := List.forall₂_iff_get.mp hreplaced.subs
      have hks : k < subs.length := by omega
      have hsub := hall k hk hks
      rw [List.get_eq_getElem, List.get_eq_getElem, hget] at hsub
      obtain ⟨attributes, hattributes, hderived⟩ :=
        hsplit.sub_of_getElem? (List.getElem?_eq_getElem hks)
      have hstored : StoredAs subs[k] { subs[k] with id := i } := ⟨rfl, rfl, List.Perm.refl _⟩
      obtain ⟨hformed, -, hedges⟩ := hderived.stored hstored
      have hlt : k < newPart.length := (List.getElem?_eq_some_iff.mp hattributes).1
      exact ⟨_, hsub, hformed, fun v => (ends_of_contents (hedges v)).trans (hends' v),
        hderived.laid_sub hfull' (hnames' _ (List.mem_of_getElem? hattributes)) (by omega) hattributes
          hstored⟩

end Block

/-! ### The manager meanwhile -/

namespace BlockManager

variable [LinearOrder T] [Timestamp T] [BlockTime T] [SliceIndex P T] {Mid : P → Prop}
  {old new : T → Option Partitioning} {stored : Blocks T schema} {g g₀ : HistoricalGraph P T schema}
  {block : Block T (AttributeData schema)}

/-- Blocks come and go, and the rest of the state is that of `g₀`. -/
structure ShelvedFrom (Mid : P → Prop) (g₀ : HistoricalGraph P T schema) (stored : Blocks T schema)
    (g : HistoricalGraph P T schema) : Prop where
  shelved : Shelved Mid Block.ComesBack stored g
  room : 1 ≤ g.bman.blockBufferSize
  same : Block.AddsOnly g₀ g

/-- What is written is laid out the new way. -/
structure Writable (new : T → Option Partitioning) (block : Block T (AttributeData schema)) : Prop where
  laid : LaidBy new block
  short : block.ShortTexts

theorem Writable.withId {T : Type} [LinearOrder T] [BlockTime T] {new : T → Option Partitioning}
    {block : Block T (AttributeData schema)} (h : Writable new block) (id : BlockId) :
    Writable new { block with id := id } := ⟨h.laid.withId id, h.short⟩

theorem Writable.comesBack {T : Type} [LinearOrder T] [BlockTime T] {new : T → Option Partitioning}
    {block : Block T (AttributeData schema)} (h : Writable new block) :
    Block.ComesBack block block :=
  Block.comesBack_refl h.laid.1 h.short

theorem ends_addBlock_shelved {P : Type} {Mid : P → Prop} {g g₀ : HistoricalGraph P T schema}
    (h : ShelvedFrom Mid g₀ stored g) (hblock : Writable new block)
    (hnone : stored g.metaData.blockId = none) :
    Ends (addBlock block) g
      (fun added g' => added = { block with id := g.metaData.blockId } ∧
        ShelvedFrom Mid g₀ (Function.update stored g.metaData.blockId
          (some { block with id := g.metaData.blockId })) g' ∧
        g'.metaData.nextBlockId = g.metaData.nextBlockId + 1) (fun _ _ => True) := by
  have hmiss : g.bman.cache.lookup g.metaData.blockId = none := by
    rw [Option.eq_none_iff_forall_ne_some]
    intro entry hentry
    obtain ⟨b, hb, -⟩ := h.shelved.cached _ entry hentry
    rw [hnone] at hb
    cases hb
  by_cases hfit : ({ block with id := g.metaData.blockId } : Block T _).encoding.length ≤ 2 ^ 32
  · obtain ⟨g', hrun, hshelved, hsize, hiq, hfiq, hmeta, -⟩ :=
      h.shelved.addBlock_ok hblock.laid hfit (fun _ hback => hback) hmiss
    refine .of_run hrun ⟨rfl, ⟨hshelved, by rw [hsize]; exact h.room,
      h.same.trans ⟨hsize, hiq, hfiq, by rw [hmeta]⟩⟩, by rw [hmeta]⟩
  · rw [Ends, addBlock_full hblock.laid (Nat.lt_of_not_le hfit)]
    trivial

theorem ends_updateBlock_shelved (hreads : ReadsBy Mid old) (h : ShelvedFrom Mid g₀ stored g)
    (hblock : Writable new block) {was : Block T (AttributeData schema)}
    (hwas : stored block.id = some was) (hreadable : LaidBy old was) :
    Ends (updateBlock block) g
      (fun _ g' => ShelvedFrom Mid g₀ (Function.update stored block.id (some block)) g' ∧
        g'.metaData.nextBlockId = g.metaData.nextBlockId) (fun _ _ => True) := by
  by_cases hfit : block.encoding.length ≤ 2 ^ 32
  · obtain ⟨g', hrun, hshelved, hsize, hiq, hfiq, hmeta⟩ :=
      h.shelved.updateBlock_ok hreads (fun _ _ hb => hb.id) h.room hwas hreadable hblock.laid hfit
        (fun _ hback => hback) hblock.comesBack
    exact .of_run hrun ⟨⟨hshelved, by rw [hsize]; exact h.room,
      h.same.trans ⟨hsize, hiq, hfiq, by rw [hmeta]⟩⟩, by rw [hmeta]⟩
  · obtain ⟨b, g₁, hget, -⟩ :=
      h.shelved.getBlock_ok hreads (fun _ _ hb => hb.id) h.room hwas hreadable
    unfold updateBlock
    rw [Ends, run_bind_ok hget, modifyBlocks_bind, put_full hblock.laid (Nat.lt_of_not_le hfit)]
    trivial

/-- The manager acts as a map on the blocks that can still be read. -/
theorem shelved_actsOn (hreads : ReadsBy Mid old) (g₀ : HistoricalGraph P T schema) :
    ActsOn (ShelvedFrom Mid g₀) (Writable new) (LaidBy old) fun _ _ => True := by
  refine ⟨ends_addBlock_shelved, fun h hblock hwas => ends_updateBlock_shelved hreads h hblock hwas,
    ?_, fun id h => h.withId id⟩
  intro stored g id h
  obtain ⟨g', hrun, hshelved, hsize, hiq, hfiq, hmeta⟩ := h.shelved.removeBlock_ok id
  exact .of_run hrun ⟨⟨hshelved, by rw [hsize]; exact h.room,
    h.same.trans ⟨hsize, hiq, hfiq, by rw [hmeta]⟩⟩, by rw [hmeta]⟩

end BlockManager

namespace PartitionIndex

section Replace

variable [LinearOrder T] [Timestamp T] [BlockTime T] [SliceIndex P T]
  {R : Blocks T schema → HistoricalGraph P T schema → Prop}
  {Fits Open : Block T (AttributeData schema) → Prop}
  {E : Fault → HistoricalGraph P T schema → Prop} {stored : Blocks T schema}
  {newMaster masterBlock was : Block T (AttributeData schema)}
  {newSubs : List (Block T (AttributeData schema))} {g : HistoricalGraph P T schema}

/-- A new id is one of the old ones that stays, or one that no block has. -/
theorem mem_newIds {T : Type} {stored : Blocks T schema} {g : HistoricalGraph P T schema}
    {subBlocks : List BlockId} {id master : BlockId} {n : Nat} (hids : (master :: subBlocks).Nodup)
    (hmaster : stored master ≠ none) (hstored : ∀ id ∈ subBlocks, stored id ≠ none)
    (habove : Block.FreshIds stored g)
    (hroom : g.metaData.nextBlockId + (n - subBlocks.length) ≤ 2 ^ 64)
    (hid : id ∈ newIds subBlocks n g.metaData.nextBlockId) :
    (id ∈ subBlocks ∨ stored id = none) ∧ id ∉ subBlocks.drop n ∧ id ≠ master := by
  obtain ⟨hown, hnodup⟩ := List.nodup_cons.mp hids
  rcases List.mem_append.mp hid with hold | hnext
  · refine ⟨Or.inl (List.mem_of_mem_take hold),
      List.disjoint_take_drop hnodup (Nat.min_le_right _ _) hold, ?_⟩
    intro heq
    rw [heq] at hold
    exact hown (List.mem_of_mem_take hold)
  · have hunstored := nextIds_unstored habove hroom id hnext
    refine ⟨Or.inr hunstored, fun hdrop => hstored id (List.mem_of_mem_drop hdrop) hunstored, ?_⟩
    intro heq
    rw [heq] at hunstored
    exact hmaster hunstored

/-- **The sub-blocks of a master are replaced**: the new ones get the ids of the old as far as they
go and new ones beyond, and old ones beyond are gone. -/
theorem ends_replaceCounted (hacts : ActsOn R Fits Open E) (h : R stored g)
    (hwas : stored masterBlock.id = some was) (hopen : Open was)
    (hids : (masterBlock.id :: masterBlock.subBlocks).Nodup)
    (hstored : ∀ id ∈ masterBlock.subBlocks, ∃ b, stored id = some b ∧ Open b)
    (habove : Block.FreshIds stored g)
    (hroom : g.metaData.nextBlockId + (newSubs.length - masterBlock.subBlocks.length) ≤ 2 ^ 64)
    (hnone : newMaster.subBlocks = []) (hfits : ∀ b ∈ newSubs, Fits b)
    (hfitsMaster : ∀ ids : List BlockId, ids.length = newSubs.length →
      Fits { newMaster with subBlocks := ids }) :
    Ends (replaceCounted masterBlock (newMaster :: newSubs)
        (min masterBlock.subBlocks.length newSubs.length)
        (newSubs.length - masterBlock.subBlocks.length)
        (masterBlock.subBlocks.length - newSubs.length)) g
      (fun _ g' => ∃ stored' ids, R stored' g' ∧ Block.FreshIds stored' g' ∧
        Block.Replaced stored stored' masterBlock.id masterBlock.subBlocks newMaster newSubs ids)
      E := by
  have hown := (List.nodup_cons.mp hids).1
  have hnodup := (List.nodup_cons.mp hids).2
  have hthere : ∀ id ∈ masterBlock.subBlocks, stored id ≠ none := fun id hid =>
    (hstored id hid).elim fun b hb => by rw [hb.1]; exact Option.some_ne_none _
  have hmem : ∀ id ∈ newIds masterBlock.subBlocks newSubs.length g.metaData.nextBlockId,
      (id ∈ masterBlock.subBlocks ∨ stored id = none) ∧
        id ∉ masterBlock.subBlocks.drop newSubs.length ∧ id ≠ masterBlock.id :=
    fun id => mem_newIds hids (by rw [hwas]; exact Option.some_ne_none _) hthere habove hroom
  unfold replaceCounted
  rw [← bind_assoc]
  refine (ends_subBlocks newMaster hacts hfits hnodup hstored habove hroom h).bind ?_
  rintro newBlocks g₂ ⟨rfl, hnext, stored₂, hR₂, hplaced⟩
  rw [List.length_cons, length_named]
  refine (ends_removeSubBlocks hacts
    (le_refl (masterBlock.subBlocks.length - newSubs.length)) hR₂).bind ?_
  rintro - g₃ ⟨hnext₃, stored₃, hR₃, hgone, hrest⟩
  rw [List.take_of_length_le (le_of_eq List.length_drop)] at hgone hrest
  have hmaster : stored₃ masterBlock.id = some was := by
    rw [hrest _ fun hdrop => hown (List.mem_of_mem_drop hdrop),
      hplaced.old _ fun hid => (hmem _ hid).2.2 rfl]
    exact hwas
  rw [Ends, ofResult_bind_ok (elementAt_eq (a := newMaster) rfl), hnone, List.nil_append,
    List.drop_one, List.tail_cons, map_id_named (length_newIds _ _ _)]
  refine (hacts.updateBlock hR₃ (hacts.withId masterBlock.id (hfitsMaster _ (length_newIds _ _ _)))
    hmaster hopen).mono (fun _ g₄ h₄ => ?_) fun _ _ he => he
  have hafter : ∀ id ≠ masterBlock.id,
      Function.update stored₃ masterBlock.id (some { newMaster with
        id := masterBlock.id
        subBlocks := newIds masterBlock.subBlocks newSubs.length g.metaData.nextBlockId }) id
        = stored₃ id := fun id hne => Function.update_of_ne hne _ _
  refine ⟨_, newIds masterBlock.subBlocks newSubs.length g.metaData.nextBlockId, h₄.1, ?_,
    Function.update_self _ _ _, ?_, ?_, fun id hid => (hmem id hid).1, ?_, ?_⟩
  · intro id hne
    rw [h₄.2, hnext₃, hnext]
    by_cases hid : id = masterBlock.id
    · rw [hid]
      exact Nat.lt_add_right _ (habove _ (by rw [hwas]; exact Option.some_ne_none _))
    · rw [hafter id hid] at hne
      by_cases hdrop : id ∈ masterBlock.subBlocks.drop newSubs.length
      · exact absurd (hgone id hdrop) hne
      · rw [hrest id hdrop] at hne
        by_cases hnew : id ∈ newIds masterBlock.subBlocks newSubs.length g.metaData.nextBlockId
        · rcases List.mem_append.mp hnew with hold | hnext'
          · exact Nat.lt_add_right _ (habove id (hthere id (List.mem_of_mem_take hold)))
          · obtain ⟨i, hi, rfl⟩ := List.mem_map.mp hnext'
            rw [List.mem_range] at hi
            rw [val_nextId (by omega)]
            omega
        · rw [hplaced.old id hnew] at hne
          exact Nat.lt_add_right _ (habove id hne)
  · exact List.nodup_cons.mpr ⟨fun hid => (hmem _ hid).2.2 rfl, hplaced.nodup⟩
  · refine List.forall₂_iff_get.mpr ⟨length_newIds _ _ _, fun i hi hi' => ?_⟩
    have hid := hmem _ (List.get_mem _ ⟨i, hi⟩)
    rw [hafter _ hid.2.2, hrest _ hid.2.1]
    exact hplaced.new i _ _ (List.getElem?_eq_getElem hi) (List.getElem?_eq_getElem hi')
  · intro id hid hnew
    rw [hafter id fun heq => hown (by rw [← heq]; exact hid)]
    by_cases hdrop : id ∈ masterBlock.subBlocks.drop newSubs.length
    · exact hgone id hdrop
    · refine absurd ?_ hnew
      rw [← List.take_append_drop newSubs.length masterBlock.subBlocks] at hid
      have htake := (List.mem_append.mp hid).resolve_right hdrop
      refine List.mem_append_left _ ?_
      rwa [Nat.min_comm, ← List.take_take, List.take_length]
  · intro id hnot hnew
    rw [List.mem_cons, not_or] at hnot
    rw [hafter id hnot.1, hrest id fun hdrop => hnot.2 (List.mem_of_mem_drop hdrop)]
    exact hplaced.old id hnew

end Replace

end PartitionIndex

end RailwayDB
