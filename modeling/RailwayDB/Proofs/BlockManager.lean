/-
The block store behind its cache.

`Held` ties the state of a block manager to the blocks it is a map of: the store has
the bytes of each block under its id, the cache has some of the blocks, and the list
of recent reads belongs to the cache.  Every operation keeps it, for the blocks the
operation should leave; `getBlock` of an id gives the block of that id, from the
cache or from its bytes.

What a block read from the store has in common with the block that was written is a
parameter: all of it when no text is too long, and what the wire keeps otherwise.
The partition index is one that answers a fixed partitioning for each time.
-/
import RailwayDB.Lib.LruList
import RailwayDB.Proofs.BlockPartition
import RailwayDB.Proofs.StorageFrame

namespace RailwayDB

open NetworkByteBuffer

variable {P T : Type} {schema : Schema}

namespace BlockManager

open Storage

/-- The key of a block. -/
def keyBytes (id : BlockId) : List Byte := Bytes.bigEndian 8 id.val

theorem key_eq (id : BlockId) : key id = .ok (keyBytes id) := by
  obtain ⟨sb, hsb, -, hc⟩ := append_ok (growable_ofSize (n := 8) (by decide))
    (keyBytes id) (by simp [keyBytes])
  have hadd : (ofSize 8).addUInt64 (BitVec.ofFin id) = .ok sb := hsb
  unfold key
  simp only [hadd]
  show Except.ok sb.contents = _
  rw [hc, contents_ofSize, List.nil_append]

theorem keyBytes_injective : Function.Injective keyBytes := by
  intro a b h
  exact Fin.ext (Bytes.bigEndian_injective a.isLt b.isLt h)

/-! ### The list of recent reads -/

/-- The iterator a cached block has. -/
def iterOf (bman : BlockManager T schema) (id : BlockId) : Option Nat :=
  (bman.cache.lookup id).bind BlockAndIdIter.iter

/-- The list has the cached blocks, each at its own node. -/
structure Linked (bman : BlockManager T schema) : Prop where
  points : Points bman.lruList bman.nextNode bman.iterOf
  whole : ∀ id entry, bman.cache.lookup id = some entry → entry.iter ≠ none

/-- And no more than there is room for: a push exceeds the bound by one until the last is
dropped. -/
structure Tidy (bman : BlockManager T schema) : Prop extends Linked bman where
  bound : bman.lruList.length ≤ bman.blockBufferSize

namespace Tidy

variable {bman : BlockManager T schema}

theorem clear (bman : BlockManager T schema) : Tidy bman.clear := by
  refine ⟨⟨?_, ?_⟩, Nat.zero_le _⟩
  · have hnone : bman.clear.iterOf = fun _ => none := by
      funext id
      rfl
    rw [hnone]
    exact Points.nil _
  · intro id entry h
    simp [BlockManager.clear] at h

theorem mem_cache (h : Tidy bman) (id : BlockId) :
    id ∈ bman.lruList.map Prod.snd ↔ id ∈ bman.cache := by
  rw [h.points.mem_keys, ← AList.lookup_isSome]
  unfold iterOf
  cases hl : bman.cache.lookup id with
  | none => simp
  | some entry => simpa using h.whole id entry hl

end Tidy

theorem iterOf_insert (bman : BlockManager T schema) (id : BlockId)
    (entry : BlockAndIdIter T schema) :
    iterOf { bman with cache := bman.cache.insert id entry }
      = Function.update bman.iterOf id entry.iter := by
  funext id'
  unfold iterOf
  by_cases h : id' = id
  · rw [h, AList.lookup_insert, Function.update_self]
    rfl
  · rw [AList.lookup_insert_ne h, Function.update_of_ne h]

theorem iterOf_erase (bman : BlockManager T schema) (id : BlockId) :
    iterOf { bman with cache := bman.cache.erase id } = Function.update bman.iterOf id none := by
  funext id'
  unfold iterOf
  by_cases h : id' = id
  · rw [h, AList.lookup_erase, Function.update_self]
    rfl
  · rw [AList.lookup_erase_ne h, Function.update_of_ne h]

theorem Linked.pushFront {bman : BlockManager T schema}
    {id : BlockId} (points : Points bman.lruList bman.nextNode (Function.update bman.iterOf id none))
    (whole : ∀ id' entry, id' ≠ id → bman.cache.lookup id' = some entry → entry.iter ≠ none)
    (block : Block T (AttributeData schema)) : Linked (bman.pushFront id block) := by
  have hpush := points.push (k := id) (Function.update_self ..)
  refine ⟨?_, ?_⟩
  · have hiter : (bman.pushFront id block).iterOf
        = Function.update (Function.update bman.iterOf id none) id (some bman.nextNode) := by
      rw [Function.update_idem]
      exact iterOf_insert bman id ⟨block, some bman.nextNode⟩
    rw [hiter]
    exact hpush
  · intro id' entry hentry
    by_cases h : id' = id
    · rw [h] at hentry
      have hlookup : (bman.cache.insert id ⟨block, some bman.nextNode⟩).lookup id = some entry :=
        hentry
      rw [AList.lookup_insert, Option.some.injEq] at hlookup
      rw [← hlookup]
      simp
    · have hlookup : (bman.cache.insert id ⟨block, some bman.nextNode⟩).lookup id' = some entry :=
        hentry
      rw [AList.lookup_insert_ne h] at hlookup
      exact whole id' entry h hlookup

theorem Linked.evict {bman : BlockManager T schema} (h : Linked bman)
    (hlen : bman.lruList.length ≤ bman.blockBufferSize + 1) : Tidy bman.evict := by
  unfold BlockManager.evict
  by_cases hfull : bman.blockBufferSize < bman.lruList.length
  · rw [if_pos hfull]
    cases hlast : bman.lruList.getLast? with
    | none =>
        rw [List.getLast?_eq_none_iff.mp hlast] at hfull
        simp at hfull
    | some p =>
        obtain ⟨n, r⟩ := p
        refine ⟨⟨?_, ?_⟩, ?_⟩
        · have hiter := iterOf_erase bman r
          show Points bman.lruList.dropLast bman.nextNode
            (iterOf { bman with cache := bman.cache.erase r })
          rw [hiter]
          exact h.points.dropLast hlast
        · intro id entry hentry
          by_cases hid : id = r
          · rw [hid] at hentry
            simp at hentry
          · rw [AList.lookup_erase_ne hid] at hentry
            exact h.whole id entry hentry
        · show bman.lruList.dropLast.length ≤ bman.blockBufferSize
          rw [List.length_dropLast]
          omega
  · rw [if_neg hfull]
    exact ⟨h, by omega⟩

theorem evict_frame (bman : BlockManager T schema) :
    bman.evict.db = bman.db ∧ bman.evict.blockBufferSize = bman.blockBufferSize ∧
      ∀ id entry, bman.evict.cache.lookup id = some entry → bman.cache.lookup id = some entry := by
  unfold BlockManager.evict
  split_ifs with hfull
  · cases hlast : bman.lruList.getLast? with
    | none => exact ⟨rfl, rfl, fun _ _ h => h⟩
    | some p =>
        refine ⟨rfl, rfl, ?_⟩
        intro id entry hentry
        by_cases hid : id = p.2
        · rw [hid] at hentry
          simp at hentry
        · rwa [AList.lookup_erase_ne hid] at hentry
  · exact ⟨rfl, rfl, fun _ _ h => h⟩

/-- A read leaves the block it read in the cache. -/
theorem lookup_evict_pushFront (bman : BlockManager T schema) (id : BlockId)
    (block : Block T (AttributeData schema)) (hroom : 1 ≤ bman.blockBufferSize)
    (hlinked : Linked (bman.pushFront id block)) :
    (bman.pushFront id block).evict.cache.lookup id = some ⟨block, some bman.nextNode⟩ := by
  have hfront : (bman.pushFront id block).cache.lookup id = some ⟨block, some bman.nextNode⟩ :=
    AList.lookup_insert bman.cache
  unfold BlockManager.evict
  split_ifs with hfull
  · cases hlast : (bman.pushFront id block).lruList.getLast? with
    | none => exact hfront
    | some p =>
        obtain ⟨n, r⟩ := p
        -- With room for one block the node at the front is not the one dropped.
        have hne : id ≠ r := by
          intro hr
          have hmem := List.mem_of_getLast? hlast
          have hnode : (n, r) = (bman.nextNode, id) :=
            hlinked.points.key_unique hmem List.mem_cons_self hr.symm
          have hlen : 2 ≤ ((bman.nextNode, id) :: bman.lruList).length := by
            have hlt : bman.blockBufferSize < ((bman.nextNode, id) :: bman.lruList).length := hfull
            omega
          have hlast' : ((bman.nextNode, id) :: bman.lruList).getLast? = some (n, r) := hlast
          cases hl : bman.lruList with
          | nil =>
              rw [hl] at hlen
              simp at hlen
          | cons q l =>
              rw [hl, List.getLast?_cons_cons] at hlast'
              have hin : (n, r) ∈ bman.lruList := by
                rw [hl]
                exact List.mem_of_getLast? hlast'
              have hnodup := hlinked.points.once
              have hkeys : (bman.pushFront id block).lruList.map Prod.snd
                  = id :: bman.lruList.map Prod.snd := rfl
              rw [hkeys, List.nodup_cons] at hnodup
              rw [hr] at hnodup
              exact hnodup.1 (List.mem_map_of_mem hin)
        show ((bman.pushFront id block).cache.erase r).lookup id = _
        rw [AList.lookup_erase_ne hne, hfront]
  · exact hfront

/-! ### The blocks of a state -/

section Held

variable [LinearOrder T] [Timestamp T] [BlockTime T] [SliceIndex P T]

/-- In the states `Ok` the index answers the partitioning `parts` has for a time. -/
structure Answers (Ok : P → Prop) (parts : T → Option Partitioning) : Prop where
  write : ∀ idx t part, Ok idx → parts t = some part →
    ∃ tpart idx', SliceIndex.getTimeSlicedPartitioning idx t = .ok (tpart, idx') ∧
      tpart.partitioning = part ∧ Ok idx'
  read : ∀ idx t part, Ok idx → parts t = some part →
    ∃ tpart idx', SliceIndex.getTimeSlicedPartitioningForBlockDeserialization idx t
        = .ok (tpart, idx') ∧ tpart.partitioning = part ∧ Ok idx'

/-- A block laid out by the partitioning of its time. -/
def LaidBy (parts : T → Option Partitioning) (block : Block T (AttributeData schema)) : Prop :=
  block.Formed ∧ ∃ t part, block.getPartitioningTimestamp = .ok t ∧ parts t = some part ∧
    block.Laid part

/-- The state of a block manager with these blocks.  `R` says what a block that was read has to do
with the one that was stored. -/
structure Held (Ok : P → Prop) (parts : T → Option Partitioning)
    (R : Block T (AttributeData schema) → Block T (AttributeData schema) → Prop)
    (stored : BlockId → Option (Block T (AttributeData schema)))
    (g : HistoricalGraph P T schema) : Prop where
  index : Ok g.partIndex
  tidy : Tidy g.bman
  absent : ∀ id, stored id = none → g.bman.db.find? (keyBytes id) = none
  present : ∀ id block, stored id = some block →
    g.bman.db.find? (keyBytes id) = some block.encoding ∧ block.id = id ∧ LaidBy parts block ∧
      block.encoding.length ≤ 2 ^ 32 ∧ ∀ block', Block.ComesBack block block' → R block block'
  cached : ∀ id entry, g.bman.cache.lookup id = some entry →
    ∃ block, stored id = some block ∧ R block entry.block

/-- The state of a block manager with these blocks, whether or not the index can read them. -/
structure Shelved (Ok : P → Prop)
    (R : Block T (AttributeData schema) → Block T (AttributeData schema) → Prop)
    (stored : BlockId → Option (Block T (AttributeData schema)))
    (g : HistoricalGraph P T schema) : Prop where
  index : Ok g.partIndex
  tidy : Tidy g.bman
  absent : ∀ id, stored id = none → g.bman.db.find? (keyBytes id) = none
  present : ∀ id block, stored id = some block →
    g.bman.db.find? (keyBytes id) = some block.encoding ∧ block.id = id ∧
      block.encoding.length ≤ 2 ^ 32 ∧ ∀ block', Block.ComesBack block block' → R block block'
  cached : ∀ id entry, g.bman.cache.lookup id = some entry →
    ∃ block, stored id = some block ∧ R block entry.block

/-- In the states `Ok` the index reads a block of a time by the partitioning `parts` has for it. -/
def ReadsBy (Ok : P → Prop) (parts : T → Option Partitioning) : Prop :=
  ∀ idx t part, Ok idx → parts t = some part →
    ∃ tpart idx', SliceIndex.getTimeSlicedPartitioningForBlockDeserialization idx t
        = .ok (tpart, idx') ∧ tpart.partitioning = part ∧ Ok idx'

/-- What reading leaves alone. -/
structure ReadOnly (g g' : HistoricalGraph P T schema) : Prop where
  db : g'.bman.db = g.bman.db
  blockBufferSize : g'.bman.blockBufferSize = g.bman.blockBufferSize
  iqIndex : g'.iqIndex = g.iqIndex
  fiqIndex : g'.fiqIndex = g.fiqIndex
  metaData : g'.metaData = g.metaData

theorem ReadOnly.refl {T : Type} (g : HistoricalGraph P T schema) :
    ReadOnly g g := ⟨rfl, rfl, rfl, rfl, rfl⟩

theorem ReadOnly.trans {T : Type} {g g' g'' : HistoricalGraph P T schema} (h : ReadOnly g g')
    (h' : ReadOnly g' g'') : ReadOnly g g'' :=
  ⟨h'.db.trans h.db, h'.blockBufferSize.trans h.blockBufferSize, h'.iqIndex.trans h.iqIndex,
    h'.fiqIndex.trans h.fiqIndex, h'.metaData.trans h.metaData⟩

variable {Ok : P → Prop} {parts : T → Option Partitioning}
  {R : Block T (AttributeData schema) → Block T (AttributeData schema) → Prop}
  {stored : BlockId → Option (Block T (AttributeData schema))} {g : HistoricalGraph P T schema}
  {id : BlockId} {block : Block T (AttributeData schema)}

theorem Held.shelved {P : Type} {Ok : P → Prop} {g : HistoricalGraph P T schema}
    (h : Held Ok parts R stored g) : Shelved Ok R stored g := by
  refine ⟨h.index, h.tidy, h.absent, ?_, h.cached⟩
  intro id block hstored
  obtain ⟨hdb, hid, -, hfit, hcomes⟩ := h.present id block hstored
  exact ⟨hdb, hid, hfit, hcomes⟩

theorem Held.laid {P : Type} {Ok : P → Prop} {g : HistoricalGraph P T schema}
    (h : Held Ok parts R stored g) (hstored : stored id = some block) :
    LaidBy parts block :=
  (h.present id block hstored).2.2.1

/-- When the index can read all blocks they are held. -/
theorem Shelved.held {P : Type} {Ok : P → Prop} {g : HistoricalGraph P T schema}
    (h : Shelved Ok R stored g) (hlaid : ∀ id block, stored id = some block → LaidBy parts block) :
    Held Ok parts R stored g := by
  refine ⟨h.index, h.tidy, h.absent, ?_, h.cached⟩
  intro id block hstored
  obtain ⟨hdb, hid, hfit, hcomes⟩ := h.present id block hstored
  exact ⟨hdb, hid, hlaid id block hstored, hfit, hcomes⟩

/-- A cache hit moves the node of the block to the front. -/
theorem touch_ok {T : Type} {bman : BlockManager T schema} (h : Tidy bman)
    {entry : BlockAndIdIter T schema} (hentry : bman.cache.lookup id = some entry) :
    ∃ bman', bman.touch id entry = .ok bman' ∧ Tidy bman' ∧ bman'.db = bman.db ∧
      bman'.blockBufferSize = bman.blockBufferSize ∧
      (∃ n, bman'.cache.lookup id = some ⟨entry.block, n⟩) ∧
      ∀ id', id' ≠ id → bman'.cache.lookup id' = bman.cache.lookup id' := by
  unfold touch
  split_ifs with hfront
  · exact ⟨bman, rfl, h, rfl, rfl, ⟨entry.iter, hentry⟩, fun _ _ => rfl⟩
  · obtain ⟨n, hn⟩ := Option.ne_none_iff_exists'.mp (h.whole id entry hentry)
    have hiter : bman.iterOf id = some n := by
      unfold iterOf
      rw [hentry]
      exact hn
    have hmem : (n, id) ∈ bman.lruList := (h.points.own id n).mp hiter
    have herase : bman.eraseNode entry.iter
        = .ok { bman with lruList := bman.lruList.filter fun p => p.1 ≠ n } := by
      unfold eraseNode
      rw [hn]
      simp only
      rw [if_pos (List.mem_map_of_mem hmem)]
    refine ⟨({ bman with lruList := bman.lruList.filter fun p => p.1 ≠ n }).pushFront id entry.block,
      by rw [herase, Except.ok_map], ⟨?_, ?_⟩, rfl, rfl, ⟨_, AList.lookup_insert _⟩, ?_⟩
    · have hpoints : Points (bman.lruList.filter fun p => p.1 ≠ n) bman.nextNode
          (Function.update bman.iterOf id none) := h.points.erase hiter
      refine Linked.pushFront hpoints ?_ entry.block
      intro id' e _
      exact h.whole id' e
    · -- The list has lost one node and won one.
      have hlt : (bman.lruList.filter fun p => p.1 ≠ n).length < bman.lruList.length := by
        refine List.length_filter_lt_length_iff_exists.mpr ⟨(n, id), hmem, by simp⟩
      have hbound := h.bound
      show (bman.lruList.filter fun p => p.1 ≠ n).length + 1 ≤ bman.blockBufferSize
      omega
    · intro id' hid'
      exact AList.lookup_insert_ne hid'

theorem Shelved.hit_ok {P : Type} {Ok : P → Prop} {g : HistoricalGraph P T schema}
    (h : Shelved Ok R stored g) {entry : BlockAndIdIter T schema}
    (hentry : g.bman.cache.lookup id = some entry) :
    ∃ g', hit id entry g = .ok () g' ∧ Shelved Ok R stored g' ∧ ReadOnly g g' ∧
      ∃ n, g'.bman.cache.lookup id = some ⟨entry.block, n⟩ := by
  obtain ⟨bman', htouch, htidy, hdb, hsize, ⟨n, hsame⟩, hother⟩ := touch_ok h.tidy hentry
  refine ⟨{ g with bman := bman' }, ?_, ⟨h.index, htidy, ?_, ?_, ?_⟩,
    ⟨hdb, hsize, rfl, rfl, rfl⟩, n, hsame⟩
  · unfold hit
    rw [get_bind, ofResult_bind_ok htouch]
    rfl
  · intro id' hid'
    rw [hdb]
    exact h.absent id' hid'
  · intro id' b hb
    rw [hdb]
    exact h.present id' b hb
  · intro id' e he
    by_cases hid' : id' = id
    · rw [hid'] at he ⊢
      obtain ⟨b, hb, hR⟩ := h.cached id entry hentry
      have hlookup : bman'.cache.lookup id = some e := he
      rw [hsame, Option.some.injEq] at hlookup
      rw [← hlookup]
      exact ⟨b, hb, hR⟩
    · have hlookup : bman'.cache.lookup id' = some e := he
      rw [hother id' hid'] at hlookup
      exact h.cached id' e hlookup

/-- A cache miss goes to the store. -/
theorem Shelved.fetch_ok (hreads : ReadsBy Ok parts) (h : Shelved Ok R stored g)
    (hroom : 1 ≤ g.bman.blockBufferSize) (hmiss : g.bman.cache.lookup id = none)
    (hstored : stored id = some block) (hblock : LaidBy parts block) :
    ∃ g' block', fetch id g = .ok () g' ∧ Shelved Ok R stored g' ∧ ReadOnly g g' ∧
      Block.ComesBack block block' ∧ ∃ n, g'.bman.cache.lookup id = some ⟨block', n⟩ := by
  obtain ⟨hdb, hid, hfit, hcomes⟩ := h.present id block hstored
  obtain ⟨hformed, t, part, htime, hparts, hlaid⟩ := hblock
  obtain ⟨tpart, idx', hlookup, hpart, hok⟩ := hreads _ _ _ h.index hparts
  obtain ⟨block', hread, hback⟩ :=
    Block.deserialize_encoding hformed hlaid hfit htime hlookup hpart
  -- The manager with the entry that is filled while the block is read.
  have hiter : g.bman.iterOf id = none := by
    unfold iterOf
    rw [hmiss]
    rfl
  have hlinked : Linked (({ g.bman with cache := g.bman.cache.insert id ⟨.new, none⟩ } :
      BlockManager T schema).pushFront id block') := by
    refine Linked.pushFront ?_ ?_ block'
    · rw [iterOf_insert, Function.update_idem, ← hiter, Function.update_eq_self]
      exact h.tidy.points
    · intro id' entry hid' hentry
      have hlookup' : (g.bman.cache.insert id ⟨.new, none⟩).lookup id' = some entry := hentry
      rw [AList.lookup_insert_ne hid'] at hlookup'
      exact h.tidy.whole id' entry hlookup'
  have htidy := hlinked.evict (by
    have hbound := h.tidy.bound
    show g.bman.lruList.length + 1 ≤ g.bman.blockBufferSize + 1
    omega)
  have hfound := lookup_evict_pushFront
    { g.bman with cache := g.bman.cache.insert id ⟨.new, none⟩ } id block' hroom hlinked
  have hframe := evict_frame
    (({ g.bman with cache := g.bman.cache.insert id ⟨.new, none⟩ } :
      BlockManager T schema).pushFront id block')
  have hrun : fetch id g = .ok () { g with
      partIndex := idx'
      bman := (({ g.bman with cache := g.bman.cache.insert id ⟨.new, none⟩ } :
        BlockManager T schema).pushFront id block').evict } := by
    unfold fetch
    rw [ofResult_bind_ok (key_eq id), get_bind]
    simp only [hdb]
    rw [modifyBlocks_bind, onIndex_bind_ok ?_ hread]
    · rfl
    · rfl
  refine ⟨_, block', hrun, ⟨hok, htidy, ?_, ?_, ?_⟩, ⟨hframe.1, hframe.2.1, rfl, rfl, rfl⟩, hback,
    _, hfound⟩
  · intro id' hid'
    rw [hframe.1]
    exact h.absent id' hid'
  · intro id' b hb
    rw [hframe.1]
    exact h.present id' b hb
  · intro id' entry hentry
    have hentry' := hframe.2.2 id' entry hentry
    by_cases hid' : id' = id
    · rw [hid'] at hentry ⊢
      rw [hfound, Option.some.injEq] at hentry
      rw [← hentry]
      exact ⟨block, hstored, hcomes block' hback⟩
    · have hlookup' : ((g.bman.cache.insert id ⟨.new, none⟩).insert id
          ⟨block', some g.bman.nextNode⟩).lookup id' = some entry := hentry'
      rw [AList.lookup_insert_ne hid', AList.lookup_insert_ne hid'] at hlookup'
      exact h.cached id' entry hlookup'

/-- A stored block that the index can read is found, in the cache or in the store. -/
theorem Shelved.getBlock_ok (hreads : ReadsBy Ok parts) (hid : ∀ b b', R b b' → b'.id = b.id)
    (h : Shelved Ok R stored g) (hroom : 1 ≤ g.bman.blockBufferSize)
    (hstored : stored id = some block) (hlaid : LaidBy parts block) :
    ∃ block' g', getBlock id g = .ok block' g' ∧ R block block' ∧ Shelved Ok R stored g' ∧
      ReadOnly g g' := by
  obtain ⟨-, hblockId, -, hcomes⟩ := h.present id block hstored
  have hblockAt : ∀ {bman : BlockManager T schema} {b : Block T (AttributeData schema)} {n : Option Nat},
      R block b → bman.cache.lookup id = some ⟨b, n⟩ → bman.blockAt id = .ok b := by
    intro bman b n hR hlookup
    unfold blockAt
    rw [hlookup]
    simp only
    rw [if_pos ((hid block b hR).trans hblockId)]
  unfold getBlock
  rw [get_bind]
  cases hlookup : g.bman.cache.lookup id with
  | some entry =>
      obtain ⟨g', hrun, hheld, hread, n, hfound⟩ := h.hit_ok hlookup
      obtain ⟨b, hb, hR⟩ := h.cached id entry hlookup
      rw [hstored, Option.some.injEq] at hb
      rw [← hb] at hR
      refine ⟨entry.block, g', ?_, hR, hheld, hread⟩
      show (hit id entry >>= fun _ => _) g = _
      rw [run_bind_ok hrun, get_bind, hblockAt hR hfound]
      rfl
  | none =>
      obtain ⟨g', block', hrun, hheld, hread, hback, n, hfound⟩ :=
        h.fetch_ok hreads hroom hlookup hstored hlaid
      refine ⟨block', g', ?_, hcomes block' hback, hheld, hread⟩
      show (fetch id >>= fun _ => _) g = _
      rw [run_bind_ok hrun, get_bind, hblockAt (hcomes block' hback) hfound]
      rfl

/-- **A stored block is found**, in the cache or in the store. -/
theorem getBlock_ok (hanswers : Answers Ok parts) (hid : ∀ b b', R b b' → b'.id = b.id)
    (h : Held Ok parts R stored g) (hroom : 1 ≤ g.bman.blockBufferSize)
    (hstored : stored id = some block) :
    ∃ block' g', getBlock id g = .ok block' g' ∧ R block block' ∧ Held Ok parts R stored g' ∧
      ReadOnly g g' := by
  obtain ⟨block', g', hrun, hR, hshelved, hread⟩ :=
    h.shelved.getBlock_ok hanswers.read hid hroom hstored (h.laid hstored)
  exact ⟨block', g', hrun, hR, hshelved.held fun _ _ hb => h.laid hb, hread⟩

/-- **A block that is not stored is not found.** -/
theorem getBlock_none (h : Held Ok parts R stored g) (hstored : stored id = none) :
    getBlock id g = .error (.blockNotFound id) g := by
  have hmiss : g.bman.cache.lookup id = none := by
    cases hlookup : g.bman.cache.lookup id with
    | none => rfl
    | some entry =>
        obtain ⟨b, hb, -⟩ := h.cached id entry hlookup
        rw [hstored] at hb
        cases hb
  unfold getBlock
  rw [get_bind, hmiss]
  have hrun : fetch id g = .error (.blockNotFound id) g := by
    unfold fetch
    rw [ofResult_bind_ok (key_eq id), get_bind]
    simp only [h.absent id hstored]
    rfl
  show (fetch id >>= fun _ => _) g = _
  rw [run_bind_error hrun]

/-- A manager over an empty store has no blocks. -/
theorem held_new {P : Type} {Ok : P → Prop} {g : HistoricalGraph P T schema} {n : Nat}
    (hindex : Ok g.partIndex) (hnew : g.bman = BlockManager.new n .empty)
    (R : Block T (AttributeData schema) → Block T (AttributeData schema) → Prop) :
    Held Ok parts R (fun _ => none) g := by
  have htidy := Tidy.clear (BlockManager.new n .empty : BlockManager T schema)
  refine ⟨hindex, by rw [hnew]; exact htidy, ?_, ?_, ?_⟩
  · intro id _
    rw [hnew]
    rfl
  · intro id b hb
    cases hb
  · intro id entry hentry
    rw [hnew] at hentry
    simp [BlockManager.new] at hentry

/-! ### Writing -/

theorem LaidBy.withId {T : Type} [LinearOrder T] [BlockTime T] {parts : T → Option Partitioning}
    {block : Block T (AttributeData schema)} (h : LaidBy parts block) (id : BlockId) :
    LaidBy parts { block with id := id } := by
  obtain ⟨⟨F, seen, hbuilt, hlisted⟩, hlaid⟩ := h
  exact ⟨⟨F, seen, ⟨hbuilt.lists, hbuilt.data, hbuilt.mem_seen, hbuilt.nodup, hbuilt.size⟩,
    hlisted⟩, hlaid⟩

/-- A block that fits goes to the store under its id. -/
theorem put_ok {P : Type} {g : HistoricalGraph P T schema} (h : LaidBy parts block)
    (hfit : block.encoding.length ≤ 2 ^ 32) :
    put block g = .ok () { g with bman := { g.bman with
      db := g.bman.db.insert (keyBytes block.id) block.encoding } } := by
  obtain ⟨hformed, -, part, -, -, hlaid⟩ := h
  obtain ⟨sbuf, hsbuf, hwritten⟩ := (Block.serialize_encoding hformed hlaid).1 hfit
  unfold put
  rw [ofResult_bind_ok (key_eq block.id), ofResult_bind_ok hsbuf, hwritten.contents]
  rfl

/-- One that does not fit is refused. -/
theorem put_full {P : Type} {g : HistoricalGraph P T schema} (h : LaidBy parts block)
    (hfit : 2 ^ 32 < block.encoding.length) :
    put block g = .error full g := by
  obtain ⟨hformed, -, part, -, -, hlaid⟩ := h
  have hfull := (Block.serialize_encoding hformed hlaid).2 hfit
  unfold put
  rw [ofResult_bind_ok (key_eq block.id), ofResult_bind_error hfull]

/-- The store after a write has the block under its id. -/
theorem Shelved.insert {P : Type} {Ok : P → Prop} {g : HistoricalGraph P T schema}
    (h : Shelved Ok R stored g) (hfit : block.encoding.length ≤ 2 ^ 32)
    (hcomes : ∀ block', Block.ComesBack block block' → R block block')
    {cache : AList fun _ : BlockId => BlockAndIdIter T schema}
    (htidy : Tidy { g.bman with cache := cache })
    (hsame : ∀ entry, cache.lookup block.id = some entry → R block entry.block)
    (hother : ∀ id, id ≠ block.id → cache.lookup id = g.bman.cache.lookup id)
    (metaData : MetaDataManager) :
    Shelved Ok R (Function.update stored block.id (some block)) { g with
      bman := { g.bman with
        cache := cache
        db := g.bman.db.insert (keyBytes block.id) block.encoding }
      metaData := metaData } := by
  refine ⟨h.index, ⟨⟨htidy.points, htidy.whole⟩, htidy.bound⟩, ?_, ?_, ?_⟩
  · intro id hid
    have hne : id ≠ block.id := by
      intro heq
      rw [heq, Function.update_self] at hid
      cases hid
    rw [Function.update_of_ne hne] at hid
    show (g.bman.db.insert (keyBytes block.id) block.encoding).find? (keyBytes id) = none
    rw [SortedMap.find?_insert, if_neg fun heq => hne (keyBytes_injective heq)]
    exact h.absent id hid
  · intro id b hb
    show (g.bman.db.insert (keyBytes block.id) block.encoding).find? (keyBytes id) = _ ∧ _
    rw [SortedMap.find?_insert]
    by_cases hid : id = block.id
    · rw [hid, Function.update_self, Option.some.injEq] at hb
      rw [hid, ← hb, if_pos rfl]
      exact ⟨rfl, rfl, hfit, hcomes⟩
    · rw [Function.update_of_ne hid] at hb
      rw [if_neg fun heq => hid (keyBytes_injective heq)]
      exact h.present id b hb
  · intro id entry hentry
    have hlookup : cache.lookup id = some entry := hentry
    by_cases hid : id = block.id
    · rw [hid] at hlookup ⊢
      rw [Function.update_self]
      exact ⟨block, rfl, hsame entry hlookup⟩
    · rw [hother id hid] at hlookup
      rw [Function.update_of_ne hid]
      exact h.cached id entry hlookup

/-- A block laid out by some partitioning is added under the next id, past the cache. -/
theorem Shelved.addBlock_ok {P : Type} {Ok : P → Prop} {g : HistoricalGraph P T schema}
    (h : Shelved Ok R stored g) (hlaid : LaidBy parts block)
    (hfit : ({ block with id := g.metaData.blockId } : Block T _).encoding.length ≤ 2 ^ 32)
    (hcomes : ∀ block', Block.ComesBack { block with id := g.metaData.blockId } block' →
      R { block with id := g.metaData.blockId } block')
    (hnew : g.bman.cache.lookup g.metaData.blockId = none) :
    ∃ g', addBlock block g = .ok { block with id := g.metaData.blockId } g' ∧
      Shelved Ok R (Function.update stored g.metaData.blockId
        (some { block with id := g.metaData.blockId })) g' ∧
      g'.bman.blockBufferSize = g.bman.blockBufferSize ∧ g'.iqIndex = g.iqIndex ∧
      g'.fiqIndex = g.fiqIndex ∧
      g'.metaData = { g.metaData with nextBlockId := g.metaData.nextBlockId + 1 } ∧
      g'.partIndex = g.partIndex := by
  have hshelved := h.insert hfit hcomes h.tidy (by
    intro entry hentry
    have hlookup : g.bman.cache.lookup g.metaData.blockId = some entry := hentry
    rw [hnew] at hlookup
    cases hlookup) (fun _ _ => rfl)
    { g.metaData with nextBlockId := g.metaData.nextBlockId + 1 }
  refine ⟨_, ?_, hshelved, rfl, rfl, rfl, rfl, rfl⟩
  have hput := put_ok (g := { g with
    metaData := { g.metaData with nextBlockId := g.metaData.nextBlockId + 1 } })
    (hlaid.withId g.metaData.blockId) hfit
  unfold addBlock
  rw [get_bind]
  show (put _ >>= fun _ => _) _ = _
  rw [run_bind_ok hput]
  rfl

/-- A block is put in place of another. -/
theorem laid_update {T : Type} [LinearOrder T] [BlockTime T] {parts : T → Option Partitioning}
    {stored : BlockId → Option (Block T (AttributeData schema))}
    {block : Block T (AttributeData schema)}
    (h : ∀ id block, stored id = some block → LaidBy parts block) (hlaid : LaidBy parts block)
    (id' : BlockId) (b : Block T (AttributeData schema))
    (hb : Function.update stored id (some block) id' = some b) : LaidBy parts b := by
  by_cases hid : id' = id
  · rw [hid, Function.update_self, Option.some.injEq] at hb
    rw [← hb]
    exact hlaid
  · rw [Function.update_of_ne hid] at hb
    exact h id' b hb

/-- **`addBlock` adds a block under the next id**, past the cache. -/
theorem addBlock_ok {P : Type} {Ok : P → Prop} {g : HistoricalGraph P T schema}
    (h : Held Ok parts R stored g) (hlaid : LaidBy parts block)
    (hfit : ({ block with id := g.metaData.blockId } : Block T _).encoding.length ≤ 2 ^ 32)
    (hcomes : ∀ block', Block.ComesBack { block with id := g.metaData.blockId } block' →
      R { block with id := g.metaData.blockId } block')
    (hnew : g.bman.cache.lookup g.metaData.blockId = none) :
    ∃ g', addBlock block g = .ok { block with id := g.metaData.blockId } g' ∧
      Held Ok parts R (Function.update stored g.metaData.blockId
        (some { block with id := g.metaData.blockId })) g' ∧
      g'.bman.blockBufferSize = g.bman.blockBufferSize ∧ g'.iqIndex = g.iqIndex ∧
      g'.fiqIndex = g.fiqIndex ∧
      g'.metaData = { g.metaData with nextBlockId := g.metaData.nextBlockId + 1 } ∧
      g'.partIndex = g.partIndex := by
  obtain ⟨g', hrun, hshelved, hrest⟩ := h.shelved.addBlock_ok hlaid hfit hcomes hnew
  exact ⟨g', hrun, hshelved.held (laid_update (fun _ _ => h.laid) (hlaid.withId _)), hrest⟩

/-- A block that does not fit uses up an id and leaves the rest. -/
theorem addBlock_full {P : Type} {g : HistoricalGraph P T schema} (hlaid : LaidBy parts block)
    (hfit : 2 ^ 32 < ({ block with id := g.metaData.blockId } : Block T _).encoding.length) :
    addBlock block g = .error full { g with
      metaData := { g.metaData with nextBlockId := g.metaData.nextBlockId + 1 } } := by
  have hput := put_full (g := { g with
    metaData := { g.metaData with nextBlockId := g.metaData.nextBlockId + 1 } })
    (hlaid.withId g.metaData.blockId) hfit
  unfold addBlock
  rw [get_bind]
  show (put _ >>= fun _ => _) _ = _
  rw [run_bind_error hput]

/-- `existingBlock = block` through the cache. -/
def cacheBlock (block : Block T (AttributeData schema)) (bman : BlockManager T schema) :
    BlockManager T schema :=
  match bman.cache.lookup block.id with
  | none => bman
  | some entry => { bman with cache := bman.cache.insert block.id { entry with block := block } }

theorem cacheBlock_ok {T : Type} {bman : BlockManager T schema} (h : Tidy bman)
    (block : Block T (AttributeData schema)) :
    ∃ cache, cacheBlock block bman = { bman with cache := cache } ∧
      Tidy { bman with cache := cache } ∧
      (∀ entry, cache.lookup block.id = some entry → entry.block = block) ∧
      ∀ id, id ≠ block.id → cache.lookup id = bman.cache.lookup id := by
  unfold cacheBlock
  cases hlookup : bman.cache.lookup block.id with
  | none =>
      refine ⟨bman.cache, rfl, h, ?_, fun _ _ => rfl⟩
      intro entry hentry
      rw [hlookup] at hentry
      cases hentry
  | some entry =>
      have hiter : iterOf { bman with
          cache := bman.cache.insert block.id { entry with block := block } } = bman.iterOf := by
        rw [iterOf_insert]
        have hself : bman.iterOf block.id = entry.iter := by
          unfold iterOf
          rw [hlookup]
          rfl
        rw [← hself, Function.update_eq_self]
      refine ⟨bman.cache.insert block.id { entry with block := block }, rfl, ⟨⟨?_, ?_⟩, h.bound⟩, ?_, ?_⟩
      · rw [hiter]
        exact h.points
      · intro id entry' hentry'
        have hlookup' : (bman.cache.insert block.id { entry with block := block }).lookup id
            = some entry' := hentry'
        by_cases hid : id = block.id
        · rw [hid, AList.lookup_insert, Option.some.injEq] at hlookup'
          rw [← hlookup']
          exact h.whole block.id entry hlookup
        · rw [AList.lookup_insert_ne hid] at hlookup'
          exact h.whole id entry' hlookup'
      · intro entry' hentry'
        rw [AList.lookup_insert, Option.some.injEq] at hentry'
        rw [← hentry']
      · intro id hid
        exact AList.lookup_insert_ne hid

/-- A stored block that the index can read is changed in the cache and in the store. -/
theorem Shelved.updateBlock_ok {parts' : T → Option Partitioning} (hreads : ReadsBy Ok parts)
    (hid : ∀ b b', R b b' → b'.id = b.id) (h : Shelved Ok R stored g)
    (hroom : 1 ≤ g.bman.blockBufferSize) {old : Block T (AttributeData schema)}
    (hold : stored block.id = some old) (hreadable : LaidBy parts old) (hlaid : LaidBy parts' block)
    (hfit : block.encoding.length ≤ 2 ^ 32)
    (hcomes : ∀ block', Block.ComesBack block block' → R block block') (hrefl : R block block) :
    ∃ g', updateBlock block g = .ok () g' ∧
      Shelved Ok R (Function.update stored block.id (some block)) g' ∧
      g'.bman.blockBufferSize = g.bman.blockBufferSize ∧ g'.iqIndex = g.iqIndex ∧
      g'.fiqIndex = g.fiqIndex ∧ g'.metaData = g.metaData := by
  obtain ⟨b, g₁, hget, -, hshelved, hread⟩ := h.getBlock_ok hreads hid hroom hold hreadable
  have hrun : ∀ g₂, put block { g₁ with bman := cacheBlock block g₁.bman } = .ok () g₂ →
      updateBlock block g = .ok () g₂ := by
    intro g₂ hput
    unfold updateBlock
    rw [run_bind_ok hget, modifyBlocks_bind]
    exact hput
  obtain ⟨cache, hcache, htidy, hsame, hother⟩ := cacheBlock_ok hshelved.tidy block
  have hput := put_ok (g := { g₁ with bman := cacheBlock block g₁.bman }) hlaid hfit
  simp only [hcache] at hput hrun
  have hins := hshelved.insert hfit hcomes htidy (by
    intro entry hentry
    rw [hsame entry hentry]
    exact hrefl) hother g₁.metaData
  exact ⟨_, hrun _ hput, hins, hread.blockBufferSize, hread.iqIndex, hread.fiqIndex, hread.metaData⟩

/-- **`updateBlock` of a stored block that fits** changes it in the cache and in the store. -/
theorem updateBlock_ok (hanswers : Answers Ok parts) (hid : ∀ b b', R b b' → b'.id = b.id)
    (h : Held Ok parts R stored g) (hroom : 1 ≤ g.bman.blockBufferSize)
    (hstored : stored block.id ≠ none) (hlaid : LaidBy parts block)
    (hfit : block.encoding.length ≤ 2 ^ 32)
    (hcomes : ∀ block', Block.ComesBack block block' → R block block') (hrefl : R block block) :
    ∃ g', updateBlock block g = .ok () g' ∧
      Held Ok parts R (Function.update stored block.id (some block)) g' ∧
      g'.bman.blockBufferSize = g.bman.blockBufferSize ∧ g'.iqIndex = g.iqIndex ∧
      g'.fiqIndex = g.fiqIndex ∧ g'.metaData = g.metaData := by
  obtain ⟨old, hold⟩ := Option.ne_none_iff_exists'.mp hstored
  obtain ⟨g', hrun, hshelved, hrest⟩ := h.shelved.updateBlock_ok hanswers.read hid hroom hold
    (h.laid hold) hlaid hfit hcomes hrefl
  exact ⟨g', hrun, hshelved.held (laid_update (fun _ _ => h.laid) hlaid), hrest⟩

theorem forget_ok {T : Type} {bman : BlockManager T schema} (h : Tidy bman) (id : BlockId) :
    ∃ bman', bman.forget id = .ok bman' ∧ Tidy bman' ∧ bman'.db = bman.db ∧
      bman'.blockBufferSize = bman.blockBufferSize ∧ bman'.cache.lookup id = none ∧
      ∀ id', id' ≠ id → bman'.cache.lookup id' = bman.cache.lookup id' := by
  unfold forget
  cases hlookup : bman.cache.lookup id with
  | none => exact ⟨bman, rfl, h, rfl, rfl, hlookup, fun _ _ => rfl⟩
  | some entry =>
      obtain ⟨n, hn⟩ := Option.ne_none_iff_exists'.mp (h.whole id entry hlookup)
      have hiter : bman.iterOf id = some n := by
        unfold iterOf
        rw [hlookup]
        exact hn
      have hmem : (n, id) ∈ bman.lruList := (h.points.own id n).mp hiter
      have herase : bman.eraseNode entry.iter
          = .ok { bman with lruList := bman.lruList.filter fun p => p.1 ≠ n } := by
        unfold eraseNode
        rw [hn]
        simp only
        rw [if_pos (List.mem_map_of_mem hmem)]
      refine ⟨{ bman with
        lruList := bman.lruList.filter fun p => p.1 ≠ n
        cache := bman.cache.erase id }, ?_, ⟨⟨?_, ?_⟩, ?_⟩, rfl, rfl, AList.lookup_erase _ _, ?_⟩
      · simp only [herase, Except.ok_map]
      · have hpoints : Points (bman.lruList.filter fun p => p.1 ≠ n) bman.nextNode
            (Function.update bman.iterOf id none) := h.points.erase hiter
        rw [← iterOf_erase] at hpoints
        exact hpoints
      · intro id' entry' hentry'
        by_cases hid' : id' = id
        · rw [hid'] at hentry'
          simp at hentry'
        · have hlookup' : (bman.cache.erase id).lookup id' = some entry' := hentry'
          rw [AList.lookup_erase_ne hid'] at hlookup'
          exact h.whole id' entry' hlookup'
      · exact le_trans (List.length_filter_le _ _) h.bound
      · intro id' hid'
        exact AList.lookup_erase_ne hid'

/-- A block is removed whether or not it can be read. -/
theorem Shelved.removeBlock_ok {P : Type} {Ok : P → Prop} {g : HistoricalGraph P T schema}
    (h : Shelved Ok R stored g) (id : BlockId) :
    ∃ g', removeBlock id g = .ok () g' ∧
      Shelved Ok R (Function.update stored id none) g' ∧
      g'.bman.blockBufferSize = g.bman.blockBufferSize ∧ g'.iqIndex = g.iqIndex ∧
      g'.fiqIndex = g.fiqIndex ∧ g'.metaData = g.metaData := by
  have htidy : Tidy { g.bman with db := g.bman.db.erase (keyBytes id) } :=
    ⟨⟨h.tidy.points, h.tidy.whole⟩, h.tidy.bound⟩
  obtain ⟨bman', hforget, htidy', hdb, hsize, hsame, hother⟩ := forget_ok htidy id
  have hfind : ∀ id', bman'.db.find? (keyBytes id')
      = if id' = id then none else g.bman.db.find? (keyBytes id') := by
    intro id'
    rw [hdb]
    show (g.bman.db.erase (keyBytes id)).find? (keyBytes id') = _
    rw [SortedMap.find?_erase]
    simp only [keyBytes_injective.eq_iff]
  refine ⟨{ g with bman := bman' }, ?_, ⟨h.index, htidy', ?_, ?_, ?_⟩, hsize, rfl, rfl, rfl⟩
  · unfold removeBlock
    rw [ofResult_bind_ok (key_eq id), modifyBlocks_bind, get_bind, ofResult_bind_ok hforget]
    rfl
  · intro id' hid'
    show bman'.db.find? (keyBytes id') = none
    rw [hfind]
    by_cases heq : id' = id
    · rw [if_pos heq]
    · rw [if_neg heq]
      rw [Function.update_of_ne heq] at hid'
      exact h.absent id' hid'
  · intro id' b hb
    have hne : id' ≠ id := by
      intro heq
      rw [heq, Function.update_self] at hb
      cases hb
    rw [Function.update_of_ne hne] at hb
    show bman'.db.find? (keyBytes id') = _ ∧ _
    rw [hfind, if_neg hne]
    exact h.present id' b hb
  · intro id' entry hentry
    have hlookup : bman'.cache.lookup id' = some entry := hentry
    have hne : id' ≠ id := by
      intro heq
      rw [heq, hsame] at hlookup
      cases hlookup
    rw [hother id' hne] at hlookup
    rw [Function.update_of_ne hne]
    exact h.cached id' entry hlookup

/-- **`removeBlock` removes the block** from the store and from the cache. -/
theorem removeBlock_ok {P : Type} {Ok : P → Prop} {g : HistoricalGraph P T schema}
    (h : Held Ok parts R stored g) (id : BlockId) :
    ∃ g', removeBlock id g = .ok () g' ∧
      Held Ok parts R (Function.update stored id none) g' ∧
      g'.bman.blockBufferSize = g.bman.blockBufferSize ∧ g'.iqIndex = g.iqIndex ∧
      g'.fiqIndex = g.fiqIndex ∧ g'.metaData = g.metaData := by
  obtain ⟨g', hrun, hshelved, hrest⟩ := h.shelved.removeBlock_ok id
  refine ⟨g', hrun, hshelved.held ?_, hrest⟩
  intro id' b hb
  by_cases hid : id' = id
  · rw [hid, Function.update_self] at hb
    cases hb
  · rw [Function.update_of_ne hid] at hb
    exact h.laid hb

theorem clear_ok {P : Type} {Ok : P → Prop} {g : HistoricalGraph P T schema}
    (h : Held Ok parts R stored g) :
    Held Ok parts R stored { g with bman := g.bman.clear } := by
  refine ⟨h.index, Tidy.clear g.bman, h.absent, h.present, ?_⟩
  intro id entry hentry
  simp [clear] at hentry

end Held

/-! ### One slice, one part -/

section OneSlice

open Block

/-- The slice around a time has a partitioning and is the entry used last. -/
def frontedAt (t : Time) (part : Partitioning) (idx : PartitionIndex Time) : Bool :=
  idx.removedPartitionings = [] &&
    match idx.cache.lowerBound t with
    | [] => false
    | (_, entry) :: _ =>
        entry.partitioning.startTime ≤ t && t < entry.partitioning.endTime &&
          entry.partitioning.partitioning = part &&
          idx.lruList.head?.map Prod.fst = some entry.iter

/-- A lookup of the entry used last changes nothing. -/
theorem lookup_of_fronted {t : Time} {part : Partitioning} {idx : PartitionIndex Time}
    (h : frontedAt t part idx = true) :
    ∃ tpart, idx.getTimeSlicedPartitioning t = .ok (tpart, idx) ∧
      idx.getTimeSlicedPartitioningForBlockDeserialization t = .ok (tpart, idx) ∧
      tpart.partitioning = part := by
  unfold frontedAt at h
  rw [Bool.and_eq_true, decide_eq_true_iff] at h
  obtain ⟨hremoved, h⟩ := h
  cases hlower : idx.cache.lowerBound t with
  | nil =>
      rw [hlower] at h
      simp at h
  | cons e rest =>
      obtain ⟨key, entry⟩ := e
      rw [hlower] at h
      simp only [Bool.and_eq_true, decide_eq_true_eq] at h
      obtain ⟨⟨⟨hstart, hend⟩, hpart⟩, hhead⟩ := h
      have hmem : entry.iter ∈ idx.lruList.map Prod.fst := by
        obtain ⟨p, hp, hpe⟩ := Option.map_eq_some_iff.mp hhead
        rw [← hpe]
        exact List.mem_map_of_mem (List.mem_of_head? hp)
      have htouch : idx.touch key t entry = .ok idx := by
        unfold PartitionIndex.touch
        rw [if_neg (not_not.mpr hmem), if_neg (not_not.mpr hhead.symm)]
        rfl
      have hlookup : idx.getTimeSlicedPartitioning t = .ok (entry.partitioning, idx) := by
        unfold PartitionIndex.getTimeSlicedPartitioning
        rw [hlower]
        simp only
        rw [if_pos ⟨hstart, hend⟩, htouch, Except.ok_map]
      refine ⟨entry.partitioning, hlookup, ?_, hpart⟩
      unfold PartitionIndex.getTimeSlicedPartitioningForBlockDeserialization
      rw [hremoved]
      exact hlookup

/-- One partitioning at one time. -/
def partsAt (t : Time) (part : Partitioning) (t' : Time) : Option Partitioning :=
  if t' = t then some part else none

/-- An index that has no slices on their way out, and as the lookups of one time leave it. -/
def LookedUp (t : Time) (part : Partitioning) (idx₀ idx : PartitionIndex Time) : Prop :=
  idx = idx₀ ∨ frontedAt t part idx = true

/-- The lookups of one time go on giving what the first one gave. -/
theorem lookedUp_answers {t : Time} {part : Partitioning} {idx₀ : PartitionIndex Time}
    (heval : ((idx₀.getTimeSlicedPartitioning t).toOption.map
      fun r => (r.1.partitioning, frontedAt t part r.2)) = some (part, true))
    (hremoved : idx₀.removedPartitionings = []) :
    Answers (LookedUp t part idx₀) (partsAt t part) := by
  have hall : ∀ idx t' part', LookedUp t part idx₀ idx → partsAt t part t' = some part' →
      ∃ tpart idx', idx.getTimeSlicedPartitioning t' = .ok (tpart, idx') ∧
        idx.getTimeSlicedPartitioningForBlockDeserialization t' = .ok (tpart, idx') ∧
        tpart.partitioning = part' ∧ LookedUp t part idx₀ idx' := by
    intro idx t' part' hidx hpart
    unfold partsAt at hpart
    split_ifs at hpart with ht
    rw [Option.some.injEq] at hpart
    rw [ht, ← hpart]
    rcases hidx with hnew | hfront
    · obtain ⟨⟨tpart, idx'⟩, hok, hboth⟩ := Except.of_toOption_map heval
      obtain ⟨htpart, hfront⟩ := Prod.mk.inj hboth
      rw [hnew]
      refine ⟨tpart, idx', hok, ?_, htpart, Or.inr hfront⟩
      unfold PartitionIndex.getTimeSlicedPartitioningForBlockDeserialization
      rw [hremoved]
      exact hok
    · obtain ⟨tpart, hok, hok', htpart⟩ := lookup_of_fronted hfront
      exact ⟨tpart, idx, hok, hok', htpart, Or.inr hfront⟩
  refine ⟨?_, ?_⟩
  · intro idx t part hidx hpart
    obtain ⟨tpart, idx', hok, -, htpart, hidx'⟩ := hall idx t part hidx hpart
    exact ⟨tpart, idx', hok, htpart, hidx'⟩
  · intro idx t part hidx hpart
    obtain ⟨tpart, idx', -, hok, htpart, hidx'⟩ := hall idx t part hidx hpart
    exact ⟨tpart, idx', hok, htpart, hidx'⟩

/-- At one second the partitioning is the one part with both texts. -/
def oneParts : Time → Option Partitioning := partsAt atOne [[[97], [98]]]

theorem oneParts_atOne : oneParts atOne = some [[[97], [98]]] := by
  unfold oneParts partsAt
  rw [if_pos rfl]

/-- The index as it is made, and as the lookups leave it. -/
def OneIndex : PartitionIndex Time → Prop := LookedUp atOne [[[97], [98]]] oneSlice

theorem oneIndex_answers : Answers OneIndex oneParts :=
  lookedUp_answers (by decide +kernel) (by decide +kernel)

/-- The sub-block of an edge with two texts. -/
def oneSub (a b : Text) : Block Time (AttributeData textSchema) :=
  { oneEdge a b with partition := 0 }

theorem oneSub_laidBy (a b : Text) : LaidBy oneParts (oneSub a b) := by
  obtain ⟨F, seen, hbuilt, hlisted⟩ := formed_oneEdge a b
  refine ⟨⟨F, seen, ⟨hbuilt.lists, hbuilt.data, hbuilt.mem_seen, hbuilt.nodup, hbuilt.size⟩,
    hlisted⟩, atOne, [[[97], [98]]], getPartitioningTimestamp_oneEdge a b, oneParts_atOne,
    Or.inr ⟨0, by decide, rfl, [[97], [98]], rfl, texts [] [], rfl, ?_⟩⟩
  intro v e he
  have hmem : e ∈ (oneEdge a b).neigs.edges v := he
  rw [edges_oneEdge] at hmem
  split_ifs at hmem
  · rw [List.mem_singleton.mp hmem]
    exact ⟨(full_texts a b).typed, rfl⟩
  · simp at hmem

theorem length_encoding_oneSub (a b : Text) : (oneSub a b).encoding.length
    = 60 + (4 + a.length % 2 ^ 32) + (4 + b.length % 2 ^ 32) := by
  have htimes : (oneSub a b).findMinMaxTimestamps = .ok (atOne, atOne) :=
    findMinMaxTimestamps_oneEdge a b
  have hdata : (texts a b).bytes.length = (4 + a.length % 2 ^ 32) + (4 + b.length % 2 ^ 32) := by
    show ((textBytes a ++ (textBytes b ++ []))).length = _
    rw [List.append_nil, List.length_append, length_textBytes, length_textBytes]
  have hlists : (listsBytes 0 []
      [⟨1, ⟨1, [⟨2, atOne, ⟨0, texts a b⟩⟩]⟩⟩]).1.length = 12 + 16 + (texts a b).bytes.length := by
    simp [listsBytes, edgesBytes, edgeBytes, dataBytes]
    omega
  have hentries : (oneSub a b).neigs.entries = [⟨1, ⟨1, [⟨2, atOne, ⟨0, texts a b⟩⟩]⟩⟩] := rfl
  have hpart : (oneSub a b).partition = 0 := rfl
  rw [encoding_of_times htimes]
  unfold bytes headerBytes idsBytes
  simp only [List.length_append, Bytes.length_bigEndian, hentries, hpart, hlists, hdata]
  show 8 + (4 + 0) + 8 + 8 + 4 + _ = _
  omega

/-- An empty store with room for one block. -/
def oneGraph : HistoricalGraph (PartitionIndex Time) Time textSchema :=
  { partIndex := oneSlice
    bman := .new 1 .empty
    iqIndex := []
    fiqIndex := .empty
    metaData := .load none }

theorem oneIndex_oneGraph : OneIndex oneGraph.partIndex := Or.inl rfl

theorem bman_oneGraph : oneGraph.bman = .new 1 .empty := rfl

end OneSlice

end BlockManager

end RailwayDB
