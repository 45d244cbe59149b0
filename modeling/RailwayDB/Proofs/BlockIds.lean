/-
The ids of blocks over the life of a storage directory.

The number of the next id lives in the meta data, and only `flush` writes that down.
Within a session ids only go up, and a block is stored under none but an id handed out
before, so the id handed out next is free.  A session that stores blocks after its last
flush leaves a file that is behind the store, and the session after it hands out the
same ids once more.

What is said here holds after any number of calls on the block manager, so it holds in
the middle of a call on the graph as well.
-/
import RailwayDB.Proofs.FailedRead
import RailwayDB.Proofs.Sessions

namespace RailwayDB

open BlockManager

variable {P T : Type} {schema : Schema} [LinearOrder T] [Timestamp T] [BlockTime T] [SliceIndex P T]
  {α : Type}

namespace BlockManager

open Storage

/-! ### The list of recent reads -/

/-- The list of recent reads belongs to the cache, and a block in it is stored.  An entry whose
read failed half way is not in the list. -/
structure ListOK (bman : BlockManager T schema) : Prop where
  points : Points bman.lruList bman.nextNode bman.iterOf
  stored : ∀ p ∈ bman.lruList, bman.db.find? (keyBytes p.2) ≠ none

variable {bman bman' : BlockManager T schema} {id : BlockId} {entry : BlockAndIdIter T schema}

theorem ListOK.pushFront {T : Type} {bman : BlockManager T schema}
    (points : Points bman.lruList bman.nextNode (Function.update bman.iterOf id none))
    (hstored : ∀ p ∈ bman.lruList, bman.db.find? (keyBytes p.2) ≠ none)
    (hid : bman.db.find? (keyBytes id) ≠ none) (block : Block T (AttributeData schema)) :
    ListOK (bman.pushFront id block) := by
  refine ⟨?_, ?_⟩
  · have hpush := points.push (k := id) (Function.update_self ..)
    have hiter : (bman.pushFront id block).iterOf
        = Function.update (Function.update bman.iterOf id none) id (some bman.nextNode) := by
      rw [Function.update_idem]
      exact iterOf_insert bman id ⟨block, some bman.nextNode⟩
    rw [hiter]
    exact hpush
  · intro p hp
    rcases List.mem_cons.mp hp with hfront | hrest
    · rw [hfront]
      exact hid
    · exact hstored p hrest

theorem ListOK.evict {T : Type} {bman : BlockManager T schema} (h : ListOK bman) :
    ListOK bman.evict := by
  unfold BlockManager.evict
  split_ifs with hfull
  · cases hlast : bman.lruList.getLast? with
    | none => exact h
    | some p =>
        refine ⟨?_, fun q hq => h.stored q (List.dropLast_subset _ hq)⟩
        have hiter := iterOf_erase bman p.2
        show Points bman.lruList.dropLast bman.nextNode
          (iterOf { bman with cache := bman.cache.erase p.2 })
        rw [hiter]
        exact h.points.dropLast hlast
  · exact h

/-- An entry with an iterator is in the list. -/
theorem ListOK.mem {T : Type} {bman : BlockManager T schema} {entry : BlockAndIdIter T schema}
    (h : ListOK bman) (hentry : bman.cache.lookup id = some entry) {n : Nat}
    (hn : entry.iter = some n) : bman.iterOf id = some n ∧ (n, id) ∈ bman.lruList := by
  have hiter : bman.iterOf id = some n := by
    unfold iterOf
    rw [hentry]
    exact hn
  exact ⟨hiter, (h.points.own id n).mp hiter⟩

theorem eraseNode_eq_ok {T : Type} {bman bman' : BlockManager T schema} {iter : Option Nat}
    (h : bman.eraseNode iter = .ok bman') :
    ∃ n, iter = some n ∧ bman' = { bman with lruList := bman.lruList.filter fun p => p.1 ≠ n } := by
  unfold eraseNode at h
  cases iter with
  | none => cases h
  | some n =>
      dsimp only at h
      split_ifs at h
      exact ⟨n, rfl, (Except.ok.inj h).symm⟩

theorem ListOK.touch {T : Type} {bman bman' : BlockManager T schema}
    {entry : BlockAndIdIter T schema} (h : ListOK bman) (hentry : bman.cache.lookup id = some entry)
    (htouch : bman.touch id entry = .ok bman') :
    ListOK bman' ∧ bman'.db = bman.db ∧ bman.db.find? (keyBytes id) ≠ none := by
  unfold BlockManager.touch at htouch
  split_ifs at htouch with hfront
  · obtain ⟨n, hn⟩ := Option.ne_none_iff_exists'.mp hfront.1
    rw [← Except.ok.inj htouch]
    exact ⟨h, rfl, h.stored (n, id) (h.mem hentry hn).2⟩
  · obtain ⟨bman₁, herase, hpush⟩ := Except.map_eq_ok.mp htouch
    obtain ⟨n, hn, rfl⟩ := eraseNode_eq_ok herase
    obtain ⟨hiter, hmem⟩ := h.mem hentry hn
    have hid : bman.db.find? (keyBytes id) ≠ none := h.stored (n, id) hmem
    have hpoints : Points (bman.lruList.filter fun p => p.1 ≠ n) bman.nextNode
        (Function.update bman.iterOf id none) := h.points.erase hiter
    have hlisted : ListOK (({ bman with lruList := bman.lruList.filter fun p => p.1 ≠ n } :
        BlockManager T schema).pushFront id entry.block) := by
      refine ListOK.pushFront ?_ ?_ ?_ entry.block
      · exact hpoints
      · exact fun p hp => h.stored p (List.mem_of_mem_filter hp)
      · exact hid
    rw [← hpush]
    exact ⟨hlisted, rfl, hid⟩

/-- A block that is not in the list may be removed from the store. -/
theorem ListOK.erase {T : Type} {bman : BlockManager T schema} (h : ListOK bman)
    (hid : bman.iterOf id = none) :
    ListOK { bman with db := bman.db.erase (keyBytes id) } := by
  refine ⟨h.points, ?_⟩
  intro p hp
  have hne : p.2 ≠ id := by
    intro heq
    have hiter := (h.points.own p.2 p.1).mpr hp
    rw [heq, hid] at hiter
    cases hiter
  show (bman.db.erase (keyBytes id)).find? (keyBytes p.2) ≠ none
  rw [SortedMap.find?_erase, if_neg fun heq => hne (keyBytes_injective heq)]
  exact h.stored p hp

/-- A removed block leaves the cache with its node. -/
theorem ListOK.forget_ok {T : Type} {bman bman' : BlockManager T schema} (h : ListOK bman)
    (hforget : ({ bman with db := bman.db.erase (keyBytes id) }).forget id = .ok bman') :
    ListOK bman' ∧ bman'.db = bman.db.erase (keyBytes id) := by
  unfold BlockManager.forget at hforget
  dsimp only at hforget
  cases hentry : bman.cache.lookup id with
  | none =>
      have hiter : bman.iterOf id = none := by
        unfold iterOf
        rw [hentry]
        rfl
      rw [hentry] at hforget
      rw [← Except.ok.inj hforget]
      exact ⟨h.erase hiter, rfl⟩
  | some entry =>
      rw [hentry] at hforget
      obtain ⟨bman₁, herase, hcache⟩ := Except.map_eq_ok.mp hforget
      obtain ⟨n, hn, rfl⟩ := eraseNode_eq_ok herase
      obtain ⟨hiter, -⟩ := h.mem hentry hn
      rw [← hcache]
      refine ⟨⟨?_, ?_⟩, rfl⟩
      · have hpoints : Points (bman.lruList.filter fun p => p.1 ≠ n) bman.nextNode
            (Function.update bman.iterOf id none) := h.points.erase hiter
        rw [← iterOf_erase] at hpoints
        exact hpoints
      · intro p hp
        have hp' : p ∈ bman.lruList.filter fun p => p.1 ≠ n := hp
        obtain ⟨hmem, hne⟩ := List.mem_filter.mp hp'
        have hid : p.2 ≠ id := by
          intro heq
          have hnode := (h.points.own p.2 p.1).mpr hmem
          rw [heq, hiter, Option.some.injEq] at hnode
          simp [hnode] at hne
        show (bman.db.erase (keyBytes id)).find? (keyBytes p.2) ≠ none
        rw [SortedMap.find?_erase, if_neg fun heq => hid (keyBytes_injective heq)]
        exact h.stored p hmem

/-- It is an entry without a node that cannot be removed. -/
theorem ListOK.forget_error {T : Type} {bman : BlockManager T schema} (h : ListOK bman)
    {fault : Fault}
    (hforget : ({ bman with db := bman.db.erase (keyBytes id) }).forget id = .error fault) :
    bman.iterOf id = none := by
  unfold BlockManager.forget at hforget
  dsimp only at hforget
  cases hentry : bman.cache.lookup id with
  | none =>
      rw [hentry] at hforget
      cases hforget
  | some entry =>
      cases hn : entry.iter with
      | none =>
          unfold iterOf
          rw [hentry]
          exact hn
      | some n =>
          obtain ⟨-, hmem⟩ := h.mem hentry hn
          unfold eraseNode at hforget
          rw [hentry] at hforget
          dsimp only at hforget
          rw [hn] at hforget
          dsimp only at hforget
          rw [if_pos (List.mem_map_of_mem hmem)] at hforget
          cases hforget

/-! ### What a call does to the store -/

variable {g : HistoricalGraph P T schema}

/-- The store and the next id are the same, and the list is in order. -/
structure Reads (g g' : HistoricalGraph P T schema) : Prop where
  listed : ListOK g'.bman
  db : g'.bman.db = g.bman.db
  metaData : g'.metaData = g.metaData

theorem Reads.refl {T : Type} {g : HistoricalGraph P T schema} (h : ListOK g.bman) :
    Reads g g := ⟨h, rfl, rfl⟩

theorem ends_fetch (h : ListOK g.bman) (hmiss : g.bman.cache.lookup id = none) :
    Ends (fetch id) g (fun _ g' => Reads g g' ∧ g.bman.db.find? (keyBytes id) ≠ none)
      (fun _ g' => Reads g g') := by
  have hnone : g.bman.iterOf id = none := by
    unfold iterOf
    rw [hmiss]
    rfl
  have hhalf : iterOf { g.bman with cache := g.bman.cache.insert id ⟨.new, none⟩ }
      = g.bman.iterOf := by
    rw [iterOf_insert, ← hnone, Function.update_eq_self]
  unfold fetch
  rw [Ends, ofResult_bind_ok (key_eq id), get_bind]
  cases hfind : g.bman.db.find? (keyBytes id) with
  | none => exact Reads.refl h
  | some value =>
      have hid : g.bman.db.find? (keyBytes id) ≠ none := by
        rw [hfind]
        exact Option.some_ne_none value
      dsimp only
      rw [modifyBlocks_bind]
      -- The manager with the entry that is filled while the block is read.
      have hlisted : ListOK ({ g.bman with cache := g.bman.cache.insert id ⟨.new, none⟩ } :
          BlockManager T schema) := ⟨by rw [hhalf]; exact h.points, h.stored⟩
      cases hread : (onIndex (Block.deserialize (NetworkByteBuffer.ofBytes value)) :
          Storage P T schema _) { g with bman := { g.bman with
            cache := g.bman.cache.insert id ⟨.new, none⟩ } } with
      | error e g' =>
          rw [run_bind_error hread, onIndex_eq_error hread]
          exact ⟨hlisted, rfl, rfl⟩
      | ok r g' =>
          obtain ⟨idx, -, rfl⟩ := onIndex_eq_ok.mp hread
          rw [run_bind_ok hread]
          have hpushed : ListOK (({ g.bman with cache := g.bman.cache.insert id ⟨.new, none⟩ } :
              BlockManager T schema).pushFront id r.1) := by
            refine ListOK.pushFront ?_ ?_ ?_ r.1
            · rw [hhalf, ← hnone, Function.update_eq_self]
              exact h.points
            · exact h.stored
            · exact hid
          exact ⟨⟨hpushed.evict, (evict_frame _).1, rfl⟩, Option.some_ne_none value⟩

theorem ends_hit {T : Type} {entry : BlockAndIdIter T schema} {g : HistoricalGraph P T schema}
    (h : ListOK g.bman) (hentry : g.bman.cache.lookup id = some entry) :
    Ends (hit id entry) g (fun _ g' => Reads g g' ∧ g.bman.db.find? (keyBytes id) ≠ none)
      (fun _ g' => Reads g g') := by
  unfold hit
  rw [Ends, get_bind]
  cases htouch : g.bman.touch id entry with
  | error e =>
      rw [ofResult_bind_error rfl]
      exact Reads.refl h
  | ok bman' =>
      obtain ⟨hlisted, hdb, hid⟩ := h.touch hentry htouch
      rw [ofResult_bind_ok rfl]
      exact ⟨⟨hlisted, hdb, rfl⟩, hid⟩

/-- A read that returns is one of a stored block. -/
theorem ends_getBlock (h : ListOK g.bman) (id : BlockId) :
    Ends (getBlock id) g (fun _ g' => Reads g g' ∧ g.bman.db.find? (keyBytes id) ≠ none)
      (fun _ g' => Reads g g') := by
  have hread : ∀ (x : Storage P T schema Unit),
      Ends x g (fun _ g' => Reads g g' ∧ g.bman.db.find? (keyBytes id) ≠ none)
        (fun _ g' => Reads g g') →
      Ends (do x; ofResult ((← get).bman.blockAt id)) g
        (fun _ g' => Reads g g' ∧ g.bman.db.find? (keyBytes id) ≠ none)
        (fun _ g' => Reads g g') := by
    intro x hx
    refine hx.bind ?_
    rintro - g' ⟨hreads, hid⟩
    rw [Ends, get_bind]
    cases g'.bman.blockAt id with
    | error e => exact hreads
    | ok block => exact ⟨hreads, hid⟩
  unfold getBlock
  rw [Ends, get_bind]
  cases hentry : g.bman.cache.lookup id with
  | none => exact hread _ (ends_fetch h hentry)
  | some entry => exact hread _ (ends_hit h hentry)

/-- `put` writes under the id of the block or not at all. -/
theorem ends_put {P : Type} (g : HistoricalGraph P T schema)
    (block : Block T (AttributeData schema)) :
    Ends (put block) g
      (fun _ g' => ∃ data, g' = { g with bman := { g.bman with
        db := g.bman.db.insert (keyBytes block.id) data } })
      (fun _ g' => g' = g) := by
  unfold put
  rw [Ends, ofResult_bind_ok (key_eq block.id)]
  cases block.serialize NetworkByteBuffer.new with
  | error e => exact rfl
  | ok sbuf => exact ⟨sbuf.contents, rfl⟩

/-- `addBlock` uses up an id, whether it writes under it or not. -/
theorem ends_addBlock {P : Type} (g : HistoricalGraph P T schema)
    (block : Block T (AttributeData schema)) :
    Ends (addBlock block) g
      (fun _ g' => g'.metaData.nextBlockId = g.metaData.nextBlockId + 1 ∧
        ∃ data, g'.bman = { g.bman with
          db := g.bman.db.insert (keyBytes g.metaData.blockId) data })
      (fun _ g' => g'.metaData.nextBlockId = g.metaData.nextBlockId + 1 ∧ g'.bman = g.bman) := by
  have hput := ends_put { g with metaData := { g.metaData with
    nextBlockId := g.metaData.nextBlockId + 1 } } { block with id := g.metaData.blockId }
  unfold addBlock
  rw [Ends, get_bind]
  have hdone := hput.mono (fun _ _ hdone => hdone) fun _ g' (hsame : g' = _) =>
    (⟨by rw [hsame], by rw [hsame]⟩ :
      g'.metaData.nextBlockId = g.metaData.nextBlockId + 1 ∧ g'.bman = g.bman)
  refine hdone.bind ?_
  rintro - g' ⟨data, rfl⟩
  exact Ends.pure ⟨rfl, data, rfl⟩

theorem ListOK.insert {T : Type} {bman : BlockManager T schema} (h : ListOK bman) (id : BlockId)
    (data : List Byte) :
    ListOK { bman with db := bman.db.insert (keyBytes id) data } := by
  refine ⟨h.points, ?_⟩
  intro p hp
  show (bman.db.insert (keyBytes id) data).find? (keyBytes p.2) ≠ none
  rw [SortedMap.find?_insert]
  split_ifs
  · exact Option.some_ne_none data
  · exact h.stored p hp

theorem ListOK.cacheBlock {T : Type} {bman : BlockManager T schema} (h : ListOK bman)
    (block : Block T (AttributeData schema)) :
    ListOK (cacheBlock block bman) := by
  unfold BlockManager.cacheBlock
  cases hentry : bman.cache.lookup block.id with
  | none => exact h
  | some entry =>
      refine ⟨?_, h.stored⟩
      have hsame : bman.iterOf block.id = entry.iter := by
        unfold iterOf
        rw [hentry]
        rfl
      have hiter : iterOf { bman with
          cache := bman.cache.insert block.id { entry with block := block } } = bman.iterOf := by
        rw [iterOf_insert, ← hsame, Function.update_eq_self]
      show Points bman.lruList bman.nextNode _
      rw [hiter]
      exact h.points

end BlockManager

namespace Storage

/-! ### Stored blocks have ids handed out before -/

/-- The list of recent reads is in order, and the id of a stored block is below the next one. -/
structure Accounted (g : HistoricalGraph P T schema) : Prop where
  listed : ListOK g.bman
  below : ∀ id, g.bman.db.find? (keyBytes id) ≠ none → id.val < g.metaData.nextBlockId

variable {g g' : HistoricalGraph P T schema}

theorem Accounted.reads {T : Type} {g g' : HistoricalGraph P T schema} (h : Accounted g)
    (hreads : Reads g g') : Accounted g' := by
  refine ⟨hreads.listed, ?_⟩
  intro id hid
  rw [hreads.db] at hid
  rw [hreads.metaData]
  exact h.below id hid

/-- A write under an id handed out before. -/
theorem Accounted.insert {T : Type} {g g' : HistoricalGraph P T schema} (h : Accounted g)
    {id : BlockId} {data : List Byte}
    (hbman : g'.bman = { g.bman with db := g.bman.db.insert (keyBytes id) data })
    (hnext : g.metaData.nextBlockId ≤ g'.metaData.nextBlockId)
    (hid : id.val < g'.metaData.nextBlockId) : Accounted g' := by
  refine ⟨by rw [hbman]; exact h.listed.insert id data, ?_⟩
  intro id' hstored
  rw [hbman] at hstored
  have hinsert : (g.bman.db.insert (keyBytes id) data).find? (keyBytes id') ≠ none := hstored
  rw [SortedMap.find?_insert] at hinsert
  by_cases heq : keyBytes id' = keyBytes id
  · rw [keyBytes_injective heq]
    exact hid
  · rw [if_neg heq] at hinsert
    exact lt_of_lt_of_le (h.below id' hinsert) hnext

theorem Accounted.addBlock {P : Type} {g : HistoricalGraph P T schema} (h : Accounted g)
    (block : Block T (AttributeData schema)) :
    Accounted (stateAfter (BlockManager.addBlock block) g) := by
  refine Ends.stateAfter ((ends_addBlock g block).mono ?_ ?_)
  · rintro - g' ⟨hnext, data, hbman⟩
    refine h.insert hbman (by omega) ?_
    -- The id given is the number of ids before it, up to 2^64.
    rw [hnext]
    exact Nat.lt_succ_of_le (Nat.mod_le _ _)
  · rintro - g' ⟨hnext, hbman⟩
    refine ⟨by rw [hbman]; exact h.listed, ?_⟩
    intro id hid
    rw [hbman] at hid
    rw [hnext]
    exact Nat.lt_succ_of_lt (h.below id hid)

theorem cacheBlock_db {T : Type} (block : Block T (AttributeData schema))
    (bman : BlockManager T schema) :
    (cacheBlock block bman).db = bman.db := by
  unfold cacheBlock
  cases bman.cache.lookup block.id with
  | none => rfl
  | some entry => rfl

/-- A block is updated under an id it is stored under. -/
theorem Accounted.updateBlock (h : Accounted g) (block : Block T (AttributeData schema)) :
    Accounted (stateAfter (BlockManager.updateBlock block) g) := by
  refine Ends.stateAfter ?_
  unfold BlockManager.updateBlock
  refine Ends.bind ((ends_getBlock h.listed block.id).mono (fun _ _ hget => hget) ?_) ?_
  · exact fun _ _ hreads => h.reads hreads
  · rintro - g₁ ⟨hreads, hid⟩
    have hcached : Accounted { g₁ with bman := cacheBlock block g₁.bman } := by
      refine ⟨hreads.listed.cacheBlock block, ?_⟩
      intro id hstored
      have hfind : (cacheBlock block g₁.bman).db.find? (keyBytes id) ≠ none := hstored
      rw [cacheBlock_db] at hfind
      exact (h.reads hreads).below id hfind
    have hbelow : block.id.val < g₁.metaData.nextBlockId := by
      rw [hreads.metaData]
      exact h.below block.id hid
    rw [Ends, modifyBlocks_bind]
    refine (ends_put _ block).mono ?_ ?_
    · rintro - g' ⟨data, rfl⟩
      exact hcached.insert rfl (le_refl _) hbelow
    · rintro - g' rfl
      exact hcached

/-- A block leaves the store and the cache; an entry without a node stays in the cache. -/
theorem Accounted.removeBlock {T : Type} {g : HistoricalGraph P T schema} (h : Accounted g)
    (id : BlockId) :
    Accounted (stateAfter (BlockManager.removeBlock id) g) := by
  have hbelow : ∀ id', (g.bman.db.erase (keyBytes id)).find? (keyBytes id') ≠ none →
      id'.val < g.metaData.nextBlockId := by
    intro id' hid'
    rw [SortedMap.find?_erase] at hid'
    split_ifs at hid' with heq
    · exact absurd rfl hid'
    · exact h.below id' hid'
  refine Ends.stateAfter ?_
  unfold BlockManager.removeBlock
  rw [Ends, ofResult_bind_ok (key_eq id), modifyBlocks_bind, get_bind]
  cases hforget : ({ g.bman with db := g.bman.db.erase (keyBytes id) }).forget id with
  | error e =>
      rw [ofResult_bind_error rfl]
      exact ⟨h.listed.erase (h.listed.forget_error hforget), hbelow⟩
  | ok bman' =>
      obtain ⟨hlisted, hdb⟩ := h.listed.forget_ok hforget
      rw [ofResult_bind_ok rfl]
      refine ⟨hlisted, ?_⟩
      intro id' hid'
      have hfind : bman'.db.find? (keyBytes id') ≠ none := hid'
      rw [hdb] at hfind
      exact hbelow id' hfind

theorem Accounted.step (h : Accounted g) (hstep : Step g g') : Accounted g' := by
  cases hstep with
  | getBlock id =>
      refine Ends.stateAfter ((ends_getBlock h.listed id).mono ?_ ?_)
      · exact fun _ _ hget => h.reads hget.1
      · exact fun _ _ hreads => h.reads hreads
  | addBlock block => exact h.addBlock block
  | updateBlock block => exact h.updateBlock block
  | removeBlock id => exact h.removeBlock id
  | partIndex partIndex => exact ⟨h.listed, h.below⟩
  | indexes iqIndex fiqIndex => exact ⟨h.listed, h.below⟩
  | schemaStats stats => exact ⟨h.listed, h.below⟩

theorem Accounted.steps (h : Accounted g) (hsteps : Steps g g') : Accounted g' := by
  induction hsteps with
  | refl => exact h
  | tail _ hstep ih => exact ih.step hstep

/-- No block is stored under the id given next, and no call overwrites a stored block with one that
has another id. -/
structure NeverOverwrites (g : HistoricalGraph P T schema) : Prop where
  fresh : g.bman.db.find? (keyBytes g.metaData.blockId) = none
  added : ∀ block key value, g.bman.db.find? key = some value →
    (stateAfter (BlockManager.addBlock block) g).bman.db.find? key = some value
  updated : ∀ block key value, key ≠ keyBytes block.id → g.bman.db.find? key = some value →
    (stateAfter (BlockManager.updateBlock block) g).bman.db.find? key = some value

/-- `put` leaves the other keys alone. -/
theorem put_other {P : Type} (g : HistoricalGraph P T schema)
    (block : Block T (AttributeData schema)) {key value : List Byte}
    (hkey : key ≠ keyBytes block.id) (hstored : g.bman.db.find? key = some value) :
    Ends (BlockManager.put block) g (fun _ g' => g'.bman.db.find? key = some value)
      (fun _ g' => g'.bman.db.find? key = some value) := by
  refine (ends_put g block).mono ?_ ?_
  · rintro - g' ⟨data, rfl⟩
    show (g.bman.db.insert (keyBytes block.id) data).find? key = some value
    rw [SortedMap.find?_insert, if_neg hkey]
    exact hstored
  · rintro - g' rfl
    exact hstored

theorem Accounted.neverOverwrites (h : Accounted g) (hroom : g.metaData.nextBlockId < 2 ^ 64) :
    NeverOverwrites g := by
  have hfresh : g.bman.db.find? (keyBytes g.metaData.blockId) = none := by
    by_contra hstored
    have hlt := h.below _ hstored
    have hval : g.metaData.blockId.val = g.metaData.nextBlockId := Nat.mod_eq_of_lt hroom
    omega
  refine ⟨hfresh, ?_, ?_⟩
  · intro block key value hstored
    have hkey : key ≠ keyBytes g.metaData.blockId := by
      intro heq
      rw [heq, hfresh] at hstored
      cases hstored
    have hends : Ends (BlockManager.addBlock block) g
        (fun _ g' => g'.bman.db.find? key = some value)
        (fun _ g' => g'.bman.db.find? key = some value) := by
      refine (ends_addBlock g block).mono ?_ ?_
      · rintro - g' ⟨-, data, hbman⟩
        rw [hbman]
        show (g.bman.db.insert _ data).find? key = some value
        rw [SortedMap.find?_insert, if_neg hkey]
        exact hstored
      · rintro - g' ⟨-, hbman⟩
        rw [hbman]
        exact hstored
    exact hends.stateAfter
  · intro block key value hkey hstored
    have hends : Ends (BlockManager.updateBlock block) g
        (fun _ g' => g'.bman.db.find? key = some value)
        (fun _ g' => g'.bman.db.find? key = some value) := by
      unfold BlockManager.updateBlock
      refine Ends.bind ((ends_getBlock h.listed block.id).mono (fun _ _ hget => hget) ?_) ?_
      · intro _ g' hreads
        rw [hreads.db]
        exact hstored
      · rintro - g₁ ⟨hreads, -⟩
        rw [Ends, modifyBlocks_bind]
        refine put_other _ block hkey ?_
        show (cacheBlock block g₁.bman).db.find? key = some value
        rw [cacheBlock_db, hreads.db]
        exact hstored
    exact hends.stateAfter

end Storage

namespace InteractionGraph

open Storage

variable {S : Type} [LinearOrder S] [Score S] [TimeScore T S] {vertexSchema edgeSchema : Schema}

/-- The next id in the file is past those of all stored blocks. -/
def Saved (g : InteractionGraph P T S vertexSchema edgeSchema) : Prop :=
  ∀ id, g.hisg.bman.db.find? (keyBytes id) ≠ none →
    id.val < (MetaDataManager.load g.file).nextBlockId

variable {g : InteractionGraph P T S vertexSchema edgeSchema}

theorem listOK_new {T : Type} (blockBufferSize : Nat) (db : SortedMap (List Byte) (List Byte)) :
    ListOK (BlockManager.new blockBufferSize db : BlockManager T edgeSchema) := by
  refine ⟨?_, fun p hp => by cases hp⟩
  have hnone : (BlockManager.new blockBufferSize db : BlockManager T edgeSchema).iterOf
      = fun _ => none := rfl
  rw [hnone]
  exact Points.nil 0

theorem Saved.accounted {T : Type} [BlockTime T] [SliceIndex P T] {S : Type} [LinearOrder S]
    {g : InteractionGraph P T S vertexSchema edgeSchema} (h : Saved g) (conf : Conf) :
    Accounted (g.reopen conf).hisg :=
  ⟨listOK_new _ _, h⟩

theorem Reached.accounted (h : Reached Saved g) : Accounted g.hisg := by
  induction h with
  | new conf partIndex => exact ⟨listOK_new _ _, fun id hid => absurd rfl hid⟩
  | call c _ ih => exact ih.steps (c.passes _)
  | reopen conf _ hsaved _ => exact hsaved.accounted conf

/-- Adding blocks one after the other moves the next id on and removes nothing. -/
theorem exists_steps_addBlock (block : Block T (AttributeData edgeSchema))
    (hisg : HistoricalGraph P T edgeSchema) {key : List Byte}
    (hstored : hisg.bman.db.find? key ≠ none) (n : Nat) :
    ∃ hisg', Steps hisg hisg' ∧ hisg'.metaData.nextBlockId = hisg.metaData.nextBlockId + n ∧
      hisg'.bman.db.find? key ≠ none := by
  induction n with
  | zero => exact ⟨hisg, Relation.ReflTransGen.refl, rfl, hstored⟩
  | succ n ih =>
      obtain ⟨hisg₁, hsteps, hnext, hstill⟩ := ih
      have hadd : Ends (BlockManager.addBlock block) hisg₁
          (fun _ g' => g'.metaData.nextBlockId = hisg₁.metaData.nextBlockId + 1 ∧
            g'.bman.db.find? key ≠ none)
          (fun _ g' => g'.metaData.nextBlockId = hisg₁.metaData.nextBlockId + 1 ∧
            g'.bman.db.find? key ≠ none) := by
        refine (ends_addBlock hisg₁ block).mono ?_ ?_
        · rintro - g' ⟨hcount, data, hbman⟩
          refine ⟨hcount, ?_⟩
          rw [hbman]
          show (hisg₁.bman.db.insert _ data).find? key ≠ none
          rw [SortedMap.find?_insert]
          split_ifs
          · exact Option.some_ne_none data
          · exact hstill
        · rintro - g' ⟨hcount, hbman⟩
          rw [hbman]
          exact ⟨hcount, hstill⟩
      obtain ⟨hcount, hkept⟩ := hadd.stateAfter
      refine ⟨_, hsteps.tail (Step.addBlock hisg₁ block), ?_, hkept⟩
      rw [hcount, hnext, Nat.add_assoc]

/-- **No id is given while a block is stored under it**, in the middle of a call or between two,
as long as every session is closed with the file past all stored blocks; and a session closed
otherwise can be followed by one that overwrites a block. -/
theorem reached_neverOverwrites (h : Reached Saved g) :
    (∀ c : Call T S, Steps g.hisg (c.after g).hisg) ∧
      (∀ hisg, Steps g.hisg hisg → hisg.metaData.nextBlockId < 2 ^ 64 → NeverOverwrites hisg) ∧
      ∀ conf, (∀ hisg, Steps (g.reopen conf).hisg hisg → hisg.metaData.nextBlockId < 2 ^ 64 →
        NeverOverwrites hisg) ↔ Saved g := by
  refine ⟨Call.passes g, fun hisg hsteps => (h.accounted.steps hsteps).neverOverwrites, ?_⟩
  intro conf
  refine ⟨?_, fun hsaved hisg hsteps => ((hsaved.accounted conf).steps hsteps).neverOverwrites⟩
  intro hnever id hid
  by_contra hlt
  -- Enough blocks bring the next id to the one that is taken.
  obtain ⟨hisg, hsteps, hnext, hstill⟩ := exists_steps_addBlock .new (g.reopen conf).hisg hid
    (id.val - (MetaDataManager.load g.file).nextBlockId)
  have hcount : hisg.metaData.nextBlockId = id.val := by
    rw [hnext]
    show (MetaDataManager.load g.file).nextBlockId + _ = _
    omega
  have hroom : hisg.metaData.nextBlockId < 2 ^ 64 := by
    rw [hcount]
    exact id.isLt
  have hgiven : hisg.metaData.blockId = id := by
    refine Fin.ext ?_
    show hisg.metaData.nextBlockId % 2 ^ 64 = id.val
    rw [Nat.mod_eq_of_lt hroom, hcount]
  have hfresh := (hnever hisg hsteps hroom).fresh
  rw [hgiven] at hfresh
  exact hstill hfresh

/-! ### Closing after a flush, and later -/

theorem saved_of_eq {T S : Type} [LinearOrder S]
    {g : InteractionGraph P T S vertexSchema edgeSchema} (h : Accounted g.hisg)
    (hfile : (MetaDataManager.load g.file).nextBlockId = g.hisg.metaData.nextBlockId) :
    Saved g := by
  intro id hid
  rw [hfile]
  exact h.below id hid

section Examples

open Block

/-- Two vertices, an edge between them and a flush. -/
def firstCalls : List (Call Time ℚ) :=
  [.createVertex 1 [.string [], .string []], .createVertex 2 [.string [], .string []],
    .addEdge (fun _ => Oracle.plain) 1 2 atOne [.string [120], .string [121]],
    .flush (fun _ => Oracle.plain) (fun _ => Oracle.plain) 1]

/-- Each attribute gets a part of its own. -/
def splitCall : Call Time ℚ :=
  .replaceTimeSlicedPartitioning allTree
    ⟨Timestamp.negInfinity, Timestamp.infinity, [[[97], [98]]]⟩
    [⟨Timestamp.negInfinity, Timestamp.infinity, [[[97]], [[98]]]⟩]

/-- An edge a second later and a flush. -/
def secondCalls : List (Call Time ℚ) :=
  [.addEdge (fun _ => Oracle.plain) 1 2 (Time.ofFloat 2.0) [.string [122], .string [122]],
    .flush (fun _ => Oracle.plain) (fun _ => Oracle.plain) 1]

/-- A first session. -/
def flushed : InteractionGraph (PartitionIndex Time) Time ℚ textSchema textSchema :=
  firstCalls.foldl Call.after (new smallConf oneSlice)

/-- And with the slice split after the flush. -/
def split : InteractionGraph (PartitionIndex Time) Time ℚ textSchema textSchema :=
  splitCall.after flushed

/-- A session that ends with its flush is followed by one that gives new ids. -/
theorem reached_neverOverwrites_flushed :
    Reached Saved (flushed.reopen Conf.default) ∧
      (flushed.reopen Conf.default).hisg.metaData.nextBlockId = 2 ∧
      NeverOverwrites (flushed.reopen Conf.default).hisg := by
  have hflushed : Reached Saved flushed := Reached.calls (Reached.new smallConf oneSlice) _
  have hfile : (MetaDataManager.load flushed.file).nextBlockId
      = flushed.hisg.metaData.nextBlockId := by decide +kernel
  have hreopened := hflushed.reopen Conf.default (saved_of_eq hflushed.accounted hfile)
  have hnext : (flushed.reopen Conf.default).hisg.metaData.nextBlockId = 2 := by decide +kernel
  refine ⟨hreopened, hnext, ?_⟩
  refine (reached_neverOverwrites hreopened).2.1 _ Relation.ReflTransGen.refl ?_
  rw [hnext]
  decide

/-- Splitting stores the sub-block 2 of the block 1, and the next session writes its first block
over it. -/
theorem split_overwritten :
    Reached (fun _ => True) (split.reopen Conf.default) ∧
      (split.reopen Conf.default).hisg.metaData.blockId = 2 ∧
      (answer? (BlockManager.getBlock 1 (split.reopen Conf.default).hisg)).map Block.subBlocks
        = some [0, 2] ∧
      ¬ NeverOverwrites (split.reopen Conf.default).hisg ∧
      (secondCalls.foldl Call.after (split.reopen Conf.default)).hisg.bman.db.find? (keyBytes 2)
        ≠ (split.reopen Conf.default).hisg.bman.db.find? (keyBytes 2) := by
  have hflushed : Reached (fun _ => True) flushed :=
    Reached.calls (Reached.new smallConf oneSlice) _
  refine ⟨(hflushed.call splitCall).reopen Conf.default trivial, ?_, ?_, ?_, ?_⟩
  · decide +kernel
  · decide +kernel
  · intro hnever
    have hstored : (split.reopen Conf.default).hisg.bman.db.find?
        (keyBytes (split.reopen Conf.default).hisg.metaData.blockId) ≠ none := by decide +kernel
    exact hstored hnever.fresh
  · decide +kernel

end Examples

end InteractionGraph

end RailwayDB
