/-
Rewriting a master block and its sub-blocks.

`replaceBlocks` gives the new sub-blocks the ids of the old ones as far as they go,
hands out new ids when there are more and removes old blocks when there are fewer.
The counts are `int`s made from sizes.  They are right because a block that can be
written has fewer than 2^29 sub-block ids: each takes eight bytes of a buffer of at
most 2^32.

What the block manager does is taken as that of a map, `ActsAsMap`, and shown of the
manager itself in `held_actsAsMap`.
-/
import RailwayDB.Proofs.BlockCalls
import RailwayDB.Proofs.Recombine
import RailwayDB.Core.IntervalQueryIndex

namespace RailwayDB

open Storage

variable {P T : Type} {schema : Schema}

/-! ### A manager that acts as a map -/

namespace BlockManager

variable [LinearOrder T] [Timestamp T] [BlockTime T] [SliceIndex P T]

/-- Blocks that `Fits` says can be written are added, updated and removed as in a map. -/
structure ActsAsMap (R : Blocks T schema → HistoricalGraph P T schema → Prop)
    (Fits : Block T (AttributeData schema) → Prop) : Prop where
  addBlock : ∀ {stored g block}, R stored g → Fits block → stored g.metaData.blockId = none →
    ∃ g', BlockManager.addBlock block g = .ok { block with id := g.metaData.blockId } g' ∧
      R (Function.update stored g.metaData.blockId
        (some { block with id := g.metaData.blockId })) g' ∧
      g'.metaData.nextBlockId = g.metaData.nextBlockId + 1
  updateBlock : ∀ {stored g block}, R stored g → Fits block → stored block.id ≠ none →
    ∃ g', BlockManager.updateBlock block g = .ok () g' ∧
      R (Function.update stored block.id (some block)) g' ∧
      g'.metaData.nextBlockId = g.metaData.nextBlockId
  removeBlock : ∀ {stored g} (id), R stored g →
    ∃ g', BlockManager.removeBlock id g = .ok () g' ∧ R (Function.update stored id none) g' ∧
      g'.metaData.nextBlockId = g.metaData.nextBlockId
  withId : ∀ {block} (id), Fits block → Fits { block with id := id }
  few : ∀ {block}, Fits block → block.subBlocks.length < 2 ^ 29
  storedFew : ∀ {stored g id block}, R stored g → stored id = some block →
    block.subBlocks.length < 2 ^ 29

/-- The same of a manager that may throw as `E` allows, and that updates blocks which are `Open`. -/
structure ActsOn (R : Blocks T schema → HistoricalGraph P T schema → Prop)
    (Fits Open : Block T (AttributeData schema) → Prop)
    (E : Fault → HistoricalGraph P T schema → Prop) : Prop where
  addBlock : ∀ {stored g block}, R stored g → Fits block → stored g.metaData.blockId = none →
    Ends (BlockManager.addBlock block) g
      (fun added g' => added = { block with id := g.metaData.blockId } ∧
        R (Function.update stored g.metaData.blockId
          (some { block with id := g.metaData.blockId })) g' ∧
        g'.metaData.nextBlockId = g.metaData.nextBlockId + 1) E
  updateBlock : ∀ {stored g block old}, R stored g → Fits block → stored block.id = some old →
    Open old → Ends (BlockManager.updateBlock block) g
      (fun _ g' => R (Function.update stored block.id (some block)) g' ∧
        g'.metaData.nextBlockId = g.metaData.nextBlockId) E
  removeBlock : ∀ {stored g} (id), R stored g → Ends (BlockManager.removeBlock id) g
    (fun _ g' => R (Function.update stored id none) g' ∧
      g'.metaData.nextBlockId = g.metaData.nextBlockId) E
  withId : ∀ {block} (id), Fits block → Fits { block with id := id }

theorem ActsAsMap.actsOn {R : Blocks T schema → HistoricalGraph P T schema → Prop}
    {Fits : Block T (AttributeData schema) → Prop} (h : ActsAsMap R Fits) :
    ActsOn R Fits (fun _ => True) fun _ _ => False := by
  refine ⟨?_, ?_, ?_, h.withId⟩
  · intro stored g block hR hfit hnone
    obtain ⟨g', hrun, hR', hnext⟩ := h.addBlock hR hfit hnone
    exact .of_run hrun ⟨rfl, hR', hnext⟩
  · intro stored g block old hR hfit hold _
    obtain ⟨g', hrun, hR', hnext⟩ := h.updateBlock hR hfit (by rw [hold]; exact Option.some_ne_none _)
    exact .of_run hrun ⟨hR', hnext⟩
  · intro stored g id hR
    obtain ⟨g', hrun, hR', hnext⟩ := h.removeBlock id hR
    exact .of_run hrun ⟨hR', hnext⟩

/-- The first new sub-blocks are stored under `ids`, and the map is otherwise as it was. -/
structure Placed (subs : List (Block T (AttributeData schema))) (stored stored' : Blocks T schema)
    (ids : List BlockId) : Prop where
  nodup : ids.Nodup
  new : ∀ (i : Nat) id (block : Block T (AttributeData schema)), ids[i]? = some id →
    subs[i]? = some block → stored' id = some { block with id := id }
  old : ∀ id, id ∉ ids → stored' id = stored id

theorem placed_nil {T : Type} (subs : List (Block T (AttributeData schema)))
    (stored : Blocks T schema) :
    Placed subs stored stored [] :=
  ⟨List.nodup_nil, by simp, fun _ _ => rfl⟩

/-- The next new sub-block goes under an id that is not taken. -/
theorem Placed.snoc {T : Type} {subs : List (Block T (AttributeData schema))}
    {stored stored' : Blocks T schema} {ids : List BlockId} (h : Placed subs stored stored' ids)
    {id : BlockId} (hid : id ∉ ids) {block : Block T (AttributeData schema)}
    (hblock : subs[ids.length]? = some block) :
    Placed subs stored (Function.update stored' id (some { block with id := id }))
      (ids ++ [id]) := by
  refine ⟨?_, ?_, ?_⟩
  · rw [List.nodup_append_comm]
    exact List.nodup_cons.mpr ⟨hid, h.nodup⟩
  · intro i id' block' hi hb
    rcases Nat.lt_trichotomy i ids.length with hlt | heq | hgt
    · rw [List.getElem?_append_left hlt] at hi
      have hne : id' ≠ id := by
        intro heq
        rw [heq] at hi
        exact hid (List.mem_of_getElem? hi)
      rw [Function.update_of_ne hne]
      exact h.new i id' block' hi hb
    · rw [heq, List.getElem?_concat_length, Option.some.injEq] at hi
      rw [heq, hblock, Option.some.injEq] at hb
      rw [← hi, ← hb, Function.update_self]
    · rw [List.getElem?_eq_none (by simp; omega)] at hi
      cases hi
  · intro id' hid'
    rw [List.mem_append, List.mem_singleton, not_or] at hid'
    rw [Function.update_of_ne hid'.2]
    exact h.old id' hid'.1

end BlockManager

namespace PartitionIndex

/-! ### The counts -/

theorem toInt_eq {n : Nat} (h : n < 2 ^ 31) : toInt n = n := by
  unfold toInt
  rw [Int.bmod_eq_of_le (by omega) (by omega)]

theorem intOf_eq {z : Int} (hlow : -2 ^ 31 ≤ z) (hhigh : z < 2 ^ 31) : intOf z = .ok z := by
  unfold intOf
  rw [if_pos (by omega)]

variable {m n : Nat}

theorem numReplace_eq (hm : m < 2 ^ 29) : (numReplace m (n + 1)).toNat = min m n := by
  unfold numReplace
  rw [toInt_eq (by omega)]
  omega

theorem numAdd_eq (hm : m < 2 ^ 29) (hn : n < 2 ^ 29) :
    ∃ adds, numAdd m (n + 1) = .ok adds ∧ adds.toNat = n - m := by
  refine ⟨max 0 (n - m), ?_, by omega⟩
  unfold numAdd
  rw [toInt_eq (by omega), toInt_eq (by omega), intOf_eq (by omega) (by omega), Except.ok_bind,
    intOf_eq (by omega) (by omega), Except.ok_bind, Nat.cast_add, Nat.cast_one, add_sub_cancel_right]
  rfl

theorem numRemove_eq (hm : m < 2 ^ 29) (hn : n < 2 ^ 29) :
    ∃ removes, numRemove m (n + 1) = .ok removes ∧ removes.toNat = m - n := by
  refine ⟨max 0 (m - n), ?_, by omega⟩
  unfold numRemove
  rw [toInt_eq (by omega), toInt_eq (by omega), intOf_eq (by omega) (by omega), Except.ok_bind,
    intOf_eq (by omega) (by omega), Except.ok_bind, Nat.cast_add, Nat.cast_one,
    add_comm (n : Int), add_sub_add_left_eq_sub]
  rfl

/-! ### The new blocks with their ids -/

/-- The first sub-blocks with the ids they have been given. -/
def named (ids : List BlockId) (subs : List (Block T (AttributeData schema))) :
    List (Block T (AttributeData schema)) :=
  subs.mapIdx fun i block => { block with id := ids[i]?.getD block.id }

theorem named_nil (subs : List (Block T (AttributeData schema))) : named [] subs = subs := by
  unfold named
  refine List.ext_getElem? fun i => ?_
  rw [List.getElem?_mapIdx]
  cases subs[i]? with
  | none => rfl
  | some block => rfl

theorem length_named (ids : List BlockId) (subs : List (Block T (AttributeData schema))) :
    (named ids subs).length = subs.length := by
  unfold named
  exact List.length_mapIdx

theorem getElem?_named (ids : List BlockId) (subs : List (Block T (AttributeData schema)))
    (i : Nat) : (named ids subs)[i]?
      = subs[i]?.map fun block => { block with id := ids[i]?.getD block.id } := by
  unfold named
  exact List.getElem?_mapIdx

/-- The next block has its own id still. -/
theorem named_next (ids : List BlockId) (subs : List (Block T (AttributeData schema))) :
    (named ids subs)[ids.length]? = subs[ids.length]? := by
  rw [getElem?_named]
  cases subs[ids.length]? with
  | none => rfl
  | some block =>
      rw [Option.map_some, List.getElem?_eq_none (le_refl _)]
      rfl

theorem named_set {ids : List BlockId} {subs : List (Block T (AttributeData schema))}
    {block : Block T (AttributeData schema)} (h : subs[ids.length]? = some block) (id : BlockId) :
    (named ids subs).set ids.length { block with id := id } = named (ids ++ [id]) subs := by
  refine List.ext_getElem? fun i => ?_
  rw [List.getElem?_set, getElem?_named, getElem?_named]
  have hlt : ids.length < subs.length := (List.getElem?_eq_some_iff.mp h).1
  by_cases heq : ids.length = i
  · rw [if_pos heq, length_named, if_pos (by omega), ← heq, h, Option.map_some,
      List.getElem?_concat_length]
    rfl
  · rw [if_neg heq]
    refine congrArg (Option.map · subs[i]?) (funext fun b => ?_)
    rcases Nat.lt_or_gt_of_ne heq with hgt | hlt'
    · rw [List.getElem?_eq_none (by omega), List.getElem?_eq_none (by simp; omega)]
    · rw [List.getElem?_append_left hlt']

theorem map_id_named {ids : List BlockId} {subs : List (Block T (AttributeData schema))}
    (h : ids.length = subs.length) : (named ids subs).map Block.id = ids := by
  refine List.ext_getElem? fun i => ?_
  rw [List.getElem?_map, getElem?_named]
  cases hi : subs[i]? with
  | none =>
      rw [List.getElem?_eq_none_iff] at hi
      rw [List.getElem?_eq_none (by omega)]
      rfl
  | some block =>
      have hlt : i < ids.length := by
        have := (List.getElem?_eq_some_iff.mp hi).1
        omega
      rw [Option.map_some, Option.map_some, List.getElem?_eq_getElem hlt, Option.getD_some]

/-! ### The loops -/

section Loops

open BlockManager

variable [LinearOrder T] [Timestamp T] [BlockTime T] [SliceIndex P T]
  {R : Blocks T schema → HistoricalGraph P T schema → Prop}
  {Fits Open : Block T (AttributeData schema) → Prop}
  {E : Fault → HistoricalGraph P T schema → Prop} {stored : Blocks T schema}
  {newMaster : Block T (AttributeData schema)} {newSubs : List (Block T (AttributeData schema))}

/-- Between the steps of the first two loops: the new blocks with the ids given so far, stored
under them. -/
def Rewritten (R : Blocks T schema → HistoricalGraph P T schema → Prop) (stored : Blocks T schema)
    (newMaster : Block T (AttributeData schema)) (newSubs : List (Block T (AttributeData schema)))
    (next : Nat) (ids : List BlockId) (newBlocks : List (Block T (AttributeData schema)))
    (g : HistoricalGraph P T schema) : Prop :=
  newBlocks = newMaster :: named ids newSubs ∧ g.metaData.nextBlockId = next ∧
    ∃ stored', R stored' g ∧ Placed newSubs stored stored' ids

/-- The first loop: old ids, one after the other. -/
theorem ends_replaceSubBlocks (hacts : ActsOn R Fits Open E) (hfits : ∀ b ∈ newSubs, Fits b)
    {subBlocks : List BlockId} (hnodup : subBlocks.Nodup)
    (hstored : ∀ id ∈ subBlocks, ∃ old, stored id = some old ∧ Open old) {n next : Nat}
    (hn : n ≤ min subBlocks.length newSubs.length) {g : HistoricalGraph P T schema}
    (h : Rewritten R stored newMaster newSubs next [] (newMaster :: newSubs) g) :
    Ends ((List.range n).foldlM (replaceSubBlock subBlocks) (newMaster :: newSubs)) g
      (Rewritten R stored newMaster newSubs next (subBlocks.take n)) E := by
  refine Ends.foldlM_range (I := fun i => Rewritten R stored newMaster newSubs next
    (subBlocks.take i)) ?_ h
  rintro i newBlocks g hi ⟨rfl, hnext, stored', hR, hplaced⟩
  have hsub : i < subBlocks.length := by omega
  have hnew : i < newSubs.length := by omega
  have hlength : (subBlocks.take i).length = i := List.length_take_of_le (by omega)
  have hblock : newSubs[(subBlocks.take i).length]? = some newSubs[i] := by
    rw [hlength]
    exact List.getElem?_eq_getElem hnew
  have hfresh : subBlocks[i] ∉ subBlocks.take i := by
    rw [← List.take_append_drop i subBlocks, List.drop_eq_getElem_cons hsub] at hnodup
    exact fun hmem => (List.nodup_append.mp hnodup).2.2 _ hmem _ List.mem_cons_self rfl
  have htake : subBlocks.take (i + 1) = subBlocks.take i ++ [subBlocks[i]] :=
    List.take_succ_eq_append_getElem hsub
  obtain ⟨old, hold, hopen⟩ := hstored _ (List.getElem_mem hsub)
  rw [← hplaced.old _ hfresh] at hold
  have hfit : Fits { newSubs[i] with id := subBlocks[i] } :=
    hacts.withId _ (hfits _ (List.getElem_mem hnew))
  have hat : (newMaster :: named (subBlocks.take i) newSubs)[i + 1]? = some newSubs[i] := by
    have hnamed := named_next (subBlocks.take i) newSubs
    rw [hblock, hlength] at hnamed
    exact hnamed
  unfold replaceSubBlock
  rw [Ends, ofResult_bind_ok (elementAt_eq (List.getElem?_eq_getElem hsub)),
    ofResult_bind_ok (elementAt_eq hat)]
  refine (hacts.updateBlock hR hfit hold hopen).bind fun _ g' h' => Ends.pure ⟨?_, ?_, _, h'.1, ?_⟩
  · rw [List.set_cons_succ, htake, ← named_set hblock, hlength]
  · rw [h'.2, hnext]
  · rw [htake]
    exact hplaced.snoc hfresh hblock

/-- The ids that are handed out next. -/
def nextIds (next n : Nat) : List BlockId :=
  (List.range n).map fun i => Fin.ofNat (2 ^ 64) (next + i)

theorem nextIds_succ (next n : Nat) :
    nextIds next (n + 1) = nextIds next n ++ [Fin.ofNat (2 ^ 64) (next + n)] := by
  unfold nextIds
  rw [List.range_succ, List.map_append, List.map_singleton]

theorem val_nextId {next i : Nat} (h : next + i < 2 ^ 64) :
    (Fin.ofNat (2 ^ 64) (next + i)).val = next + i := Nat.mod_eq_of_lt h

/-- An id that is handed out is none that was handed out before it. -/
theorem nextId_notMem {next n : Nat} (h : next + n < 2 ^ 64) :
    Fin.ofNat (2 ^ 64) (next + n) ∉ nextIds next n := by
  intro hmem
  obtain ⟨i, hi, heq⟩ := List.mem_map.mp hmem
  rw [List.mem_range] at hi
  have hval := congrArg Fin.val heq
  rw [val_nextId h, val_nextId (by omega)] at hval
  omega

/-- The second loop: new ids, one after the other. -/
theorem ends_addSubBlocks (hacts : ActsOn R Fits Open E) (hfits : ∀ b ∈ newSubs, Fits b)
    {subBlocks : List BlockId} (hstored : ∀ id ∈ subBlocks, stored id ≠ none) {n next : Nat}
    (hn : subBlocks.length + n ≤ newSubs.length)
    (habove : ∀ id, stored id ≠ none → id.val < next) (hroom : next + n ≤ 2 ^ 64)
    {newBlocks : List (Block T (AttributeData schema))} {g : HistoricalGraph P T schema}
    (h : Rewritten R stored newMaster newSubs next subBlocks newBlocks g) :
    Ends ((List.range n).foldlM (addSubBlock subBlocks) newBlocks) g
      (Rewritten R stored newMaster newSubs (next + n) (subBlocks ++ nextIds next n)) E := by
  refine Ends.foldlM_range (I := fun i => Rewritten R stored newMaster newSubs (next + i)
    (subBlocks ++ nextIds next i)) ?_ (by simpa [nextIds] using h)
  rintro i newBlocks g hi ⟨rfl, hnext, stored', hR, hplaced⟩
  have hid : g.metaData.blockId = Fin.ofNat (2 ^ 64) (next + i) := by
    unfold MetaDataManager.blockId
    rw [hnext]
  have hval : g.metaData.blockId.val = next + i := by
    rw [hid]
    exact val_nextId (by omega)
  have hnone : stored g.metaData.blockId = none := by
    by_contra hsome
    have := habove _ hsome
    omega
  have hfresh : g.metaData.blockId ∉ subBlocks ++ nextIds next i := by
    rw [List.mem_append, not_or]
    refine ⟨fun hmem => hstored _ hmem hnone, ?_⟩
    rw [hid]
    exact nextId_notMem (by omega)
  have hlength : (subBlocks ++ nextIds next i).length = i + subBlocks.length := by
    rw [List.length_append, nextIds, List.length_map, List.length_range, Nat.add_comm]
  have hnew : i + subBlocks.length < newSubs.length := by omega
  have hblock : newSubs[(subBlocks ++ nextIds next i).length]?
      = some newSubs[i + subBlocks.length] := by
    rw [hlength]
    exact List.getElem?_eq_getElem hnew
  have hat : (newMaster :: named (subBlocks ++ nextIds next i) newSubs)[i + subBlocks.length + 1]?
      = some newSubs[i + subBlocks.length] := by
    have hnamed := named_next (subBlocks ++ nextIds next i) newSubs
    rw [hblock, hlength] at hnamed
    exact hnamed
  have hadd := hacts.addBlock hR (hfits newSubs[i + subBlocks.length] (List.getElem_mem hnew))
    (by rw [hplaced.old _ hfresh]; exact hnone)
  rw [nextIds_succ, ← List.append_assoc, ← hid]
  unfold addSubBlock
  rw [Ends, ofResult_bind_ok (elementAt_eq hat)]
  refine hadd.bind fun added g' h' => Ends.pure ⟨?_, ?_, _, h'.2.1, hplaced.snoc hfresh hblock⟩
  · rw [h'.1, List.set_cons_succ, ← named_set hblock, hlength]
  · rw [h'.2.2, hnext]
    rfl

/-- The third loop: old blocks from a place on are removed. -/
theorem ends_removeSubBlocks (hacts : ActsOn R Fits Open E) {subBlocks : List BlockId} {n k : Nat}
    (hn : n ≤ subBlocks.length - k) {g : HistoricalGraph P T schema} (h : R stored g) :
    Ends ((List.range n).foldlM (removeSubBlock subBlocks (k + 1)) ()) g
      (fun _ g' => g'.metaData.nextBlockId = g.metaData.nextBlockId ∧
        ∃ stored', R stored' g' ∧ (∀ id ∈ (subBlocks.drop k).take n, stored' id = none) ∧
          ∀ id ∉ (subBlocks.drop k).take n, stored' id = stored id) E := by
  refine Ends.foldlM_range (I := fun i _ g' => g'.metaData.nextBlockId = g.metaData.nextBlockId ∧
      ∃ stored', R stored' g' ∧ (∀ id ∈ (subBlocks.drop k).take i, stored' id = none) ∧
        ∀ id ∉ (subBlocks.drop k).take i, stored' id = stored id) ?_
    ⟨rfl, stored, h, by simp, fun _ _ => rfl⟩
  rintro i u g₁ hi ⟨hnext, stored₁, hR, hgone, hrest⟩
  have hlt : k + i < subBlocks.length := by omega
  have hdrop : i < (subBlocks.drop k).length := by
    rw [List.length_drop]
    omega
  have htake : (subBlocks.drop k).take (i + 1)
      = (subBlocks.drop k).take i ++ [subBlocks[k + i]] := by
    rw [List.take_succ_eq_append_getElem hdrop, List.getElem_drop]
  have hat : elementAt subBlocks (i + (k + 1) - 1) = .ok subBlocks[k + i] := by
    refine elementAt_eq ?_
    rw [show i + (k + 1) - 1 = k + i by omega]
    exact List.getElem?_eq_getElem hlt
  unfold removeSubBlock
  rw [Ends, ofResult_bind_ok hat]
  refine (hacts.removeBlock subBlocks[k + i] hR).mono (fun _ g₂ h' => ?_) fun _ _ he => he
  refine ⟨by rw [h'.2, hnext], _, h'.1, ?_, ?_⟩
  · intro id hid
    rw [htake, List.mem_append, List.mem_singleton] at hid
    by_cases heq : id = subBlocks[k + i]
    · rw [heq, Function.update_self]
    · rw [Function.update_of_ne heq]
      exact hgone id (hid.resolve_right heq)
  · intro id hid
    rw [htake, List.mem_append, List.mem_singleton, not_or] at hid
    rw [Function.update_of_ne hid.2]
    exact hrest id hid.1

theorem removeSubBlocks_ok (hmap : ActsAsMap R Fits) {subBlocks : List BlockId} {n k : Nat}
    (hn : n ≤ subBlocks.length - k) {g : HistoricalGraph P T schema} (h : R stored g) :
    ∃ u g', (List.range n).foldlM (removeSubBlock subBlocks (k + 1)) () g = .ok u g' ∧
      g'.metaData.nextBlockId = g.metaData.nextBlockId ∧
      ∃ stored', R stored' g' ∧ (∀ id ∈ (subBlocks.drop k).take n, stored' id = none) ∧
        ∀ id ∉ (subBlocks.drop k).take n, stored' id = stored id :=
  (ends_removeSubBlocks hmap.actsOn hn h).returns

/-- With the counts the sizes give. -/
theorem replaceBlocks_eq {masterBlock : Block T (AttributeData schema)}
    (hm : masterBlock.subBlocks.length < 2 ^ 29) (hn : newSubs.length < 2 ^ 29)
    (g : HistoricalGraph P T schema) :
    replaceBlocks masterBlock (newMaster :: newSubs) g
      = replaceCounted masterBlock (newMaster :: newSubs)
        (min masterBlock.subBlocks.length newSubs.length)
        (newSubs.length - masterBlock.subBlocks.length)
        (masterBlock.subBlocks.length - newSubs.length) g := by
  obtain ⟨adds, hadds, hadds'⟩ := numAdd_eq hm hn
  obtain ⟨removes, hremoves, hremoves'⟩ := numRemove_eq hm hn
  unfold replaceBlocks
  rw [List.isEmpty_cons, if_neg Bool.false_ne_true]
  dsimp only
  rw [List.length_cons, ofResult_bind_ok hadds, ofResult_bind_ok hremoves, numReplace_eq hm, hadds',
    hremoves']

/-- The ids of `n` new sub-blocks that take the place of old ones. -/
def newIds (subBlocks : List BlockId) (n next : Nat) : List BlockId :=
  subBlocks.take (min subBlocks.length n) ++ nextIds next (n - subBlocks.length)

theorem length_newIds (subBlocks : List BlockId) (n next : Nat) :
    (newIds subBlocks n next).length = n := by
  unfold newIds nextIds
  rw [List.length_append, List.length_take, List.length_map, List.length_range]
  omega

theorem length_takeOld (subBlocks : List BlockId) (n : Nat) :
    (subBlocks.take (min subBlocks.length n)).length = min subBlocks.length n :=
  List.length_take_of_le (Nat.min_le_left _ _)

/-- No block is stored under an id above them all. -/
theorem nextIds_unstored {T : Type} {stored : Blocks T schema} {next n : Nat}
    (habove : ∀ id, stored id ≠ none → id.val < next) (hroom : next + n ≤ 2 ^ 64) :
    ∀ id ∈ nextIds next n, stored id = none := by
  intro id hid
  obtain ⟨i, hi, heq⟩ := List.mem_map.mp hid
  rw [List.mem_range] at hi
  by_contra hsome
  have hlt := habove id hsome
  rw [← heq, val_nextId (by omega)] at hlt
  omega

/-- The first two loops. -/
theorem ends_subBlocks (newMaster : Block T (AttributeData schema)) (hacts : ActsOn R Fits Open E)
    (hfits : ∀ b ∈ newSubs, Fits b)
    {subBlocks : List BlockId} (hnodup : subBlocks.Nodup)
    (hstored : ∀ id ∈ subBlocks, ∃ old, stored id = some old ∧ Open old)
    {g : HistoricalGraph P T schema} (habove : Block.FreshIds stored g)
    (hroom : g.metaData.nextBlockId + (newSubs.length - subBlocks.length) ≤ 2 ^ 64)
    (h : R stored g) :
    Ends ((List.range (min subBlocks.length newSubs.length)).foldlM (replaceSubBlock subBlocks)
        (newMaster :: newSubs) >>= fun newBlocks =>
      (List.range (newSubs.length - subBlocks.length)).foldlM (addSubBlock subBlocks) newBlocks) g
      (Rewritten R stored newMaster newSubs
        (g.metaData.nextBlockId + (newSubs.length - subBlocks.length))
        (newIds subBlocks newSubs.length g.metaData.nextBlockId)) E := by
  have hstart : Rewritten R stored newMaster newSubs g.metaData.nextBlockId []
      (newMaster :: newSubs) g :=
    ⟨by rw [named_nil], rfl, stored, h, placed_nil newSubs stored⟩
  have hthere : ∀ id ∈ subBlocks, stored id ≠ none := by
    intro id hid
    obtain ⟨old, hold, -⟩ := hstored id hid
    rw [hold]
    exact Option.some_ne_none _
  refine (ends_replaceSubBlocks hacts hfits hnodup hstored
    (le_refl (min subBlocks.length newSubs.length)) hstart).bind fun newBlocks g₁ h₁ => ?_
  rcases Nat.le_total subBlocks.length newSubs.length with hle | hle
  · have htake : subBlocks.take (min subBlocks.length newSubs.length) = subBlocks := by
      rw [Nat.min_eq_left hle, List.take_length]
    rw [htake] at h₁
    unfold newIds
    rw [htake]
    exact ends_addSubBlocks hacts hfits hthere (n := newSubs.length - subBlocks.length) (by omega)
      habove hroom h₁
  · rw [Nat.sub_eq_zero_of_le hle]
    unfold newIds
    rw [Nat.sub_eq_zero_of_le hle, Nat.add_zero, nextIds, List.range_zero, List.map_nil,
      List.append_nil]
    exact h₁

theorem subBlocks_ok (newMaster : Block T (AttributeData schema)) (hmap : ActsAsMap R Fits)
    (hfits : ∀ b ∈ newSubs, Fits b)
    {subBlocks : List BlockId} (hnodup : subBlocks.Nodup)
    (hstored : ∀ id ∈ subBlocks, stored id ≠ none) {g : HistoricalGraph P T schema}
    (habove : Block.FreshIds stored g)
    (hroom : g.metaData.nextBlockId + (newSubs.length - subBlocks.length) ≤ 2 ^ 64)
    (h : R stored g) :
    ∃ newBlocks g₁ newBlocks' g₂,
      (List.range (min subBlocks.length newSubs.length)).foldlM (replaceSubBlock subBlocks)
        (newMaster :: newSubs) g = .ok newBlocks g₁ ∧
      (List.range (newSubs.length - subBlocks.length)).foldlM (addSubBlock subBlocks) newBlocks g₁
        = .ok newBlocks' g₂ ∧
      Rewritten R stored newMaster newSubs
        (g.metaData.nextBlockId + (newSubs.length - subBlocks.length))
        (newIds subBlocks newSubs.length g.metaData.nextBlockId) newBlocks' g₂ := by
  obtain ⟨newBlocks', g₂, hrun, hrewritten⟩ := (ends_subBlocks newMaster hmap.actsOn hfits hnodup
    (fun id hid => (Option.ne_none_iff_exists'.mp (hstored id hid)).imp fun _ hb => ⟨hb, trivial⟩)
    habove hroom h).returns
  obtain ⟨newBlocks, g₁, hreplaced, hadded⟩ := run_bind_eq_ok.mp hrun
  exact ⟨newBlocks, g₁, newBlocks', g₂, hreplaced, hadded, hrewritten⟩

/-- After `replaceBlocks` the stored master lists exactly the new sub-blocks, under the old ids as
far as they go and new ones beyond; old ones beyond are gone, and all else is as it was. -/
theorem replaceBlocks_places (hmap : ActsAsMap R Fits) {g : HistoricalGraph P T schema}
    (h : R stored g) {masterBlock old : Block T (AttributeData schema)}
    (hold : stored masterBlock.id = some old) (hsame : old.subBlocks = masterBlock.subBlocks)
    (hids : (masterBlock.id :: masterBlock.subBlocks).Nodup)
    (hstored : ∀ id ∈ masterBlock.subBlocks, stored id ≠ none)
    (habove : Block.FreshIds stored g)
    (hroom : g.metaData.nextBlockId + (newSubs.length - masterBlock.subBlocks.length) ≤ 2 ^ 64)
    (hnone : newMaster.subBlocks = []) (hfits : ∀ b ∈ newSubs, Fits b)
    (hfitsMaster : ∀ ids : List BlockId, ids.length = newSubs.length →
      Fits { newMaster with subBlocks := ids }) :
    ∃ g' stored' ids, replaceBlocks masterBlock (newMaster :: newSubs) g = .ok () g' ∧
      R stored' g' ∧
      stored' masterBlock.id = some { newMaster with id := masterBlock.id, subBlocks := ids } ∧
      ids.length = newSubs.length ∧ ids.Nodup ∧
      (∀ (i : Nat) id block, ids[i]? = some id → newSubs[i]? = some block →
        stored' id = some { block with id := id }) ∧
      ids.take (min masterBlock.subBlocks.length newSubs.length)
        = masterBlock.subBlocks.take (min masterBlock.subBlocks.length newSubs.length) ∧
      (∀ id ∈ ids.drop (min masterBlock.subBlocks.length newSubs.length), stored id = none) ∧
      (∀ id ∈ masterBlock.subBlocks.drop newSubs.length, stored' id = none) ∧
      ∀ id, id ≠ masterBlock.id → id ∉ ids → id ∉ masterBlock.subBlocks →
        stored' id = stored id := by
  have hm : masterBlock.subBlocks.length < 2 ^ 29 := by
    rw [← hsame]
    exact hmap.storedFew h hold
  have hn : newSubs.length < 2 ^ 29 := by
    have hfew := hmap.few (hfitsMaster (List.replicate newSubs.length 0) List.length_replicate)
    rwa [List.length_replicate] at hfew
  obtain ⟨hown, hnodup⟩ := List.nodup_cons.mp hids
  obtain ⟨newBlocks, g₁, newBlocks', g₂, hreplaced, hadded, hnew, hnext, stored₂, hR₂, hplaced⟩ :=
    subBlocks_ok newMaster hmap hfits hnodup hstored habove hroom h
  obtain ⟨u, g₃, hremoved, -, stored₃, hR₃, hgone, hrest⟩ := removeSubBlocks_ok hmap
    (le_refl (masterBlock.subBlocks.length - newSubs.length)) hR₂
  rw [List.take_of_length_le (le_of_eq List.length_drop)] at hgone hrest
  have hunstored := nextIds_unstored habove hroom
  have hmem : ∀ id ∈ newIds masterBlock.subBlocks newSubs.length g.metaData.nextBlockId,
      id ∉ masterBlock.subBlocks.drop newSubs.length ∧ id ≠ masterBlock.id := by
    intro id hid
    rcases List.mem_append.mp hid with hid | hid
    · refine ⟨?_, ?_⟩
      · exact List.disjoint_take_drop hnodup (Nat.min_le_right _ _) hid
      · intro heq
        rw [heq] at hid
        exact hown (List.mem_of_mem_take hid)
    · refine ⟨?_, ?_⟩
      · intro hdrop
        exact hstored id (List.mem_of_mem_drop hdrop) (hunstored id hid)
      · intro heq
        rw [← heq, hunstored id hid] at hold
        cases hold
  have hmaster : stored₃ masterBlock.id = some old := by
    rw [hrest _ fun hdrop => hown (List.mem_of_mem_drop hdrop),
      hplaced.old _ fun hid => (hmem _ hid).2 rfl]
    exact hold
  have hfitMaster : Fits { newMaster with
      id := masterBlock.id
      subBlocks := newIds masterBlock.subBlocks newSubs.length g.metaData.nextBlockId } :=
    hmap.withId _ (hfitsMaster _ (length_newIds _ _ _))
  have hthere : stored₃ masterBlock.id ≠ none := by
    rw [hmaster]
    exact Option.some_ne_none _
  obtain ⟨g₄, hupdated, hR₄, -⟩ := hmap.updateBlock hR₃ hfitMaster hthere
  refine ⟨g₄, _, newIds masterBlock.subBlocks newSubs.length g.metaData.nextBlockId, ?_, hR₄, ?_,
    length_newIds _ _ _, hplaced.nodup, ?_, ?_, ?_, ?_, ?_⟩
  · rw [replaceBlocks_eq hm hn]
    unfold replaceCounted
    rw [run_bind_ok hreplaced, run_bind_ok hadded, hnew, List.length_cons, length_named,
      run_bind_ok hremoved, ofResult_bind_ok (elementAt_eq (a := newMaster) rfl), hnone,
      List.nil_append, List.drop_one, List.tail_cons, map_id_named (length_newIds _ _ _)]
    exact hupdated
  · exact Function.update_self _ _ _
  · intro i id block hi hb
    have hid := List.mem_of_getElem? hi
    rw [Function.update_of_ne (hmem id hid).2, hrest id (hmem id hid).1]
    exact hplaced.new i id block hi hb
  · exact List.take_left' (length_takeOld _ _)
  · intro id hid
    unfold newIds at hid
    rw [List.drop_left' (length_takeOld _ _)] at hid
    exact hunstored id hid
  · intro id hid
    have hne : id ≠ masterBlock.id := by
      intro heq
      rw [heq] at hid
      exact hown (List.mem_of_mem_drop hid)
    rw [Function.update_of_ne hne]
    exact hgone id hid
  · intro id hne hnotNew hnotOld
    rw [Function.update_of_ne hne, hrest id fun hdrop => hnotOld (List.mem_of_mem_drop hdrop)]
    exact hplaced.old id hnotNew

end Loops

end PartitionIndex

/-! ### The block manager -/

namespace BlockManager

section Held

variable [LinearOrder T] [Timestamp T] [BlockTime T] [SliceIndex P T] {Ok : P → Prop}
  {parts : T → Option Partitioning}

/-- A block that is written and comes back: laid out as the index says, within the buffer, with
texts whose length is kept. -/
structure CanBeWritten (parts : T → Option Partitioning) (block : Block T (AttributeData schema)) :
    Prop where
  laid : LaidBy parts block
  fits : block.encoding.length ≤ 2 ^ 32
  short : block.ShortTexts

theorem CanBeWritten.withId {block : Block T (AttributeData schema)}
    (h : CanBeWritten parts block) (id : BlockId) : CanBeWritten parts { block with id := id } := by
  refine ⟨h.laid.withId id, ?_, h.short⟩
  rw [Block.length_encoding (h.laid.withId id).1]
  have hfits := h.fits
  rw [Block.length_encoding h.laid.1] at hfits
  exact hfits

theorem length_subBlocks_lt {block : Block T (AttributeData schema)} (h : block.Formed)
    (hfits : block.encoding.length ≤ 2 ^ 32) : block.subBlocks.length < 2 ^ 29 := by
  rw [Block.length_encoding h] at hfits
  omega

/-- The block manager acts as a map. -/
theorem held_actsAsMap (hanswers : Answers Ok parts) :
    ActsAsMap (fun stored (g : HistoricalGraph P T schema) =>
      Held Ok parts Block.Same stored g ∧ 1 ≤ g.bman.blockBufferSize) (CanBeWritten parts) := by
  refine ⟨?_, ?_, ?_, fun id h => h.withId id, ?_, ?_⟩
  · rintro stored g block ⟨h, hroom⟩ hblock hnone
    have hblock' := hblock.withId g.metaData.blockId
    have hmiss : g.bman.cache.lookup g.metaData.blockId = none := by
      rw [Option.eq_none_iff_forall_ne_some]
      intro entry hentry
      obtain ⟨b, hb, -⟩ := h.cached _ entry hentry
      rw [hnone] at hb
      cases hb
    obtain ⟨g', hrun, hheld, hsize, -, -, hmeta, -⟩ := addBlock_ok h hblock.laid hblock'.fits
      (fun b' hback => hback.same hblock'.laid.1 hblock'.short) hmiss
    refine ⟨g', hrun, ⟨hheld, by rw [hsize]; exact hroom⟩, by rw [hmeta]⟩
  · rintro stored g block ⟨h, hroom⟩ hblock hsome
    obtain ⟨g', hrun, hheld, hsize, -, -, hmeta⟩ := updateBlock_ok hanswers
      (fun _ _ hs => hs.id) h hroom hsome hblock.laid hblock.fits
      (fun b' hback => hback.same hblock.laid.1 hblock.short) (same_refl hblock.laid.1)
    refine ⟨g', hrun, ⟨hheld, by rw [hsize]; exact hroom⟩, by rw [hmeta]⟩
  · rintro stored g id ⟨h, hroom⟩
    obtain ⟨g', hrun, hheld, hsize, -, -, hmeta⟩ := removeBlock_ok h id
    refine ⟨g', hrun, ⟨hheld, by rw [hsize]; exact hroom⟩, by rw [hmeta]⟩
  · intro block hblock
    exact length_subBlocks_lt hblock.laid.1 hblock.fits
  · rintro stored g id block ⟨h, -⟩ hstored
    obtain ⟨-, -, hlaid, hfits, -⟩ := h.present id block hstored
    exact length_subBlocks_lt hlaid.1 hfits

end Held

/-! ### One more sub-block -/

theorem oneSub_canBeWritten {a b : Text} (ha : a.length ≤ 100) (hb : b.length ≤ 100) :
    CanBeWritten oneParts (oneSub a b) := by
  refine ⟨oneSub_laidBy a b, ?_, oneSub_shortTexts (by omega) (by omega)⟩
  rw [length_encoding_oneSub]
  omega

theorem oneMaster_canBeWritten {ids : List BlockId} (hne : ids ≠ []) (hlen : ids.length ≤ 100) :
    CanBeWritten oneParts { Block.oneMaster with subBlocks := ids } := by
  have hlaid := Block.oneMaster_laidBy hne
  refine ⟨hlaid, ?_, ?_⟩
  · have hlists : (Block.listsBytes Block.oneMaster.partition []
        Block.oneMaster.neigs.entries).1.length
        = 28 := by decide +kernel
    rw [Block.length_encoding hlaid.1]
    show 32 + 8 * ids.length + (Block.listsBytes Block.oneMaster.partition []
      Block.oneMaster.neigs.entries).1.length ≤ 2 ^ 32
    rw [hlists]
    omega
  · obtain ⟨hformed, t, part, htime, hpart, hdata⟩ := hlaid
    intro v e he
    rcases hdata with ⟨-, -, hempty⟩ | ⟨i, -, hi, -⟩
    · rw [hempty v e he]
      intro f hf
      exact absurd hf List.not_mem_nil
    · have hmaster : (-1 : Int) = i := hi
      omega

/-- The state with the master of one sub-block. -/
def HasOneMaster (stored : Blocks Time Block.textSchema)
    (g : HistoricalGraph (PartitionIndex Time) Time Block.textSchema) : Prop :=
  (Held OneIndex oneParts Block.Same stored g ∧ 1 ≤ g.bman.blockBufferSize) ∧
    g.metaData.nextBlockId = 2 ∧
    stored = Function.update (Function.update (fun _ => none) 0 (some (oneSub [120] [121, 122]))) 1
      (some { Block.oneMaster with id := 1, subBlocks := [0] })

theorem exists_hasOneMaster : ∃ stored g, HasOneMaster stored g := by
  have hmap : ActsAsMap
      (fun stored (g : HistoricalGraph (PartitionIndex Time) Time Block.textSchema) =>
        Held OneIndex oneParts Block.Same stored g ∧ 1 ≤ g.bman.blockBufferSize)
      (CanBeWritten oneParts) := held_actsAsMap oneIndex_answers
  have hempty : Held OneIndex oneParts Block.Same (fun _ => none) oneGraph ∧
      1 ≤ oneGraph.bman.blockBufferSize :=
    ⟨held_new oneIndex_oneGraph bman_oneGraph _, le_refl 1⟩
  obtain ⟨g₁, -, hheld₁, hnext₁⟩ := hmap.addBlock hempty
    (oneSub_canBeWritten (a := [120]) (b := [121, 122]) (by decide) (by decide)) rfl
  have hid₁ : g₁.metaData.blockId = 1 := by
    unfold MetaDataManager.blockId
    rw [hnext₁]
    rfl
  have hfit : CanBeWritten oneParts { Block.oneMaster with subBlocks := [0] } :=
    oneMaster_canBeWritten (by decide) (by decide)
  have hadd := hmap.addBlock hheld₁ hfit
  rw [hid₁, hnext₁] at hadd
  obtain ⟨g₂, -, hheld₂, hnext₂⟩ := hadd rfl
  exact ⟨_, g₂, hheld₂, hnext₂, rfl⟩

/-- The edge is split in two: the second sub-block gets the id 2. -/
theorem replaceBlocks_places_two :
    ∃ stored g, HasOneMaster stored g ∧
      ∃ g' stored' ids, PartitionIndex.replaceBlocks
          { Block.oneMaster with id := 1, subBlocks := [0] }
          [Block.oneMaster, oneSub [120] [], oneSub [] [121]] g = .ok () g' ∧
        Held OneIndex oneParts Block.Same stored' g' ∧
        stored' 1 = some { Block.oneMaster with id := 1, subBlocks := ids } ∧
        ids.length = 2 ∧ ids.take 1 = [0] := by
  obtain ⟨stored, g, hg⟩ := exists_hasOneMaster
  refine ⟨stored, g, hg, ?_⟩
  obtain ⟨hheld, hnext, hstored⟩ := hg
  have hmaster : stored 1 = some { Block.oneMaster with id := 1, subBlocks := [0] } := by
    rw [hstored]
    exact Function.update_self _ _ _
  have hsub : stored 0 ≠ none := by
    rw [hstored, Function.update_of_ne (by decide), Function.update_self]
    exact Option.some_ne_none _
  have habove : Block.FreshIds stored g := by
    intro id hid
    rw [hnext]
    by_contra hlt
    have hone : id ≠ 1 := by
      intro heq
      rw [heq] at hlt
      exact hlt (by decide)
    have hzero : id ≠ 0 := by
      intro heq
      rw [heq] at hlt
      exact hlt (by decide)
    rw [hstored, Function.update_of_ne hone, Function.update_of_ne hzero] at hid
    exact hid rfl
  obtain ⟨g', stored', ids, hrun, ⟨hheld', -⟩, hmaster', hlength, -, -, htake, -⟩ :=
    @PartitionIndex.replaceBlocks_places _ _ _ _ _ _ _ _ _ _ Block.oneMaster
      [oneSub [120] [], oneSub [] [121]] (held_actsAsMap oneIndex_answers) _ hheld
      { Block.oneMaster with id := 1, subBlocks := [0] } _ hmaster rfl (by decide)
      (by simpa using hsub) habove (by rw [hnext]; decide) rfl
      (by
        intro b hb
        simp only [List.mem_cons, List.not_mem_nil, or_false] at hb
        rcases hb with rfl | rfl
        · exact oneSub_canBeWritten (by decide) (by decide)
        · exact oneSub_canBeWritten (by decide) (by decide))
      (by
        intro ids hids
        have htwo : ids.length = 2 := hids
        exact oneMaster_canBeWritten (List.ne_nil_of_length_pos (by omega)) (by omega))
  exact ⟨g', stored', ids, hrun, hheld', hmaster', hlength, htake⟩

end BlockManager

end RailwayDB
