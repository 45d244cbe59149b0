/-
A read of a block that throws.

`getBlock` makes the cache entry before the block has been decoded, and nothing takes
it away again when decoding throws.  The state after a throw tells how far the read
came: up to the answer of the store nothing has changed, and after a value came back
the entry is there, with a block that is not the one sought and no place in the list.

The store is asked once, and what it answers is taken as it comes: a value, none, or a
status that is not ok.
-/
import RailwayDB.Proofs.AcceptedSlices
import RailwayDB.Proofs.BlockManager

namespace RailwayDB.BlockManager

open Storage

variable {P T : Type} {schema : Schema} {g g' : HistoricalGraph P T schema} {id : BlockId}
  {fault : Fault}

/-- What `db_->Get` comes back with. -/
abbrev Answer := Except Fault (Option (List Byte))

/-! ### What never throws -/

theorem eraseNode_fault {bman : BlockManager T schema} {iter : Option Nat}
    (h : bman.eraseNode iter = .error fault) : fault.isException = false := by
  unfold eraseNode at h
  split at h
  · rw [← Except.error.inj h]
    rfl
  · split_ifs at h
    rw [← Except.error.inj h]
    rfl

theorem touch_fault {bman : BlockManager T schema} {entry : BlockAndIdIter T schema}
    (h : bman.touch id entry = .error fault) : fault.isException = false := by
  unfold touch at h
  split_ifs at h
  cases herase : bman.eraseNode entry.iter with
  | ok bman' =>
      rw [herase] at h
      cases h
  | error e =>
      rw [herase] at h
      rw [← Except.error.inj h]
      exact eraseNode_fault herase

theorem blockAt_fault {bman : BlockManager T schema} (h : bman.blockAt id = .error fault) :
    fault.isException = false := by
  unfold blockAt at h
  split at h
  · rw [← Except.error.inj h]
    rfl
  · split_ifs at h
    rw [← Except.error.inj h]
    rfl

theorem ofResult_eq_error {α : Type} {x : Except Fault α} :
    (ofResult x : Storage P T schema α) g = .error fault g' ↔ x = .error fault ∧ g' = g := by
  cases x with
  | ok a =>
      show EStateM.Result.ok a g = .error fault g' ↔ _
      simp
  | error e =>
      show EStateM.Result.error e g = .error fault g' ↔ _
      simp [eq_comm]

/-- A call on the index that throws leaves all as it was. -/
theorem onIndex_eq_error {α : Type} {x : P → Except Fault (α × P)}
    (h : (onIndex x : Storage P T schema α) g = .error fault g') : g' = g := by
  unfold onIndex at h
  rw [get_bind] at h
  rcases run_bind_eq_error.mp h with hresult | ⟨r, g₁, -, hrest⟩
  · exact (ofResult_eq_error.mp hresult).2
  · cases hrest

variable [Preorder T] [DecidableLT T] [DecidableEq T] [Timestamp T] [BlockTime T] [SliceIndex P T]

/-! ### The read, by the answer of the store -/

/-- The way through the store. -/
def fetchFrom (answer : Answer) (id : BlockId) : Storage P T schema Unit := do
  match ← ofResult answer with
  | none => throw (.blockNotFound id)
  | some value => do
      modifyBlocks fun bman => { bman with cache := bman.cache.insert id ⟨.new, none⟩ }
      let (block, _) ← onIndex (Block.deserialize (NetworkByteBuffer.ofBytes value))
      modifyBlocks fun bman => (bman.pushFront id block).evict

/-- `getBlock`, for what the store answers if it is asked. -/
def getBlockFrom (answer : Answer) (id : BlockId) :
    Storage P T schema (Block T (AttributeData schema)) := do
  match (← get).bman.cache.lookup id with
  | some entry => hit id entry
  | none => fetchFrom answer id
  ofResult ((← get).bman.blockAt id)

/-- A store that does not fail answers what it has. -/
theorem getBlock_eq (id : BlockId) (g : HistoricalGraph P T schema) :
    getBlock id g = getBlockFrom (.ok (g.bman.db.find? (keyBytes id))) id g := by
  have hfetch : (fetch id : Storage P T schema Unit) g
      = fetchFrom (.ok (g.bman.db.find? (keyBytes id))) id g := by
    unfold fetch fetchFrom
    rw [ofResult_bind_ok (key_eq id), get_bind]
    exact (ofResult_bind_ok rfl _).symm
  unfold getBlock getBlockFrom
  rw [get_bind, get_bind]
  cases hlookup : g.bman.cache.lookup id with
  | some entry => rfl
  | none => exact run_bind_congr hfetch _

/-- An exception comes from the way through the store. -/
theorem getBlockFrom_throw {answer : Answer} (hrun : getBlockFrom answer id g = .error fault g')
    (hfault : fault.isException = true) :
    g.bman.cache.lookup id = none ∧ fetchFrom answer id g = .error fault g' := by
  have hafter : ∀ g₁ : HistoricalGraph P T schema,
      (do ofResult ((← get).bman.blockAt id) : Storage P T schema _) g₁ ≠ .error fault g' := by
    intro g₁ h
    rw [get_bind] at h
    rw [blockAt_fault (ofResult_eq_error.mp h).1] at hfault
    cases hfault
  unfold getBlockFrom at hrun
  rw [get_bind] at hrun
  cases hlookup : g.bman.cache.lookup id with
  | some entry =>
      rw [hlookup] at hrun
      rcases run_bind_eq_error.mp hrun with hhit | ⟨_, g₁, -, hread⟩
      · unfold hit at hhit
        rw [get_bind] at hhit
        rcases run_bind_eq_error.mp hhit with htouch | ⟨_, _, -, hmodify⟩
        · rw [touch_fault (ofResult_eq_error.mp htouch).1] at hfault
          cases hfault
        · cases hmodify
      · exact absurd hread (hafter g₁)
  | none =>
      rw [hlookup] at hrun
      rcases run_bind_eq_error.mp hrun with hfetch | ⟨_, g₁, -, hread⟩
      · exact ⟨rfl, hfetch⟩
      · exact absurd hread (hafter g₁)

/-- Once there is a value, the entry is made. -/
theorem fetchFrom_value {value : List Byte}
    (h : fetchFrom (.ok (some value)) id g = .error fault g') :
    g'.bman.cache.lookup id = some ⟨.new, none⟩ := by
  unfold fetchFrom at h
  rw [ofResult_bind_ok rfl] at h
  rcases run_bind_eq_error.mp h with hmodify | ⟨_, g₁, hmodify, hrest⟩
  · cases hmodify
  rcases run_bind_eq_error.mp hrest with hdecode | ⟨_, _, -, hpush⟩
  · rw [onIndex_eq_error hdecode, ← (EStateM.Result.ok.inj hmodify).2]
    exact AList.lookup_insert _
  · cases hpush

/-- Without one, nothing is done. -/
theorem fetchFrom_no_value {answer : Answer} (hanswer : ∀ value, answer ≠ .ok (some value))
    (h : fetchFrom answer id g = .error fault g') : g' = g := by
  unfold fetchFrom at h
  rcases run_bind_eq_error.mp h with herror | ⟨value, g₁, hresult, hrest⟩
  · exact (ofResult_eq_error.mp herror).2
  cases answer with
  | error e => cases hresult
  | ok found =>
      cases found with
      | some value' => exact absurd rfl (hanswer value')
      | none =>
          obtain ⟨hvalue, hg⟩ := EStateM.Result.ok.inj hresult
          rw [← hvalue] at hrest
          rw [hg]
          exact (EStateM.Result.error.inj hrest).2.symm

/-- **A read that throws leaves the cache alone exactly when the store had no value for it.** -/
theorem getBlock_throw_keeps_cache_iff {answer : Answer}
    (hrun : getBlockFrom answer id g = .error fault g') (hfault : fault.isException = true) :
    (g'.bman.cache = g.bman.cache ∧ g'.bman.lruList = g.bman.lruList) ↔
      ∀ value, answer ≠ .ok (some value) := by
  obtain ⟨hmiss, hfetch⟩ := getBlockFrom_throw hrun hfault
  refine ⟨?_, ?_⟩
  · rintro ⟨hcache, -⟩ value hanswer
    rw [hanswer] at hfetch
    have hentry := fetchFrom_value hfetch
    rw [hcache, hmiss] at hentry
    cases hentry
  · intro hanswer
    rw [fetchFrom_no_value hanswer hfetch]
    exact ⟨rfl, rfl⟩

/-! ### A block before the first slice the keys can find -/

section Examples

open Block PartitionIndex

/-- No block under the id: the read throws, and the cache stays empty. -/
theorem getBlock_throw_keeps_cache_empty :
    ∃ fault g', getBlockFrom (.ok none) 0 oneGraph = .error fault g' ∧ fault.isException = true ∧
      g'.bman.cache = oneGraph.bman.cache ∧ g'.bman.lruList = oneGraph.bman.lruList := by
  have hrun : getBlockFrom (.ok none) 0 oneGraph = .error (.blockNotFound 0) oneGraph := rfl
  exact ⟨_, _, hrun, rfl, (getBlock_throw_keeps_cache_iff hrun rfl).mpr fun _ h => nomatch h⟩

/-- An R-tree that visits all it has. -/
def allTree : RTree Time where
  visit entries _ _ := entries
  mem_of_visit _ _ _ _ h := h
  visit_of_meets _ _ _ _ h _ _ := h

/-- The line cut at minus five. -/
def cutBelow : Replacement Time :=
  .one ⟨Timestamp.negInfinity, Timestamp.infinity, [[[97], [98]]]⟩
    [⟨Timestamp.negInfinity, Time.ofFloat (-5.0), [[[97], [98]]]⟩,
      ⟨Time.ofFloat (-5.0), Timestamp.infinity, [[[97], [98]]]⟩]

/-- Cut the line, then store the edge from 1 to 2 at minus twenty. -/
def storeBelow :
    Storage (PartitionIndex Time) Time textSchema (Block Time (AttributeData textSchema)) :=
  do
    cutBelow.run allTree
    let block ← ofResult (Block.addEdge { Block.new with partition := 0 } 1 2
      (Time.ofFloat (-20.0)) ⟨0, texts [120] [121]⟩)
    addBlock block

/-- The keys of negative times are in the wrong order, so no slice is found for the block that was
stored.  Its entry stays behind, and the next read finds it. -/
theorem failed_read_leaves_entry :
    ∃ block g, storeBelow oneGraph = .ok block g ∧
      ∃ fault g', getBlock block.id g = .error fault g' ∧ fault.isException = true ∧
        ¬ (g'.bman.cache = g.bman.cache ∧ g'.bman.lruList = g.bman.lruList) := by
  have hstored : (answer? (storeBelow oneGraph)).map Block.id = some 0 := by decide +kernel
  obtain ⟨block, hanswer, hid⟩ := Option.map_eq_some_iff.mp hstored
  obtain ⟨g, hrun⟩ := of_answer? hanswer
  have hg : g = stateAfter storeBelow oneGraph := by
    unfold stateAfter
    rw [hrun]
  have hfault : fault? (getBlock 0 (stateAfter storeBelow oneGraph))
      = some .timeSlicedPartitionNotFound := by
    decide +kernel
  have hread := eq_of_fault? hfault
  refine ⟨block, g, hrun, _, _, by rw [hid, hg]; exact hread, rfl, ?_⟩
  rintro ⟨hcache, -⟩
  have hkeys : (stateAfter storeBelow oneGraph).bman.cache.keys = [] ∧
      (stateAfter (getBlock 0) (stateAfter storeBelow oneGraph)).bman.cache.keys = [0] := by
    decide +kernel
  rw [hg] at hcache
  rw [hcache, hkeys.1] at hkeys
  cases hkeys.2

end Examples

end RailwayDB.BlockManager
