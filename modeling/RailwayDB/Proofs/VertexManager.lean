/-
The vertex manager under any sequence of calls.

The data each vertex was added with is carried along beside the state.  After every
call a read of a vertex gives that data, or says that the vertex was never added; a
vertex is added once; and the cache and its list belong to each other.

Two kinds of data do not come back equal.  A text of 2^32 bytes or more loses its
length on the way to the store, and a NaN is not equal to itself.
-/
import RailwayDB.Core.VertexManager
import RailwayDB.Lib.Calls
import RailwayDB.Proofs.BlockManager

namespace RailwayDB.VertexManager

open NetworkByteBuffer

open BlockManager (keyBytes keyBytes_injective)

variable {schema : Schema} {α β : Type} {vman : VertexManager schema} {id : VertexId}
  {data : AttributeData schema}

theorem ofResult_bind_ok {x : Except Fault α} {a : α} (hx : x = .ok a)
    (f : α → Vertices schema β) : (ofResult x >>= f) vman = f a vman := by
  rw [hx]
  rfl

theorem get_bind (f : VertexManager schema → Vertices schema β) :
    (get >>= f) vman = f vman vman := rfl

theorem modify_bind (f : VertexManager schema → VertexManager schema)
    (k : Unit → Vertices schema β) : (modify f >>= k) vman = k () (f vman) := rfl

theorem key_eq (id : VertexId) : key id = .ok (keyBytes id) := BlockManager.key_eq id

/-- Data over the whole schema in the order of new data, with values of the schema's types. -/
structure Whole (data : AttributeData schema) : Prop where
  typed : data.Typed
  keys : data.keys = (AttributeData.new schema).keys

/-- What is written is read back, with the texts the wire keeps. -/
theorem read_new (h : Whole data) :
    ∃ sb, AttributeData.read (ofBytes data.bytes) (AttributeData.new schema)
      = .ok (data.wire, sb) := by
  have hread := AttributeData.read_ok h.typed h.keys.symm
  have hunread : Unread (ofBytes data.bytes) (data.bytes ++ []) := by
    rw [List.append_nil]
    exact unread_ofBytes _
  obtain ⟨hok, -⟩ := hread _ _ hunread
  have hkeys : (data.wire.fields).map Prod.fst = (AttributeData.new schema).fields.map Prod.fst := by
    have hwire := AttributeData.keys_wire data
    rw [h.keys] at hwire
    exact hwire
  have hwire : (AttributeData.new schema).assignAll (data.fields.map fun f => (f.1, f.2.wire))
      = data.wire := AttributeData.ext (AttributeData.fields_assignAll hkeys)
  rw [hwire] at hok
  exact ⟨_, hok⟩

/-! ### The vertices of a state -/

/-- The vertices that were added, with their data. -/
abbrev Added (schema : Schema) := VertexId → Option (AttributeData schema)

/-- The state of a manager with these vertices.  `Fits` is what is known of the data added. -/
structure Has (Fits : AttributeData schema → Prop) (added : Added schema)
    (vman : VertexManager schema) : Prop where
  linked : vman.lru.Linked
  bound : vman.lru.lruList.length < vman.vertexDataBufferSize
  stored : ∀ id, vman.db.find? (keyBytes id) = (added id).map AttributeData.bytes
  whole : ∀ id data, added id = some data → Whole data ∧ Fits data
  cached : ∀ id entry, vman.lru.cache.lookup id = some entry →
    ∃ data, added id = some data ∧ entry.data = data.wire

variable {Fits : AttributeData schema → Prop} {added : Added schema}

theorem has_new {n : Nat} (hn : 2 ≤ n) : Has Fits (fun _ => none) (new n .empty) := by
  refine ⟨LruCache.linked_empty, ?_, ?_, ?_, ?_⟩
  · show 0 < n
    omega
  · intro id
    rfl
  · intro id data h
    simp at h
  · intro id entry h
    simp [new, LruCache.empty] at h

/-- The counters do not matter. -/
theorem Has.count (h : Has Fits added vman) (reqCount hitCount : Nat) :
    Has Fits added { vman with reqCount := reqCount, hitCount := hitCount } :=
  ⟨h.linked, h.bound, h.stored, h.whole, h.cached⟩

theorem hit_ok (h : Has Fits added vman) {entry : LruEntry (AttributeData schema)}
    (hentry : vman.lru.cache.lookup id = some entry) :
    ∃ vman', hit id entry vman = .ok entry.data vman' ∧ Has Fits added vman' ∧
      vman'.vertexDataBufferSize = vman.vertexDataBufferSize := by
  obtain ⟨lru, htouch, hlinked, hlen, hsame⟩ := LruCache.touch_ok h.linked hentry
  refine ⟨{ vman with hitCount := vman.hitCount + 1, lru := lru }, ?_, ?_, rfl⟩
  · unfold hit
    rw [modify_bind, get_bind]
    dsimp only
    rw [htouch]
    rfl
  · refine ⟨hlinked, lt_of_le_of_lt hlen h.bound, h.stored, h.whole, ?_⟩
    intro id' entry' hentry'
    obtain ⟨e, he, hdata⟩ := hsame id' entry' hentry'
    rw [← hdata]
    exact h.cached id' e he

/-- The manager after a vertex has been read from the store. -/
def filledWith (vman : VertexManager schema) (id : VertexId) (data : AttributeData schema) :
    VertexManager schema :=
  { vman with lru := (vman.lru.reserve id (AttributeData.new schema)).pushFront id data }

theorem lookup_filledWith (vman : VertexManager schema) (id id' : VertexId)
    (data : AttributeData schema) :
    (vman.filledWith id data).lru.cache.lookup id'
      = if id' = id then some ⟨data, some vman.lru.nextNode⟩ else vman.lru.cache.lookup id' := by
  rw [filledWith, LruCache.lookup_pushFront]
  by_cases hid : id' = id
  · rw [if_pos hid, if_pos hid]
    rfl
  · rw [if_neg hid, if_neg hid, LruCache.reserve, AList.lookup_insert_ne hid]

/-- With room for two, what was just read is not what is dropped. -/
theorem evict_filledWith (h : Has Fits added vman) (hroom : 2 ≤ vman.vertexDataBufferSize)
    (hmiss : vman.lru.cache.lookup id = none) (hadded : added id = some data) :
    Has Fits added (vman.filledWith id data.wire).evict ∧
      (vman.filledWith id data.wire).evict.dataAt id = .ok data.wire ∧
      (vman.filledWith id data.wire).evict.vertexDataBufferSize = vman.vertexDataBufferSize := by
  have hlinked : (vman.filledWith id data.wire).lru.Linked :=
    LruCache.linked_fill h.linked hmiss _ _
  have hlen : (vman.filledWith id data.wire).lru.lruList.length = vman.lru.lruList.length + 1 := rfl
  have hfront := lookup_filledWith vman id id data.wire
  rw [if_pos rfl] at hfront
  have hcached : ∀ id' entry, (vman.filledWith id data.wire).lru.cache.lookup id' = some entry →
      ∃ d, added id' = some d ∧ entry.data = d.wire := by
    intro id' entry hentry
    rw [lookup_filledWith] at hentry
    by_cases hid : id' = id
    · rw [if_pos hid, Option.some.injEq] at hentry
      rw [hid, ← hentry]
      exact ⟨data, hadded, rfl⟩
    · rw [if_neg hid] at hentry
      exact h.cached id' entry hentry
  have hbound := h.bound
  unfold evict
  by_cases hfull : (vman.filledWith id data.wire).vertexDataBufferSize
      ≤ (vman.filledWith id data.wire).lru.lruList.length
  · rw [if_pos hfull]
    have hsize : vman.vertexDataBufferSize ≤ vman.lru.lruList.length + 1 := hfull
    refine ⟨⟨LruCache.linked_popBack hlinked, ?_, h.stored, h.whole, ?_⟩, ?_, rfl⟩
    · show (vman.filledWith id data.wire).lru.popBack.lruList.length < vman.vertexDataBufferSize
      rw [LruCache.length_popBack, hlen]
      omega
    · intro id' entry hentry
      exact hcached id' entry (LruCache.lookup_popBack hentry)
    · have hother : (vman.lru.reserve id (AttributeData.new schema)).lruList ≠ [] := by
        intro hnil
        have hzero : vman.lru.lruList.length = 0 := congrArg List.length hnil
        omega
      have hkept : (vman.filledWith id data.wire).lru.popBack.cache.lookup id
          = some ⟨data.wire, some vman.lru.nextNode⟩ :=
        LruCache.lookup_popBack_front hlinked hother
      unfold dataAt
      simp only [hkept]
  · rw [if_neg hfull]
    have hsize : ¬ vman.vertexDataBufferSize ≤ vman.lru.lruList.length + 1 := hfull
    refine ⟨⟨hlinked, ?_, h.stored, h.whole, hcached⟩, ?_, rfl⟩
    · show vman.lru.lruList.length + 1 < vman.vertexDataBufferSize
      omega
    · unfold dataAt
      simp only [hfront]

/-- A miss goes to the store. -/
theorem fetch_ok (h : Has Fits added vman) (hroom : 2 ≤ vman.vertexDataBufferSize)
    (hmiss : vman.lru.cache.lookup id = none) (hadded : added id = some data) :
    ∃ vman', fetch id vman = .ok data.wire vman' ∧ Has Fits added vman' ∧
      vman'.vertexDataBufferSize = vman.vertexDataBufferSize := by
  have hdb := h.stored id
  rw [hadded, Option.map_some] at hdb
  obtain ⟨sb, hread⟩ := read_new (h.whole id data hadded).1
  obtain ⟨hhas, hdata, hsize⟩ := evict_filledWith h hroom hmiss hadded
  refine ⟨(vman.filledWith id data.wire).evict, ?_, hhas, hsize⟩
  unfold fetch
  rw [ofResult_bind_ok (key_eq id)]
  rw [get_bind, hdb]
  show (ofResult (AttributeData.read (ofBytes data.bytes) (AttributeData.new schema)) >>= _ :
    Vertices schema _) _ = _
  rw [ofResult_bind_ok hread]
  show (ofResult ((vman.filledWith id data.wire).evict.dataAt id) : Vertices schema _)
    (vman.filledWith id data.wire).evict = _
  rw [hdata]
  rfl

theorem fetch_none (h : Has Fits added vman) (hadded : added id = none) :
    fetch id vman = .error (.vertexNotFound id) vman := by
  have hdb := h.stored id
  rw [hadded] at hdb
  unfold fetch
  rw [ofResult_bind_ok (key_eq id)]
  rw [get_bind, hdb]
  rfl

theorem getVertexData_ok (h : Has Fits added vman) (hroom : 2 ≤ vman.vertexDataBufferSize)
    (hadded : added id = some data) :
    ∃ vman', getVertexData id vman = .ok data.wire vman' ∧ Has Fits added vman' ∧
      vman'.vertexDataBufferSize = vman.vertexDataBufferSize := by
  have hcount := h.count (vman.reqCount + 1) vman.hitCount
  unfold getVertexData
  rw [modify_bind, get_bind]
  dsimp only
  cases hentry : vman.lru.cache.lookup id with
  | some entry =>
      obtain ⟨d, hd, hwire⟩ := h.cached id entry hentry
      rw [hadded, Option.some.injEq] at hd
      rw [hd, ← hwire]
      exact hit_ok hcount hentry
  | none => exact fetch_ok hcount hroom hentry hadded

theorem getVertexData_none (h : Has Fits added vman) (hadded : added id = none) :
    getVertexData id vman
      = .error (.vertexNotFound id) { vman with reqCount := vman.reqCount + 1 } := by
  have hcount := h.count (vman.reqCount + 1) vman.hitCount
  unfold getVertexData
  rw [modify_bind, get_bind]
  dsimp only
  cases hentry : vman.lru.cache.lookup id with
  | some entry =>
      obtain ⟨d, hd, -⟩ := h.cached id entry hentry
      rw [hadded] at hd
      simp at hd
  | none => exact fetch_none hcount hadded

theorem store_exists (h : Has Fits added vman) (hadded : added id ≠ none)
    (data : AttributeData schema) :
    store id data vman = .error (.vertexAlreadyExists id) vman := by
  obtain ⟨old, hold⟩ := Option.ne_none_iff_exists'.mp hadded
  have hdb := h.stored id
  rw [hold, Option.map_some] at hdb
  unfold store
  rw [ofResult_bind_ok (key_eq id)]
  rw [get_bind, hdb]
  rfl

/-- A vertex that was added is not added again. -/
theorem addVertex_exists (h : Has Fits added vman) (hadded : added id ≠ none)
    (data : AttributeData schema) :
    addVertex id data vman = .error (.vertexAlreadyExists id) vman := by
  show (if id ∈ vman.lru.cache then throw (.vertexAlreadyExists id) else store id data :
    Vertices schema _) vman = _
  by_cases hcached : id ∈ vman.lru.cache
  · rw [if_pos hcached]
    rfl
  · rw [if_neg hcached]
    exact store_exists h hadded data

/-- A new vertex goes to the store if its data fits into a buffer. -/
theorem addVertex_new (h : Has Fits added vman) (hadded : added id = none) (hwhole : Whole data) :
    addVertex id data vman
      = if data.bytes.length ≤ 2 ^ 32 then
          .ok () { vman with db := vman.db.insert (keyBytes id) data.bytes }
        else .error full vman := by
  have hmiss : id ∉ vman.lru.cache := by
    intro hmem
    obtain ⟨entry, hentry⟩ := Option.isSome_iff_exists.mp (AList.lookup_isSome.mpr hmem)
    obtain ⟨d, hd, -⟩ := h.cached id entry hentry
    rw [hadded] at hd
    simp at hd
  have hdb := h.stored id
  rw [hadded, Option.map_none] at hdb
  have hwrite := AttributeData.write_ok hwhole.typed written_new
  rw [List.nil_append] at hwrite
  show (if id ∈ vman.lru.cache then throw (.vertexAlreadyExists id) else store id data :
    Vertices schema _) vman = _
  rw [if_neg hmiss]
  unfold store
  rw [ofResult_bind_ok (key_eq id)]
  rw [get_bind, hdb]
  by_cases hfit : data.bytes.length ≤ 2 ^ 32
  · obtain ⟨sb, hsb, hw⟩ := hwrite.1 hfit
    rw [if_pos hfit, ← hw.contents]
    exact ofResult_bind_ok hsb _
  · rw [if_neg hfit]
    show (ofResult (data.write NetworkByteBuffer.new) >>= _ : Vertices schema _) vman = _
    rw [hwrite.2 (Nat.lt_of_not_le hfit)]
    rfl

theorem Has.insert (h : Has Fits added vman) (hadded : added id = none) (hwhole : Whole data)
    (hfits : Fits data) :
    Has Fits (Function.update added id (some data))
      { vman with db := vman.db.insert (keyBytes id) data.bytes } := by
  refine ⟨h.linked, h.bound, ?_, ?_, ?_⟩
  · intro id'
    show (vman.db.insert (keyBytes id) data.bytes).find? (keyBytes id') = _
    rw [SortedMap.find?_insert]
    by_cases hid : id' = id
    · rw [hid, if_pos rfl, Function.update_self]
      rfl
    · rw [if_neg fun heq => hid (keyBytes_injective heq), Function.update_of_ne hid]
      exact h.stored id'
  · intro id' d hd
    by_cases hid : id' = id
    · rw [hid, Function.update_self, Option.some.injEq] at hd
      rw [← hd]
      exact ⟨hwhole, hfits⟩
    · rw [Function.update_of_ne hid] at hd
      exact h.whole id' d hd
  · intro id' entry hentry
    obtain ⟨d, hd, hwire⟩ := h.cached id' entry hentry
    have hid : id' ≠ id := by
      intro heq
      rw [heq, hadded] at hd
      simp at hd
    exact ⟨d, by rw [Function.update_of_ne hid, hd], hwire⟩

/-! ### Sequences of calls -/

/-- The calls of the interface. -/
inductive Call (schema : Schema) where
  | addVertex (id : VertexId) (data : AttributeData schema)
  | getVertexData (id : VertexId)

/-- The state a call ends in, whether it returned or threw. -/
def endState (x : Vertices schema α) (vman : VertexManager schema) : VertexManager schema :=
  match x vman with
  | .ok _ vman' => vman'
  | .error _ vman' => vman'

namespace Call

/-- The state after a call. -/
def after (vman : VertexManager schema) : Call schema → VertexManager schema
  | addVertex id data => endState (VertexManager.addVertex id data) vman
  | getVertexData id => endState (VertexManager.getVertexData id) vman

/-- The vertices there should be after a call: what it added, when it returned. -/
def vertices (vman : VertexManager schema) (added : Added schema) : Call schema → Added schema
  | addVertex id data =>
      match VertexManager.addVertex id data vman with
      | .ok _ _ => Function.update added id (some data)
      | .error _ _ => added
  | getVertexData _ => added

/-- Data comes over the whole schema and with its types. -/
def Allowed : Call schema → Prop
  | addVertex _ data => Whole data
  | getVertexData _ => True

/-- No text is too long for its length field, and no number is a NaN. -/
def Fine : Call schema → Prop
  | addVertex _ data => data.Short ∧ data.equals data = true
  | getVertexData _ => True

end Call

/-- What a run of calls that meet `ok` reaches. -/
inductive Reached (ok : Call schema → Prop) (start : VertexManager schema) :
    Added schema → VertexManager schema → Prop
  | start : Reached ok start (fun _ => none) start
  | call {added : Added schema} {vman : VertexManager schema} (c : Call schema) :
      Reached ok start added vman → c.Allowed → ok c →
      Reached ok start (c.vertices vman added) (c.after vman)

/-- One call keeps the vertices what they should be. -/
theorem call_has (h : Has Fits added vman) (hroom : 2 ≤ vman.vertexDataBufferSize)
    {c : Call schema} (hallowed : c.Allowed) (hfits : ∀ id data, c = .addVertex id data → Fits data) :
    Has Fits (c.vertices vman added) (c.after vman) ∧
      (c.after vman).vertexDataBufferSize = vman.vertexDataBufferSize := by
  cases c with
  | addVertex id data =>
      unfold Call.vertices Call.after endState
      by_cases hadded : added id = none
      · have hrun := addVertex_new h hadded hallowed
        by_cases hfit : data.bytes.length ≤ 2 ^ 32
        · rw [if_pos hfit] at hrun
          simp only [hrun]
          exact ⟨h.insert hadded hallowed (hfits id data rfl), trivial⟩
        · rw [if_neg hfit] at hrun
          simp only [hrun]
          exact ⟨h, trivial⟩
      · have hrun := addVertex_exists h hadded data
        simp only [hrun]
        exact ⟨h, trivial⟩
  | getVertexData id =>
      unfold Call.vertices Call.after endState
      cases hadded : added id with
      | none =>
          have hrun := getVertexData_none h hadded
          simp only [hrun]
          exact ⟨h.count _ _, trivial⟩
      | some data =>
          obtain ⟨vman', hrun, hhas, hsize⟩ := getVertexData_ok h hroom hadded
          simp only [hrun]
          exact ⟨hhas, hsize⟩

/-- Every vertex is added once and read as it was added, and the cache does not show. -/
structure InsertOnce (added : Added schema) (vman : VertexManager schema) : Prop where
  found : ∀ id data, added id = some data →
    ∃ data' vman', getVertexData id vman = .ok data' vman' ∧ data'.equals data = true
  notFound : ∀ id, added id = none ↔
    ∃ vman', getVertexData id vman = .error (.vertexNotFound id) vman'
  already : ∀ id data, Whole data → (added id ≠ none ↔
    ∃ vman', addVertex id data vman = .error (.vertexAlreadyExists id) vman')
  unchanged : ∀ id data vman', Whole data →
    addVertex id data vman = .error (.vertexAlreadyExists id) vman' → vman' = vman
  once : (vman.lru.lruList.map Prod.snd).Nodup
  keys : ∀ id, id ∈ vman.lru.lruList.map Prod.snd ↔ id ∈ vman.lru.cache
  bound : vman.lru.lruList.length < vman.vertexDataBufferSize

theorem Has.insertOnce (h : Has (fun data => data.Short ∧ data.equals data = true) added vman)
    (hroom : 2 ≤ vman.vertexDataBufferSize) : InsertOnce added vman := by
  have halready : ∀ id data, Whole data → (added id ≠ none ↔
      ∃ vman', addVertex id data vman = .error (.vertexAlreadyExists id) vman') := by
    intro id data hwhole
    constructor
    · intro hadded
      exact ⟨vman, addVertex_exists h hadded data⟩
    · intro hex hadded
      obtain ⟨vman', hrun⟩ := hex
      rw [addVertex_new h hadded hwhole] at hrun
      split_ifs at hrun
      simp [full] at hrun
  refine ⟨?_, ?_, halready, ?_, h.linked.points.once, h.linked.mem_cache, h.bound⟩
  · intro id data hadded
    obtain ⟨vman', hrun, -⟩ := getVertexData_ok h hroom hadded
    obtain ⟨-, hshort, hequals⟩ := h.whole id data hadded
    rw [AttributeData.wire_eq_self.mpr hshort] at hrun
    exact ⟨data, vman', hrun, hequals⟩
  · intro id
    constructor
    · intro hadded
      exact ⟨_, getVertexData_none h hadded⟩
    · intro hex
      obtain ⟨vman', hrun⟩ := hex
      cases hadded : added id with
      | none => rfl
      | some data =>
          obtain ⟨vman'', hok, -⟩ := getVertexData_ok h hroom hadded
          rw [hrun] at hok
          simp at hok
  · intro id data vman' hwhole hrun
    have hadded := (halready id data hwhole).mpr ⟨vman', hrun⟩
    rw [addVertex_exists h hadded data, EStateM.Result.error.injEq] at hrun
    exact hrun.2.symm

/-- **The manager is a map to which a vertex is added once, and its cache does not show.** -/
theorem reached_insertOnce {n : Nat} (hn : 2 ≤ n) (h : Reached Call.Fine (new n .empty) added vman) :
    InsertOnce added vman := by
  have hhas : Has (fun data => data.Short ∧ data.equals data = true) added vman ∧
      vman.vertexDataBufferSize = n := by
    induction h with
    | start => exact ⟨has_new hn, rfl⟩
    | call c _ hallowed hfine ih =>
        obtain ⟨hhas, hsize⟩ := call_has ih.1 (by rw [ih.2]; exact hn) hallowed (by
          intro id data hc
          rw [hc] at hfine
          exact hfine)
        exact ⟨hhas, hsize.trans ih.2⟩
  exact hhas.1.insertOnce (by rw [hhas.2]; exact hn)

/-! ### A short text and a long one -/

/-- One text. -/
def nameSchema : Schema := ⟨[⟨[110], .string⟩]⟩

def named (text : Text) : AttributeData nameSchema := ⟨[(0, .string text)], by simp⟩

theorem named_whole (text : Text) : Whole (named text) := by
  refine ⟨?_, rfl⟩
  intro f hf
  rw [List.mem_singleton.mp hf]
  rfl

/-- A vertex is added and read. -/
theorem reached_insertOnce_named :
    ∃ added vman, Reached Call.Fine (new 2 .empty) added vman ∧
      added 1 = some (named [120]) ∧ InsertOnce added vman := by
  have hadd : Reached Call.Fine (new 2 .empty) _ _ :=
    Reached.call (.addVertex 1 (named [120])) Reached.start (named_whole [120])
      ⟨by
        intro f hf
        rw [List.mem_singleton.mp hf]
        show [120].length < 2 ^ 32
        decide, by decide⟩
  have hget := Reached.call (.getVertexData 1) hadd trivial trivial
  refine ⟨_, _, hget, ?_, reached_insertOnce (le_refl 2) hget⟩
  have hstart : Has (fun _ : AttributeData nameSchema => True) (fun _ => none) (new 2 .empty) :=
    has_new (le_refl 2)
  have hrun : addVertex 1 (named [120]) (new 2 .empty) = _ :=
    addVertex_new hstart rfl (named_whole [120])
  rw [if_pos (by decide)] at hrun
  simp only [Call.vertices, hrun]
  exact Function.update_self ..

/-- A text of 2^32 bytes comes back empty. -/
theorem not_insertOnce_of_long {text : Text} (hlen : text.length = 2 ^ 32) :
    Reached (fun _ => True) (new 2 .empty)
      (Call.vertices (new 2 .empty) (fun _ => none) (.addVertex 1 (named text)))
      (Call.after (new 2 .empty) (.addVertex 1 (named text))) ∧
    ¬ InsertOnce (Call.vertices (new 2 .empty) (fun _ => none) (.addVertex 1 (named text)))
      (Call.after (new 2 .empty) (.addVertex 1 (named text))) := by
  refine ⟨Reached.call _ Reached.start (named_whole text) trivial, ?_⟩
  intro h
  have hstart : Has (fun _ : AttributeData nameSchema => True) (fun _ => none) (new 2 .empty) :=
    has_new (le_refl 2)
  obtain ⟨hhas, hsize⟩ := call_has hstart (le_refl 2) (c := .addVertex 1 (named text))
    (named_whole text) fun _ _ _ => trivial
  have hfit : (named text).bytes.length ≤ 2 ^ 32 := by
    have hbytes : (named text).bytes = textBytes text := List.append_nil _
    rw [hbytes, length_textBytes, hlen]
    simp
  have hadded : Call.vertices (new 2 .empty) (fun _ => none) (.addVertex 1 (named text)) 1
      = some (named text) := by
    have hrun : addVertex 1 (named text) (new 2 .empty) = _ :=
      addVertex_new hstart rfl (named_whole text)
    rw [if_pos hfit] at hrun
    simp only [Call.vertices, hrun]
    exact Function.update_self ..
  obtain ⟨data', vman', hget, hequals⟩ := h.found 1 (named text) hadded
  obtain ⟨vman'', hget', -⟩ := getVertexData_ok hhas (by rw [hsize]; exact le_refl 2) hadded
  rw [hget', EStateM.Result.ok.injEq] at hget
  rw [← hget.1] at hequals
  -- The text read back is empty, and would have to be the one added.
  obtain ⟨w, hw, heq⟩ := (AttributeData.equals_iff.mp hequals).2 (0, .string (wireText text))
    (List.mem_singleton_self _)
  have hw' : w = .string text := (Prod.mk.inj (List.mem_singleton.mp hw)).2
  have htext : wireText text = text := by
    rw [hw'] at heq
    simpa [Value.equals] using heq
  have hlt := wireText_eq_self.mp htext
  omega

/-- A vertex with such a text is not what a read of it gives. -/
theorem long_name_is_lost :
    Reached (fun _ => True) (new 2 .empty)
      (Call.vertices (new 2 .empty) (fun _ => none)
        (.addVertex 1 (named (List.replicate (2 ^ 32) 120))))
      (Call.after (new 2 .empty) (.addVertex 1 (named (List.replicate (2 ^ 32) 120)))) ∧
    ¬ InsertOnce (Call.vertices (new 2 .empty) (fun _ => none)
        (.addVertex 1 (named (List.replicate (2 ^ 32) 120))))
      (Call.after (new 2 .empty) (.addVertex 1 (named (List.replicate (2 ^ 32) 120)))) :=
  not_insertOnce_of_long List.length_replicate

end RailwayDB.VertexManager
