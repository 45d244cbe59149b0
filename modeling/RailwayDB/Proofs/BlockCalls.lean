/-
A block manager under any sequence of calls.

The blocks it should have are carried along beside its state: what a call that
returns stores, updates or removes.  After every call a read of any id gives the
block of that id, or says that there is none, and the list of recent reads and the
cache belong to each other.

This needs three things of the calls, none of which the manager looks at.  A text of
2^32 bytes or more loses its length on the way to the store.  An update that does
not fit the buffer throws when the cache has the new block already.  And an id that
is handed out again may still be cached.
-/
import RailwayDB.Proofs.BlockManager

namespace RailwayDB

open NetworkByteBuffer Storage

variable {P T : Type} {schema : Schema}

/-- No text of a block is too long for its length field. -/
def Block.ShortTexts (block : Block T (AttributeData schema)) : Prop :=
  ∀ v, ∀ e ∈ block.neigs.edges v, e.data.val.Short

namespace BlockManager

variable [LinearOrder T] [Timestamp T] [BlockTime T] [SliceIndex P T]

/-- The calls of the interface. -/
inductive Call (T : Type) (schema : Schema) where
  | addBlock (block : Block T (AttributeData schema))
  | updateBlock (block : Block T (AttributeData schema))
  | removeBlock (id : BlockId)
  | getBlock (id : BlockId)
  | clear

/-- The blocks of a manager. -/
abbrev Blocks (T : Type) (schema : Schema) := BlockId → Option (Block T (AttributeData schema))

/-- The state a call ends in, whether it returned or threw. -/
def endState {α : Type} (x : Storage P T schema α) (g : HistoricalGraph P T schema) :
    HistoricalGraph P T schema :=
  match x g with
  | .ok _ g' => g'
  | .error _ g' => g'

namespace Call

/-- The state after a call. -/
def after (g : HistoricalGraph P T schema) : Call T schema → HistoricalGraph P T schema
  | addBlock block => endState (BlockManager.addBlock block) g
  | updateBlock block => endState (BlockManager.updateBlock block) g
  | removeBlock id => endState (BlockManager.removeBlock id) g
  | getBlock id => endState (BlockManager.getBlock id) g
  | clear => endState (modifyBlocks BlockManager.clear) g

/-- The blocks there should be after a call: what it stored, when it returned. -/
def blocks (g : HistoricalGraph P T schema) (stored : Blocks T schema) :
    Call T schema → Blocks T schema
  | addBlock block =>
      match BlockManager.addBlock block g with
      | .ok added _ => Function.update stored added.id (some added)
      | .error _ _ => stored
  | updateBlock block =>
      match BlockManager.updateBlock block g with
      | .ok _ _ => Function.update stored block.id (some block)
      | .error _ _ => stored
  | removeBlock id =>
      match BlockManager.removeBlock id g with
      | .ok _ _ => Function.update stored id none
      | .error _ _ => stored
  | getBlock _ => stored
  | clear => stored

/-- Blocks come from `partitionBlock` under the index, and only stored blocks are updated. -/
def Allowed (parts : T → Option Partitioning) (stored : Blocks T schema) : Call T schema → Prop
  | addBlock block => LaidBy parts block
  | updateBlock block => LaidBy parts block ∧ stored block.id ≠ none
  | _ => True

/-- Texts keep their length, an update fits the buffer, and the next id is not cached. -/
def Fine (g : HistoricalGraph P T schema) : Call T schema → Prop
  | addBlock block => block.ShortTexts ∧ g.bman.cache.lookup g.metaData.blockId = none
  | updateBlock block => block.ShortTexts ∧ block.encoding.length ≤ 2 ^ 32
  | _ => True

end Call

/-- What a run of calls that meet `ok` reaches from a state without blocks. -/
inductive Reached (parts : T → Option Partitioning)
    (ok : HistoricalGraph P T schema → Call T schema → Prop) (start : HistoricalGraph P T schema) :
    Blocks T schema → HistoricalGraph P T schema → Prop
  | start : Reached parts ok start (fun _ => none) start
  | call {stored : Blocks T schema} {g : HistoricalGraph P T schema} (c : Call T schema) :
      Reached parts ok start stored g → c.Allowed parts stored → ok g c →
      Reached parts ok start (c.blocks g stored) (c.after g)

/-- The list has each cached id once, each entry points at its own node, and there is room for
all of them. -/
structure CacheOK (bman : BlockManager T schema) : Prop where
  once : (bman.lruList.map Prod.snd).Nodup
  keys : ∀ id, id ∈ bman.lruList.map Prod.snd ↔ id ∈ bman.cache
  own : ∀ id entry, bman.cache.lookup id = some entry →
    ∃ node, entry.iter = some node ∧ ∀ p ∈ bman.lruList, p.1 = node ↔ p.2 = id
  bound : bman.lruList.length ≤ bman.blockBufferSize

/-- A read of any id gives the block of that id, or throws that there is none. -/
def Transparent (stored : Blocks T schema) (g : HistoricalGraph P T schema) : Prop :=
  (∀ id block, stored id = some block →
    ∃ block' g', getBlock id g = .ok block' g' ∧ Block.Same block block') ∧
  (∀ id, stored id = none → ∃ g', getBlock id g = .error (.blockNotFound id) g') ∧
  CacheOK g.bman

theorem Tidy.cacheOK {T : Type} {bman : BlockManager T schema} (h : Tidy bman) : CacheOK bman := by
  refine ⟨h.points.once, h.mem_cache, ?_, h.bound⟩
  intro id entry hentry
  obtain ⟨n, hn⟩ := Option.ne_none_iff_exists'.mp (h.whole id entry hentry)
  have hiter : bman.iterOf id = some n := by
    unfold iterOf
    rw [hentry]
    exact hn
  have hmem := (h.points.own id n).mp hiter
  refine ⟨n, hn, ?_⟩
  intro p hp
  refine ⟨?_, ?_⟩
  · intro hpn
    rw [h.points.node_unique hp hmem hpn]
  · intro hpid
    rw [h.points.key_unique hp hmem hpid]

theorem same_refl {T : Type} [LinearOrder T] {block : Block T (AttributeData schema)}
    (h : block.Formed) :
    Block.Same block block := by
  obtain ⟨F, seen, hbuilt, -⟩ := h
  refine ⟨rfl, rfl, rfl, rfl, fun _ => Iff.rfl, fun _ => rfl, ?_⟩
  intro v w e he e' he' htrip
  rw [hbuilt.data v e he, hbuilt.data w e' he', htrip]

variable {Ok : P → Prop} {parts : T → Option Partitioning}

/-- One call keeps the blocks what they should be. -/
theorem call_held (hanswers : Answers Ok parts) {stored : Blocks T schema}
    {g : HistoricalGraph P T schema} (h : Held Ok parts Block.Same stored g)
    (hroom : 1 ≤ g.bman.blockBufferSize) {c : Call T schema} (hallowed : c.Allowed parts stored)
    (hfine : c.Fine g) :
    Held Ok parts Block.Same (c.blocks g stored) (c.after g) ∧
      (c.after g).bman.blockBufferSize = g.bman.blockBufferSize := by
  have hid : ∀ b b' : Block T (AttributeData schema), Block.Same b b' → b'.id = b.id :=
    fun _ _ hs => hs.id
  cases c with
  | addBlock block =>
      have hlaid := LaidBy.withId hallowed g.metaData.blockId
      unfold Call.blocks Call.after endState
      by_cases hfit : ({ block with id := g.metaData.blockId } : Block T _).encoding.length ≤ 2 ^ 32
      · obtain ⟨g', hrun, hheld, hsize, -⟩ := addBlock_ok h hallowed hfit
          (fun b' hback => hback.same hlaid.1 hfine.1) hfine.2
        simp only [hrun]
        exact ⟨hheld, hsize⟩
      · have hrun := addBlock_full hallowed (Nat.lt_of_not_le hfit)
        simp only [hrun]
        exact ⟨⟨h.index, h.tidy, h.absent, h.present, h.cached⟩, trivial⟩
  | updateBlock block =>
      obtain ⟨g', hrun, hheld, hsize, -⟩ := updateBlock_ok hanswers hid h hroom hallowed.2
        hallowed.1 hfine.2 (fun b' hback => hback.same hallowed.1.1 hfine.1)
        (same_refl hallowed.1.1)
      unfold Call.blocks Call.after endState
      simp only [hrun]
      exact ⟨hheld, hsize⟩
  | removeBlock id =>
      obtain ⟨g', hrun, hheld, hsize, -⟩ := removeBlock_ok h id
      unfold Call.blocks Call.after endState
      simp only [hrun]
      exact ⟨hheld, hsize⟩
  | getBlock id =>
      unfold Call.blocks Call.after endState
      cases hstored : stored id with
      | none =>
          have hrun := getBlock_none h hstored
          simp only [hrun]
          exact ⟨h, trivial⟩
      | some block =>
          obtain ⟨b', g', hrun, -, hheld, hread⟩ := getBlock_ok hanswers hid h hroom hstored
          simp only [hrun]
          exact ⟨hheld, hread.blockBufferSize⟩
  | clear => exact ⟨clear_ok h, rfl⟩

/-- **The manager is a map, and its cache does not show.** -/
theorem reached_transparent (hanswers : Answers Ok parts) {start : HistoricalGraph P T schema}
    {n : Nat} (hindex : Ok start.partIndex) (hnew : start.bman = BlockManager.new n .empty)
    (hroom : 1 ≤ n) {stored : Blocks T schema} {g : HistoricalGraph P T schema}
    (h : Reached parts (fun g c => c.Fine g) start stored g) : Transparent stored g := by
  have hheld : Held Ok parts Block.Same stored g ∧ g.bman.blockBufferSize = n := by
    induction h with
    | start => exact ⟨held_new hindex hnew _, by rw [hnew]; rfl⟩
    | call c _ hallowed hfine ih =>
        obtain ⟨hheld, hsize⟩ := call_held hanswers ih.1 (by rw [ih.2]; exact hroom) hallowed hfine
        exact ⟨hheld, hsize.trans ih.2⟩
  obtain ⟨hheld, hsize⟩ := hheld
  refine ⟨?_, ?_, hheld.tidy.cacheOK⟩
  · intro id block hblock
    obtain ⟨block', g', hrun, hsame, -⟩ := getBlock_ok hanswers (fun _ _ hs => hs.id) hheld
      (by rw [hsize]; exact hroom) hblock
    exact ⟨block', g', hrun, hsame⟩
  · intro id hid
    exact ⟨g, getBlock_none hheld hid⟩

/-! ### A short text and a long one -/

theorem oneSub_shortTexts {a b : Text} (ha : a.length < 2 ^ 32) (hb : b.length < 2 ^ 32) :
    (oneSub a b).ShortTexts := by
  intro v e he
  have hmem : e ∈ (Block.oneEdge a b).neigs.edges v := he
  rw [Block.edges_oneEdge] at hmem
  split_ifs at hmem
  · rw [List.mem_singleton.mp hmem]
    exact Block.short_texts.mpr ⟨ha, hb⟩
  · simp at hmem

/-- The first block that is added gets the id 0, which it has already. -/
theorem addBlock_oneGraph {a b : Text} (hfit : (oneSub a b).encoding.length ≤ 2 ^ 32) :
    ∃ g', addBlock (oneSub a b) oneGraph = .ok (oneSub a b) g' ∧
      Held OneIndex oneParts Block.ComesBack
        (Function.update (fun _ => none) 0 (some (oneSub a b))) g' ∧
      g'.bman.blockBufferSize = 1 := by
  have hzero : oneGraph.metaData.blockId = 0 := rfl
  have hself : ({ oneSub a b with id := 0 } : Block Time (AttributeData Block.textSchema))
      = oneSub a b := rfl
  have hempty : Held OneIndex oneParts Block.ComesBack (fun _ => none) oneGraph :=
    held_new oneIndex_oneGraph bman_oneGraph _
  have hadd := addBlock_ok hempty (oneSub_laidBy a b)
  rw [hzero, hself] at hadd
  obtain ⟨g', hrun, hheld, hsize, -⟩ := hadd hfit (fun _ hback => hback) rfl
  exact ⟨g', hrun, hheld, hsize⟩

/-- Adding a block, clearing the cache and reading the block again. -/
theorem reached_transparent_oneSub :
    ∃ stored g, Reached oneParts (fun g c => c.Fine g) oneGraph stored g ∧
      stored 0 = some (oneSub [120] [121, 122]) ∧ Transparent stored g := by
  have hlaid := oneSub_laidBy [120] [121, 122]
  have hshort : (oneSub [120] [121, 122]).ShortTexts :=
    oneSub_shortTexts (by decide) (by decide)
  have hadd : Reached oneParts (fun g c => c.Fine g) oneGraph _ _ :=
    Reached.call (.addBlock (oneSub [120] [121, 122])) Reached.start hlaid ⟨hshort, rfl⟩
  have hclear := Reached.call .clear hadd trivial trivial
  have hget := Reached.call (.getBlock 0) hclear trivial trivial
  have hfit : (oneSub [120] [121, 122]).encoding.length ≤ 2 ^ 32 := by
    rw [length_encoding_oneSub]
    simp
  obtain ⟨g', hrun, -⟩ := addBlock_oneGraph hfit
  have hstored : Call.blocks oneGraph (fun _ => none) (.addBlock (oneSub [120] [121, 122])) 0
      = some (oneSub [120] [121, 122]) := by
    unfold Call.blocks
    simp only [hrun]
    exact Function.update_self ..
  refine ⟨_, _, hget, ?_,
    reached_transparent oneIndex_answers oneIndex_oneGraph bman_oneGraph (le_refl 1) hget⟩
  simp only [Call.blocks] at hstored ⊢
  exact hstored

/-- A text of 2^32 bytes comes back empty. -/
theorem not_transparent_of_long {text : Text} (hlen : text.length = 2 ^ 32) :
    Reached oneParts (fun _ _ => True) oneGraph
      (Call.blocks oneGraph (fun _ => none) (.addBlock (oneSub text [])))
      (Call.after oneGraph (.addBlock (oneSub text []))) ∧
    ¬ Transparent (Call.blocks oneGraph (fun _ => none) (.addBlock (oneSub text [])))
      (Call.after oneGraph (.addBlock (oneSub text []))) := by
  refine ⟨Reached.call _ Reached.start (oneSub_laidBy text []) trivial, ?_⟩
  have hfit : (oneSub text []).encoding.length ≤ 2 ^ 32 := by
    rw [length_encoding_oneSub, hlen]
    simp
  obtain ⟨g', hrun, hheld, hsize⟩ := addBlock_oneGraph hfit
  obtain ⟨block', g'', hget, hback, -⟩ := getBlock_ok oneIndex_answers (fun _ _ h => h.id) hheld
    (by rw [hsize]) (Function.update_self ..)
  unfold Call.blocks Call.after endState
  simp only [hrun]
  rintro ⟨hread, -, -⟩
  obtain ⟨block'', g₂, hget', hsame⟩ := hread 0 (oneSub text []) rfl
  rw [hget, EStateM.Result.ok.injEq] at hget'
  rw [← hget'.1] at hsame
  -- The block came back with the text cut to nothing, and should have come back whole.
  have hedges : Block.contents ((oneSub text []).neigs.edges 1)
      = [(2, Block.atOne, Block.texts text [])] := rfl
  have hwire := hback.edges 1
  rw [hsame.edges 1, hedges, List.map_singleton, List.singleton_inj] at hwire
  have hshort := AttributeData.wire_eq_self.mp (Prod.mk.inj (Prod.mk.inj hwire).2).2.symm
  have hlt : text.length < 2 ^ 32 := hshort (0, .string text) List.mem_cons_self
  omega

/-- A block with such a text is not what a read of its id gives. -/
theorem long_text_is_lost :
    Reached oneParts (fun _ _ => True) oneGraph
      (Call.blocks oneGraph (fun _ => none) (.addBlock (oneSub (List.replicate (2 ^ 32) 120) [])))
      (Call.after oneGraph (.addBlock (oneSub (List.replicate (2 ^ 32) 120) []))) ∧
    ¬ Transparent
      (Call.blocks oneGraph (fun _ => none) (.addBlock (oneSub (List.replicate (2 ^ 32) 120) [])))
      (Call.after oneGraph (.addBlock (oneSub (List.replicate (2 ^ 32) 120) []))) :=
  not_transparent_of_long List.length_replicate

end BlockManager

end RailwayDB
