/-
The plain layouts fill a block from the top of the queue.

Each turn of the loop takes the next edge of one list, so the block stays a choice of
prefixes and the queue holds the lists that have edges left.  The loop ends because
it cannot take more edges than there are.  When the last edge was too much it is
taken back; the choice before it was below the block size, which is why one edge is
enough.
-/
import RailwayDB.Proofs.SmartLayout

namespace RailwayDB

namespace ExpirationMap

variable {T S D : Type} [LinearOrder T] [LinearOrder S] [Score S] [TimeScore T S]

/-! ### Scores -/

theorem score_ok {T : Type} [TimeScore T S] (ω : Oracle S) (m : ExpirationMap T S D) (place : Nat)
    {v : VertexId} {i : Nat} (hi : i < (m.neigLists.edges v).length) :
    ∃ s, m.score ω place v i = .ok s := by
  have hedge := Candidate.getNthOldestEdge_ok (w := v) (List.getElem?_eq_getElem hi)
  unfold score listOf
  cases getHeadVertexScorer m.conf with
  | min => exact ⟨_, rfl⟩
  | max => exact ⟨_, rfl⟩
  | old =>
      simp only [hedge]
      exact ⟨_, rfl⟩
  | new =>
      simp only [hedge]
      exact ⟨_, rfl⟩
  | rand => exact ⟨_, rfl⟩

/-- A score is read off the configuration and the list alone. -/
theorem score_congr {T : Type} [TimeScore T S] {m m' : ExpirationMap T S D} {v : VertexId}
    (hconf : m'.conf = m.conf) (hedges : m'.neigLists.edges v = m.neigLists.edges v) (ω : Oracle S)
    (place i : Nat) :
    m'.score ω place v i = m.score ω place v i := by
  unfold score listOf
  rw [hconf, hedges]

/-- A vertex is given a place in the queue, by its score. -/
theorem rescore_ok {T : Type} [TimeScore T S] (ω : Oracle S) (m : ExpirationMap T S D) (place : Nat)
    {v : VertexId} {i : Nat} (hi : i < (m.neigLists.edges v).length) :
    ∃ (q : PriorityQueue S VertexId) (s : S),
      m.rescore ω place v i = .ok { m with scoreQueue := q } ∧ m.score ω place v i = .ok s ∧
      ∀ w, q.index.lookup w = if w = v then some s else m.scoreQueue.index.lookup w := by
  obtain ⟨s, hs⟩ := score_ok ω m place hi
  refine ⟨m.scoreQueue.updateItem s v, s, ?_, hs, ?_⟩
  · unfold rescore
    rw [hs, Except.ok_map]
  · intro w
    exact PriorityQueue.lookup_updateItem _ _ _ _

/-! ### One turn of the loop -/

variable [SerializedSize D] {es : List (GraphEdge T D)} {m : ExpirationMap T S D}
  {n : VertexId → Nat} {f : Filling T S D}

/-- What holds while the block is filled; `n` counts the edges taken from each list. -/
structure Fills (es : List (GraphEdge T D)) (m : ExpirationMap T S D) (n : VertexId → Nat)
    (f : Filling T S D) : Prop where
  lists : f.map.neigLists = m.neigLists
  conf : f.map.conf = m.conf
  count : f.map.size = m.size
  filled : Filled es m.neigLists.edges n f.block
  taken : ∀ w, (f.nTaken.lookup w).getD 0 = n w
  queue : ∀ w, f.map.scoreQueue.index.lookup w = none ↔ n w = (m.neigLists.edges w).length
  kept : ∀ w, n w = 0 → f.map.scoreQueue.index.lookup w = m.scoreQueue.index.lookup w

theorem Fills.start {S : Type} [LinearOrder S] {m : ExpirationMap T S D} (es : List (GraphEdge T D))
    (hq : Queued m) :
    Fills es m (fun _ => 0) ⟨m, Block.new, ∅, 0⟩ := by
  refine ⟨rfl, rfl, rfl, Filled.new, fun w => rfl, ?_, fun w _ => rfl⟩
  intro w
  rw [hq w, ← List.length_eq_zero_iff, eq_comm]

/-- The map once `i` edges of `h` are taken: `h` is queued by its next edge, if there is one. -/
def requeue (ω : Oracle S) (m : ExpirationMap T S D) (h : VertexId) (i : Nat) :
    Except Fault (ExpirationMap T S D) :=
  if i = (m.listOf h).edges.length then
    .ok { m with scoreQueue := m.scoreQueue.removeItem h }
  else m.rescore ω 1 h i

/-- A turn takes the next edge of the head at the top of the queue. -/
theorem fillStep_ok (hm : ListsFrom es m) (ω : Oracle S) (hf : Fills es m n f)
    (hq : f.map.scoreQueue.isEmpty = false) :
    ∃ f' item, fillStep ω f = .ok f' ∧ f.map.scoreQueue.getTopItem = .ok item ∧
      f'.headVertex = item.2 ∧ f.map.requeue ω item.2 (n item.2 + 1) = .ok f'.map ∧
      n f'.headVertex < (m.neigLists.edges f'.headVertex).length ∧
      Fills es m (Function.update n f'.headVertex (n f'.headVertex + 1)) f' := by
  obtain ⟨item, htop, hitem, -⟩ := PriorityQueue.getTopItem_ok hq
  have hlen : n item.2 < (m.neigLists.edges item.2).length := by
    have hle := hf.filled.within item.2
    have hne : n item.2 ≠ (m.neigLists.edges item.2).length := by
      rw [ne_eq, ← hf.queue, hitem]
      simp
    omega
  obtain ⟨e, he⟩ : ∃ e, (m.neigLists.edges item.2)[n item.2]? = some e :=
    ⟨_, List.getElem?_eq_getElem hlen⟩
  obtain ⟨block, hadd, hfilled⟩ := hf.filled.addEdge hm.suffixes he
  have htaken : ∀ w, ((f.nTaken.insert item.2 (n item.2 + 1)).lookup w).getD 0
      = Function.update n item.2 (n item.2 + 1) w := by
    intro w
    by_cases hw : w = item.2
    · rw [hw, AList.lookup_insert, Function.update_self]
      rfl
    · rw [AList.lookup_insert_ne hw, Function.update_of_ne hw]
      exact hf.taken w
  have hqueue : ∀ w ≠ item.2, f.map.scoreQueue.index.lookup w = none ↔
      Function.update n item.2 (n item.2 + 1) w = (m.neigLists.edges w).length := by
    intro w hw
    rw [Function.update_of_ne hw]
    exact hf.queue w
  have hother : ∀ w, Function.update n item.2 (n item.2 + 1) w = 0 → w ≠ item.2 ∧ n w = 0 := by
    intro w hw
    by_cases hwi : w = item.2
    · rw [hwi, Function.update_self] at hw
      omega
    · rw [Function.update_of_ne hwi] at hw
      exact ⟨hwi, hw⟩
  unfold fillStep requeue
  simp only [htop, Except.ok_bind, hf.taken, listOf, hf.lists, Candidate.getNthOldestEdge_ok he,
    hadd]
  by_cases hlast : n item.2 + 1 = (m.neigLists.edges item.2).length
  · rw [if_pos hlast]
    refine ⟨_, item, rfl, rfl, rfl, if_pos hlast, hlen, rfl, hf.conf, hf.count, hfilled, htaken,
      ?_, ?_⟩
    · intro w
      rw [PriorityQueue.lookup_removeItem]
      by_cases hw : w = item.2
      · rw [if_pos hw, hw, Function.update_self]
        exact ⟨fun _ => hlast, fun _ => rfl⟩
      · rw [if_neg hw]
        exact hqueue w hw
    · intro w hw
      obtain ⟨hne, hz⟩ := hother w hw
      rw [PriorityQueue.lookup_removeItem, if_neg hne]
      exact hf.kept w hz
  · have hnext : n item.2 + 1 < (f.map.neigLists.edges item.2).length := by
      rw [hf.lists]
      omega
    obtain ⟨q, s, hscore, -, hlookup⟩ := rescore_ok ω f.map 1 hnext
    rw [if_neg hlast, hscore, Except.ok_bind]
    refine ⟨_, item, rfl, rfl, rfl, (if_neg hlast).trans hscore, hlen, hf.lists, hf.conf, hf.count,
      hfilled, htaken, ?_, ?_⟩
    · intro w
      rw [hlookup]
      by_cases hw : w = item.2
      · rw [hw, Function.update_self]
        simp [hlast]
      · rw [← hqueue w hw, if_neg hw]
    · intro w hw
      obtain ⟨hne, hz⟩ := hother w hw
      rw [hlookup, if_neg hne]
      exact hf.kept w hz

/-! ### The loop -/

/-- The last turn started from a choice of `k` edges or more, below the block size. -/
def LastTurn (es : List (GraphEdge T D)) (m : ExpirationMap T S D) (k : Nat) (n : VertexId → Nat)
    (h : VertexId) : Prop :=
  ∃ n', n = Function.update n' h (n' h + 1) ∧ n' h < (m.neigLists.edges h).length ∧
    selectionSize es m.neigLists.edges n' < m.conf.blockSize ∧
    k ≤ (included m.neigLists.edges n').card

/-- One turn of the loop. -/
theorem fillLoop_succ (ω : Oracle S) (fuel : Nat) (hf : Fills es m n f)
    (hq : f.map.scoreQueue.isEmpty = false)
    (hroom : selectionSize es m.neigLists.edges n < m.conf.blockSize) {f' : Filling T S D}
    (hstep : fillStep ω f = .ok f') : fillLoop ω (fuel + 1) f = fillLoop ω fuel f' := by
  have hsize : f.block.getSerializedSize = selectionSize es m.neigLists.edges n := hf.filled.size
  have hcond : ¬ f.map.scoreQueue.isEmpty = true ∧
      f.block.getSerializedSize < f.map.conf.blockSize := by
    rw [hq, hf.conf, hsize]
    exact ⟨by simp, hroom⟩
  rw [fillLoop, if_pos hcond, hstep]
  rfl

theorem fillLoop_ok (hm : ListsFrom es m) (ω : Oracle S) (fuel : Nat) {k : Nat}
    (hf : Fills es m n f)
    (hfuel : edgeTotal m.neigLists < (included m.neigLists.edges n).card + fuel)
    (hk : k ≤ (included m.neigLists.edges n).card)
    (hlast : selectionSize es m.neigLists.edges n ≤ m.conf.blockSize ∨
      LastTurn es m k n f.headVertex) :
    ∃ f' n', fillLoop ω fuel f = .ok f' ∧ Fills es m n' f' ∧
      k ≤ (included m.neigLists.edges n').card ∧
      (selectionSize es m.neigLists.edges n' ≤ m.conf.blockSize ∨
        LastTurn es m k n' f'.headVertex) := by
  induction fuel generalizing n f with
  | zero =>
      have hle := card_included_le m.neigLists n
      omega
  | succ fuel ih =>
      by_cases hcond : f.map.scoreQueue.isEmpty = false ∧
          selectionSize es m.neigLists.edges n < m.conf.blockSize
      · obtain ⟨hq, hroom⟩ := hcond
        obtain ⟨f', -, hstep, -, -, -, hlen, hf'⟩ := fillStep_ok hm ω hf hq
        have hcard := card_included_update hm.suffixes hlen
        rw [fillLoop_succ ω fuel hf hq hroom hstep]
        exact ih hf' (by omega) (by omega) (Or.inr ⟨n, rfl, hlen, hroom, hk⟩)
      · refine ⟨f, n, ?_, hf, hk, hlast⟩
        have hsize : f.block.getSerializedSize = selectionSize es m.neigLists.edges n :=
          hf.filled.size
        rw [fillLoop, if_neg]
        intro hc
        rw [hf.conf, hsize, Bool.not_eq_true] at hc
        exact hcond hc

/-! ### The block -/

/-- The candidate built for the statistics trips no assertion. -/
theorem candidateOf_ok {T S D : Type} [LinearOrder T] [LinearOrder S] [SerializedSize D]
    {es : List (GraphEdge T D)} {m : ExpirationMap T S D} {n : VertexId → Nat}
    (hm : ListsFrom es m) (ω : Oracle S) {block : Block T D}
    (ht : Taken m.neigLists.edges n block) : ∃ c, candidateOf ω m block = .ok c := by
  have hstep : ∀ (v : VertexId) (_ : List VertexId) (c : Candidate T),
      (∃ n', Candidate.Chosen es m.neigLists.edges n' c) →
      ∃ c', c.setEdgeCount m.neigLists v (block.neigs.edges v).length = .ok c' ∧
        ∃ n', Candidate.Chosen es m.neigLists.edges n' c' := by
    intro v _ c hc
    obtain ⟨n', hc⟩ := hc
    have hlen : (block.neigs.edges v).length ≤ (m.neigLists.edges v).length := by
      rw [ht.edges]
      exact List.length_take_le' _ _
    obtain ⟨c', hset, hc'⟩ := Candidate.setEdgeCount_ok hm.suffixes hm.holds hc hlen
    exact ⟨c', hset, _, hc'⟩
  obtain ⟨c, hc, -⟩ := Except.foldlM_ok
    (P := fun _ c => ∃ n', Candidate.Chosen es m.neigLists.edges n' c) hstep
    (ω.order 1 0 block.neigs.keys) Candidate.new ⟨_, Candidate.Chosen.new⟩
  exact ⟨c, hc⟩

/-- The block and the map `getBlock` leaves: the lists are untouched, and the queue holds those
that are not used up.  Those nothing was taken from have the key they had or their first score. -/
structure Cut (m : ExpirationMap T S D) (n : VertexId → Nat) (block : Block T D)
    (m' : ExpirationMap T S D) : Prop where
  lists : m'.neigLists = m.neigLists
  conf : m'.conf = m.conf
  count : m'.size = m.size
  taken : Taken m.neigLists.edges n block
  queue : ∀ w, n w = 0 → (m'.scoreQueue.index.lookup w = none ↔ m.neigLists.edges w = [])
  kept : ∀ w, n w = 0 → m'.scoreQueue.index.lookup w = m.scoreQueue.index.lookup w ∨
    ∃ ω place s, m.score ω place w 0 = .ok s ∧ m'.scoreQueue.index.lookup w = some s

/-- A block below eight bytes cannot even hold its id, and there is no edge to take back. -/
theorem getBlock_small (ω : Oracle S) (hsmall : m.conf.blockSize < 8) :
    m.getBlock ω = .error (.assertFailed .blockRemoveNewestEdgeHead) := by
  have hloop : fillLoop ω (edgeTotal m.neigLists + 1) ⟨m, Block.new, ∅, 0⟩
      = .ok ⟨m, Block.new, ∅, 0⟩ := by
    unfold fillLoop
    rw [if_neg]
    intro hc
    have hroom : 8 < m.conf.blockSize := hc.2
    omega
  unfold getBlock
  rw [hloop, Except.ok_bind, show takeBack ω m.conf.blockSize ⟨m, Block.new, ∅, 0⟩ = _
    from if_pos hsmall]
  rfl

/-- Every edge of the map fits a block of its own: eight bytes, a list, the edge and its data. -/
def Fits (m : ExpirationMap T S D) : Prop :=
  ∀ w, ∀ e ∈ m.neigLists.edges w, 36 + getSerializedSizeOf e.data.val ≤ m.conf.blockSize

/-- The first edge of a choice. -/
theorem selectionSize_single {S : Type} [LinearOrder S] {m : ExpirationMap T S D}
    (hm : ListsFrom es m) {h : VertexId} {e : NLEdge T D}
    (he : (m.neigLists.edges h)[0]? = some e) :
    selectionSize es m.neigLists.edges (Function.update (fun _ => 0) h 1)
      = 36 + getSerializedSizeOf e.data.val := by
  have hstep := selectionSize_update (n := fun _ => 0) hm.suffixes he
  rw [selectionSize_zero, included_zero] at hstep
  simp only [Finset.notMem_empty, if_false, if_true] at hstep
  rw [hstep]

/-- What the end of `getBlock` makes of a block that was filled until nothing more was to be
taken. -/
theorem takeBack_ok (ω : Oracle S) {k : Nat} (hf : Fills es m n f)
    (hk : k ≤ (included m.neigLists.edges n).card)
    (hlast : selectionSize es m.neigLists.edges n ≤ m.conf.blockSize ∨
      LastTurn es m k n f.headVertex) :
    ∃ block m' n', takeBack ω m.conf.blockSize f = .ok (block, m') ∧ Cut m n' block m' ∧
      selectionSize es m.neigLists.edges n' ≤ m.conf.blockSize ∧
      k ≤ (included m.neigLists.edges n').card := by
  have hsize : f.block.getSerializedSize = selectionSize es m.neigLists.edges n := hf.filled.size
  unfold takeBack
  by_cases hover : m.conf.blockSize < f.block.getSerializedSize
  · rw [if_pos hover]
    obtain hfits | ⟨n', hn, hlen, hroom, hk'⟩ := hlast
    · omega
    · have hfilled := hf.filled
      rw [hn] at hfilled
      obtain ⟨block, hremove, htaken⟩ := hfilled.removeNewestEdge
      have hcount : (block.neigs.edges f.headVertex).length = n' f.headVertex := by
        rw [htaken.edges, List.length_take]
        omega
      obtain ⟨q, s, hrescore, hscore, hlookup⟩ := rescore_ok ω f.map 2 (v := f.headVertex)
        (i := n' f.headVertex) (by rw [hf.lists]; exact hlen)
      rw [hremove, Except.ok_bind, hcount, hrescore]
      refine ⟨block, _, n', rfl, ⟨hf.lists, hf.conf, hf.count, htaken, ?_, ?_⟩, hroom.le, hk'⟩
      · intro w hw
        rw [hlookup, ← List.length_eq_zero_iff]
        by_cases hwh : w = f.headVertex
        · rw [← hwh] at hlen
          rw [if_pos hwh]
          simp only [reduceCtorEq, false_iff]
          omega
        · rw [if_neg hwh, hf.queue, hn, Function.update_of_ne hwh, hw, eq_comm]
      · intro w hw
        by_cases hwh : w = f.headVertex
        · right
          rw [← hwh, hw, score_congr hf.conf (congrArg (·.edges w) hf.lists)] at hscore
          refine ⟨ω, 2, s, hscore, ?_⟩
          rw [hlookup, if_pos hwh]
        · left
          rw [hlookup, if_neg hwh]
          exact hf.kept w (by rw [hn, Function.update_of_ne hwh, hw])
  · rw [if_neg hover]
    refine ⟨f.block, f.map, n, rfl, ⟨hf.lists, hf.conf, hf.count, hf.filled.toTaken, ?_,
      fun w hw => Or.inl (hf.kept w hw)⟩, by omega, hk⟩
    intro w hw
    rw [hf.queue, hw, ← List.length_eq_zero_iff, eq_comm]

/-- A block that fits after some turns of the loop keeps what it has then. -/
theorem getBlock_from (hm : ListsFrom es m) (ω : Oracle S) {fuel : Nat} (hf : Fills es m n f)
    (hloop : fillLoop ω (edgeTotal m.neigLists + 1) ⟨m, Block.new, ∅, 0⟩ = fillLoop ω fuel f)
    (hfuel : edgeTotal m.neigLists < (included m.neigLists.edges n).card + fuel)
    (hfits : selectionSize es m.neigLists.edges n ≤ m.conf.blockSize) :
    ∃ block m' n', m.getBlock ω = .ok (block, m') ∧ Cut m n' block m' ∧
      selectionSize es m.neigLists.edges n' ≤ m.conf.blockSize ∧
      (included m.neigLists.edges n).card ≤ (included m.neigLists.edges n').card := by
  obtain ⟨f', n', hrun, hf', hk, hlast⟩ := fillLoop_ok hm ω fuel hf hfuel le_rfl (Or.inl hfits)
  obtain ⟨block, m', n'', htake, hcut, hrest⟩ := takeBack_ok ω hf' hk hlast
  have hm' : ListsFrom es m' := by
    refine ⟨?_, ?_⟩ <;> rw [hcut.lists]
    · exact hm.suffixes
    · exact hm.lists
  have htaken' : Taken m'.neigLists.edges n'' block := by
    rw [hcut.lists]
    exact hcut.taken
  obtain ⟨c, hc⟩ := candidateOf_ok hm' ω htaken'
  refine ⟨block, m', n'', ?_, hcut, hrest⟩
  unfold getBlock
  rw [hloop, hrun, Except.ok_bind, htake, Except.ok_bind]
  simp only [hc, Except.ok_bind]
  rfl

/-- The block fits. -/
theorem getBlock_ok (hm : ListsFrom es m) (hq : Queued m) (ω : Oracle S)
    (hid : 8 ≤ m.conf.blockSize) :
    ∃ block m' n, m.getBlock ω = .ok (block, m') ∧ Cut m n block m' ∧
      selectionSize es m.neigLists.edges n ≤ m.conf.blockSize := by
  obtain ⟨block, m', n, hblock, hcut, hfits, -⟩ := getBlock_from hm ω (Fills.start es hq) rfl
    (by omega) (by rw [selectionSize_zero]; exact hid)
  exact ⟨block, m', n, hblock, hcut, hfits⟩

/-- A queue with an edge has a first one. -/
theorem Queued.isEmpty_eq_false {T S D : Type} [LinearOrder S] {m : ExpirationMap T S D}
    (hq : Queued m) (hfull : ∃ w, m.neigLists.edges w ≠ []) :
    m.scoreQueue.isEmpty = false := by
  obtain ⟨w, hw⟩ := hfull
  rw [Bool.eq_false_iff]
  intro hempty
  exact hw ((hq w).mp (PriorityQueue.isEmpty_iff.mp hempty w))

/-- The block after the first turn of the loop. -/
theorem fillStep_first (hm : ListsFrom es m) (hq : Queued m) (ω : Oracle S)
    (hfull : ∃ w, m.neigLists.edges w ≠ []) :
    ∃ f item e, fillStep ω ⟨m, Block.new, ∅, 0⟩ = .ok f ∧ m.scoreQueue.getTopItem = .ok item ∧
      f.headVertex = item.2 ∧ m.requeue ω item.2 1 = .ok f.map ∧
      (m.neigLists.edges item.2)[0]? = some e ∧
      Fills es m (Function.update (fun _ => 0) item.2 1) f ∧
      selectionSize es m.neigLists.edges (Function.update (fun _ => 0) item.2 1)
        = 36 + getSerializedSizeOf e.data.val ∧
      (included m.neigLists.edges (Function.update (fun _ => 0) item.2 1)).card = 1 := by
  obtain ⟨f, item, hstep, htop, hhead, hrequeue, hlen, hf⟩ :=
    fillStep_ok hm ω (Fills.start es hq) (hq.isEmpty_eq_false hfull)
  rw [hhead] at hlen hf
  have he := List.getElem?_eq_getElem hlen
  have hcard := card_included_update (n := fun _ => 0) hm.suffixes hlen
  rw [included_zero] at hcard
  exact ⟨f, item, _, hstep, htop, hhead, hrequeue, he, hf, selectionSize_single hm he, hcard⟩

/-- The edge the plain layouts take first fits a block. -/
def FirstFits (m : ExpirationMap T S D) : Prop :=
  ∀ item e, m.scoreQueue.getTopItem = .ok item → (m.neigLists.edges item.2)[0]? = some e →
    36 + getSerializedSizeOf e.data.val ≤ m.conf.blockSize

/-- The block keeps the first edge of the queue when it fits. -/
theorem getBlock_first (hm : ListsFrom es m) (hq : Queued m) (ω : Oracle S)
    (hfull : ∃ w, m.neigLists.edges w ≠ []) (hfits : FirstFits m) :
    ∃ block m' n, m.getBlock ω = .ok (block, m') ∧ Cut m n block m' ∧
      selectionSize es m.neigLists.edges n ≤ m.conf.blockSize ∧
      1 ≤ (included m.neigLists.edges n).card := by
  obtain ⟨f, item, e, hstep, htop, -, -, he, hf, hsize, hcard⟩ := fillStep_first hm hq ω hfull
  have hroom := hfits item e htop he
  have hloop := fillLoop_succ ω (edgeTotal m.neigLists) (Fills.start es hq)
    (hq.isEmpty_eq_false hfull) (by rw [selectionSize_zero]; omega) hstep
  have hblock := getBlock_from hm ω hf hloop (by omega) (by rw [hsize]; exact hroom)
  rw [hcard] at hblock
  exact hblock

/-- A choice of an edge takes something from a list. -/
theorem exists_of_card_included {D : Type} {L : VertexId → List (NLEdge T D)}
    (h : 1 ≤ (included L n).card) : ∃ w, n w ≠ 0 := by
  by_contra hnone
  have hzero : n = fun _ => 0 := by
    funext w
    by_contra hw
    exact hnone ⟨w, hw⟩
  rw [hzero, included_zero] at h
  simp at h

end ExpirationMap

end RailwayDB
