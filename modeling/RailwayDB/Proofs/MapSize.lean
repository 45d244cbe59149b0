/-
The size of the expiration map.

`addEdge` puts two directed edges into the map and, when it is over its size then,
writes one block.  One block has to make up for what was added: when the map is one
over, an edge must leave it, when it is two over, two.  The plain layouts take the edges
in the order of the queue, and what they keep is decided by the first two.  A smart
layout always writes an edge, and two when each of its seeds can be extended.

Nothing sees to it that this is so.  With data too large for a block every block is
empty, and the map grows by two with each call.
-/
import RailwayDB.Proofs.Flush
import RailwayDB.Proofs.FormedBlocks

namespace RailwayDB

/-- The edges of a map, counted list by list. -/
theorem edgeTotal_eq_sum {T D : Type} (m : NeighborListMap T D) :
    edgeTotal m = ∑ w ∈ vertices, (m.edges w).length := by
  have hlists : (m.entries.map fun entry => entry.2.edges.length)
      = m.keys.map fun w => (m.edges w).length := by
    unfold AList.keys List.keys
    rw [List.map_map]
    refine List.map_congr_left ?_
    rintro ⟨w, nl⟩ hentry
    rw [Function.comp_apply, NeighborListMap.edges_of_lookup (AList.mem_lookup_iff.mpr hentry)]
  unfold edgeTotal
  rw [hlists, ← List.sum_toFinset _ (AList.keys_nodup m)]
  refine Finset.sum_subset (fun w _ => mem_vertices w) ?_
  intro w _ hw
  rw [List.mem_toFinset, ← AList.mem_keys] at hw
  rw [NeighborListMap.edges_of_notMem hw, List.length_nil]

namespace ExpirationMap

variable {T S D : Type} [LinearOrder T] [LinearOrder S] [Score S] [TimeScore T S] [SerializedSize D]
  {es : List (GraphEdge T D)} {m m' : ExpirationMap T S D} {n : VertexId → Nat}
  {block : Block T D}

/-! ### What a block takes away -/

/-- The edges of the block and those that stay are the edges there were. -/
theorem Splits.size_eq {D : Type} {es : List (GraphEdge T D)} {m m' : ExpirationMap T S D}
    {block : Block T D} (hsplit : Splits m block m') (hm : Sound es m) (hm' : Sound es m') :
    edgeTotal block.neigs + m'.size = m.size := by
  rw [hm.size, hm'.size, edgeTotal_eq_sum, edgeTotal_eq_sum, edgeTotal_eq_sum,
    ← Finset.sum_add_distrib]
  refine Finset.sum_congr rfl ?_
  intro w _
  rw [← hsplit w, List.length_append]

/-- A block that was cut takes as many edges away as were chosen for it. -/
theorem writeBlock_size (ω : Oracle S) (hm : Sound es m) {m₁ : ExpirationMap T S D}
    (hblock : m.cutBlock ω = .ok (block, m₁)) (hcut : Cut m n block m₁) :
    ∃ m', m.writeBlock ω = .ok (block, m') ∧ Sound es m' ∧ m'.conf = m.conf ∧
      (included m.neigLists.edges n).card + m'.size = m.size := by
  obtain ⟨m', hwrite, hm', hconf, hsplit, -⟩ := writeBlock_of_cut ω hm hblock hcut
  refine ⟨m', hwrite, hm', hconf, ?_⟩
  rw [← hcut.taken.edgeTotal_eq hm.suffixes]
  exact hsplit.size_eq hm hm'

/-! ### The first two edges of a plain block -/

/-- The bytes of a block with the edge `e` of `h` and the edge `e'` of `h'`.  They may share their
list, and they share their data when they are the two directions of one edge. -/
def pairBytes (h : VertexId) (e : NLEdge T D) (h' : VertexId) (e' : NLEdge T D) : Nat :=
  36 + getSerializedSizeOf e.data.val + 16 + (if h' = h then 0 else 12)
    + if (e'.directed h').rev = e.directed h then 0 else getSerializedSizeOf e'.data.val

/-- The two edges the plain layouts take first fit a block together. -/
def FirstTwoFit (ω : Oracle S) (m : ExpirationMap T S D) : Prop :=
  ∀ item e m₁ item' e', m.scoreQueue.getTopItem = .ok item →
    (m.neigLists.edges item.2)[0]? = some e → m.requeue ω item.2 1 = .ok m₁ →
    m₁.scoreQueue.getTopItem = .ok item' →
    (m.neigLists.edges item'.2)[if item'.2 = item.2 then 1 else 0]? = some e' →
    pairBytes item.2 e item'.2 e' ≤ m.conf.blockSize

/-- There is a second edge to take when there are two. -/
theorem Fills.isEmpty_eq_false {S : Type} [LinearOrder S] {m : ExpirationMap T S D}
    {f : Filling T S D} {h : VertexId} (hf : Fills es m (Function.update (fun _ => 0) h 1) f)
    (htwo : 2 ≤ edgeTotal m.neigLists) :
    f.map.scoreQueue.isEmpty = false := by
  rw [Bool.eq_false_iff]
  intro hempty
  have hone : edgeTotal m.neigLists = 1 := by
    rw [edgeTotal_eq_sum]
    calc ∑ w ∈ vertices, (m.neigLists.edges w).length
        = ∑ w ∈ vertices, Function.update (fun _ => 0) h 1 w := by
          refine Finset.sum_congr rfl ?_
          intro w _
          exact ((hf.queue w).mp (PriorityQueue.isEmpty_iff.mp hempty w)).symm
      _ = 1 := by
          rw [Finset.sum_eq_single_of_mem h (mem_vertices h), Function.update_self]
          intro w _ hw
          rw [Function.update_of_ne hw]
  omega

/-- The block keeps the first two edges of the queue when they fit together. -/
theorem getBlock_firstTwo (hm : ListsFrom es m) (hq : Queued m) (ω : Oracle S)
    (htwo : 2 ≤ edgeTotal m.neigLists) (hfits : FirstTwoFit ω m) :
    ∃ block m' n, m.getBlock ω = .ok (block, m') ∧ Cut m n block m' ∧
      2 ≤ (included m.neigLists.edges n).card := by
  have hfull : ∃ w, m.neigLists.edges w ≠ [] := by
    by_contra hnone
    have hzero : edgeTotal m.neigLists = 0 := by
      refine edgeTotal_eq_zero ?_
      intro w
      by_contra hw
      exact hnone ⟨w, hw⟩
    omega
  obtain ⟨f, item, e, hstep, htop, -, hrequeue, he, hf, hsize, hcard⟩ :=
    fillStep_first hm hq ω hfull
  obtain ⟨f', item', hstep', htop', hhead', -, hlen, hf'⟩ :=
    fillStep_ok hm ω hf (hf.isEmpty_eq_false htwo)
  rw [hhead'] at hlen hf'
  obtain ⟨e', he'⟩ : ∃ e', (m.neigLists.edges item'.2)[Function.update (fun _ => 0) item.2 1
      item'.2]? = some e' := ⟨_, List.getElem?_eq_getElem hlen⟩
  have hincluded : included m.neigLists.edges (Function.update (fun _ => 0) item.2 1)
      = {e.directed item.2} := by
    have hstart := included_update (n := fun _ => 0) he
    rw [included_zero] at hstart
    exact hstart
  have hnext : Function.update (fun _ => 0) item.2 1 item'.2
      = if item'.2 = item.2 then 1 else 0 := by
    rw [Function.update_apply]
  have hpair := hfits item e f.map item' _ htop he hrequeue htop' (by rw [← hnext]; exact he')
  have hsize' : selectionSize es m.neigLists.edges (Function.update
      (Function.update (fun _ => 0) item.2 1) item'.2
      (Function.update (fun _ => 0) item.2 1 item'.2 + 1)) ≤ m.conf.blockSize := by
    rw [selectionSize_update hm.suffixes he', hsize, hincluded, hnext]
    unfold pairBytes at hpair
    by_cases hsame : item'.2 = item.2
    · rw [if_pos hsame] at hpair ⊢
      rw [if_neg (by omega)]
      simp only [Finset.mem_singleton]
      exact hpair
    · rw [if_neg hsame] at hpair ⊢
      rw [if_pos rfl]
      simp only [Finset.mem_singleton]
      exact hpair
  have hcard' := card_included_update hm.suffixes hlen
  unfold pairBytes at hpair
  have hroom : selectionSize es m.neigLists.edges (Function.update (fun _ => 0) item.2 1)
      < m.conf.blockSize := by
    rw [hsize]
    omega
  have hloop : fillLoop ω (edgeTotal m.neigLists + 1) ⟨m, Block.new, ∅, 0⟩
      = fillLoop ω (edgeTotal m.neigLists - 1) f' := by
    rw [fillLoop_succ ω _ (Fills.start es hq) (hq.isEmpty_eq_false hfull)
      (by rw [selectionSize_zero]; omega) hstep]
    obtain ⟨fuel, hfuel⟩ : ∃ fuel, edgeTotal m.neigLists = fuel + 1 :=
      ⟨edgeTotal m.neigLists - 1, by omega⟩
    rw [hfuel, Nat.add_sub_cancel]
    exact fillLoop_succ ω fuel hf (hf.isEmpty_eq_false htwo) hroom hstep'
  obtain ⟨block, m', n, hblock, hcut, -, hkept⟩ :=
    getBlock_from hm ω hf' hloop (by omega) hsize'
  exact ⟨block, m', n, hblock, hcut, by omega⟩

/-! ### One call -/

/-- The map with the edge in it, when `addEdge` asks whether it is full. -/
def withEdge (ω : Oracle S) (m : ExpirationMap T S D) (e : GraphEdge T D) :
    Except Fault (ExpirationMap T S D) := do
  let m ← m.push ω 4 e.firstVertex ⟨e.secondVertex, e.time, e.data⟩
  let m ← m.push ω 5 e.secondVertex ⟨e.firstVertex, e.time, e.data⟩
  return { m with size := m.size + 2 }

/-- A call writes a block when the map with the edge is over its size. -/
theorem addEdge_eq (ω : Oracle S) (m : ExpirationMap T S D) (e : GraphEdge T D) :
    m.addEdge ω e.toUEdge e.data = m.withEdge ω e >>= fun m =>
      if m.maxSize < m.size then (m.writeBlock ω).map fun r => (some r.1, r.2)
      else .ok (none, m) := by
  unfold addEdge withEdge GraphEdge.toUEdge
  simp only [bind_assoc, pure_bind]
  rfl

theorem push_size {T D : Type} [TimeScore T S] {m m' : ExpirationMap T S D} {ω : Oracle S}
    {place : Nat} {v : VertexId} {e : NLEdge T D} (hpush : m.push ω place v e = .ok m') :
    m'.size = m.size := by
  unfold push rescore at hpush
  obtain ⟨s, -, rfl⟩ := Except.map_eq_ok.mp hpush
  rfl

theorem withEdge_ok {D : Type} {es : List (GraphEdge T D)} {m : ExpirationMap T S D} (ω : Oracle S)
    (hm : Sound es m) {e : GraphEdge T D} (hes : History (es ++ [e])) :
    ∃ m', m.withEdge ω e = .ok m' ∧ Sound (es ++ [e]) m' ∧ m'.conf = m.conf ∧
      m'.size = m.size + 2 := by
  obtain ⟨m₁, m₂, hpush₁, hpush₂, hconf, hm', -⟩ := pushes_ok ω hm hes
  refine ⟨_, ?_, hm', hconf, ?_⟩
  · unfold withEdge
    rw [hpush₁, Except.ok_bind, hpush₂, Except.ok_bind]
    rfl
  · show m₂.size + 2 = m.size + 2
    rw [push_size hpush₂, push_size hpush₁]

/-- The block that is cut from a map over its size takes as many edges as there are too many.  A
smart layout needs a seed, and when the map is two over, seeds that can be extended. -/
def MakesRoom (ω : Oracle S) (m : ExpirationMap T S D) : Prop :=
  if m.conf.layoutMode = .smart then
    m.conf.initialCandidateCount ≠ 0 ∧
      (m.size = m.maxSize + 2 → ∀ v ∈ m.seedHeads, ∀ c,
        m.trySetEdgeCount Candidate.new v 1 = .ok c → Extendable m c)
  else if m.size = m.maxSize + 1 then FirstFits m else FirstTwoFit ω m

/-- A choice from the lists has an edge when it takes something from a list. -/
theorem card_included_pos {D : Type} {es : List (GraphEdge T D)} {m : ExpirationMap T S D}
    (hm : Sound es m) (hn : ∀ w, n w ≤ (m.neigLists.edges w).length) (hpos : ∃ h, n h ≠ 0) :
    1 ≤ (included m.neigLists.edges n).card := by
  obtain ⟨h, hh⟩ := hpos
  have hlt := card_included_lt (n := Function.update n h 0) hm.suffixes (h := h) (k := n h)
    (by rw [Function.update_self]; omega) (hn h)
  rw [Function.update_idem, Function.update_eq_self] at hlt
  omega

/-- The choice that is cut is as large as it has to be. -/
theorem MakesRoom.cutBlock_ok {ω : Oracle S} (hroom : MakesRoom ω m) (hm : Sound es m)
    (hover : m.maxSize < m.size) (hle : m.size ≤ m.maxSize + 2) :
    ∃ block m' n, m.cutBlock ω = .ok (block, m') ∧ Cut m n block m' ∧
      m.size ≤ m.maxSize + (included m.neigLists.edges n).card := by
  have hfull := hm.exists_edges (by omega)
  unfold MakesRoom at hroom
  by_cases hmode : m.conf.layoutMode = .smart
  · rw [if_pos hmode] at hroom
    obtain ⟨block, n, hblock, hf, ⟨hpos, -⟩, htwo⟩ :=
      getBlockSmart_ok hm.toListsFrom hm.queued ω hroom.1 hfull
    refine ⟨block, m, n, ?_, ⟨rfl, rfl, rfl, hf.toTaken, fun w _ => hm.queued w,
      fun w _ => Or.inl rfl⟩, ?_⟩
    · unfold cutBlock
      simp only [hmode, hblock, Except.ok_map]
    · have hcard : 1 ≤ (included m.neigLists.edges n).card := card_included_pos hm hf.within hpos
      by_cases htop : m.size = m.maxSize + 2
      · have hmore := htwo (hroom.2 htop)
        omega
      · omega
  · rw [if_neg hmode] at hroom
    rw [cutBlock_plain ω hmode]
    by_cases hone : m.size = m.maxSize + 1
    · rw [if_pos hone] at hroom
      obtain ⟨block, m', n, hblock, hcut, -, hcard⟩ :=
        getBlock_first hm.toListsFrom hm.queued ω hfull hroom
      exact ⟨block, m', n, hblock, hcut, by omega⟩
    · rw [if_neg hone] at hroom
      have hsize := hm.size
      obtain ⟨block, m', n, hblock, hcut, hcard⟩ :=
        getBlock_firstTwo hm.toListsFrom hm.queued ω (by omega) hroom
      exact ⟨block, m', n, hblock, hcut, by omega⟩

/-- A call that finds room keeps the map within its size. -/
theorem addEdge_size_le (ω : Oracle S) (hm : Sound es m) {e : GraphEdge T D}
    (hes : History (es ++ [e])) (hle : m.size ≤ m.maxSize)
    (hroom : ∀ m₁, m.withEdge ω e = .ok m₁ → m₁.maxSize < m₁.size → MakesRoom ω m₁) :
    ∃ block m', m.addEdge ω e.toUEdge e.data = .ok (block, m') ∧ Sound (es ++ [e]) m' ∧
      m'.conf = m.conf ∧ m'.size ≤ m'.maxSize := by
  obtain ⟨m₁, hwith, hm₁, hconf, hsize⟩ := withEdge_ok ω hm hes
  have hmax : m₁.maxSize = m.maxSize := by
    unfold maxSize
    rw [hconf]
  rw [addEdge_eq, hwith]
  by_cases hover : m₁.maxSize < m₁.size
  · obtain ⟨block, m₂, n, hblock, hcut, hcard⟩ :=
      (hroom m₁ hwith hover).cutBlock_ok hm₁ hover (by omega)
    obtain ⟨m', hwrite, hm', hconf', htotal⟩ := writeBlock_size ω hm₁ hblock hcut
    have hmax' : m'.maxSize = m₁.maxSize := by
      unfold maxSize
      rw [hconf']
    refine ⟨some block, m', ?_, hm', hconf'.trans hconf, by omega⟩
    rw [Except.ok_bind, if_pos hover, hwrite, Except.ok_map]
  · refine ⟨none, m₁, ?_, hm₁, hconf, by omega⟩
    rw [Except.ok_bind, if_neg hover]

/-! ### A run of calls -/

variable {conf : Conf} {calls : List (GraphEdge T D × Oracle S)}

theorem addEdges_append (m : ExpirationMap T S D) (calls : List (GraphEdge T D × Oracle S))
    (call : GraphEdge T D × Oracle S) :
    m.addEdges (calls ++ [call]) = m.addEdges calls >>= fun m =>
      (m.addEdge call.2 call.1.toUEdge call.1.data).map Prod.snd := by
  unfold addEdges
  rw [List.foldlM_append]
  simp only [List.foldlM_cons, List.foldlM_nil, bind_pure]

/-- Whenever a call of the run finds the map over its size, the block it writes makes room. -/
def RoomAlong (conf : Conf) (calls : List (GraphEdge T D × Oracle S)) : Prop :=
  ∀ i call m m₁, calls[i]? = some call → (new conf).addEdges (calls.take i) = .ok m →
    m.withEdge call.2 call.1 = .ok m₁ → m₁.maxSize < m₁.size → MakesRoom call.2 m₁

theorem addEdges_room (hes : History (calls.map Prod.fst)) (hroom : RoomAlong conf calls)
    (i : Nat) :
    ∃ m, (new conf).addEdges (calls.take i) = .ok m ∧ Sound ((calls.take i).map Prod.fst) m ∧
      m.conf = conf ∧ m.size ≤ m.maxSize := by
  induction i with
  | zero => exact ⟨new conf, rfl, Sound.new conf, rfl, Nat.zero_le _⟩
  | succ i ih =>
      obtain ⟨m, hrun, hm, hconf, hle⟩ := ih
      rw [List.take_add_one]
      cases hcall : calls[i]? with
      | none =>
          rw [Option.toList_none, List.append_nil]
          exact ⟨m, hrun, hm, hconf, hle⟩
      | some call =>
          have hnext : calls.take i ++ [call] = calls.take (i + 1) := by
            rw [List.take_add_one, hcall]
            rfl
          have hes' : History ((calls.take i).map Prod.fst ++ [call.1]) := by
            rw [← List.take_append_drop (i + 1) calls, List.map_append, ← hnext,
              List.map_append] at hes
            exact hes.left
          obtain ⟨block, m', hadd, hm', hconf', hle'⟩ := addEdge_size_le call.2 hm hes' hle
            fun m₁ => hroom i call m m₁ hcall hrun
          refine ⟨m', ?_, ?_, hconf'.trans hconf, hle'⟩
          · rw [Option.toList_some, addEdges_append, hrun, Except.ok_bind, hadd, Except.ok_map]
          · rw [Option.toList_some, List.map_append]
            exact hm'

/-- In a run whose blocks make room, the map is within its size after each call. -/
theorem addEdges_within_maxSize (hes : History (calls.map Prod.fst))
    (hroom : RoomAlong conf calls) (i : Nat) :
    ∃ m, (new conf).addEdges (calls.take i) = .ok m ∧ m.size ≤ 2 * conf.expirationMapSize := by
  obtain ⟨m, hrun, -, hconf, hle⟩ := addEdges_room hes hroom i
  refine ⟨m, hrun, ?_⟩
  rw [← hconf]
  exact hle

/-! ### Data that fits and data that does not -/

/-- The data of an edge in the map was given with an edge. -/
theorem Sound.exists_data {D : Type} {es : List (GraphEdge T D)} {m : ExpirationMap T S D}
    (hm : Sound es m) {w : VertexId} {x : NLEdge T D} (hx : x ∈ m.neigLists.edges w) :
    ∃ e ∈ es, x.data = e.data := by
  obtain ⟨e, he, hat⟩ := mem_incident.mp (hm.suffixes.mem hx)
  exact ⟨e, he, (GraphEdge.at?_time hat).2⟩

/-- When any two edges fit a block, every block makes room. -/
theorem makesRoom_of_small (ω : Oracle S) (hm : Sound es m) (hmode : m.conf.layoutMode ≠ .smart)
    (hsmall : ∀ e ∈ es, ∀ e' ∈ es, 64 + getSerializedSizeOf e.data.val
      + getSerializedSizeOf e'.data.val ≤ m.conf.blockSize) : MakesRoom ω m := by
  unfold MakesRoom
  rw [if_neg hmode]
  split_ifs with hone
  · intro item x _ hx
    obtain ⟨e, he, hdata⟩ := hm.exists_data (List.mem_of_getElem? hx)
    have hroom := hsmall e he e he
    rw [hdata]
    omega
  · intro item x m₁ item' x' _ hx _ _ hx'
    obtain ⟨e, he, hdata⟩ := hm.exists_data (List.mem_of_getElem? hx)
    obtain ⟨e', he', hdata'⟩ := hm.exists_data (List.mem_of_getElem? hx')
    have hroom := hsmall e he e' he'
    unfold pairBytes
    rw [hdata, hdata']
    split_ifs <;> omega

theorem roomAlong_of_small (hes : History (calls.map Prod.fst))
    (hmode : conf.layoutMode ≠ .smart)
    (hsmall : ∀ e ∈ calls.map Prod.fst, ∀ e' ∈ calls.map Prod.fst,
      64 + getSerializedSizeOf e.data.val + getSerializedSizeOf e'.data.val ≤ conf.blockSize) :
    RoomAlong conf calls := by
  intro i call m m₁ hcall hrun hwith _
  have hnext : (calls.take i).map Prod.fst ++ [call.1] = (calls.take (i + 1)).map Prod.fst := by
    rw [List.take_add_one, hcall, List.map_append]
    rfl
  have hes' : History ((calls.take (i + 1)).map Prod.fst) := by
    rw [← List.take_append_drop (i + 1) calls, List.map_append] at hes
    exact hes.left
  rw [← hnext] at hes'
  obtain ⟨hm, hconf⟩ := (reached_addEdges hes'.left hrun).sound
  obtain ⟨m₂, hwith', hm₂, hconf', -⟩ := withEdge_ok call.2 hm hes'
  rw [hwith, Except.ok.injEq] at hwith'
  rw [← hwith'] at hm₂ hconf'
  have hmem : ∀ e ∈ (calls.take i).map Prod.fst ++ [call.1], e ∈ calls.map Prod.fst := by
    intro e he
    rw [hnext] at he
    exact List.map_subset _ (List.take_subset _ _) he
  refine makesRoom_of_small call.2 hm₂ ?_ ?_
  · rw [hconf', hconf]
    exact hmode
  · intro e he e' he'
    rw [hconf', hconf]
    exact hsmall e (hmem e he) e' (hmem e' he')

/-- When no edge fits a block of a plain layout, nothing leaves the map. -/
theorem addEdge_grows (ω : Oracle S) (hm : Sound es m) {e : GraphEdge T D}
    (hes : History (es ++ [e])) (hmode : m.conf.layoutMode ≠ .smart) (hid : 8 ≤ m.conf.blockSize)
    (hlarge : ∀ e' ∈ es ++ [e], m.conf.blockSize < 36 + getSerializedSizeOf e'.data.val) :
    ∃ block m', m.addEdge ω e.toUEdge e.data = .ok (block, m') ∧ Sound (es ++ [e]) m' ∧
      m'.conf = m.conf ∧ m'.size = m.size + 2 := by
  obtain ⟨m₁, hwith, hm₁, hconf, hsize⟩ := withEdge_ok ω hm hes
  rw [addEdge_eq, hwith, Except.ok_bind]
  by_cases hover : m₁.maxSize < m₁.size
  · have husable : Usable m₁.conf := by
      unfold Usable
      rw [hconf, if_neg hmode]
      exact hid
    obtain ⟨block, m', hwrite, hm', hconf', hsplit, -, hfits⟩ :=
      writeBlock_ok ω hm₁ husable fun _ => by omega
    -- an edge of the block would fit
    have hempty : ∀ w, block.neigs.edges w = [] := by
      intro w
      rw [List.eq_nil_iff_forall_not_mem]
      intro x hx
      have hmem : x ∈ m₁.neigLists.edges w := by
        rw [← hsplit w]
        exact List.mem_append_left _ hx
      obtain ⟨e', he', hdata⟩ := hm₁.exists_data hmem
      have hfit := hfits (by rw [hconf]; exact hmode) w x hx
      have hbig := hlarge e' he'
      rw [hdata, hconf] at hfit
      omega
    have htotal := hsplit.size_eq hm₁ hm'
    rw [edgeTotal_eq_zero hempty] at htotal
    refine ⟨some block, m', ?_, hm', hconf'.trans hconf, by omega⟩
    rw [if_pos hover, hwrite, Except.ok_map]
  · rw [if_neg hover]
    exact ⟨none, m₁, rfl, hm₁, hconf, hsize⟩

/-- Such a run leaves every edge in the map. -/
theorem addEdges_grow (hes : History (calls.map Prod.fst)) (hmode : conf.layoutMode ≠ .smart)
    (hid : 8 ≤ conf.blockSize)
    (hlarge : ∀ e ∈ calls.map Prod.fst, conf.blockSize < 36 + getSerializedSizeOf e.data.val) :
    ∃ m, (new conf).addEdges calls = .ok m ∧ Sound (calls.map Prod.fst) m ∧ m.conf = conf ∧
      m.size = 2 * calls.length := by
  induction calls using List.reverseRecOn with
  | nil => exact ⟨new conf, rfl, Sound.new conf, rfl, rfl⟩
  | append_singleton calls call ih =>
      rw [List.map_append] at hes hlarge
      obtain ⟨m, hrun, hm, hconf, hsize⟩ :=
        ih hes.left fun e he => hlarge e (List.mem_append_left _ he)
      obtain ⟨block, m', hadd, hm', hconf', hsize'⟩ := addEdge_grows call.2 hm hes
        (by rw [hconf]; exact hmode) (by rw [hconf]; exact hid) (by rw [hconf]; exact hlarge)
      refine ⟨m', ?_, ?_, hconf'.trans hconf, ?_⟩
      · rw [addEdges_append, hrun, Except.ok_bind, hadd, Except.ok_map]
      · rw [List.map_append]
        exact hm'
      · rw [List.length_append, List.length_singleton]
        omega

/-! ### Ten thousand edges -/

section Examples

/-- An edge from 1 to 2 whose data is a text of so many bytes; the times are those just above 1. -/
def stampedEdge (bytes i : Nat) : GraphEdge Time (AttributeData textSchema) :=
  ⟨1, 2, Time.ofDouble (Double.ofBits (BitVec.ofNat 64 (0x3ff0000000000000 + i))),
    ⟨i, (textEdge bytes).data.val⟩⟩

def stampedCalls (bytes count : Nat) :
    List (GraphEdge Time (AttributeData textSchema) × Oracle ℚ) :=
  (List.range count).map fun i => (stampedEdge bytes i, Oracle.plain)

theorem stampedEdge_time_lt {bytes i j : Nat} (hlt : i < j) (hj : j < 2 ^ 52) :
    (stampedEdge bytes i).time < (stampedEdge bytes j).time := by
  show Binary64.rank _ < Binary64.rank _
  unfold stampedEdge
  rw [Time.rank_ofBits (by unfold Binary64.infMagnitude; omega),
    Time.rank_ofBits (by unfold Binary64.infMagnitude; omega)]
  omega

theorem stampedCalls_history (bytes : Nat) {count : Nat} (hcount : count ≤ 2 ^ 52) :
    History ((stampedCalls bytes count).map Prod.fst) := by
  unfold stampedCalls
  rw [List.map_map]
  refine ⟨List.pairwise_map.mpr (List.pairwise_lt_range.imp_of_mem ?_), ?_⟩
  · intro i j _ hj hlt
    exact stampedEdge_time_lt hlt ((List.mem_range.mp hj).trans_le hcount)
  · intro e he
    obtain ⟨i, -, rfl⟩ := List.mem_map.mp he
    show (1 : VertexId) ≠ 2
    decide

theorem stampedCalls_bytes {bytes count : Nat} {e : GraphEdge Time (AttributeData textSchema)}
    (he : e ∈ (stampedCalls bytes count).map Prod.fst) :
    getSerializedSizeOf e.data.val = 4 + bytes := by
  unfold stampedCalls at he
  rw [List.map_map] at he
  obtain ⟨i, -, rfl⟩ := List.mem_map.mp he
  show 4 + (List.replicate bytes 0).length + 0 = 4 + bytes
  rw [List.length_replicate, Nat.add_zero]

/-- With room for two edges in a block the map stays within its size, 20970. -/
theorem addEdges_within_maxSize_stamped :
    ∃ m : ExpirationMap Time ℚ (AttributeData textSchema),
      (new { oldConf with blockSize := 1024 }).addEdges (stampedCalls 100 10486) = .ok m ∧
      m.size ≤ 20970 := by
  have hes := stampedCalls_history 100 (show 10486 ≤ 2 ^ 52 by decide)
  have hroom : RoomAlong { oldConf with blockSize := 1024 } (stampedCalls 100 10486) := by
    refine roomAlong_of_small hes (by decide) ?_
    intro e he e' he'
    rw [stampedCalls_bytes he, stampedCalls_bytes he']
    decide
  obtain ⟨m, hrun, hle⟩ := addEdges_within_maxSize hes hroom 10486
  rw [List.take_of_length_le (by simp [stampedCalls])] at hrun
  exact ⟨m, hrun, hle⟩

/-- Blocks of 64 bytes hold none of these edges, and the map outgrows its size. -/
theorem addEdges_outgrows_maxSize :
    ∃ m : ExpirationMap Time ℚ (AttributeData textSchema),
      History ((stampedCalls 100 10486).map Prod.fst) ∧
      (new oldConf).addEdges (stampedCalls 100 10486) = .ok m ∧
      2 * oldConf.expirationMapSize < m.size := by
  have hes := stampedCalls_history 100 (show 10486 ≤ 2 ^ 52 by decide)
  obtain ⟨m, hrun, -, -, hsize⟩ := addEdges_grow hes (by decide)
    (show 8 ≤ oldConf.blockSize by decide) (by
      intro e he
      rw [stampedCalls_bytes he]
      decide)
  refine ⟨m, hes, hrun, ?_⟩
  rw [hsize, stampedCalls, List.length_map, List.length_range]
  decide

end Examples

end ExpirationMap

end RailwayDB
