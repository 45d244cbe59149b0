/-
The running size of a block.

A block counts its bytes as edges come and go.  The data of an edge is counted when its
first direction comes in, and `removeNewestEdge` should take it off when the last one
goes out.  It does so only after it has looked for the other direction in the list of
the other end.  A vertex with no list in the block is not looked at, and then the data
stays in the count although it has left the block.  An edge from a vertex to itself
finds itself.
-/
import RailwayDB.Core.AttributeData
import RailwayDB.Core.Timestamp
import RailwayDB.Proofs.BlockFill

namespace RailwayDB

variable {T D : Type} [LinearOrder T]

/-! ### Counting from scratch -/

namespace Block

/-- The directed edges of a block, each with its data. -/
def edgeList (block : Block T D) : List (Directed T × SharedPtr D) :=
  block.neigs.entries.flatMap fun entry =>
    entry.2.edges.map fun e => (e.directed entry.1, e.data)

/-- The edges of a block, whichever of their directions it holds. -/
def undirectedEdges (block : Block T D) : Finset (Sym2 VertexId × T) :=
  (block.edgeList.map fun x => x.1.undirected).toFinset

/-- The bytes the data of an edge takes. -/
def edgeDataSize [SerializedSize D] (block : Block T D) (u : Sym2 VertexId × T) : Nat :=
  ((block.edgeList.find? fun x => x.1.undirected = u).map
    fun x => getSerializedSizeOf x.2.val).getD 0

/-- Eight bytes, twelve for each list, sixteen for each directed edge, and the data of each edge
once. -/
def measuredSize [SerializedSize D] (block : Block T D) : Nat :=
  8 + 12 * block.neigs.keys.length + 16 * edgeTotal block.neigs
    + ∑ u ∈ block.undirectedEdges, block.edgeDataSize u

variable {block block' : Block T D} {h w : VertexId} {e : NLEdge T D}

theorem mem_edgeList {T : Type} {block : Block T D} {d : SharedPtr D} {t : T} :
    (((h, w, t) : Directed T), d) ∈ block.edgeList ↔ ⟨w, t, d⟩ ∈ block.neigs.edges h := by
  unfold edgeList
  rw [List.mem_flatMap]
  refine ⟨?_, ?_⟩
  · intro hx
    obtain ⟨⟨v, nl⟩, hentry, hx⟩ := hx
    obtain ⟨x, hx, heq⟩ := List.mem_map.mp hx
    obtain ⟨hdir, hd⟩ := Prod.mk.inj heq
    obtain ⟨hv, hrest⟩ := Prod.mk.inj hdir
    obtain ⟨hw, ht⟩ := Prod.mk.inj hrest
    have hv : v = h := hv
    rw [hv] at hentry
    rw [NeighborListMap.edges_of_lookup (AList.mem_lookup_iff.mpr hentry), ← hw, ← ht, ← hd]
    exact hx
  · intro hx
    cases hl : block.neigs.lookup h with
    | none =>
        rw [NeighborListMap.edges_of_notMem (AList.lookup_eq_none.mp hl)] at hx
        simp at hx
    | some nl =>
        rw [NeighborListMap.edges_of_lookup hl] at hx
        exact ⟨⟨h, nl⟩, AList.mem_lookup_iff.mp hl, List.mem_map.mpr ⟨_, hx, rfl⟩⟩

theorem mem_undirectedEdges {u : Sym2 VertexId × T} :
    u ∈ block.undirectedEdges ↔
      ∃ v, ∃ x ∈ block.neigs.edges v, (x.directed v).undirected = u := by
  unfold undirectedEdges
  rw [List.mem_toFinset, List.mem_map]
  refine ⟨?_, ?_⟩
  · intro hx
    obtain ⟨⟨⟨v, w, t⟩, d⟩, hx, hu⟩ := hx
    exact ⟨v, _, mem_edgeList.mp hx, hu⟩
  · intro hx
    obtain ⟨v, x, hx, hu⟩ := hx
    exact ⟨_, mem_edgeList.mpr hx, hu⟩

/-- What a block is given in any sensible use: lists in time order, no directed edge twice, and
one data object for the two directions of an edge. -/
structure Tidy (block : Block T D) : Prop where
  lists : ListsOK block.neigs
  sorted : ∀ w, (block.neigs.edges w).Pairwise fun x y => x.time ≤ y.time
  once : ∀ w, (block.neigs.edges w).Pairwise fun x y =>
    ¬ (x.toVertex = y.toVertex ∧ x.time = y.time)
  shared : ∀ w, ∀ x ∈ block.neigs.edges w, ∀ y ∈ block.neigs.edges x.toVertex,
    y.toVertex = w → y.time = x.time → y.data = x.data

theorem Tidy.new : Tidy (Block.new : Block T D) := by
  refine ⟨ListsOK.empty, fun w => ?_, fun w => ?_, ?_⟩
  · exact List.Pairwise.nil
  · exact List.Pairwise.nil
  · intro w x hx
    exact absurd hx List.not_mem_nil

/-- Within a list, end and time name an edge. -/
theorem Tidy.eq_of_same (hb : Tidy block) {x y : NLEdge T D} (hx : x ∈ block.neigs.edges w)
    (hy : y ∈ block.neigs.edges w) (hto : x.toVertex = y.toVertex) (ht : x.time = y.time) :
    x = y := by
  by_contra hne
  have hsymm : Std.Symm fun x y : NLEdge T D =>
      ¬ (x.toVertex = y.toVertex ∧ x.time = y.time) :=
    ⟨fun _ _ hxy hc => hxy ⟨hc.1.symm, hc.2.symm⟩⟩
  exact (hb.once w).forall hx hy hne ⟨hto, ht⟩

/-- The data of the edge is that of either direction. -/
theorem Tidy.data_eq (hb : Tidy block) {v : VertexId} {x y : NLEdge T D}
    (hx : x ∈ block.neigs.edges w) (hy : y ∈ block.neigs.edges v)
    (hsame : (y.directed v).undirected = (x.directed w).undirected) : y.data = x.data := by
  rcases Directed.undirected_eq_iff.mp hsame with heq | heq
  · obtain ⟨hv, hrest⟩ := Prod.mk.inj heq
    obtain ⟨hto, ht⟩ := Prod.mk.inj hrest
    rw [hv] at hy
    rw [hb.eq_of_same hy hx hto ht]
  · obtain ⟨hv, hrest⟩ := Prod.mk.inj heq
    obtain ⟨hto, ht⟩ := Prod.mk.inj hrest
    have hv : v = x.toVertex := hv
    rw [hv] at hy
    exact hb.shared w x hx y hy hto ht

theorem Tidy.edgeDataSize_eq [SerializedSize D] (hb : Tidy block) {x : NLEdge T D}
    (hx : x ∈ block.neigs.edges w) :
    block.edgeDataSize (x.directed w).undirected = getSerializedSizeOf x.data.val := by
  unfold edgeDataSize
  cases hf : block.edgeList.find? fun y => y.1.undirected = (x.directed w).undirected with
  | none =>
      have hnone := List.find?_eq_none.mp hf _ (mem_edgeList.mpr hx)
      exact absurd (decide_eq_true rfl) hnone
  | some y =>
      obtain ⟨⟨v, w', t⟩, d⟩ := y
      have hmem := mem_edgeList.mp (List.mem_of_find?_eq_some hf)
      have hfound := List.find?_some hf
      have hsame := of_decide_eq_true hfound
      have hd : d = x.data := hb.data_eq (y := ⟨w', t, d⟩) hx hmem hsame
      rw [hd]
      rfl

/-! ### One edge more -/

/-- `block'` is `block` with one edge more behind the list of `h`. -/
structure Grown (block : Block T D) (h : VertexId) (e : NLEdge T D) (block' : Block T D) : Prop where
  edges : ∀ w, block'.neigs.edges w
    = if w = h then block.neigs.edges h ++ [e] else block.neigs.edges w
  heads : block'.neigs.keys.length
    = block.neigs.keys.length + if h ∈ block.neigs then 0 else 1
  total : edgeTotal block'.neigs = edgeTotal block.neigs + 1

theorem Grown.mem {T : Type} {block block' : Block T D} {e : NLEdge T D}
    (hg : Grown block h e block') {x : NLEdge T D} :
    x ∈ block'.neigs.edges w ↔ x ∈ block.neigs.edges w ∨ w = h ∧ x = e := by
  rw [hg.edges]
  by_cases hw : w = h
  · simp [hw]
  · simp [hw]

theorem Grown.undirectedEdges (hg : Grown block h e block') :
    block'.undirectedEdges = insert (e.directed h).undirected block.undirectedEdges := by
  ext u
  rw [Finset.mem_insert, mem_undirectedEdges, mem_undirectedEdges]
  refine ⟨?_, ?_⟩
  · intro hx
    obtain ⟨v, x, hx, hu⟩ := hx
    rcases hg.mem.mp hx with hx | ⟨rfl, rfl⟩
    · exact Or.inr ⟨v, x, hx, hu⟩
    · exact Or.inl hu.symm
  · intro hx
    rcases hx with rfl | ⟨v, x, hx, hu⟩
    · exact ⟨h, e, hg.mem.mpr (Or.inr ⟨rfl, rfl⟩), rfl⟩
    · exact ⟨v, x, hg.mem.mpr (Or.inl hx), hu⟩

/-- The other direction of an edge stands in a block. -/
def HasReverse (block : Block T D) (h : VertexId) (e : NLEdge T D) : Prop :=
  ∃ x ∈ block.neigs.edges e.toVertex, x.toVertex = h ∧ x.time = e.time

instance : Decidable (HasReverse block h e) :=
  inferInstanceAs (Decidable (∃ x ∈ block.neigs.edges e.toVertex, x.toVertex = h ∧ x.time = e.time))

/-- A new edge is an edge the block knows only if its other direction is there. -/
theorem Grown.mem_undirectedEdges_iff (hg : Grown block h e block') (hb : Tidy block') :
    (e.directed h).undirected ∈ block.undirectedEdges ↔ HasReverse block h e := by
  rw [mem_undirectedEdges]
  refine ⟨?_, ?_⟩
  · intro hx
    obtain ⟨v, x, hx, hu⟩ := hx
    rcases Directed.undirected_eq_iff.mp hu with heq | heq
    · obtain ⟨hv, hrest⟩ := Prod.mk.inj heq
      have hv : v = h := hv
      rw [hv] at hx
      have honce := hb.once h
      rw [hg.edges, if_pos rfl, List.pairwise_append] at honce
      exact absurd (Prod.mk.inj hrest) (honce.2.2 x hx e List.mem_cons_self)
    · obtain ⟨hv, hrest⟩ := Prod.mk.inj heq
      have hv : v = e.toVertex := hv
      rw [hv] at hx
      exact ⟨x, hx, Prod.mk.inj hrest⟩
  · intro hx
    obtain ⟨x, hx, hto, ht⟩ := hx
    refine ⟨e.toVertex, x, hx, Directed.undirected_eq_iff.mpr (Or.inr ?_)⟩
    unfold NLEdge.directed Directed.rev
    rw [hto, ht]

variable [SerializedSize D]

/-- What one edge adds to the size, counted from scratch. -/
theorem Grown.measuredSize (hg : Grown block h e block') (hb : Tidy block) (hb' : Tidy block') :
    block'.measuredSize = block.measuredSize + 16 + (if h ∈ block.neigs then 0 else 12)
      + if HasReverse block h e then 0 else getSerializedSizeOf e.data.val := by
  have hold : ∑ u ∈ block.undirectedEdges, block'.edgeDataSize u
      = ∑ u ∈ block.undirectedEdges, block.edgeDataSize u := by
    refine Finset.sum_congr rfl ?_
    intro u hu
    obtain ⟨v, x, hx, rfl⟩ := mem_undirectedEdges.mp hu
    rw [hb.edgeDataSize_eq hx, hb'.edgeDataSize_eq (hg.mem.mpr (Or.inl hx))]
  have hnew : block'.edgeDataSize (e.directed h).undirected = getSerializedSizeOf e.data.val :=
    hb'.edgeDataSize_eq (hg.mem.mpr (Or.inr ⟨rfl, rfl⟩))
  have hdata : ∑ u ∈ block'.undirectedEdges, block'.edgeDataSize u
      = (∑ u ∈ block.undirectedEdges, block.edgeDataSize u)
        + if HasReverse block h e then 0 else getSerializedSizeOf e.data.val := by
    rw [hg.undirectedEdges]
    by_cases hrev : HasReverse block h e
    · rw [Finset.insert_eq_of_mem ((hg.mem_undirectedEdges_iff hb').mpr hrev), hold, if_pos hrev,
        Nat.add_zero]
    · rw [Finset.sum_insert fun hc => hrev ((hg.mem_undirectedEdges_iff hb').mp hc), hold, hnew,
        if_neg hrev, Nat.add_comm]
  unfold Block.measuredSize
  rw [hg.heads, hg.total, hdata]
  split_ifs <;> omega

/-! ### Adding an edge -/

/-- What the search finds is the other direction of the edge. -/
theorem Tidy.sharedData_eq_none_iff {D : Type} {block : Block T D} {e : NLEdge T D}
    (hb : Tidy block) :
    block.sharedData h e.toVertex e.time = none ↔ ¬ HasReverse block h e := by
  unfold sharedData HasReverse
  cases hl : block.neigs.lookup e.toVertex with
  | none =>
      rw [NeighborListMap.edges_of_notMem (AList.lookup_eq_none.mp hl)]
      simp
  | some nl =>
      have hedges := NeighborListMap.edges_of_lookup hl
      have hsorted := hb.sorted e.toVertex
      rw [hedges] at hsorted
      rw [Option.bind_some, NeighborList.getEdgeAttributeData_eq_none_iff hsorted, hedges]

/-- An edge may be added behind the list of its head: it is no older than the list, not there yet,
and comes with the data of its other direction. -/
structure Addable (block : Block T D) (h : VertexId) (e : NLEdge T D) : Prop where
  newest : ∀ x ∈ block.neigs.edges h, x.time ≤ e.time
  new : ∀ x ∈ block.neigs.edges h, ¬ (x.toVertex = e.toVertex ∧ x.time = e.time)
  shared : ∀ x ∈ block.neigs.edges e.toVertex, x.toVertex = h → x.time = e.time → x.data = e.data

theorem Grown.tidy {D : Type} {block block' : Block T D} {e : NLEdge T D}
    (hg : Grown block h e block') (hb : Tidy block) (ha : Addable block h e)
    (hlists : ListsOK block'.neigs) : Tidy block' := by
  refine ⟨hlists, ?_, ?_, ?_⟩
  · intro w
    rw [hg.edges]
    by_cases hw : w = h
    · rw [if_pos hw, List.pairwise_append]
      refine ⟨hb.sorted h, List.pairwise_singleton _ _, ?_⟩
      intro x hx y hy
      rw [List.mem_singleton.mp hy]
      exact ha.newest x hx
    · rw [if_neg hw]
      exact hb.sorted w
  · intro w
    rw [hg.edges]
    by_cases hw : w = h
    · rw [if_pos hw, List.pairwise_append]
      refine ⟨hb.once h, List.pairwise_singleton _ _, ?_⟩
      intro x hx y hy
      rw [List.mem_singleton.mp hy]
      exact ha.new x hx
    · rw [if_neg hw]
      exact hb.once w
  · intro w x hx y hy hto ht
    rcases hg.mem.mp hx with hx | ⟨rfl, rfl⟩
    · rcases hg.mem.mp hy with hy | ⟨hw, rfl⟩
      · exact hb.shared w x hx y hy hto ht
      · -- the old edge is the other direction of the new one
        rw [← hto] at hx
        exact (ha.shared x hx hw ht.symm).symm
    · rcases hg.mem.mp hy with hy | ⟨-, rfl⟩
      · exact ha.shared y hy hto ht
      · rfl

/-- Adding an edge counts it as a count from scratch does. -/
theorem Tidy.addEdge (hb : Tidy block) (ha : Addable block h e) :
    ∃ block', block.addEdge h e.toVertex e.time e.data = .ok block' ∧ Tidy block' ∧
      Grown block h e block' ∧ block'.serializedSize = block.serializedSize + 16
        + (if h ∈ block.neigs then 0 else 12)
        + if HasReverse block h e then 0 else getSerializedSizeOf e.data.val := by
  have hshared : ∀ d ∈ block.sharedData h e.toVertex e.time, d = e.data := by
    intro d hd
    unfold sharedData at hd
    obtain ⟨nl, hl, hd⟩ := Option.bind_eq_some_iff.mp hd
    obtain ⟨x, hx, hto, ht, hxd⟩ := NeighborList.getEdgeAttributeData_eq_some hd
    rw [← NeighborListMap.edges_of_lookup hl] at hx
    rw [← hxd]
    exact ha.shared x hx hto ht
  have hgrown : ∀ size, Grown block h e
      { block with neigs := block.neigs.addEdge h e, serializedSize := size } := by
    intro size
    refine ⟨fun w => NeighborListMap.edges_addEdge _ _ _ _, ?_, ?_⟩
    · exact NeighborListMap.length_keys_insert _ _ _
    · have htotal := edgeTotal_insert_add block.neigs h ⟨h, block.neigs.edges h ++ [e]⟩
      simp only [List.length_append, List.length_singleton] at htotal
      show edgeTotal (block.neigs.insert h ⟨h, block.neigs.edges h ++ [e]⟩) = _
      omega
  refine ⟨_, addEdge_eq hshared, (hgrown _).tidy hb ha (hb.lists.addEdge h e), hgrown _, ?_⟩
  by_cases hrev : HasReverse block h e
  · have hsome : block.sharedData h e.toVertex e.time ≠ none := by
      rw [ne_eq, hb.sharedData_eq_none_iff, not_not]
      exact hrev
    simp only [hsome, if_false, hrev, if_true]
    omega
  · simp only [hb.sharedData_eq_none_iff.mpr hrev, if_true, hrev, if_false]
    omega

/-! ### Taking the newest edge back -/

/-- The newest edge of a head, in front of the others. -/
theorem Tidy.newest_of_mem {D : Type} {block : Block T D} (hb : Tidy block) (hh : h ∈ block.neigs) :
    ∃ l e, block.neigs.edges h = l ++ [e] := by
  have hne := (hb.lists.mem_iff h).mp hh
  exact ⟨_, _, (List.dropLast_append_getLast hne).symm⟩

/-- Taking the newest edge back undoes one edge, whatever becomes of the count. -/
theorem Tidy.removeNewestEdge (hb : Tidy block) {l : List (NLEdge T D)}
    (hl : block.neigs.edges h = l ++ [e]) :
    ∃ block', block.removeNewestEdge h = .ok block' ∧ Tidy block' ∧ Grown block' h e block ∧
      block'.serializedSize = block.serializedSize - block.removedData h e - 16
        - if h ∈ block'.neigs then 0 else 12 := by
  have hmem : h ∈ block.neigs := (hb.lists.mem_iff h).mpr (by rw [hl]; simp)
  have hedges := NeighborListMap.edges_setList block.neigs h (l := l)
  have hhead := NeighborListMap.mem_setList hb.lists h l
  have hsub : ∀ w, ((block.neigs.setList h l).edges w).Sublist (block.neigs.edges w) := by
    intro w
    rw [hedges]
    by_cases hw : w = h
    · rw [if_pos hw, hw, hl]
      exact List.sublist_append_left _ _
    · rw [if_neg hw]
  refine ⟨_, removeNewestEdge_eq hb.lists hl,
    ⟨NeighborListMap.setList_listsOK hb.lists h l, ?_, ?_, ?_⟩, ⟨?_, ?_, ?_⟩, ?_⟩
  · intro w
    exact (hb.sorted w).sublist (hsub w)
  · intro w
    exact (hb.once w).sublist (hsub w)
  · intro w x hx y hy
    exact hb.shared w x ((hsub w).mem hx) y ((hsub _).mem hy)
  · intro w
    rw [hedges, hedges]
    by_cases hw : w = h
    · rw [if_pos hw, if_pos rfl, hw, hl]
    · rw [if_neg hw, if_neg hw]
  · rw [NeighborListMap.length_keys_setList hmem l]
    simp only [hhead]
    cases l.isEmpty with
    | true => rfl
    | false => rfl
  · have htotal := NeighborListMap.edgeTotal_setList block.neigs h l
    rw [hl, List.length_append, List.length_singleton] at htotal
    show edgeTotal block.neigs = edgeTotal (block.neigs.setList h l) + 1
    omega
  · simp only [hhead]
    cases l.isEmpty with
    | true => rfl
    | false => rfl

/-- The other direction of an edge that is taken back stands in the list of another head. -/
theorem HasReverse.other {D : Type} {block block' : Block T D} {e : NLEdge T D}
    (hrev : HasReverse block' h e) (hb : Tidy block) (hg : Grown block' h e block) :
    e.toVertex ∈ block.neigs ∧ e.toVertex ≠ h := by
  obtain ⟨x, hx, hto, ht⟩ := hrev
  have hself : e.toVertex ≠ h := by
    intro hself
    have honce := hb.once h
    rw [hg.edges, if_pos rfl, List.pairwise_append] at honce
    rw [hself] at hx
    exact honce.2.2 x hx e List.mem_cons_self ⟨hto.trans hself.symm, ht⟩
  refine ⟨(hb.lists.mem_iff _).mpr ?_, hself⟩
  exact List.ne_nil_of_mem (hg.mem.mpr (Or.inl hx))

/-- The data is taken off the count when the other end is another head, and has no other direction
of the edge. -/
theorem Tidy.removedData_eq (hb : Tidy block) (hg : Grown block' h e block) :
    block.removedData h e
      = if (e.toVertex ∈ block.neigs ∧ e.toVertex ≠ h) ∧ ¬ HasReverse block' h e then
          getSerializedSizeOf e.data.val else 0 := by
  unfold removedData
  by_cases hlist : e.toVertex ∈ block.neigs
  · rw [hb.lists.lookup_eq ((hb.lists.mem_iff _).mp hlist)]
    have hnone := NeighborList.getEdgeAttributeData_eq_none_iff
      (l := ⟨e.toVertex, block.neigs.edges e.toVertex⟩) (w := h) (t := e.time)
      (hb.sorted e.toVertex)
    simp only [Option.isNone_iff_eq_none, hnone]
    congr 1
    rw [eq_iff_iff]
    refine ⟨?_, ?_⟩
    · intro hno
      refine ⟨⟨hlist, ?_⟩, ?_⟩
      · -- an edge from a vertex to itself finds itself
        intro hself
        refine hno ⟨e, ?_, hself, rfl⟩
        exact hg.mem.mpr (Or.inr ⟨hself, rfl⟩)
      · intro hrev
        obtain ⟨x, hx, hend⟩ := hrev
        exact hno ⟨x, hg.mem.mpr (Or.inl hx), hend⟩
    · intro hcase hrev
      obtain ⟨⟨-, hself⟩, hno⟩ := hcase
      obtain ⟨x, hx, hend⟩ := hrev
      rcases hg.mem.mp hx with hx | ⟨hc, -⟩
      · exact hno ⟨x, hx, hend⟩
      · exact hself hc
  · rw [AList.lookup_eq_none.mpr hlist, if_neg fun hc => hlist hc.1.1]

/-! ### Runs -/

/-- A call that fills a block. -/
inductive FillCall (T D : Type) where
  | addEdge (headVertex toVertex : VertexId) (tm : T) (data : SharedPtr D)
  | removeNewestEdge (headVertex : VertexId)

/-- The block after a call. -/
def fill (block : Block T D) : FillCall T D → Except Fault (Block T D)
  | .addEdge headVertex toVertex tm data => block.addEdge headVertex toVertex tm data
  | .removeNewestEdge headVertex => block.removeNewestEdge headVertex

/-- The block after one call after another. -/
def fillAll (block : Block T D) (calls : List (FillCall T D)) : Except Fault (Block T D) :=
  calls.foldlM fill block

/-- The calls of the filling code: an edge that can stand behind the list of its head, or a head
that has a list. -/
def Permits (block : Block T D) : FillCall T D → Prop
  | .addEdge headVertex toVertex tm data => Addable block headVertex ⟨toVertex, tm, data⟩
  | .removeNewestEdge headVertex => headVertex ∈ block.neigs

/-- An edge that is taken back has data of no bytes, or its other end has a list in the block. -/
def Releases (block : Block T D) : FillCall T D → Prop
  | .addEdge _ _ _ _ => True
  | .removeNewestEdge headVertex => ∀ e ∈ (block.neigs.edges headVertex).getLast?,
      (e.toVertex ∈ block.neigs ∧ e.toVertex ≠ headVertex) ∨ getSerializedSizeOf e.data.val = 0

/-- One call on a block whose size is right: it stays right exactly when the data is released. -/
theorem Tidy.fill (hb : Tidy block) {call : FillCall T D} (hcall : block.Permits call) :
    ∃ block', block.fill call = .ok block' ∧ Tidy block' ∧
      (block.serializedSize = block.measuredSize →
        (block'.serializedSize = block'.measuredSize ↔ block.Releases call)) := by
  cases call with
  | addEdge h w tm data =>
      obtain ⟨block', hadd, hb', hg, hsize⟩ := hb.addEdge hcall
      refine ⟨block', hadd, hb', ?_⟩
      intro hexact
      refine iff_of_true ?_ trivial
      rw [hsize, hexact, hg.measuredSize hb hb']
  | removeNewestEdge h =>
      obtain ⟨l, e, hl⟩ := hb.newest_of_mem hcall
      obtain ⟨block', hremove, hb', hg, hsize⟩ := hb.removeNewestEdge hl
      refine ⟨block', hremove, hb', ?_⟩
      intro hexact
      have hmeasure := hg.measuredSize hb' hb
      have hremoved := hb.removedData_eq hg
      have hother : HasReverse block' h e → e.toVertex ∈ block.neigs ∧ e.toVertex ≠ h :=
        fun hrev => hrev.other hb hg
      have hiff : block'.serializedSize = block'.measuredSize ↔
          (e.toVertex ∈ block.neigs ∧ e.toVertex ≠ h) ∨ getSerializedSizeOf e.data.val = 0 := by
        rw [hsize, hexact]
        by_cases hrev : HasReverse block' h e
        · rw [if_pos hrev] at hmeasure
          rw [if_neg fun hc => hc.2 hrev] at hremoved
          refine iff_of_true ?_ (Or.inl (hother hrev))
          omega
        · rw [if_neg hrev] at hmeasure
          by_cases hcase : e.toVertex ∈ block.neigs ∧ e.toVertex ≠ h
          · rw [if_pos ⟨hcase, hrev⟩] at hremoved
            refine iff_of_true ?_ (Or.inl hcase)
            omega
          · rw [if_neg fun hc => hcase hc.1] at hremoved
            rw [or_iff_right hcase]
            omega
      rw [hiff]
      unfold Releases
      simp only [hl, List.getLast?_concat, Option.mem_some_iff, forall_eq']

/-- The calls of a run are permitted where they are made. -/
def PermittedRun (calls : List (FillCall T D)) : Prop :=
  ∀ before call after block, calls = before ++ call :: after →
    Block.new.fillAll before = .ok block → block.Permits call

/-- After every call the running size is the one counted from scratch, and taking back an edge that
was just added leaves the size and the lists as they were. -/
structure SizeExact (calls : List (FillCall T D)) : Prop where
  exact : ∀ before after, calls = before ++ after →
    ∃ block, Block.new.fillAll before = .ok block ∧ block.serializedSize = block.measuredSize
  undone : ∀ before h w tm data after block block',
    calls = before ++ .addEdge h w tm data :: .removeNewestEdge h :: after →
    Block.new.fillAll before = .ok block →
    Block.new.fillAll (before ++ [.addEdge h w tm data, .removeNewestEdge h]) = .ok block' →
    block'.serializedSize = block.serializedSize ∧
      ∀ v, block'.neigs.edges v = block.neigs.edges v

theorem PermittedRun.tidy {calls : List (FillCall T D)} (hcalls : PermittedRun calls)
    {before after : List (FillCall T D)} (hsplit : calls = before ++ after) :
    ∃ block, Block.new.fillAll before = .ok block ∧ Tidy block := by
  refine Except.foldlM_along (P := Tidy) (A := Permits) ?_ Tidy.new hcalls hsplit
  intro block call hb hcall
  obtain ⟨block', hfill, hb', -⟩ := hb.fill hcall
  exact ⟨block', hfill, hb'⟩

theorem fillAll_append (block : Block T D) (before after : List (FillCall T D)) :
    block.fillAll (before ++ after)
      = (block.fillAll before).bind fun block' => block'.fillAll after :=
  List.foldlM_append

/-- An edge that was added and taken back leaves the lists and their measure as they were. -/
theorem Tidy.add_remove (hb : Tidy block) (ha : Addable block h e) {block₁ block₂ : Block T D}
    (hadd : block.addEdge h e.toVertex e.time e.data = .ok block₁)
    (hremove : block₁.removeNewestEdge h = .ok block₂) :
    block₂.measuredSize = block.measuredSize ∧
      ∀ v, block₂.neigs.edges v = block.neigs.edges v := by
  obtain ⟨block₁', hadd', hb₁, hg, -⟩ := hb.addEdge ha
  rw [hadd, Except.ok.injEq] at hadd'
  rw [← hadd'] at hb₁ hg
  have hl : block₁.neigs.edges h = block.neigs.edges h ++ [e] := by
    rw [hg.edges, if_pos rfl]
  obtain ⟨block₂', hremove', hb₂, hg₂, -⟩ := hb₁.removeNewestEdge hl
  rw [hremove, Except.ok.injEq] at hremove'
  rw [← hremove'] at hb₂ hg₂
  have hedges : ∀ v, block₂.neigs.edges v = block.neigs.edges v := by
    intro v
    have hv := hg₂.edges v
    rw [hg.edges] at hv
    by_cases hvh : v = h
    · rw [if_pos hvh, if_pos hvh] at hv
      rw [hvh]
      exact (List.append_cancel_right hv).symm
    · rw [if_neg hvh, if_neg hvh] at hv
      exact hv.symm
  refine ⟨?_, hedges⟩
  have hsize := hg.measuredSize hb hb₁
  rw [hg₂.measuredSize hb₂ hb₁] at hsize
  have hhead : h ∈ block₂.neigs ↔ h ∈ block.neigs := by
    rw [hb₂.lists.mem_iff, hb.lists.mem_iff, hedges]
  have hrev : HasReverse block₂ h e ↔ HasReverse block h e := by
    unfold HasReverse
    rw [hedges]
  simp only [hhead, hrev] at hsize
  omega

/-- Along a permitted run the running size is right, and removing undoes adding, if and only if
every edge that is taken back releases its data: its other end is another head of the block, or
the data takes no bytes. -/
theorem serializedSize_exact_iff {calls : List (FillCall T D)} (hcalls : PermittedRun calls) :
    SizeExact calls ↔ ∀ before call after block, calls = before ++ call :: after →
      Block.new.fillAll before = .ok block → block.Releases call := by
  refine ⟨?_, ?_⟩
  · intro hexact before call after block heq hrun
    obtain ⟨block₁, hrun₁, hb⟩ := hcalls.tidy heq
    rw [hrun, Except.ok.injEq] at hrun₁
    rw [← hrun₁] at hb
    obtain ⟨block', hfill, -, hiff⟩ := hb.fill (hcalls before call after block heq hrun)
    obtain ⟨block₂, hrun₂, hsize₂⟩ := hexact.exact before _ heq
    rw [hrun, Except.ok.injEq] at hrun₂
    obtain ⟨block₃, hrun₃, hsize₃⟩ := hexact.exact (before ++ [call]) after (by
      rw [heq, List.append_assoc]
      rfl)
    have hlast : block'.fillAll [] = .ok block₃ := by
      rw [fillAll_append, hrun] at hrun₃
      have hcons : (block.fill call).bind (fun b => b.fillAll []) = .ok block₃ := hrun₃
      rw [hfill] at hcons
      exact hcons
    rw [← Except.ok.inj hlast] at hsize₃
    rw [← hrun₂] at hsize₂
    exact (hiff hsize₂).mp hsize₃
  · intro hreleases
    have hrun : ∀ before after, calls = before ++ after → ∃ block,
        Block.new.fillAll before = .ok block ∧ Tidy block ∧
          block.serializedSize = block.measuredSize := by
      intro before after heq
      refine Except.foldlM_along
        (P := fun block => Tidy block ∧ block.serializedSize = block.measuredSize)
        (A := fun block call => block.Permits call ∧ block.Releases call) ?_
        ⟨Tidy.new, rfl⟩ ?_ heq
      · intro block call hb hcall
        obtain ⟨block', hfill, hb', hiff⟩ := hb.1.fill hcall.1
        exact ⟨block', hfill, hb', (hiff hb.2).mpr hcall.2⟩
      · intro before' call after' block heq' hrun
        exact ⟨hcalls before' call after' block heq' hrun,
          hreleases before' call after' block heq' hrun⟩
    refine ⟨?_, ?_⟩
    · intro before after heq
      obtain ⟨block, hfill, -, hsize⟩ := hrun before after heq
      exact ⟨block, hfill, hsize⟩
    · intro before h w tm data after block block' heq hbefore hafter
      obtain ⟨block₁, hrun₁, hb, hsize⟩ := hrun before _ heq
      rw [hbefore, Except.ok.injEq] at hrun₁
      rw [← hrun₁] at hb hsize
      obtain ⟨block₂, hrun₂, -, hsize₂⟩ := hrun
        (before ++ [.addEdge h w tm data, .removeNewestEdge h]) after (by
          rw [heq, List.append_assoc]
          rfl)
      rw [hafter, Except.ok.injEq] at hrun₂
      rw [← hrun₂] at hsize₂
      have ha : Addable block h ⟨w, tm, data⟩ := hcalls before _ _ block heq hbefore
      rw [fillAll_append, hbefore] at hafter
      have htwo : (block.addEdge h w tm data).bind (fun b => b.removeNewestEdge h)
          = .ok block' := by
        have hcons : (block.addEdge h w tm data).bind (fun b =>
            (b.removeNewestEdge h).bind fun b' => .ok b') = .ok block' := hafter
        rw [← hcons]
        congr 1
        funext b
        cases b.removeNewestEdge h with
        | error _ => rfl
        | ok _ => rfl
      obtain ⟨b, hadd, hremove⟩ := Except.bind_eq_ok.mp htwo
      obtain ⟨hmeasure, hedges⟩ := hb.add_remove ha hadd hremove
      exact ⟨by rw [hsize₂, hmeasure, hsize], hedges⟩

/-! ### One edge, added and taken back -/

section Example

instance [DecidableEq D] (block : Block T D) (h : VertexId) (e : NLEdge T D) :
    Decidable (Addable block h e) :=
  decidable_of_iff
    ((∀ x ∈ block.neigs.edges h, x.time ≤ e.time) ∧
      (∀ x ∈ block.neigs.edges h, ¬ (x.toVertex = e.toVertex ∧ x.time = e.time)) ∧
      ∀ x ∈ block.neigs.edges e.toVertex, x.toVertex = h → x.time = e.time → x.data = e.data)
    ⟨fun ha => ⟨ha.1, ha.2.1, ha.2.2⟩, fun ha => ⟨ha.newest, ha.new, ha.shared⟩⟩

instance [DecidableEq D] (block : Block T D) (call : FillCall T D) :
    Decidable (block.Permits call) :=
  match call with
  | .addEdge h w tm data => inferInstanceAs (Decidable (Addable block h ⟨w, tm, data⟩))
  | .removeNewestEdge h => inferInstanceAs (Decidable (h ∈ block.neigs))

instance (block : Block T D) (call : FillCall T D) : Decidable (block.Releases call) :=
  match call with
  | .addEdge _ _ _ _ => inferInstanceAs (Decidable True)
  | .removeNewestEdge h => inferInstanceAs (Decidable (∀ e ∈ (block.neigs.edges h).getLast?,
      (e.toVertex ∈ block.neigs ∧ e.toVertex ≠ h) ∨ getSerializedSizeOf e.data.val = 0))

/-- A text of three bytes as the data of an edge. -/
def wordData : SharedPtr (AttributeData ⟨[⟨[116], .string⟩]⟩) :=
  ⟨0, (AttributeData.new _).assign 0 (.string [1, 2, 3])⟩

/-- The edge between 1 and 2 from either end; what came in last is taken back. -/
def bothEnds : List (FillCall Time (AttributeData ⟨[⟨[116], .string⟩]⟩)) :=
  [.addEdge 1 2 (Time.ofFloat 1.0) wordData, .addEdge 2 1 (Time.ofFloat 1.0) wordData,
    .removeNewestEdge 2]

theorem serializedSize_exact_bothEnds : PermittedRun bothEnds ∧ SizeExact bothEnds := by
  have hcalls : PermittedRun bothEnds := Except.allowed_of_check (by decide +kernel)
  exact ⟨hcalls, (serializedSize_exact_iff hcalls).mpr (Except.allowed_of_check (by decide +kernel))⟩

/-- The edge from 1, added and taken back: 2 has no list, and the seven bytes of the data stay. -/
theorem serializedSize_keeps_data :
    PermittedRun [.addEdge 1 2 (Time.ofFloat 1.0) wordData, .removeNewestEdge 1] ∧
      ¬ SizeExact [.addEdge 1 2 (Time.ofFloat 1.0) wordData, .removeNewestEdge 1] := by
  refine ⟨Except.allowed_of_check (by decide +kernel), ?_⟩
  intro hexact
  obtain ⟨block, hrun, hsize⟩ := hexact.exact _ [] (List.append_nil _).symm
  have heval : (Block.new.fillAll [.addEdge 1 2 (Time.ofFloat 1.0) wordData,
      .removeNewestEdge 1]).toOption.map (fun block => (block.serializedSize, block.measuredSize))
      = some (15, 8) := by
    decide +kernel
  rw [hrun] at heval
  obtain ⟨hrunning, hmeasured⟩ := Prod.mk.inj (Option.some.inj heval)
  rw [hrunning, hmeasured] at hsize
  omega

end Example

end Block

end RailwayDB
