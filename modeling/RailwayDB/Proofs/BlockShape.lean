/-
Blocks that are built list by list.

Splitting a block, joining it again and reading it all go through the lists of one
block and add each edge to another, with a data object that depends on the edge
alone and not on its direction.  `Built` is what holds of the block being built,
whatever the data, its running size included; `Building` adds what is still to come
of each list.  The four loops differ in where the data comes from, so each of them
needs only `Building.next` at its own step.
-/
import RailwayDB.Core.StoredBlock
import RailwayDB.Proofs.BlockFill

namespace RailwayDB

variable {T D : Type}

/-- The edge without its direction. -/
def NLEdge.triplet (e : NLEdge T D) (head : VertexId) : EdgeTriplet T :=
  EdgeTriplet.of head e.toVertex e.time

theorem EdgeTriplet.of_eq_of {a b c d : VertexId} {s t : T} :
    EdgeTriplet.of a b s = EdgeTriplet.of c d t ↔
      s = t ∧ ((a = c ∧ b = d) ∨ (a = d ∧ b = c)) := by
  unfold EdgeTriplet.of
  rw [EdgeTriplet.mk.injEq]
  refine ⟨?_, ?_⟩
  · rintro ⟨hmin, hmax, htime⟩
    refine ⟨htime, ?_⟩
    rcases le_total a b with hab | hab
    · rcases le_total c d with hcd | hcd
      · rw [min_eq_left hab, min_eq_left hcd] at hmin
        rw [max_eq_right hab, max_eq_right hcd] at hmax
        exact Or.inl ⟨hmin, hmax⟩
      · rw [min_eq_left hab, min_eq_right hcd] at hmin
        rw [max_eq_right hab, max_eq_left hcd] at hmax
        exact Or.inr ⟨hmin, hmax⟩
    · rcases le_total c d with hcd | hcd
      · rw [min_eq_right hab, min_eq_left hcd] at hmin
        rw [max_eq_left hab, max_eq_right hcd] at hmax
        exact Or.inr ⟨hmax, hmin⟩
      · rw [min_eq_right hab, min_eq_right hcd] at hmin
        rw [max_eq_left hab, max_eq_left hcd] at hmax
        exact Or.inl ⟨hmax, hmin⟩
  · rintro ⟨htime, ⟨hac, hbd⟩ | ⟨had, hbc⟩⟩
    · rw [hac, hbd]
      exact ⟨rfl, rfl, htime⟩
    · rw [had, hbc]
      exact ⟨min_comm _ _, max_comm _ _, htime⟩

/-- The ends and times of a list. -/
def ends (l : List (NLEdge T D)) : List (VertexId × T) := l.map fun e => (e.toVertex, e.time)

@[simp] theorem ends_nil : ends ([] : List (NLEdge T D)) = [] := rfl

@[simp] theorem ends_append (l l' : List (NLEdge T D)) : ends (l ++ l') = ends l ++ ends l' :=
  List.map_append

theorem mem_ends {l : List (NLEdge T D)} {p : VertexId × T} :
    p ∈ ends l ↔ ∃ e ∈ l, (e.toVertex, e.time) = p := List.mem_map

@[simp] theorem ends_eq_nil {l : List (NLEdge T D)} : ends l = [] ↔ l = [] := by
  simp [ends]

/-- Lists in time order, without the same edge twice. -/
structure Listed [LE T] (lists : VertexId → List (VertexId × T)) : Prop where
  sorted : ∀ v, (lists v).Pairwise fun p q => p.2 ≤ q.2
  nodup : ∀ v, (lists v).Nodup

section Search

variable [LinearOrder T]

/-- From the first edge at its time on, an edge comes before any later one. -/
theorem mem_takeWhile_time {l : List (NLEdge T D)} {x : NLEdge T D} (hx : x ∈ l)
    (hsorted : (ends l).Pairwise fun p q => p.2 ≤ q.2) (hge : ∀ e ∈ l, x.time ≤ e.time) :
    x ∈ l.takeWhile fun e => e.time = x.time := by
  induction l with
  | nil => simp at hx
  | cons z l ih =>
      rw [ends, List.map_cons, List.pairwise_cons] at hsorted
      have hz : z.time = x.time := by
        refine le_antisymm ?_ (hge z List.mem_cons_self)
        rcases List.mem_cons.mp hx with hxz | hx
        · rw [hxz]
        · exact hsorted.1 _ (List.mem_map_of_mem hx)
      rw [List.takeWhile_cons_of_pos (by simpa using hz), List.mem_cons]
      rcases List.mem_cons.mp hx with hxz | hx
      · exact Or.inl hxz
      · exact Or.inr (ih hx hsorted.2 fun e he => hge e (List.mem_cons_of_mem _ he))

/-- The binary search by time does not go past an edge. -/
theorem mem_dropWhile_time {l : List (NLEdge T D)} {x : NLEdge T D} (hx : x ∈ l)
    (hsorted : (ends l).Pairwise fun p q => p.2 ≤ q.2) :
    x ∈ (l.dropWhile fun e => e.time < x.time).takeWhile fun e => e.time = x.time := by
  induction l with
  | nil => simp at hx
  | cons y l ih =>
      have hcons := hsorted
      rw [ends, List.map_cons, List.pairwise_cons] at hsorted
      obtain ⟨hy, hsorted'⟩ := hsorted
      by_cases hlt : y.time < x.time
      · rw [List.dropWhile_cons_of_pos (by simpa using hlt)]
        refine ih ?_ hsorted'
        rcases List.mem_cons.mp hx with hxy | hx
        · rw [hxy] at hlt
          exact absurd hlt (lt_irrefl _)
        · exact hx
      · rw [List.dropWhile_cons_of_neg (by simpa using hlt)]
        refine mem_takeWhile_time hx hcons ?_
        intro e he
        rcases List.mem_cons.mp he with hey | he
        · rw [hey]
          exact not_lt.mp hlt
        · exact le_trans (not_lt.mp hlt) (hy _ (List.mem_map_of_mem he))

/-- A search by end and time in a list in time order finds what is there. -/
theorem NeighborList.getEdgeAttributeData_isSome {nl : NeighborList T D}
    (hsorted : (ends nl.edges).Pairwise fun p q => p.2 ≤ q.2) {x : NLEdge T D}
    (hx : x ∈ nl.edges) : nl.getEdgeAttributeData x.toVertex x.time ≠ none := by
  unfold NeighborList.getEdgeAttributeData
  intro hnone
  rw [Option.map_eq_none_iff, List.find?_eq_none] at hnone
  exact hnone x (mem_dropWhile_time hx hsorted) (by simp)

end Search

/-! ### The block being built -/

/-- The data of an edge is `F` of it, the edges seen are `seen`, and the size has been counted. -/
structure Built [SerializedSize D] (F : EdgeTriplet T → SharedPtr D) (seen : List (EdgeTriplet T))
    (block : Block T D) : Prop where
  lists : ListsOK block.neigs
  data : ∀ v, ∀ e ∈ block.neigs.edges v, e.data = F (e.triplet v)
  mem_seen : ∀ t, t ∈ seen ↔ ∃ v, ∃ e ∈ block.neigs.edges v, e.triplet v = t
  nodup : seen.Nodup
  size : block.serializedSize = 8 + 12 * block.neigs.keys.length + 16 * edgeTotal block.neigs
    + (seen.map fun t => getSerializedSizeOf (F t).val).sum

namespace Built

variable [LinearOrder T] [SerializedSize D] {F F' : EdgeTriplet T → SharedPtr D}
  {seen : List (EdgeTriplet T)} {block : Block T D}

theorem new {T : Type} (F : EdgeTriplet T → SharedPtr D) (partition : Int) :
    Built F [] { (Block.new : Block T D) with partition := partition } := by
  refine ⟨ListsOK.empty, ?_, ?_, List.nodup_nil, rfl⟩
  · intro v e he
    simp [Block.new, NeighborListMap.edges_empty] at he
  · intro t
    simp [Block.new, NeighborListMap.edges_empty]

/-- Only the data of the edges seen matters. -/
theorem congr {T : Type} {F F' : EdgeTriplet T → SharedPtr D} {seen : List (EdgeTriplet T)}
    {block : Block T D} (h : Built F seen block) (heq : ∀ t ∈ seen, F' t = F t) :
    Built F' seen block := by
  refine ⟨h.lists, ?_, h.mem_seen, h.nodup, ?_⟩
  · intro v e he
    rw [heq _ ((h.mem_seen _).mpr ⟨v, e, he, rfl⟩)]
    exact h.data v e he
  · rw [h.size]
    congr 2
    refine List.map_congr_left ?_
    intro t ht
    rw [heq t ht]

theorem length_keys_addEdge {T D : Type} (m : NeighborListMap T D) (v : VertexId) (e : NLEdge T D) :
    (m.addEdge v e).keys.length = m.keys.length + if v ∈ m then 0 else 1 := by
  unfold NeighborListMap.addEdge
  rw [AList.keys_insert, List.length_cons, List.length_erase]
  by_cases hv : v ∈ m
  · have hmem := AList.mem_keys.mp hv
    rw [if_pos hmem, if_pos hv]
    have := List.length_pos_of_mem hmem
    omega
  · rw [if_neg (mt AList.mem_keys.mpr hv), if_neg hv]

theorem edgeTotal_addEdge {T D : Type} (m : NeighborListMap T D) (v : VertexId) (e : NLEdge T D) :
    edgeTotal (m.addEdge v e) = edgeTotal m + 1 := by
  have h := edgeTotal_insert_add m v ⟨v, m.edges v ++ [e]⟩
  rw [List.length_append, List.length_singleton] at h
  unfold NeighborListMap.addEdge
  omega

/-- The block already has data for an edge exactly when it has its other direction. -/
theorem sharedData_eq_none (h : Built F seen block) {v w : VertexId} {tm : T}
    (hsorted : ∀ u, (ends (block.neigs.edges u)).Pairwise fun p q => p.2 ≤ q.2)
    (hnew : (w, tm) ∉ ends (block.neigs.edges v)) :
    block.sharedData v w tm = none ↔ EdgeTriplet.of v w tm ∉ seen := by
  rw [h.mem_seen]
  refine ⟨?_, ?_⟩
  · rintro hnone ⟨u, e, he, htrip⟩
    obtain ⟨htime, ⟨hu, hto⟩ | ⟨hu, hto⟩⟩ := EdgeTriplet.of_eq_of.mp htrip
    · rw [hu] at he
      exact hnew (mem_ends.mpr ⟨e, he, by rw [hto, htime]⟩)
    · rw [hu] at he
      have hlookup := h.lists.lookup_eq (List.ne_nil_of_mem he)
      unfold Block.sharedData at hnone
      rw [hlookup, Option.bind_some, ← hto, ← htime] at hnone
      have hsome : NeighborList.getEdgeAttributeData ⟨w, block.neigs.edges w⟩ e.toVertex e.time ≠ none :=
        NeighborList.getEdgeAttributeData_isSome (hsorted w) he
      exact hsome hnone
  · intro hnot
    unfold Block.sharedData
    rw [Option.bind_eq_none_iff]
    intro nl hnl
    by_contra hc
    obtain ⟨d, hd⟩ := Option.ne_none_iff_exists'.mp hc
    obtain ⟨x, hx, hto, htime, -⟩ := NeighborList.getEdgeAttributeData_eq_some hd
    rw [← NeighborListMap.edges_of_lookup hnl] at hx
    exact hnot ⟨w, x, hx, EdgeTriplet.of_eq_of.mpr ⟨htime, Or.inr ⟨rfl, hto⟩⟩⟩

/-- An edge goes in with its data, and the size grows by what it costs. -/
theorem addEdge (h : Built F seen block) {v w : VertexId} {tm : T}
    (hsorted : ∀ u, (ends (block.neigs.edges u)).Pairwise fun p q => p.2 ≤ q.2)
    (hnew : (w, tm) ∉ ends (block.neigs.edges v)) :
    ∃ block', block.addEdge v w tm (F (EdgeTriplet.of v w tm)) = .ok block' ∧
      Built F (if EdgeTriplet.of v w tm ∈ seen then seen else EdgeTriplet.of v w tm :: seen)
        block' ∧
      block'.neigs = block.neigs.addEdge v ⟨w, tm, F (EdgeTriplet.of v w tm)⟩ ∧
      block'.id = block.id ∧ block'.partition = block.partition ∧
      block'.subBlocks = block.subBlocks := by
  have hnone := h.sharedData_eq_none hsorted hnew
  have hshared : ∀ d ∈ block.sharedData v w tm, d = F (EdgeTriplet.of v w tm) := by
    intro d hd
    obtain ⟨nl, hnl, hget⟩ := Option.bind_eq_some_iff.mp hd
    obtain ⟨x, hx, hto, htime, hdata⟩ := NeighborList.getEdgeAttributeData_eq_some hget
    rw [← NeighborListMap.edges_of_lookup hnl] at hx
    rw [← hdata, h.data w x hx]
    exact congrArg F (EdgeTriplet.of_eq_of.mpr ⟨htime, Or.inr ⟨rfl, hto⟩⟩)
  refine ⟨_, Block.addEdge_eq hshared, ?_, rfl, rfl, rfl, rfl⟩
  refine ⟨h.lists.addEdge v _, ?_, ?_, ?_, ?_⟩
  · intro u e he
    rw [NeighborListMap.edges_addEdge] at he
    by_cases hu : u = v
    · rw [if_pos hu, List.mem_append, List.mem_singleton] at he
      rcases he with he | he
      · rw [hu]
        exact h.data v e he
      · rw [he, hu]
        rfl
    · rw [if_neg hu] at he
      exact h.data u e he
  · intro t
    have hedges : ∀ u e, e ∈ (block.neigs.addEdge v ⟨w, tm, F (EdgeTriplet.of v w tm)⟩).edges u ↔
        e ∈ block.neigs.edges u ∨ (u = v ∧ e = ⟨w, tm, F (EdgeTriplet.of v w tm)⟩) := by
      intro u e
      rw [NeighborListMap.edges_addEdge]
      by_cases hu : u = v
      · rw [if_pos hu, List.mem_append, List.mem_singleton, hu]
        simp
      · rw [if_neg hu]
        simp [hu]
    have hmem : t ∈ (if EdgeTriplet.of v w tm ∈ seen then seen else EdgeTriplet.of v w tm :: seen)
        ↔ t ∈ seen ∨ t = EdgeTriplet.of v w tm := by
      split_ifs with hin
      · refine ⟨Or.inl, ?_⟩
        rintro (ht | ht)
        · exact ht
        · rw [ht]
          exact hin
      · rw [List.mem_cons, or_comm]
    rw [hmem, h.mem_seen]
    refine ⟨?_, ?_⟩
    · rintro (⟨u, e, he, ht⟩ | ht)
      · exact ⟨u, e, (hedges u e).mpr (Or.inl he), ht⟩
      · exact ⟨v, _, (hedges v _).mpr (Or.inr ⟨rfl, rfl⟩), ht.symm⟩
    · rintro ⟨u, e, he, ht⟩
      rcases (hedges u e).mp he with he | ⟨hu, he⟩
      · exact Or.inl ⟨u, e, he, ht⟩
      · right
        rw [← ht, he, hu]
        rfl
  · split_ifs with hin
    · exact h.nodup
    · exact List.nodup_cons.mpr ⟨hin, h.nodup⟩
  · show block.serializedSize + _ + _ + 16 = _
    rw [length_keys_addEdge, edgeTotal_addEdge, h.size]
    by_cases hin : EdgeTriplet.of v w tm ∈ seen
    · rw [if_pos hin, if_neg (fun hc => hnone.mp hc hin)]
      split_ifs <;> omega
    · rw [if_neg hin, if_pos (hnone.mpr hin), List.map_cons, List.sum_cons]
      split_ifs <;> omega

end Built

/-! ### What is still to come -/

/-- What a rest of the lists has under a vertex. -/
def remaining (rest : List (Sigma fun _ : VertexId => NeighborList T D)) (v : VertexId) :
    List (VertexId × T) :=
  ((rest.dlookup v).map fun nl => ends nl.edges).getD []

theorem remaining_nil (v : VertexId) :
    remaining ([] : List (Sigma fun _ : VertexId => NeighborList T D)) v = [] := rfl

theorem remaining_entries (m : NeighborListMap T D) (v : VertexId) :
    remaining m.entries v = ends (m.edges v) := by
  unfold remaining NeighborListMap.edges
  show ((m.lookup v).map fun nl => ends nl.edges).getD [] = _
  cases m.lookup v with
  | none => rfl
  | some nl => rfl

theorem remaining_cons (e : Sigma fun _ : VertexId => NeighborList T D)
    (rest : List (Sigma fun _ : VertexId => NeighborList T D)) :
    remaining (e :: rest) = Function.update (remaining rest) e.1 (ends e.2.edges) := by
  funext v
  by_cases hv : v = e.1
  · subst hv
    rw [Function.update_self]
    unfold remaining
    rw [List.dlookup_cons_eq]
    rfl
  · rw [Function.update_of_ne hv]
    unfold remaining
    rw [List.dlookup_cons_ne _ _ hv]

theorem remaining_of_notMem {rest : List (Sigma fun _ : VertexId => NeighborList T D)}
    {v : VertexId} (h : v ∉ rest.keys) : remaining rest v = [] := by
  unfold remaining
  rw [List.dlookup_eq_none.mpr h]
  rfl

theorem update_remaining_nil {rest : List (Sigma fun _ : VertexId => NeighborList T D)}
    {v : VertexId} (h : v ∉ rest.keys) :
    Function.update (remaining rest) v [] = remaining rest := by
  rw [← remaining_of_notMem h, Function.update_eq_self]

/-- A block on the way to the lists `goal`, with `rest` of them still to come. -/
structure Building [SerializedSize D] (goal rest : VertexId → List (VertexId × T))
    (F : EdgeTriplet T → SharedPtr D) (seen : List (EdgeTriplet T)) (block : Block T D) : Prop
    extends Built F seen block where
  come : ∀ v, ends (block.neigs.edges v) ++ rest v = goal v

namespace Building

variable [LinearOrder T] [SerializedSize D] {goal rest : VertexId → List (VertexId × T)}
  {F F' : EdgeTriplet T → SharedPtr D} {seen : List (EdgeTriplet T)} {block : Block T D}

theorem new {T : Type} (goal : VertexId → List (VertexId × T)) (F : EdgeTriplet T → SharedPtr D)
    (partition : Int) :
    Building goal goal F [] { (Block.new : Block T D) with partition := partition } :=
  ⟨Built.new F partition, fun _ => rfl⟩

theorem congr {T : Type} {goal rest : VertexId → List (VertexId × T)}
    {F F' : EdgeTriplet T → SharedPtr D} {seen : List (EdgeTriplet T)} {block : Block T D}
    (h : Building goal rest F seen block) (heq : ∀ t ∈ seen, F' t = F t) :
    Building goal rest F' seen block :=
  ⟨h.toBuilt.congr heq, h.come⟩

/-- The next edge of a list goes in. -/
theorem next (hgoal : Listed goal) {v w : VertexId} {tm : T} {l : List (VertexId × T)}
    (h : Building goal (Function.update rest v ((w, tm) :: l)) F seen block) :
    ∃ block', block.addEdge v w tm (F (EdgeTriplet.of v w tm)) = .ok block' ∧
      Building goal (Function.update rest v l) F
        (if EdgeTriplet.of v w tm ∈ seen then seen else EdgeTriplet.of v w tm :: seen) block' ∧
      block'.id = block.id ∧ block'.partition = block.partition ∧
      block'.subBlocks = block.subBlocks := by
  have hsorted : ∀ u, (ends (block.neigs.edges u)).Pairwise fun p q => p.2 ≤ q.2 := by
    intro u
    have hs := hgoal.sorted u
    rw [← h.come u] at hs
    exact (List.pairwise_append.mp hs).1
  have hnew : (w, tm) ∉ ends (block.neigs.edges v) := by
    intro hmem
    have hn := hgoal.nodup v
    rw [← h.come v, Function.update_self] at hn
    exact List.disjoint_of_nodup_append hn hmem List.mem_cons_self
  obtain ⟨block', hok, hbuilt, hneigs, hid, hpart, hsub⟩ := h.toBuilt.addEdge hsorted hnew
  refine ⟨block', hok, ⟨hbuilt, ?_⟩, hid, hpart, hsub⟩
  intro u
  rw [hneigs, NeighborListMap.edges_addEdge, ← h.come u]
  by_cases hu : u = v
  · subst hu
    rw [if_pos rfl, Function.update_self, Function.update_self, ends_append, List.append_assoc]
    rfl
  · rw [if_neg hu, Function.update_of_ne hu, Function.update_of_ne hu]

/-- When nothing is left to come the block has all of the lists. -/
theorem edges_eq {T : Type} {goal : VertexId → List (VertexId × T)}
    {F : EdgeTriplet T → SharedPtr D} {seen : List (EdgeTriplet T)} {block : Block T D}
    (h : Building goal (remaining
      ([] : List (Sigma fun _ : VertexId => NeighborList T D))) F seen block) (v : VertexId) :
    ends (block.neigs.edges v) = goal v := by
  rw [← h.come v, remaining_nil, List.append_nil]

end Building

/-- Two blocks with the same lists and data of the same sizes have the same size. -/
theorem Built.size_eq [LinearOrder T] [SerializedSize D] {F F' : EdgeTriplet T → SharedPtr D}
    {seen seen' : List (EdgeTriplet T)} {block block' : Block T D} (h : Built F seen block)
    (h' : Built F' seen' block')
    (hends : ∀ v, ends (block.neigs.edges v) = ends (block'.neigs.edges v))
    (hsize : ∀ t ∈ seen, getSerializedSizeOf (F t).val = getSerializedSizeOf (F' t).val) :
    block.serializedSize = block'.serializedSize := by
  have hmem : ∀ t, t ∈ seen ↔ t ∈ seen' := by
    have hsub : ∀ (b b' : Block T D), (∀ v, ends (b.neigs.edges v) = ends (b'.neigs.edges v)) →
        ∀ t, (∃ v, ∃ e ∈ b.neigs.edges v, e.triplet v = t) →
          ∃ v, ∃ e ∈ b'.neigs.edges v, e.triplet v = t := by
      rintro b b' heq t ⟨v, e, he, ht⟩
      have hp : (e.toVertex, e.time) ∈ ends (b'.neigs.edges v) := by
        rw [← heq v]
        exact mem_ends.mpr ⟨e, he, rfl⟩
      obtain ⟨e', he', hends'⟩ := mem_ends.mp hp
      obtain ⟨hto, htime⟩ := Prod.mk.inj hends'
      refine ⟨v, e', he', ?_⟩
      unfold NLEdge.triplet at ht ⊢
      rw [hto, htime, ht]
    intro t
    rw [h.mem_seen, h'.mem_seen]
    exact ⟨hsub block block' hends t, hsub block' block (fun v => (hends v).symm) t⟩
  have hseen : seen.Perm seen' := (List.perm_ext_iff_of_nodup h.nodup h'.nodup).mpr hmem
  have hkeys : block.neigs.keys.Perm block'.neigs.keys := by
    refine (List.perm_ext_iff_of_nodup block.neigs.keys_nodup block'.neigs.keys_nodup).mpr ?_
    intro v
    rw [← AList.mem_keys, ← AList.mem_keys, h.lists.mem_iff, h'.lists.mem_iff, ne_eq, ne_eq,
      ← ends_eq_nil, ← ends_eq_nil (l := block'.neigs.edges v), hends v]
  have htotal : ∀ {F : EdgeTriplet T → SharedPtr D} {s : List (EdgeTriplet T)} {b : Block T D},
      Built F s b →
      edgeTotal b.neigs = (b.neigs.keys.map fun v => (ends (b.neigs.edges v)).length).sum := by
    intro F s b hb
    unfold edgeTotal AList.keys List.keys
    rw [List.map_map]
    congr 1
    refine List.map_congr_left ?_
    rintro ⟨v, nl⟩ he
    have hl := AList.mem_lookup_iff.mpr he
    show nl.edges.length = (ends (b.neigs.edges v)).length
    rw [NeighborListMap.edges_of_lookup hl, ends, List.length_map]
  have hsum : (seen.map fun t => getSerializedSizeOf (F t).val).sum
      = (seen'.map fun t => getSerializedSizeOf (F' t).val).sum := by
    rw [List.map_congr_left hsize]
    exact (hseen.map _).sum_eq
  have hlen : block.neigs.keys.length = block'.neigs.keys.length := hkeys.length_eq
  have hedge : edgeTotal block.neigs = edgeTotal block'.neigs := by
    rw [htotal h, htotal h', ← (hkeys.map _).sum_eq]
    congr 1
    refine List.map_congr_left ?_
    intro v _
    rw [hends v]
  rw [h.size, h'.size, hlen, hedge, hsum]

end RailwayDB
