/-
A block that is being filled.

Both ways of cutting a block add edges to it in list order, so at every point the
block holds a prefix of each list: `Filled` says which, and that its running size is
what the choice costs.  Adding the next edge of a list never trips the assertion on
shared data, because two edges at one time are the two directions of one edge.
-/
import RailwayDB.Core.Block
import RailwayDB.Proofs.NeighborList
import RailwayDB.Proofs.Selection
import RailwayDB.Lib.Except

namespace RailwayDB

variable {T D : Type}

/-- An edge behind the list of a head, which is opened first if need be. -/
theorem Block.addNeighborList_addEdge (block : Block T D) (h : VertexId) (e : NLEdge T D) :
    ({ block.addNeighborList h with
        neigs := (block.addNeighborList h).neigs.insert h
          ⟨h, (block.addNeighborList h).neigs.edges h ++ [e]⟩
        serializedSize := (block.addNeighborList h).serializedSize + 16 } : Block T D)
      = { block with
          neigs := block.neigs.addEdge h e
          serializedSize := block.serializedSize + (if h ∈ block.neigs then 0 else 12) + 16 } := by
  unfold Block.addNeighborList NeighborListMap.addEdge
  split_ifs with hin
  · rfl
  · simp only [AList.insert_insert, NeighborListMap.edges_insert, if_pos,
      NeighborListMap.edges_of_notMem hin]

/-- What `addEdge` does when the data it finds, if any, is the data it is given. -/
theorem Block.addEdge_eq [SerializedSize D] [LinearOrder T] {block : Block T D} {h w : VertexId}
    {tm : T} {data : SharedPtr D} (hshared : ∀ d ∈ block.sharedData h w tm, d = data) :
    block.addEdge h w tm data = .ok { block with
      neigs := block.neigs.addEdge h ⟨w, tm, data⟩
      serializedSize := block.serializedSize
        + (if block.sharedData h w tm = none then getSerializedSizeOf data.val else 0)
        + (if h ∈ block.neigs then 0 else 12) + 16 } := by
  unfold Block.addEdge
  cases hd : block.sharedData h w tm with
  | none =>
      exact congrArg Except.ok (Block.addNeighborList_addEdge
        { block with serializedSize := block.serializedSize + getSerializedSizeOf data.val } h _)
  | some d =>
      have heq := hshared d hd
      subst heq
      simp only [ne_eq, not_true_eq_false, if_false, Except.pure_eq_ok]
      exact congrArg Except.ok (Block.addNeighborList_addEdge block h _)

/-- What `removeNewestEdge` does to the list of a head. -/
theorem Block.removeNewestEdge_eq [SerializedSize D] [LinearOrder T] {block : Block T D}
    {h : VertexId} {e : NLEdge T D} (hlists : ListsOK block.neigs) {l : List (NLEdge T D)}
    (hl : block.neigs.edges h = l ++ [e]) :
    block.removeNewestEdge h = .ok { block with
      neigs := block.neigs.setList h l
      serializedSize := block.serializedSize - block.removedData h e - 16
        - if l.isEmpty then 12 else 0 } := by
  have hlookup := hlists.lookup_eq (w := h) (by rw [hl]; simp)
  rw [hl] at hlookup
  have hnewest : NeighborList.getNewestEdge ⟨h, l ++ [e]⟩ = .ok e := by
    unfold NeighborList.getNewestEdge
    rw [List.getLast?_concat]
  have hdrop : (NeighborList.removeNewestEdge ⟨h, l ++ [e]⟩ : NeighborList T D) = ⟨h, l⟩ := by
    unfold NeighborList.removeNewestEdge
    rw [List.dropLast_concat]
  unfold Block.removeNewestEdge NeighborListMap.setList
  rw [hlookup]
  simp only [hnewest, Except.ok_bind, hdrop]
  by_cases hempty : l.isEmpty = true
  · rw [if_pos hempty, if_pos hempty, if_pos hempty]
    rfl
  · rw [if_neg hempty, if_neg hempty, if_neg hempty]
    rfl

/-- The block holds the first `n w` edges of each list. -/
structure Taken (L : VertexId → List (NLEdge T D)) (n : VertexId → Nat) (block : Block T D) :
    Prop where
  edges : ∀ w, block.neigs.edges w = (L w).take (n w)
  within : ∀ w, n w ≤ (L w).length
  lists : ListsOK block.neigs

/-- The heads of the block are the vertices something is taken from. -/
theorem Taken.mem_iff {L : VertexId → List (NLEdge T D)} {n : VertexId → Nat} {block : Block T D}
    (ht : Taken L n block) (w : VertexId) : w ∈ block.neigs ↔ n w ≠ 0 := by
  have hwithin := ht.within w
  rw [ht.lists.mem_iff, ht.edges, ne_eq, List.take_eq_nil_iff, ← List.length_eq_zero_iff]
  omega

variable [LinearOrder T] [SerializedSize D]

/-- The block holds these edges and has counted them. -/
structure Filled (es : List (GraphEdge T D)) (L : VertexId → List (NLEdge T D))
    (n : VertexId → Nat) (block : Block T D) : Prop extends Taken L n block where
  size : block.serializedSize = selectionSize es L n

namespace Filled

variable {es : List (GraphEdge T D)} {L : VertexId → List (NLEdge T D)} {n : VertexId → Nat}
  {block : Block T D} {h : VertexId} {e : NLEdge T D}

theorem new : Filled es L (fun _ => 0) (Block.new : Block T D) := by
  refine ⟨⟨?_, ?_, ListsOK.empty⟩, selectionSize_zero.symm⟩
  · intro w
    rfl
  · intro w
    exact Nat.zero_le _

/-- The block shares the data of an edge whose other direction it holds. -/
theorem sharedData_of_mem (hf : Filled es L n block) (hs : Suffixes es L) (he : e ∈ L h)
    (hrev : (e.directed h).rev ∈ included L n) :
    block.sharedData h e.toVertex e.time = some e.data := by
  obtain ⟨x, hx, hto, ht⟩ := rev_mem_included.mp hrev
  have hxl : x ∈ L e.toVertex := List.mem_of_mem_take hx
  have hmem : x ∈ block.neigs.edges e.toVertex := by
    rw [hf.edges]
    exact hx
  have hlookup := hf.lists.lookup_eq (List.ne_nil_of_mem hmem)
  have hincr : (block.neigs.edges e.toVertex).Pairwise fun x y => x.time < y.time := by
    rw [hf.edges]
    exact (hs.increasing e.toVertex).sublist (List.take_sublist _ _)
  have hdata := (hs.history.eq_or_back (hs.mem he) (hs.mem hxl) ht.symm).1
  unfold Block.sharedData
  rw [hlookup, Option.bind_some, ← hto, ← ht, hdata]
  exact NeighborList.getEdgeAttributeData_of_mem hincr hmem

theorem sharedData_of_notMem (hf : Filled es L n block)
    (hrev : (e.directed h).rev ∉ included L n) :
    block.sharedData h e.toVertex e.time = none := by
  unfold Block.sharedData
  rw [Option.bind_eq_none_iff]
  intro nl hnl
  by_contra hc
  obtain ⟨d, hd⟩ := Option.ne_none_iff_exists'.mp hc
  obtain ⟨x, hx, hto, ht, -⟩ := NeighborList.getEdgeAttributeData_eq_some hd
  rw [← NeighborListMap.edges_of_lookup hnl, hf.edges] at hx
  exact hrev (rev_mem_included.mpr ⟨x, hx, hto, ht⟩)

/-- The next edge of a list goes in, and the size grows by what it costs. -/
theorem addEdge (hf : Filled es L n block) (hs : Suffixes es L) (he : (L h)[n h]? = some e) :
    ∃ block', block.addEdge h e.toVertex e.time e.data = .ok block' ∧
      Filled es L (Function.update n h (n h + 1)) block' := by
  have hmem : e ∈ L h := List.mem_of_getElem? he
  have hshared : ∀ d ∈ block.sharedData h e.toVertex e.time, d = e.data := by
    intro d hd
    by_cases hrev : (e.directed h).rev ∈ included L n
    · rw [hf.sharedData_of_mem hs hmem hrev] at hd
      exact (Option.some.inj hd).symm
    · rw [hf.sharedData_of_notMem hrev] at hd
      simp at hd
  refine ⟨_, Block.addEdge_eq hshared, ⟨?_, ?_, hf.lists.addEdge h _⟩, ?_⟩
  · intro w
    rw [NeighborListMap.edges_addEdge]
    by_cases hw : w = h
    · rw [if_pos hw, hw, Function.update_self, hf.edges, List.take_add_one, he]
      rfl
    · rw [if_neg hw, Function.update_of_ne hw, hf.edges]
  · exact within_update hf.within (List.getElem?_eq_some_iff.mp he).1
  · have hhead : h ∈ block.neigs ↔ n h ≠ 0 := hf.mem_iff h
    rw [selectionSize_update hs he, ← hf.size]
    by_cases hrev : (e.directed h).rev ∈ included L n
    · rw [hf.sharedData_of_mem hs hmem hrev]
      simp only [hrev, hhead, reduceCtorEq, if_false, if_true]
      split_ifs <;> omega
    · rw [hf.sharedData_of_notMem hrev]
      simp only [hrev, hhead, if_false, if_true]
      split_ifs <;> omega

/-- The newest edge of a head can be taken back. -/
theorem removeNewestEdge (hf : Filled es L (Function.update n h (n h + 1)) block) :
    ∃ block', block.removeNewestEdge h = .ok block' ∧ Taken L n block' := by
  have hlen : n h + 1 ≤ (L h).length := by
    have hwithin := hf.within h
    rwa [Function.update_self] at hwithin
  obtain ⟨e, he⟩ : ∃ e, (L h)[n h]? = some e := ⟨_, List.getElem?_eq_getElem hlen⟩
  have hedges : block.neigs.edges h = (L h).take (n h) ++ [e] := by
    rw [hf.edges, Function.update_self, List.take_add_one, he]
    rfl
  refine ⟨_, Block.removeNewestEdge_eq hf.lists hedges, ?_, ?_,
    NeighborListMap.setList_listsOK hf.lists h _⟩
  · intro w
    rw [NeighborListMap.edges_setList]
    by_cases hw : w = h
    · rw [if_pos hw, hw]
    · rw [if_neg hw, hf.edges, Function.update_of_ne hw]
  · intro w
    by_cases hw : w = h
    · rw [hw]
      omega
    · have hwithin := hf.within w
      rwa [Function.update_of_ne hw] at hwithin

end Filled

end RailwayDB
