/-
The size of a formed block.

A block that is cut from the map takes the front of some of its lists.  What it takes
is counted twice on the way, by a candidate or by the block itself, and both counts are
running ones.  Here the block is measured from scratch: it has at most the bytes it
may have, unless it is the single edge a smart layout starts from.
-/
import RailwayDB.Proofs.BlockSize
import RailwayDB.Proofs.CandidateRun
import Mathlib.Data.List.Nodup

namespace RailwayDB

variable {T S D : Type} [LinearOrder T]

namespace Taken

variable {es : List (GraphEdge T D)} {L : VertexId → List (NLEdge T D)} {n : VertexId → Nat}
  {block : Block T D}

theorem mem_of_edge {T : Type} {L : VertexId → List (NLEdge T D)} {block : Block T D}
    (ht : Taken L n block) {w : VertexId} {x : NLEdge T D} (hx : x ∈ block.neigs.edges w) :
    x ∈ L w := by
  rw [ht.edges] at hx
  exact List.mem_of_mem_take hx

/-- Fronts of the lists are in order and share the data of an edge. -/
theorem tidy (ht : Taken L n block) (hs : Suffixes es L) : block.Tidy := by
  have hsorted : ∀ w, (block.neigs.edges w).Pairwise fun x y => x.time < y.time := by
    intro w
    rw [ht.edges]
    exact (hs.increasing w).sublist (List.take_sublist _ _)
  refine ⟨ht.lists, fun w => (hsorted w).imp fun h => h.le, fun w => ?_, ?_⟩
  · refine (hsorted w).imp ?_
    intro x y hlt hsame
    exact absurd hsame.2 hlt.ne
  · intro w x hx y hy hto htime
    exact (hs.history.eq_or_back (hs.mem (ht.mem_of_edge hx)) (hs.mem (ht.mem_of_edge hy))
      htime.symm).1.symm

theorem length_keys {T : Type} {L : VertexId → List (NLEdge T D)} {block : Block T D}
    (ht : Taken L n block) : block.neigs.keys.length = headCount n := by
  have hset : block.neigs.keys.toFinset = vertices.filter fun h => 0 < n h := by
    ext w
    rw [List.mem_toFinset, Finset.mem_filter, ← AList.mem_keys, ht.mem_iff, Nat.pos_iff_ne_zero]
    exact ⟨fun hw => ⟨mem_vertices w, hw⟩, fun hw => hw.2⟩
  rw [headCount, ← hset, List.toFinset_card_of_nodup (AList.keys_nodup _)]

theorem mem_included_iff (ht : Taken L n block) {h w : VertexId} {t : T} :
    ((h, w, t) : Directed T) ∈ included L n ↔
      ∃ e ∈ block.neigs.edges h, e.toVertex = w ∧ e.time = t := by
  rw [mem_included, ht.edges]

end Taken

namespace Block

/-- No directed edge stands in a tidy block twice. -/
theorem Tidy.nodup_directed {block : Block T D} (hb : block.Tidy) :
    (block.edgeList.map Prod.fst).Nodup := by
  unfold edgeList
  rw [List.map_flatMap]
  refine List.nodup_flatMap.mpr ⟨?_, ?_⟩
  · rintro ⟨w, nl⟩ hentry
    have hlookup := AList.mem_lookup_iff.mpr hentry
    have honce := hb.once w
    rw [NeighborListMap.edges_of_lookup hlookup] at honce
    rw [List.map_map]
    refine List.pairwise_map.mpr (honce.imp ?_)
    intro x y hne heq
    have hrest := (Prod.mk.inj heq).2
    exact hne ⟨(Prod.mk.inj hrest).1, (Prod.mk.inj hrest).2⟩
  · refine (List.nodupKeys_iff_pairwise.mp block.neigs.nodupKeys).imp ?_
    intro entry entry' hne
    rw [Function.onFun, List.disjoint_left]
    intro a ha ha'
    rw [List.map_map] at ha ha'
    obtain ⟨x, -, rfl⟩ := List.mem_map.mp ha
    obtain ⟨y, -, heq⟩ := List.mem_map.mp ha'
    exact hne (Prod.mk.inj heq).1.symm

theorem length_edgeList {T : Type} (block : Block T D) :
    block.edgeList.length = edgeTotal block.neigs := by
  unfold edgeList edgeTotal
  rw [List.length_flatMap]
  simp only [List.length_map]

end Block

namespace Taken

variable {es : List (GraphEdge T D)} {L : VertexId → List (NLEdge T D)} {n : VertexId → Nat}
  {block : Block T D}

theorem edgeTotal_eq (ht : Taken L n block) (hs : Suffixes es L) :
    edgeTotal block.neigs = (included L n).card := by
  have hset : (block.edgeList.map Prod.fst).toFinset = included L n := by
    ext a
    obtain ⟨h, w, t⟩ := a
    rw [List.mem_toFinset, List.mem_map, ht.mem_included_iff]
    constructor
    · rintro ⟨⟨a, d⟩, hmem, rfl⟩
      exact ⟨_, Block.mem_edgeList.mp hmem, rfl, rfl⟩
    · rintro ⟨e, he, rfl, rfl⟩
      exact ⟨_, Block.mem_edgeList.mpr he, rfl⟩
  rw [← hset, List.toFinset_card_of_nodup (ht.tidy hs).nodup_directed, List.length_map,
    Block.length_edgeList]

/-- Among chosen edges a time names the edge. -/
theorem injOn_time (ht : Taken L n block) (hs : Suffixes es L) :
    Set.InjOn (Prod.snd : Sym2 VertexId × T → T) block.undirectedEdges := by
  intro u hu u' hu' htime
  obtain ⟨v, x, hx, rfl⟩ := Block.mem_undirectedEdges.mp hu
  obtain ⟨v', x', hx', rfl⟩ := Block.mem_undirectedEdges.mp hu'
  have hmem : x'.directed v' ∈ included L n := ht.mem_included_iff.mpr ⟨x', hx', rfl, rfl⟩
  exact (Directed.undirected_eq_iff.mpr
    (eq_or_rev hs (ht.mem_of_edge hx) hmem htime.symm)).symm

/-- A block that takes the first `n w` edges of each list has the size of that choice. -/
theorem measuredSize_eq [SerializedSize D] (ht : Taken L n block) (hs : Suffixes es L) :
    block.measuredSize = selectionSize es L n := by
  have htimes : (included L n).image Directed.time = block.undirectedEdges.image Prod.snd := by
    ext t
    simp only [Finset.mem_image]
    constructor
    · rintro ⟨⟨h, w, t⟩, hmem, rfl⟩
      obtain ⟨e, he, rfl, rfl⟩ := ht.mem_included_iff.mp hmem
      exact ⟨_, Block.mem_undirectedEdges.mpr ⟨h, e, he, rfl⟩, rfl⟩
    · rintro ⟨u, hu, rfl⟩
      obtain ⟨v, x, hx, rfl⟩ := Block.mem_undirectedEdges.mp hu
      exact ⟨x.directed v, ht.mem_included_iff.mpr ⟨x, hx, rfl, rfl⟩, rfl⟩
  have hdata : ∑ u ∈ block.undirectedEdges, block.edgeDataSize u
      = Pairing.pairSum Directed.time (dataSize es) (included L n) := by
    rw [Pairing.pairSum, htimes, Finset.sum_image (ht.injOn_time hs)]
    refine Finset.sum_congr rfl fun u hu => ?_
    obtain ⟨v, x, hx, rfl⟩ := Block.mem_undirectedEdges.mp hu
    rw [(ht.tidy hs).edgeDataSize_eq hx]
    exact (dataSize_eq hs.history (hs.mem (ht.mem_of_edge hx))).symm
  rw [Block.measuredSize, ht.length_keys, ht.edgeTotal_eq hs, hdata, selectionSize, edgeCost]
  omega

end Taken

namespace ExpirationMap

variable [LinearOrder S] [Score S] [TimeScore T S] [SerializedSize D]

/-- Whatever the layout and the scores, a map that has an edge yields a block.  Its lists are
fronts of those of the map, and it fits, unless it is one edge of a smart layout. -/
theorem cutBlock_fits {conf : Conf} {es : List (GraphEdge T D)} {m : ExpirationMap T S D}
    (hm : Reached conf es m) (hblock : 8 ≤ conf.blockSize)
    (hseed : conf.layoutMode = .smart → conf.initialCandidateCount ≠ 0) (hne : m.size ≠ 0)
    (ω : Oracle S) :
    ∃ block m', m.cutBlock ω = .ok (block, m') ∧
      (∀ w ∈ block.neigs, block.neigs.edges w ≠ [] ∧
        block.neigs.edges w <+: m.neigLists.edges w) ∧
      (block.measuredSize ≤ conf.blockSize ∨
        conf.layoutMode = .smart ∧ edgeTotal block.neigs = 1) := by
  obtain ⟨hsound, hconf⟩ := hm.sound
  have husable : Usable m.conf := by
    unfold Usable
    rw [hconf]
    split_ifs with hmode
    · exact hseed hmode
    · exact hblock
  obtain ⟨block, m', n, hcut, hrel, -, hroom⟩ := cutBlock_ok ω hsound husable fun _ => hne
  have ht := hrel.taken
  have hs := hsound.suffixes
  refine ⟨block, m', hcut, ?_, ?_⟩
  · intro w hw
    refine ⟨(ht.lists.mem_iff w).mp hw, ?_⟩
    rw [ht.edges]
    exact List.take_prefix _ _
  · rw [ht.measuredSize_eq hs, ht.edgeTotal_eq hs, ← hconf]
    exact hroom

/-- A block of the smart layout, out of a map of two edges. -/
theorem cutBlock_fits_pair :
    ∃ (m m' : ExpirationMap Time ℚ (AttributeData textSchema))
      (block : Block Time (AttributeData textSchema)),
      (new Conf.default).addEdges pairEdges = .ok m ∧
      m.cutBlock Oracle.plain = .ok (block, m') ∧
      (block.measuredSize ≤ 16384 ∨ edgeTotal block.neigs = 1) := by
  obtain ⟨m, hadd, hm, hone, -⟩ := pairEdges_reached
  have hne : m.size ≠ 0 := by
    intro hzero
    rw [hm.sound.1.size] at hzero
    rw [edges_eq_nil_of_edgeTotal hzero] at hone
    simp at hone
  obtain ⟨block, m', hcut, -, hfits⟩ :=
    cutBlock_fits hm (by decide) (fun _ => by decide) hne Oracle.plain
  exact ⟨m, m', block, hadd, hcut, hfits.imp_right fun hsingle => hsingle.2⟩

end ExpirationMap

end RailwayDB
