/-
Prefixes of neighbour lists.

A block and a candidate are both a choice of how many edges to take from the front
of each list.  What they cost and how many of their edges dangle depends on the
choice alone, and this file says how: the directed edges chosen are a finite set,
the two directions of an edge are partners in it, and taking one more edge moves
each count by an amount that depends only on whether the partner is there.

The lists are end stretches of the incidence lists of one history.  That is why the
partner of an edge is missing from a list only if it is older than the whole list.
-/
import RailwayDB.Lib.Pairing
import RailwayDB.Proofs.History
import Mathlib.Data.Finset.Union
import Mathlib.Data.Sym.Sym2
import Mathlib.Logic.Function.Basic

namespace RailwayDB

variable {T D : Type} [LinearOrder T]

/-- Each list is an end stretch of the edges of its vertex. -/
structure Suffixes (es : List (GraphEdge T D)) (L : VertexId → List (NLEdge T D)) : Prop where
  history : History es
  suffix : ∀ w, L w <:+ incident w es

namespace Suffixes

variable {es : List (GraphEdge T D)} {L : VertexId → List (NLEdge T D)}

theorem mem (h : Suffixes es L) {w : VertexId} {x : NLEdge T D} (hx : x ∈ L w) :
    x ∈ incident w es :=
  (h.suffix w).mem hx

theorem increasing (h : Suffixes es L) (w : VertexId) :
    (L w).Pairwise fun x y => x.time < y.time :=
  (h.history.incident_increasing w).sublist (h.suffix w).sublist

/-- The other direction of an edge is in its list unless the whole list is younger. -/
theorem back (h : Suffixes es L) {w : VertexId} {x y : NLEdge T D} (hx : x ∈ L w)
    (hy : y ∈ L x.toVertex) (hle : y.time ≤ x.time) : ⟨w, x.time, x.data⟩ ∈ L x.toVertex := by
  obtain ⟨hback, -⟩ := h.history.back (h.mem hx)
  obtain ⟨older, hsplit⟩ := h.suffix x.toVertex
  rw [← hsplit, List.mem_append] at hback
  rcases hback with hold | hin
  · have hincr := h.history.incident_increasing x.toVertex
    rw [← hsplit] at hincr
    have hlt := (List.pairwise_append.mp hincr).2.2 _ hold y hy
    exact absurd hlt (not_lt_of_ge hle)
  · exact hin

theorem toVertex_ne (h : Suffixes es L) {w : VertexId} {x : NLEdge T D} (hx : x ∈ L w) :
    x.toVertex ≠ w :=
  (h.history.back (h.mem hx)).2

/-- Within a list, a time names an edge. -/
theorem eq_of_time (h : Suffixes es L) {w : VertexId} {x y : NLEdge T D} (hx : x ∈ L w)
    (hy : y ∈ L w) (ht : x.time = y.time) : y = x := by
  obtain ⟨-, ⟨-, heq⟩ | ⟨hw, -⟩⟩ := h.history.eq_or_back (h.mem hx) (h.mem hy) ht
  · exact heq
  · exact absurd hw.symm (h.toVertex_ne hx)

end Suffixes

/-! ### The edges chosen -/

/-- A directed edge: head, other end, time. -/
abbrev Directed (T : Type) := VertexId × VertexId × T

namespace Directed

/-- The other direction. -/
def rev (a : Directed T) : Directed T := (a.2.1, a.1, a.2.2)

def time (a : Directed T) : T := a.2.2

omit [LinearOrder T] in
@[simp] theorem rev_rev (a : Directed T) : rev (rev a) = a := rfl

omit [LinearOrder T] in
@[simp] theorem time_rev (a : Directed T) : time (rev a) = time a := rfl

/-- The edge without its direction: its ends and its time. -/
def undirected (a : Directed T) : Sym2 VertexId × T := (s(a.1, a.2.1), a.time)

omit [LinearOrder T] in
@[simp] theorem undirected_rev (a : Directed T) : undirected (rev a) = undirected a := by
  unfold undirected rev time
  rw [Sym2.eq_swap]

omit [LinearOrder T] in
/-- The two directions of an edge are all there is of it. -/
theorem undirected_eq_iff {a b : Directed T} : b.undirected = a.undirected ↔ b = a ∨ b = a.rev := by
  obtain ⟨h, w, t⟩ := a
  obtain ⟨h', w', t'⟩ := b
  unfold undirected rev time
  rw [Prod.mk.injEq, Sym2.eq_iff]
  simp only [Prod.mk.injEq]
  constructor
  · rintro ⟨⟨hh, hw⟩ | ⟨hh, hw⟩, ht⟩
    · exact Or.inl ⟨hh, hw, ht⟩
    · exact Or.inr ⟨hh, hw, ht⟩
  · rintro (⟨hh, hw, ht⟩ | ⟨hh, hw, ht⟩)
    · exact ⟨Or.inl ⟨hh, hw⟩, ht⟩
    · exact ⟨Or.inr ⟨hh, hw⟩, ht⟩

end Directed

/-- The directed edge at the head of whose list an edge stands. -/
def NLEdge.directed {T D : Type} (h : VertexId) (e : NLEdge T D) : Directed T :=
  (h, e.toVertex, e.time)

/-- All vertex ids.  The set is large; it is never unfolded. -/
@[irreducible] def vertices : Finset VertexId := Finset.univ

theorem mem_vertices (v : VertexId) : v ∈ vertices := by
  unfold vertices
  exact Finset.mem_univ v

/-- The directed edges chosen by taking `n h` edges from the list of each `h`. -/
def included (L : VertexId → List (NLEdge T D)) (n : VertexId → Nat) : Finset (Directed T) :=
  vertices.biUnion fun h => (((L h).take (n h)).map (NLEdge.directed h)).toFinset

section Included

variable {es : List (GraphEdge T D)} {L : VertexId → List (NLEdge T D)} {n : VertexId → Nat}

theorem mem_included {h w : VertexId} {t : T} :
    ((h, w, t) : Directed T) ∈ included L n ↔
      ∃ e ∈ (L h).take (n h), e.toVertex = w ∧ e.time = t := by
  unfold included
  rw [Finset.mem_biUnion]
  refine ⟨?_, ?_⟩
  · intro hmem
    obtain ⟨h', -, hmem⟩ := hmem
    obtain ⟨e, he, heq⟩ := List.mem_map.mp (List.mem_toFinset.mp hmem)
    obtain ⟨rfl, hrest⟩ := Prod.mk.inj heq
    obtain ⟨hw, ht⟩ := Prod.mk.inj hrest
    exact ⟨e, he, hw, ht⟩
  · intro hmem
    obtain ⟨e, he, rfl, rfl⟩ := hmem
    exact ⟨h, mem_vertices h, List.mem_toFinset.mpr (List.mem_map_of_mem he)⟩

/-- The other direction of an edge, looked for in the list of its other end. -/
theorem rev_mem_included {h : VertexId} {e : NLEdge T D} :
    (e.directed h).rev ∈ included L n ↔
      ∃ x ∈ (L e.toVertex).take (n e.toVertex), x.toVertex = h ∧ x.time = e.time :=
  mem_included

theorem included_zero : included L (fun _ => 0) = ∅ := by
  ext ⟨h, w, t⟩
  rw [mem_included]
  simp

omit [LinearOrder T] in
theorem within_update (hn : ∀ w, n w ≤ (L w).length) {h : VertexId} {k : Nat}
    (hk : k ≤ (L h).length) (w : VertexId) : Function.update n h k w ≤ (L w).length := by
  by_cases hw : w = h
  · rw [hw, Function.update_self]
    exact hk
  · rw [Function.update_of_ne hw]
    exact hn w

/-- The next edge of a list is not chosen yet. -/
theorem next_notMem (hs : Suffixes es L) {h : VertexId} {e : NLEdge T D}
    (he : (L h)[n h]? = some e) : e.directed h ∉ included L n := by
  intro hc
  obtain ⟨x, hx, -, ht⟩ := mem_included.mp hc
  obtain ⟨i, hi, hxi⟩ := List.mem_take_iff_getElem.mp hx
  obtain ⟨hn, hen⟩ := List.getElem?_eq_some_iff.mp he
  have hlt := List.pairwise_iff_getElem.mp (hs.increasing h) i (n h) (by omega) hn (by omega)
  rw [hxi, hen, ht] at hlt
  exact lt_irrefl _ hlt

/-- Taking the next edge of a list adds one directed edge. -/
theorem included_update {h : VertexId} {e : NLEdge T D} (he : (L h)[n h]? = some e) :
    included L (Function.update n h (n h + 1)) = insert (e.directed h) (included L n) := by
  ext ⟨h', w, t⟩
  rw [Finset.mem_insert, mem_included, mem_included]
  by_cases hh : h' = h
  · subst hh
    rw [Function.update_self, List.take_add_one, he, Option.toList_some]
    simp only [List.mem_append, List.mem_singleton, or_and_right, exists_or, exists_eq_left,
      NLEdge.directed, Prod.mk.injEq, true_and]
    rw [or_comm, eq_comm (a := w), eq_comm (a := t)]
  · rw [Function.update_of_ne hh]
    simp [NLEdge.directed, hh]

theorem card_included_update (hs : Suffixes es L) {h : VertexId} (hn : n h < (L h).length) :
    (included L (Function.update n h (n h + 1))).card = (included L n).card + 1 := by
  have he := List.getElem?_eq_getElem hn
  rw [included_update he, Finset.card_insert_of_notMem (next_notMem hs he)]

/-- Taking more from a list takes more edges. -/
theorem card_included_lt (hs : Suffixes es L) {h : VertexId} {k : Nat} (hlt : n h < k)
    (hk : k ≤ (L h).length) :
    (included L n).card < (included L (Function.update n h k)).card := by
  induction k with
  | zero => omega
  | succ k ih =>
      have hstep := card_included_update (n := Function.update n h k) hs (h := h)
        (by rw [Function.update_self]; omega)
      rw [Function.update_self, Function.update_idem] at hstep
      by_cases heq : n h = k
      · rw [← heq, Function.update_eq_self] at hstep
        rw [← heq]
        omega
      · have hprev := ih (by omega) (by omega)
        omega

/-- A map has at least as many edges as are chosen from its lists. -/
theorem card_included_le (m : NeighborListMap T D) (n : VertexId → Nat) :
    (included m.edges n).card ≤ edgeTotal m := by
  let all := m.entries.flatMap fun entry => entry.2.edges.map (NLEdge.directed entry.1)
  have hsub : included m.edges n ⊆ all.toFinset := by
    intro a ha
    obtain ⟨h, w, t⟩ := a
    obtain ⟨e, he, rfl, rfl⟩ := mem_included.mp ha
    have hmem := List.mem_of_mem_take he
    unfold NeighborListMap.edges at hmem
    cases hl : m.lookup h with
    | none => simp [hl] at hmem
    | some nl =>
        rw [hl] at hmem
        refine List.mem_toFinset.mpr (List.mem_flatMap.mpr ⟨⟨h, nl⟩, ?_, ?_⟩)
        · exact List.of_mem_dlookup hl
        · exact List.mem_map_of_mem hmem
  calc (included m.edges n).card ≤ all.toFinset.card := Finset.card_le_card hsub
    _ ≤ all.length := List.toFinset_card_le all
    _ = edgeTotal m := by
        unfold edgeTotal
        rw [List.length_flatMap]
        simp only [List.length_map]

/-- Chosen edges at one time are the same or partners. -/
theorem eq_or_rev (hs : Suffixes es L) {h : VertexId} {e : NLEdge T D} (he : e ∈ L h)
    {b : Directed T} (hb : b ∈ included L n) (ht : b.time = e.time) :
    b = e.directed h ∨ b = (e.directed h).rev := by
  obtain ⟨h', w, t⟩ := b
  obtain ⟨x, hx, rfl, rfl⟩ := mem_included.mp hb
  have hx' : x ∈ L h' := List.mem_of_mem_take hx
  obtain ⟨-, ⟨hh, heq⟩ | ⟨hh, hto⟩⟩ := hs.history.eq_or_back (hs.mem he) (hs.mem hx') ht.symm
  · rw [hh, heq]
    exact Or.inl rfl
  · rw [hh, hto]
    exact Or.inr (by rw [show x.time = e.time from ht]; rfl)

end Included

/-! ### What a choice costs -/

/-- The data size of the edge at a time. -/
def dataSize [SerializedSize D] (es : List (GraphEdge T D)) (t : T) : Nat :=
  ((es.find? fun e => e.time = t).map fun e => getSerializedSizeOf e.data.val).getD 0

theorem dataSize_eq [SerializedSize D] {es : List (GraphEdge T D)} (h : History es)
    {w : VertexId} {x : NLEdge T D} (hx : x ∈ incident w es) :
    dataSize es x.time = getSerializedSizeOf x.data.val := by
  obtain ⟨e, he, hat⟩ := mem_incident.mp hx
  obtain ⟨ht, hd⟩ := GraphEdge.at?_time hat
  unfold dataSize
  cases hf : es.find? fun e => e.time = x.time with
  | none =>
      have hnone := List.find?_eq_none.mp hf e he
      simp [ht] at hnone
  | some e' =>
      have hmem := List.mem_of_find?_eq_some hf
      have htime : e'.time = x.time := by simpa using List.find?_some hf
      have hee := h.eq_of_time hmem he (by rw [htime, ht])
      rw [hee, hd]
      rfl

/-- The heads edges are taken from. -/
def headCount (n : VertexId → Nat) : Nat := (vertices.filter fun h => 0 < n h).card

/-- Sixteen bytes for each directed edge, and the data of each edge once. -/
def edgeCost [SerializedSize D] (es : List (GraphEdge T D)) (L : VertexId → List (NLEdge T D))
    (n : VertexId → Nat) : Nat :=
  16 * (included L n).card + Pairing.pairSum Directed.time (dataSize es) (included L n)

/-- Eight bytes, twelve for each head, and the edges. -/
def selectionSize [SerializedSize D] (es : List (GraphEdge T D))
    (L : VertexId → List (NLEdge T D)) (n : VertexId → Nat) : Nat :=
  8 + 12 * headCount n + edgeCost es L n

section Cost

variable {es : List (GraphEdge T D)} {L : VertexId → List (NLEdge T D)} {n : VertexId → Nat}

theorem headCount_zero : headCount (fun _ => 0) = 0 := by
  simp [headCount]

theorem headCount_update_of_pos {h : VertexId} {k : Nat} (hn : 0 < n h) (hk : 0 < k) :
    headCount (Function.update n h k) = headCount n := by
  unfold headCount
  congr 1
  ext w
  simp only [Finset.mem_filter, mem_vertices, true_and]
  by_cases hw : w = h
  · rw [hw, Function.update_self]
    exact ⟨fun _ => hn, fun _ => hk⟩
  · rw [Function.update_of_ne hw]

theorem headCount_update_of_zero {h : VertexId} {k : Nat} (hn : n h = 0) (hk : 0 < k) :
    headCount (Function.update n h k) = headCount n + 1 := by
  unfold headCount
  rw [← Finset.card_insert_of_notMem (a := h) (s := vertices.filter fun w => 0 < n w)
    (by simp [hn])]
  congr 1
  ext w
  simp only [Finset.mem_filter, mem_vertices, true_and, Finset.mem_insert]
  by_cases hw : w = h
  · rw [hw, Function.update_self]
    exact ⟨fun _ => Or.inl rfl, fun _ => hk⟩
  · rw [Function.update_of_ne hw]
    simp [hw]

theorem headCount_update (n : VertexId → Nat) (h : VertexId) {k : Nat} (hk : 0 < k) :
    headCount (Function.update n h k) = headCount n + if n h = 0 then 1 else 0 := by
  by_cases hz : n h = 0
  · rw [headCount_update_of_zero hz hk, if_pos hz]
  · rw [headCount_update_of_pos (Nat.pos_of_ne_zero hz) hk, if_neg hz, Nat.add_zero]

theorem headCount_update_to_zero {h : VertexId} (hn : n h ≠ 0) :
    headCount n = headCount (Function.update n h 0) + 1 := by
  have hback : Function.update (Function.update n h 0) h (n h) = n := by
    rw [Function.update_idem, Function.update_eq_self]
  rw [← headCount_update_of_zero (n := Function.update n h 0) (Function.update_self h 0 n)
    (Nat.pos_of_ne_zero hn), hback]

/-- A choice that takes something has a head. -/
theorem headCount_pos {h : VertexId} (hn : 0 < n h) : 0 < headCount n :=
  Finset.card_pos.mpr ⟨h, Finset.mem_filter.mpr ⟨mem_vertices h, hn⟩⟩

variable [SerializedSize D]

theorem selectionSize_zero : selectionSize es L (fun _ => 0) = 8 := by
  unfold selectionSize edgeCost
  rw [headCount_zero, included_zero]
  simp [Pairing.pairSum]

/-- The next edge of a list brings its data along unless its partner is there. -/
theorem edgeCost_update (hs : Suffixes es L) {h : VertexId} {e : NLEdge T D}
    (he : (L h)[n h]? = some e) :
    edgeCost es L (Function.update n h (n h + 1))
      = edgeCost es L n + 16
        + if (e.directed h).rev ∈ included L n then 0 else getSerializedSizeOf e.data.val := by
  have hmem : e ∈ L h := List.mem_of_getElem? he
  have hnew := next_notMem hs he
  have hcard := card_included_update hs (List.getElem?_eq_some_iff.mp he).1
  have hsum : Pairing.pairSum Directed.time (dataSize es)
      (included L (Function.update n h (n h + 1)))
      = Pairing.pairSum Directed.time (dataSize es) (included L n)
        + if (e.directed h).rev ∈ included L n then 0 else getSerializedSizeOf e.data.val := by
    rw [included_update he]
    by_cases hrev : (e.directed h).rev ∈ included L n
    · rw [if_pos hrev, Nat.add_zero]
      exact Pairing.pairSum_insert_of_mem _ Directed.time_rev hrev
    · rw [if_neg hrev, ← dataSize_eq hs.history (hs.mem hmem)]
      refine Pairing.pairSum_insert_of_notMem _ hnew ?_ hrev
      intro b hb ht
      exact eq_or_rev hs hmem hb ht
  unfold edgeCost
  rw [hcard, hsum]
  omega

/-- The cost of the next edge of a list. -/
theorem selectionSize_update (hs : Suffixes es L) {h : VertexId} {e : NLEdge T D}
    (he : (L h)[n h]? = some e) :
    selectionSize es L (Function.update n h (n h + 1))
      = selectionSize es L n + 16 + (if n h = 0 then 12 else 0)
        + if (e.directed h).rev ∈ included L n then 0 else getSerializedSizeOf e.data.val := by
  unfold selectionSize
  rw [edgeCost_update hs he, headCount_update n h (Nat.succ_pos _)]
  split_ifs <;> omega

/-- Taking more from a list costs more. -/
theorem selectionSize_lt (hs : Suffixes es L) {h : VertexId} {k : Nat} (hlt : n h < k)
    (hk : k ≤ (L h).length) :
    selectionSize es L n < selectionSize es L (Function.update n h k) := by
  induction k with
  | zero => omega
  | succ k ih =>
      obtain ⟨e, he⟩ : ∃ e, (L h)[Function.update n h k h]? = some e := by
        rw [Function.update_self]
        exact ⟨_, List.getElem?_eq_getElem hk⟩
      have hstep := selectionSize_update hs he
      rw [Function.update_idem, Function.update_self] at hstep
      by_cases heq : n h = k
      · rw [← heq, Function.update_eq_self] at hstep
        rw [← heq, hstep]
        omega
      · have hprev := ih (by omega) (by omega)
        omega

/-- An edge that is chosen is paid for. -/
theorem selectionSize_ge (hs : Suffixes es L) {h : VertexId} {e : NLEdge T D}
    (he : e ∈ (L h).take (n h)) : 36 + getSerializedSizeOf e.data.val ≤ selectionSize es L n := by
  have hmem : e.directed h ∈ included L n := mem_included.mpr ⟨e, he, rfl, rfl⟩
  have hpos : 0 < n h := by
    by_contra hz
    have hz : n h = 0 := by omega
    simp [hz] at he
  have hcard : 0 < (included L n).card := Finset.card_pos.mpr ⟨_, hmem⟩
  have hheads := headCount_pos hpos
  have hsum : dataSize es (e.directed h).time
      ≤ Pairing.pairSum Directed.time (dataSize es) (included L n) :=
    Pairing.le_pairSum (dataSize es) hmem
  have hdata := dataSize_eq hs.history (hs.mem (List.mem_of_mem_take he))
  have htime : (e.directed h).time = e.time := rfl
  rw [htime, hdata] at hsum
  unfold selectionSize edgeCost
  omega

end Cost

end RailwayDB
