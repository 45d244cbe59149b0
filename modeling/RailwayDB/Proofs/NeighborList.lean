/-
Maps of neighbour lists.

How the list under a key moves with each update, how many edges a map holds, and
what a search by end and time finds in a list whose times increase.
-/
import RailwayDB.Core.NeighborList
import Mathlib.Algebra.BigOperators.Group.List.Basic
import Mathlib.Data.List.Pairwise
import Mathlib.Data.List.TakeWhile

namespace RailwayDB

variable {T D : Type}

namespace NeighborListMap

theorem edges_empty (w : VertexId) : (∅ : NeighborListMap T D).edges w = [] := rfl

theorem edges_of_lookup {m : NeighborListMap T D} {w : VertexId} {nl : NeighborList T D}
    (h : m.lookup w = some nl) : m.edges w = nl.edges := by
  unfold edges
  rw [h]
  rfl

theorem edges_of_notMem {m : NeighborListMap T D} {w : VertexId} (h : w ∉ m) : m.edges w = [] := by
  unfold edges
  rw [AList.lookup_eq_none.mpr h]
  rfl

/-- The list of a vertex is one of the map's entries, or empty. -/
theorem edges_cases (m : NeighborListMap T D) (w : VertexId) :
    (∃ x ∈ m.entries, x.1 = w ∧ m.edges w = x.2.edges) ∨ m.edges w = [] := by
  cases hl : m.lookup w with
  | none => exact Or.inr (edges_of_notMem (AList.lookup_eq_none.mp hl))
  | some nl => exact Or.inl ⟨⟨w, nl⟩, AList.mem_lookup_iff.mp hl, rfl, edges_of_lookup hl⟩

/-- What holds of the edges in the entries holds of all edges. -/
theorem forall_edges {m : NeighborListMap T D} {P : VertexId → NLEdge T D → Prop}
    (h : ∀ x ∈ m.entries, ∀ e ∈ x.2.edges, P x.1 e) : ∀ w, ∀ e ∈ m.edges w, P w e := by
  intro w e he
  rcases m.edges_cases w with ⟨x, hx, rfl, hedges⟩ | hnone
  · rw [hedges] at he
    exact h x hx e he
  · rw [hnone] at he
    exact (List.not_mem_nil he).elim

theorem edges_insert (m : NeighborListMap T D) (v w : VertexId) (nl : NeighborList T D) :
    edges (m.insert v nl) w = if w = v then nl.edges else m.edges w := by
  unfold edges
  by_cases hw : w = v
  · rw [if_pos hw, hw, AList.lookup_insert]
    rfl
  · rw [if_neg hw, AList.lookup_insert_ne hw]

theorem edges_erase (m : NeighborListMap T D) (v w : VertexId) :
    edges (m.erase v) w = if w = v then [] else m.edges w := by
  unfold edges
  by_cases hw : w = v
  · rw [if_pos hw, hw, AList.lookup_erase]
    rfl
  · rw [if_neg hw, AList.lookup_erase_ne hw]

theorem edges_addEdge (m : NeighborListMap T D) (v w : VertexId) (e : NLEdge T D) :
    edges (m.addEdge v e) w = if w = v then m.edges v ++ [e] else m.edges w :=
  edges_insert m v w _

theorem length_keys_insert (m : NeighborListMap T D) (v : VertexId) (nl : NeighborList T D) :
    (m.insert v nl).keys.length = m.keys.length + if v ∈ m then 0 else 1 := by
  rw [AList.keys_insert, List.length_cons]
  by_cases hv : v ∈ m
  · have hmem := AList.mem_keys.mp hv
    have hpos := List.length_pos_of_mem hmem
    rw [if_pos hv, List.length_erase_of_mem hmem]
    omega
  · rw [if_neg hv, List.erase_of_not_mem fun hc => hv (AList.mem_keys.mpr hc)]

theorem length_keys_erase {m : NeighborListMap T D} {v : VertexId} (hv : v ∈ m) :
    (m.erase v).keys.length + 1 = m.keys.length := by
  have hmem := AList.mem_keys.mp hv
  have hpos := List.length_pos_of_mem hmem
  rw [AList.keys_erase, List.length_erase_of_mem hmem]
  omega

end NeighborListMap

/-- Every list stands under its own head and none is empty. -/
def ListsOK (m : NeighborListMap T D) : Prop :=
  ∀ w nl, m.lookup w = some nl → nl.headVertex = w ∧ nl.edges ≠ []

namespace ListsOK

theorem empty : ListsOK (∅ : NeighborListMap T D) := by
  intro w nl h
  simp at h

theorem mem_iff {m : NeighborListMap T D} (h : ListsOK m) (w : VertexId) :
    w ∈ m ↔ m.edges w ≠ [] := by
  rw [← AList.lookup_isSome]
  cases hl : m.lookup w with
  | none => simp [NeighborListMap.edges, hl]
  | some nl =>
      rw [NeighborListMap.edges_of_lookup hl]
      simpa using (h w nl hl).2

theorem eq_of_lookup {m : NeighborListMap T D} (h : ListsOK m) {w : VertexId}
    {nl : NeighborList T D} (hl : m.lookup w = some nl) : nl = ⟨w, m.edges w⟩ := by
  obtain ⟨hh, -⟩ := h w nl hl
  rw [NeighborListMap.edges_of_lookup hl]
  cases nl
  simp only at hh ⊢
  rw [hh]

theorem lookup_eq {m : NeighborListMap T D} (h : ListsOK m) {w : VertexId} (hw : m.edges w ≠ []) :
    m.lookup w = some ⟨w, m.edges w⟩ := by
  cases hl : m.lookup w with
  | none => simp [NeighborListMap.edges, hl] at hw
  | some nl => rw [h.eq_of_lookup hl]

theorem insert {m : NeighborListMap T D} (h : ListsOK m) {v : VertexId} {l : List (NLEdge T D)}
    (hl : l ≠ []) : ListsOK (m.insert v ⟨v, l⟩) := by
  intro w nl hw
  by_cases hwv : w = v
  · subst hwv
    rw [AList.lookup_insert, Option.some.injEq] at hw
    rw [← hw]
    exact ⟨rfl, hl⟩
  · rw [AList.lookup_insert_ne hwv] at hw
    exact h w nl hw

theorem erase {m : NeighborListMap T D} (h : ListsOK m) (v : VertexId) :
    ListsOK (m.erase v) := by
  intro w nl hw
  by_cases hwv : w = v
  · subst hwv
    simp at hw
  · rw [AList.lookup_erase_ne hwv] at hw
    exact h w nl hw

theorem addEdge {m : NeighborListMap T D} (h : ListsOK m) (v : VertexId) (e : NLEdge T D) :
    ListsOK (m.addEdge v e) :=
  h.insert (by simp)

end ListsOK

/-! ### Counting edges -/

/-- A map is one list and the rest of it. -/
theorem edgeTotal_erase (m : NeighborListMap T D) (v : VertexId) :
    edgeTotal m = (m.edges v).length + edgeTotal (m.erase v) := by
  obtain ⟨entries, hnodup⟩ := m
  unfold edgeTotal NeighborListMap.edges AList.erase AList.lookup
  simp only
  induction entries with
  | nil => simp
  | cons a entries ih =>
      obtain ⟨w, nl⟩ := a
      have hnodup' := (List.nodupKeys_cons.mp hnodup).2
      by_cases hw : v = w
      · subst hw
        rw [@List.kerase_cons_eq _ _ _ v ⟨v, nl⟩ entries rfl, List.dlookup_cons_eq]
        simp
      · rw [List.kerase_cons_ne hw, List.dlookup_cons_ne _ _ hw]
        simp only [List.map_cons, List.sum_cons]
        rw [ih hnodup']
        omega

theorem edgeTotal_insert (m : NeighborListMap T D) (v : VertexId) (nl : NeighborList T D) :
    edgeTotal (m.insert v nl) = nl.edges.length + edgeTotal (m.erase v) := by
  unfold edgeTotal
  rw [AList.entries_insert]
  rfl

/-- Only the list under the key counts differently after an update. -/
theorem edgeTotal_insert_add (m : NeighborListMap T D) (v : VertexId) (nl : NeighborList T D) :
    edgeTotal (m.insert v nl) + (m.edges v).length = edgeTotal m + nl.edges.length := by
  rw [edgeTotal_insert, edgeTotal_erase m v]
  omega

theorem edges_eq_nil_of_edgeTotal {m : NeighborListMap T D} (h : edgeTotal m = 0) (w : VertexId) :
    m.edges w = [] := by
  rw [edgeTotal_erase m w] at h
  exact List.length_eq_zero_iff.mp (by omega)

theorem edgeTotal_eq_zero {m : NeighborListMap T D} (h : ∀ w, m.edges w = []) :
    edgeTotal m = 0 := by
  refine List.sum_eq_zero ?_
  intro k hk
  obtain ⟨⟨w, nl⟩, hmem, rfl⟩ := List.mem_map.mp hk
  have hw := h w
  rw [NeighborListMap.edges_of_lookup (AList.mem_lookup_iff.mpr hmem)] at hw
  rw [hw]
  rfl

/-! ### Replacing a list -/

namespace NeighborListMap

/-- The list under `v` is `l` now; an empty list has no entry. -/
def setList (m : NeighborListMap T D) (v : VertexId) (l : List (NLEdge T D)) :
    NeighborListMap T D :=
  if l.isEmpty then m.erase v else m.insert v ⟨v, l⟩

theorem edges_setList (m : NeighborListMap T D) (v w : VertexId) (l : List (NLEdge T D)) :
    (m.setList v l).edges w = if w = v then l else m.edges w := by
  unfold setList
  by_cases hempty : l.isEmpty = true
  · rw [if_pos hempty, edges_erase, List.isEmpty_iff.mp hempty]
  · rw [if_neg hempty, edges_insert]

theorem setList_listsOK {m : NeighborListMap T D} (h : ListsOK m) (v : VertexId)
    (l : List (NLEdge T D)) : ListsOK (m.setList v l) := by
  unfold setList
  by_cases hempty : l.isEmpty = true
  · rw [if_pos hempty]
    exact h.erase v
  · rw [if_neg hempty]
    exact h.insert fun hc => hempty (List.isEmpty_iff.mpr hc)

theorem mem_setList {m : NeighborListMap T D} (h : ListsOK m) (v : VertexId)
    (l : List (NLEdge T D)) : v ∈ m.setList v l ↔ l.isEmpty = false := by
  rw [(setList_listsOK h v l).mem_iff, edges_setList, if_pos rfl, ne_eq, ← List.isEmpty_iff,
    Bool.not_eq_true]

theorem length_keys_setList {m : NeighborListMap T D} {v : VertexId} (hv : v ∈ m)
    (l : List (NLEdge T D)) :
    m.keys.length = (m.setList v l).keys.length + if l.isEmpty then 1 else 0 := by
  unfold setList
  by_cases hempty : l.isEmpty = true
  · rw [if_pos hempty, if_pos hempty, length_keys_erase hv]
  · rw [if_neg hempty, if_neg hempty, length_keys_insert, if_pos hv]
    rfl

theorem edgeTotal_setList (m : NeighborListMap T D) (v : VertexId) (l : List (NLEdge T D)) :
    edgeTotal (m.setList v l) + (m.edges v).length = edgeTotal m + l.length := by
  unfold setList
  by_cases hempty : l.isEmpty = true
  · rw [if_pos hempty, List.isEmpty_iff.mp hempty, edgeTotal_erase m v, List.length_nil]
    omega
  · rw [if_neg hempty]
    exact edgeTotal_insert_add m v ⟨v, l⟩

end NeighborListMap

/-! ### Searching by end and time -/

/-- The front of a list up to where a test fails is all that passes it, when whatever stands before
a passing element passes too. -/
theorem takeWhile_eq_filter {α : Type} {p : α → Bool} {l : List α}
    (hdown : l.Pairwise fun x y => p y = true → p x = true) : l.takeWhile p = l.filter p := by
  induction l with
  | nil => rfl
  | cons a l ih =>
      obtain ⟨ha, hrest⟩ := List.pairwise_cons.mp hdown
      by_cases hp : p a = true
      · rw [List.takeWhile_cons_of_pos hp, List.filter_cons_of_pos hp, ih hrest]
      · rw [List.takeWhile_cons_of_neg hp, List.filter_cons_of_neg hp, eq_comm,
          List.filter_eq_nil_iff]
        intro b hb hpb
        exact hp (ha b hb hpb)

theorem dropWhile_eq_filter {α : Type} {p : α → Bool} {l : List α}
    (hdown : l.Pairwise fun x y => p y = true → p x = true) :
    l.dropWhile p = l.filter fun a => !p a := by
  induction l with
  | nil => rfl
  | cons a l ih =>
      obtain ⟨ha, hrest⟩ := List.pairwise_cons.mp hdown
      by_cases hp : p a = true
      · rw [List.dropWhile_cons_of_pos hp, List.filter_cons_of_neg (by simp [hp]), ih hrest]
      · rw [List.dropWhile_cons_of_neg hp, eq_comm, List.filter_eq_self]
        intro b hb
        rcases List.mem_cons.mp hb with rfl | hb
        · simpa using hp
        · by_contra hpb
          exact hp (ha b hb (by simpa using hpb))

theorem dropWhile_lt_eq [LinearOrder T] {l : List (NLEdge T D)} {x : NLEdge T D}
    (hincr : l.Pairwise fun x y => x.time < y.time) (hx : x ∈ l) :
    ∃ rest, (l.dropWhile fun e => e.time < x.time) = x :: rest := by
  induction l with
  | nil => simp at hx
  | cons y l ih =>
      obtain ⟨hy, hincr'⟩ := List.pairwise_cons.mp hincr
      rcases List.mem_cons.mp hx with hxy | hx
      · refine ⟨l, ?_⟩
        rw [List.dropWhile_cons_of_neg (by simp [hxy]), hxy]
      · rw [List.dropWhile_cons_of_pos (by simpa using hy x hx)]
        exact ih hincr' hx

namespace NeighborList

variable [LinearOrder T]

/-- An edge of the list is found by its end and time. -/
theorem getEdgeAttributeData_of_mem {nl : NeighborList T D}
    (hincr : nl.edges.Pairwise fun x y => x.time < y.time) {x : NLEdge T D} (hx : x ∈ nl.edges) :
    nl.getEdgeAttributeData x.toVertex x.time = some x.data := by
  obtain ⟨rest, hrest⟩ := dropWhile_lt_eq hincr hx
  unfold getEdgeAttributeData
  rw [hrest, List.takeWhile_cons_of_pos (by simp), List.find?_cons_of_pos (by simp)]
  rfl

/-- What is found is an edge of the list. -/
theorem getEdgeAttributeData_eq_some {nl : NeighborList T D} {w : VertexId} {tm : T}
    {d : SharedPtr D} (h : nl.getEdgeAttributeData w tm = some d) :
    ∃ x ∈ nl.edges, x.toVertex = w ∧ x.time = tm ∧ x.data = d := by
  unfold getEdgeAttributeData at h
  rw [Option.map_eq_some_iff] at h
  obtain ⟨x, hfind, hd⟩ := h
  have htake := List.mem_of_find?_eq_some hfind
  have htm : x.time = tm := by simpa using List.mem_takeWhile_imp htake
  have hmem := (List.dropWhile_sublist _).mem ((List.takeWhile_sublist _).mem htake)
  exact ⟨x, hmem, by simpa using List.find?_some hfind, htm, hd⟩

/-- What is searched are the edges at the time asked for. -/
theorem getEdgeAttributeData_eq_find? {nl : NeighborList T D}
    (hsorted : nl.edges.Pairwise fun x y => x.time ≤ y.time) (w : VertexId) (tm : T) :
    nl.getEdgeAttributeData w tm
      = ((nl.edges.filter fun e => ¬ e.time < tm ∧ e.time = tm).find?
          fun e => e.toVertex = w).map NLEdge.data := by
  have hdrop : (nl.edges.dropWhile fun e => e.time < tm)
      = nl.edges.filter fun e => ¬ e.time < tm := by
    rw [dropWhile_eq_filter]
    · simp only [decide_not]
    · refine hsorted.imp ?_
      intro x y hle hy
      exact decide_eq_true (lt_of_le_of_lt hle (of_decide_eq_true hy))
  have htake : ((nl.edges.filter fun e => ¬ e.time < tm).takeWhile fun e => e.time = tm)
      = nl.edges.filter fun e => ¬ e.time < tm ∧ e.time = tm := by
    rw [takeWhile_eq_filter, List.filter_filter]
    · simp only [Bool.decide_and, Bool.and_comm]
    · refine List.Pairwise.imp_of_mem ?_ (hsorted.sublist List.filter_sublist)
      intro x y hx _ hle hy
      have hge := of_decide_eq_true (List.mem_filter.mp hx).2
      rw [of_decide_eq_true hy] at hle
      exact decide_eq_true (le_antisymm hle (not_lt.mp hge))
  unfold getEdgeAttributeData
  rw [hdrop, htake]

/-- In a list in time order, nothing is found only if nothing is there. -/
theorem getEdgeAttributeData_eq_none_iff {l : NeighborList T D}
    (hsorted : l.edges.Pairwise fun x y => x.time ≤ y.time) {w : VertexId} {t : T} :
    l.getEdgeAttributeData w t = none
      ↔ ¬ ∃ x ∈ l.edges, x.toVertex = w ∧ x.time = t := by
  rw [getEdgeAttributeData_eq_find? hsorted, Option.map_eq_none_iff, List.find?_eq_none]
  refine ⟨?_, ?_⟩
  · intro hnone hx
    obtain ⟨x, hx, hto, ht⟩ := hx
    have hmem : x ∈ l.edges.filter fun e => ¬ e.time < t ∧ e.time = t := by
      refine List.mem_filter.mpr ⟨hx, decide_eq_true ⟨?_, ht⟩⟩
      rw [ht]
      exact lt_irrefl t
    exact hnone x hmem (decide_eq_true hto)
  · intro hnone x hx hto
    obtain ⟨hmem, htime⟩ := List.mem_filter.mp hx
    exact hnone ⟨x, hmem, of_decide_eq_true hto, (of_decide_eq_true htime).2⟩

end NeighborList

end RailwayDB
