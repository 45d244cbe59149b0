/-
The edges a graph was given, in order.

A history is a list of edges with strictly increasing times and distinct ends.  A
time then names an edge, and the edges of a vertex come out of the history in
increasing time.  Every list the pipeline keeps is a stretch of such an incidence
list; `back` is what makes the two directions of an edge find each other.
-/
import RailwayDB.Core.NeighborList
import Mathlib.Data.List.Pairwise
import Mathlib.Order.Lattice

namespace RailwayDB

/-- An edge as it was added. -/
structure GraphEdge (T D : Type) where
  firstVertex : VertexId
  secondVertex : VertexId
  time : T
  data : SharedPtr D

namespace GraphEdge

variable {T D : Type}

/-- The edge as one of its ends sees it. -/
def at? (e : GraphEdge T D) (w : VertexId) : Option (NLEdge T D) :=
  if e.firstVertex = w then some ⟨e.secondVertex, e.time, e.data⟩
  else if e.secondVertex = w then some ⟨e.firstVertex, e.time, e.data⟩
  else none

def toUEdge (e : GraphEdge T D) : UEdge T := ⟨e.firstVertex, e.secondVertex, e.time⟩

theorem at?_time {e : GraphEdge T D} {w : VertexId} {x : NLEdge T D} (h : e.at? w = some x) :
    x.time = e.time ∧ x.data = e.data := by
  unfold at? at h
  split_ifs at h
  · rw [← Option.some.inj h]
    exact ⟨rfl, rfl⟩
  · rw [← Option.some.inj h]
    exact ⟨rfl, rfl⟩

/-- What one end sees, the other sees from its side. -/
theorem at?_back {e : GraphEdge T D} (hne : e.firstVertex ≠ e.secondVertex) {w : VertexId}
    {x : NLEdge T D} (h : e.at? w = some x) : e.at? x.toVertex = some ⟨w, x.time, x.data⟩ := by
  unfold at? at h ⊢
  split_ifs at h with h1 h2
  · rw [← Option.some.inj h, if_neg hne, if_pos rfl, h1]
  · rw [← Option.some.inj h, if_pos rfl, h2]

theorem at?_ne {e : GraphEdge T D} (hne : e.firstVertex ≠ e.secondVertex) {w : VertexId}
    {x : NLEdge T D} (h : e.at? w = some x) : x.toVertex ≠ w := by
  unfold at? at h
  split_ifs at h with h1 h2
  · rw [← Option.some.inj h, ← h1]
    exact fun hc => hne hc.symm
  · rw [← Option.some.inj h]
    exact h1

end GraphEdge

/-- The edges at `w`, oldest first. -/
def incident {T D : Type} (w : VertexId) (es : List (GraphEdge T D)) : List (NLEdge T D) :=
  es.filterMap fun e => e.at? w

section Incident

variable {T D : Type} {es : List (GraphEdge T D)} {w : VertexId}

@[simp] theorem incident_nil : incident w ([] : List (GraphEdge T D)) = [] := rfl

theorem incident_append (es es' : List (GraphEdge T D)) :
    incident w (es ++ es') = incident w es ++ incident w es' :=
  List.filterMap_append

theorem incident_singleton (e : GraphEdge T D) : incident w [e] = (e.at? w).toList := by
  unfold incident
  cases h : e.at? w with
  | none => simp [h]
  | some x => simp [h]

theorem mem_incident {x : NLEdge T D} :
    x ∈ incident w es ↔ ∃ e ∈ es, e.at? w = some x :=
  List.mem_filterMap

end Incident

/-- Increasing times, and no edge from a vertex to itself. -/
structure History {T D : Type} [LinearOrder T] (es : List (GraphEdge T D)) : Prop where
  increasing : es.Pairwise fun e e' => e.time < e'.time
  distinct : ∀ e ∈ es, e.firstVertex ≠ e.secondVertex

namespace History

variable {T D : Type} [LinearOrder T] {es es' : List (GraphEdge T D)} {w : VertexId}

theorem nil : History ([] : List (GraphEdge T D)) :=
  ⟨List.Pairwise.nil, fun _ h => by simp at h⟩

theorem left (h : History (es ++ es')) : History es := by
  refine ⟨(List.pairwise_append.mp h.increasing).1, ?_⟩
  intro e he
  exact h.distinct e (List.mem_append_left _ he)

/-- A time names an edge. -/
theorem eq_of_time (h : History es) {e e' : GraphEdge T D} (he : e ∈ es) (he' : e' ∈ es)
    (ht : e.time = e'.time) : e = e' := by
  by_contra hne
  have hall : ∀ a ∈ es, ∀ b ∈ es, a ≠ b → a.time ≠ b.time := by
    intro a ha b hb
    refine List.Pairwise.forall_of_forall_of_flip
      (R := fun a b : GraphEdge T D => a ≠ b → a.time ≠ b.time) ?_ ?_ ?_ ha hb
    · intro c _ hc
      exact absurd rfl hc
    · refine h.increasing.imp ?_
      intro a b hlt _
      exact ne_of_lt hlt
    · refine h.increasing.imp ?_
      intro a b hlt _
      exact ne_of_gt hlt
  exact hall e he e' he' hne ht

/-- The edges of a vertex come in increasing time. -/
theorem incident_increasing (h : History es) (w : VertexId) :
    (incident w es).Pairwise fun x y => x.time < y.time := by
  unfold incident
  rw [List.pairwise_filterMap]
  refine h.increasing.imp ?_
  intro e e' hlt x hx y hy
  rw [(GraphEdge.at?_time hx).1, (GraphEdge.at?_time hy).1]
  exact hlt

/-- The other direction of an edge. -/
theorem back (h : History es) {x : NLEdge T D} (hx : x ∈ incident w es) :
    ⟨w, x.time, x.data⟩ ∈ incident x.toVertex es ∧ x.toVertex ≠ w := by
  obtain ⟨e, he, hat⟩ := mem_incident.mp hx
  have hne := h.distinct e he
  exact ⟨mem_incident.mpr ⟨e, he, GraphEdge.at?_back hne hat⟩, GraphEdge.at?_ne hne hat⟩

/-- Two edges at one time are the two directions of one edge, or the same direction. -/
theorem eq_or_back (h : History es) {v : VertexId} {x y : NLEdge T D} (hx : x ∈ incident w es)
    (hy : y ∈ incident v es) (ht : x.time = y.time) :
    x.data = y.data ∧ (v = w ∧ y = x ∨ v = x.toVertex ∧ y.toVertex = w) := by
  obtain ⟨e, he, hat⟩ := mem_incident.mp hx
  obtain ⟨e', he', hat'⟩ := mem_incident.mp hy
  have hee : e = e' := by
    apply h.eq_of_time he he'
    rw [← (GraphEdge.at?_time hat).1, ← (GraphEdge.at?_time hat').1]
    exact ht
  subst hee
  refine ⟨by rw [(GraphEdge.at?_time hat).2, (GraphEdge.at?_time hat').2], ?_⟩
  by_cases hvw : v = w
  · subst hvw
    rw [hat, Option.some.injEq] at hat'
    exact Or.inl ⟨rfl, hat'.symm⟩
  · refine Or.inr ?_
    have hback := GraphEdge.at?_back (h.distinct e he) hat
    unfold GraphEdge.at? at hat hat'
    split_ifs at hat hat' with h1 h2 h3 h4 h5
    · exact absurd (h2.symm.trans h1) hvw
    · rw [← Option.some.inj hat, ← Option.some.inj hat']
      exact ⟨h3.symm, h1⟩
    · rw [← Option.some.inj hat, ← Option.some.inj hat']
      exact ⟨h5.symm, h4⟩
    · rename_i h6
      exact absurd (h6.symm.trans h4) hvw

end History

end RailwayDB
