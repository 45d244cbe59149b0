/-
What the traversals visit.

Both follow an edge only to a vertex that was visited already.  At the start that is
the start vertex alone, and no edge leads from a vertex to itself, so neither ever
follows one: each runs one query, for the start vertex, and is done.  That is the
set of vertices reachable from it exactly when it has no edge in the range.

The loop over the edges is compared with a query gone through to the end: where the
body changes nothing, the two end in the same way.
-/
import RailwayDB.Core.Traversal
import RailwayDB.Proofs.BlockIds
import RailwayDB.Lib.Calls
import Mathlib.Logic.Relation

namespace RailwayDB.ExpSetupHelper

open HistoricalGraph (FocusedIntervalQuery EdgeIterator)
open InteractionGraph (onHistory processFocusedIntervalQuery)

variable {P T S : Type} [LinearOrder T] [LinearOrder S] [Timestamp T] [BlockTime T]
  [SliceIndex P T] {vertexSchema edgeSchema : Schema} {α : Type}

/-! ### A loop that changes nothing -/

section Inert

variable {ω : SetOrder} {g : InteractionGraph P T S vertexSchema edgeSchema}
  {body : EdgeIterator.Found T edgeSchema → α → Session P T S vertexSchema edgeSchema α} {a : α}
  {found : List (EdgeIterator.Found T edgeSchema)}

theorem onHistory_ok {T : Type} {g : InteractionGraph P T S vertexSchema edgeSchema} {β : Type}
    {x : Storage P T edgeSchema β} {b : β} {hisg : HistoricalGraph P T edgeSchema}
    (hx : x g.hisg = .ok b hisg) :
    onHistory x g = .ok b { g with hisg := hisg } := by
  unfold onHistory
  rw [hx]

/-- The loop at the end of the edges. -/
theorem forEdges_done {iqIt : EdgeIterator T} (hv : iqIt.valid? = none) (fuel : Nat) :
    forEdges ω body fuel iqIt a g = .ok a g := by
  unfold forEdges
  rw [hv]
  rfl

/-- The loop returns what it was given, if it has the fuel for all edges, and nothing else. -/
theorem forEdges_inert {fuel₀ : Nat} {iqIt : EdgeIterator T} {hisg : HistoricalGraph P T edgeSchema}
    (hresults : EdgeIterator.results ω fuel₀ iqIt g.hisg = .ok found hisg)
    (hinert : ∀ e ∈ found, ∀ g, body e a g = .ok a g) (fuel : Nat) :
    (fuel₀ ≤ fuel → ∃ g', forEdges ω body fuel iqIt a g = .ok a g') ∧
      ∀ a' g', forEdges ω body fuel iqIt a g = .ok a' g' → a' = a := by
  induction fuel₀ generalizing iqIt g found hisg fuel with
  | zero =>
      unfold EdgeIterator.results at hresults
      cases hv : iqIt.valid? with
      | some c =>
          rw [hv] at hresults
          exact absurd hresults throw_ne_ok
      | none =>
          rw [forEdges_done hv]
          exact ⟨fun _ => ⟨g, rfl⟩, fun a' g' h => (EStateM.Result.ok.inj h).1.symm⟩
  | succ fuel₀ ih =>
      unfold EdgeIterator.results at hresults
      cases hv : iqIt.valid? with
      | none =>
          rw [forEdges_done hv]
          exact ⟨fun _ => ⟨g, rfl⟩, fun a' g' h => (EStateM.Result.ok.inj h).1.symm⟩
      | some c =>
          rw [hv] at hresults
          obtain ⟨edge, h₁, hedge, hresults⟩ := run_bind_eq_ok.mp hresults
          obtain ⟨data, h₂, hdata, hresults⟩ := run_bind_eq_ok.mp hresults
          obtain ⟨iqIt', h₃, hnext, hresults⟩ := run_bind_eq_ok.mp hresults
          obtain ⟨rest, h₄, hrest, hresults⟩ := run_bind_eq_ok.mp hresults
          have hfound : ⟨edge.toVertex, edge.time, data⟩ :: rest = found :=
            (EStateM.Result.ok.inj hresults).1
          rw [← hfound] at hinert
          cases fuel with
          | zero =>
              refine ⟨fun h => absurd h (by omega), ?_⟩
              intro a' g' h
              unfold forEdges at h
              rw [hv] at h
              exact absurd h throw_ne_ok
          | succ fuel =>
              have hloop : forEdges ω body (fuel + 1) iqIt a g =
                  forEdges ω body fuel iqIt' a { g with hisg := h₃ } := by
                conv_lhs => unfold forEdges
                rw [hv]
                show (onHistory (iqIt.getEdge c) >>= _) g = _
                rw [run_bind_ok (onHistory_ok hedge), run_bind_ok (onHistory_ok hdata),
                  run_bind_ok (hinert _ List.mem_cons_self _), run_bind_ok (onHistory_ok hnext)]
              rw [hloop]
              obtain ⟨hok, honly⟩ := ih (g := { g with hisg := h₃ }) hrest
                (fun e he => hinert e (List.mem_cons_of_mem _ he)) fuel
              exact ⟨fun h => hok (by omega), honly⟩

/-- The same for a query and its loop. -/
theorem forQuery_inert {query : FocusedIntervalQuery T} {fuel₀ : Nat}
    {g₀ : InteractionGraph P T S vertexSchema edgeSchema}
    (hquery : processFocusedIntervalQuery ω query fuel₀ g = .ok found g₀)
    (hinert : ∀ e ∈ found, ∀ g, body e a g = .ok a g) (edgeFuel : Nat) :
    (fuel₀ ≤ edgeFuel → ∃ g', forQuery ω query edgeFuel body a g = .ok a g') ∧
      ∀ a' g', forQuery ω query edgeFuel body a g = .ok a' g' → a' = a := by
  unfold processFocusedIntervalQuery HistoricalGraph.focusedIntervalQuery onHistory at hquery
  cases hx : (EdgeIterator.new ω query >>= fun ei => EdgeIterator.results ω fuel₀ ei) g.hisg with
  | error e hisg =>
      rw [hx] at hquery
      simp at hquery
  | ok found' hisg =>
      rw [hx] at hquery
      have hsame : found' = found := (EStateM.Result.ok.inj hquery).1
      rw [hsame] at hx
      obtain ⟨iqIt, h₁, hnew, hresults⟩ := run_bind_eq_ok.mp hx
      unfold forQuery
      rw [run_bind_ok (onHistory_ok hnew)]
      exact forEdges_inert (g := { g with hisg := h₁ }) hresults hinert edgeFuel

end Inert

/-! ### What a traversal is for -/

/-- The vertices have an edge with its time in the range of the query. -/
def Adjacent {D : Type} (content : List (GraphEdge T D)) (query : FocusedIntervalQuery T)
    (u v : VertexId) : Prop :=
  ∃ e ∈ content, query.startTime ≤ e.time ∧ e.time < query.endTime ∧
    ((e.firstVertex = u ∧ e.secondVertex = v) ∨ (e.firstVertex = v ∧ e.secondVertex = u))

/-- Reached from the head of the query over such edges. -/
def Reachable {D : Type} (content : List (GraphEdge T D)) (query : FocusedIntervalQuery T) :
    VertexId → Prop :=
  Relation.ReflTransGen (Adjacent content query) query.headVertex

/-- With enough fuel the traversal returns, having run one query for every reachable vertex and no
other, with these vertices visited. -/
def VisitsReachable {D : Type} (content : List (GraphEdge T D)) (query : FocusedIntervalQuery T)
    (traversal : Nat → Nat → Session P T S vertexSchema edgeSchema Visits)
    (g : InteractionGraph P T S vertexSchema edgeSchema) : Prop :=
  ∃ edgeFuel fuel visits g', traversal edgeFuel fuel g = .ok visits g' ∧ visits.queries.Nodup ∧
    (∀ v, v ∈ visits.queries ↔ Reachable content query v) ∧
    ∀ v, v ∈ visits.visited ↔ Reachable content query v

/-- The graph answers the query with the edges of its head in the range. -/
def Answers {D : Type} (ω : SetOrder) (content : List (GraphEdge T D))
    (query : FocusedIntervalQuery T) (g : InteractionGraph P T S vertexSchema edgeSchema) : Prop :=
  ∃ fuel found g', processFocusedIntervalQuery ω query fuel g = .ok found g' ∧
    ∀ v, v ∈ found.map EdgeIterator.Found.toVertex ↔ Adjacent content query query.headVertex v

/-! ### What the traversals do -/

section Outcome

variable {D : Type} {content : List (GraphEdge T D)} {ω : SetOrder}
  {query : FocusedIntervalQuery T} {g : InteractionGraph P T S vertexSchema edgeSchema}

/-- Only the start vertex is visited, by one query. -/
def startOnly (query : FocusedIntervalQuery T) : Visits :=
  ⟨{query.headVertex}, [query.headVertex]⟩

/-- No vertex has an edge to itself. -/
theorem Adjacent.ne {T : Type} [LinearOrder T] {content : List (GraphEdge T D)}
    {query : FocusedIntervalQuery T} {u v : VertexId}
    (hloops : ∀ e ∈ content, e.firstVertex ≠ e.secondVertex) (h : Adjacent content query u v) :
    u ≠ v := by
  intro heq
  obtain ⟨x, hx, -, -, hends⟩ := h
  rw [heq] at hends
  rcases hends with ⟨hfirst, hsecond⟩ | ⟨hfirst, hsecond⟩
  · exact hloops x hx (hfirst.trans hsecond.symm)
  · exact hloops x hx (hfirst.trans hsecond.symm)

/-- No edge found leads back to the start vertex. -/
theorem ne_head_of_found {T : Type} [LinearOrder T] {content : List (GraphEdge T D)}
    {query : FocusedIntervalQuery T} (hloops : ∀ e ∈ content, e.firstVertex ≠ e.secondVertex)
    {found : List (EdgeIterator.Found T edgeSchema)}
    (hfound : ∀ v, v ∈ found.map EdgeIterator.Found.toVertex ↔
      Adjacent content query query.headVertex v) {e : EdgeIterator.Found T edgeSchema}
    (he : e ∈ found) :
    e.toVertex ∉ (startOnly query).visited := by
  intro hhead
  have hadj := (hfound e.toVertex).mp (List.mem_map_of_mem he)
  exact hadj.ne hloops (Finset.mem_singleton.mp hhead).symm

/-- The depth-first search returns after the query for the start vertex. -/
theorem dfs_outcome (hloops : ∀ e ∈ content, e.firstVertex ≠ e.secondVertex)
    (hanswers : Answers ω content query g) :
    (∃ edgeFuel fuel g', dfs ω edgeFuel fuel query ⟨∅, []⟩ g = .ok (startOnly query) g') ∧
      ∀ edgeFuel fuel visits g', dfs ω edgeFuel fuel query ⟨∅, []⟩ g = .ok visits g' →
        visits = startOnly query := by
  obtain ⟨fuel₀, found, g₀, hquery, hfound⟩ := hanswers
  have hinert : ∀ fuel edgeFuel, ∀ e ∈ found, ∀ g : InteractionGraph P T S vertexSchema edgeSchema,
      (if e.toVertex ∈ (startOnly query).visited then
        dfs ω edgeFuel fuel { query with headVertex := e.toVertex } (startOnly query)
      else pure (startOnly query)) g = .ok (startOnly query) g := by
    intro fuel edgeFuel e he g
    rw [if_neg (ne_head_of_found hloops hfound he)]
    rfl
  refine ⟨⟨fuel₀, 1, ?_⟩, ?_⟩
  · exact (forQuery_inert hquery (hinert 0 fuel₀) fuel₀).1 (Nat.le_refl _)
  · intro edgeFuel fuel visits g' hrun
    cases fuel with
    | zero => exact absurd hrun throw_ne_ok
    | succ fuel => exact (forQuery_inert hquery (hinert fuel edgeFuel) edgeFuel).2 _ _ hrun

/-- So does the breadth-first search. -/
theorem bfs_outcome (hloops : ∀ e ∈ content, e.firstVertex ≠ e.secondVertex)
    (hanswers : Answers ω content query g) :
    (∃ edgeFuel fuel g', bfs ω edgeFuel fuel query g = .ok (startOnly query) g') ∧
      ∀ edgeFuel fuel visits g', bfs ω edgeFuel fuel query g = .ok visits g' →
        visits = startOnly query := by
  obtain ⟨fuel₀, found, g₀, hquery, hfound⟩ := hanswers
  have hinert : ∀ e ∈ found, ∀ g : InteractionGraph P T S vertexSchema edgeSchema,
      bfsEdge e ([], startOnly query) g = .ok ([], startOnly query) g := by
    intro e he g
    unfold bfsEdge
    rw [if_neg (ne_head_of_found hloops hfound he)]
    rfl
  refine ⟨?_, ?_⟩
  · obtain ⟨g', hloop⟩ := (forQuery_inert hquery hinert fuel₀).1 (Nat.le_refl _)
    refine ⟨fuel₀, 1, g', ?_⟩
    show (forQuery ω query fuel₀ bfsEdge ([], startOnly query) >>= fun r =>
      bfsLoop ω fuel₀ query 0 r.1 r.2) g = _
    rw [run_bind_ok hloop]
    rfl
  · intro edgeFuel fuel visits g' hrun
    cases fuel with
    | zero => exact absurd hrun throw_ne_ok
    | succ fuel =>
        have hrun : (forQuery ω query edgeFuel bfsEdge ([], startOnly query) >>= fun r =>
          bfsLoop ω edgeFuel query fuel r.1 r.2) g = .ok visits g' := hrun
        obtain ⟨r, g₁, hloop, hrest⟩ := run_bind_eq_ok.mp hrun
        have hr := (forQuery_inert hquery hinert edgeFuel).2 _ _ hloop
        rw [hr] at hrest
        cases fuel with
        | zero => exact (EStateM.Result.ok.inj hrest).1.symm
        | succ fuel => exact (EStateM.Result.ok.inj hrest).1.symm

/-- Without an edge in the range nothing else is reachable. -/
theorem reachable_of_isolated {T : Type} [LinearOrder T] {content : List (GraphEdge T D)}
    {query : FocusedIntervalQuery T} (h : ∀ v, ¬ Adjacent content query query.headVertex v)
    (v : VertexId) : Reachable content query v ↔ v = query.headVertex := by
  refine ⟨?_, ?_⟩
  · intro hv
    rcases Relation.ReflTransGen.cases_head hv with heq | ⟨u, hu, -⟩
    · exact heq.symm
    · exact absurd hu (h u)
  · intro heq
    rw [heq]
    exact Relation.ReflTransGen.refl

/-- A traversal that only runs the query for the start vertex visits the reachable vertices when
that is all of them. -/
theorem visitsReachable_iff_isolated {T : Type} [LinearOrder T] {content : List (GraphEdge T D)}
    {query : FocusedIntervalQuery T} {g : InteractionGraph P T S vertexSchema edgeSchema}
    (hloops : ∀ e ∈ content, e.firstVertex ≠ e.secondVertex)
    {traversal : Nat → Nat → Session P T S vertexSchema edgeSchema Visits}
    (hrun : ∃ edgeFuel fuel g', traversal edgeFuel fuel g = .ok (startOnly query) g')
    (honly : ∀ edgeFuel fuel visits g', traversal edgeFuel fuel g = .ok visits g' →
      visits = startOnly query) :
    VisitsReachable content query traversal g ↔
      ∀ v, ¬ Adjacent content query query.headVertex v := by
  refine ⟨?_, ?_⟩
  · intro hvisits v hadj
    obtain ⟨edgeFuel, fuel, visits, g', hok, -, -, hvisited⟩ := hvisits
    rw [honly edgeFuel fuel visits g' hok] at hvisited
    have hhead : v = query.headVertex :=
      Finset.mem_singleton.mp ((hvisited v).mpr (Relation.ReflTransGen.single hadj))
    exact hadj.ne hloops hhead.symm
  · intro hisolated
    obtain ⟨edgeFuel, fuel, g', hok⟩ := hrun
    refine ⟨edgeFuel, fuel, startOnly query, g', hok, List.nodup_singleton _, ?_, ?_⟩
    · intro v
      rw [reachable_of_isolated hisolated]
      exact List.mem_singleton
    · intro v
      rw [reachable_of_isolated hisolated]
      exact Finset.mem_singleton

/-- **The traversals visit the reachable vertices exactly when there is nothing to traverse.** -/
theorem visitsReachable_iff (hloops : ∀ e ∈ content, e.firstVertex ≠ e.secondVertex)
    (hanswers : Answers ω content query g) :
    (VisitsReachable content query (fun edgeFuel fuel => dfs ω edgeFuel fuel query ⟨∅, []⟩) g ↔
      ∀ v, ¬ Adjacent content query query.headVertex v) ∧
    (VisitsReachable content query (fun edgeFuel fuel => bfs ω edgeFuel fuel query) g ↔
      ∀ v, ¬ Adjacent content query query.headVertex v) := by
  obtain ⟨hdfs, hdfsOnly⟩ := dfs_outcome hloops hanswers
  obtain ⟨hbfs, hbfsOnly⟩ := bfs_outcome hloops hanswers
  exact ⟨visitsReachable_iff_isolated hloops hdfs hdfsOnly,
    visitsReachable_iff_isolated hloops hbfs hbfsOnly⟩

end Outcome

/-! ### One stored edge -/

section Example

open InteractionGraph (flushed)
open Block (atOne textSchema)

/-- The edge between 1 and 2 that was flushed. -/
def storedEdge : List (GraphEdge Time Unit) := [⟨1, 2, atOne, ⟨0, ()⟩⟩]

/-- The edges of 1 from one second to the next. -/
def edgesFrom (start end_ : Float) : FocusedIntervalQuery Time :=
  ⟨1, Time.ofFloat start, Time.ofFloat end_, [[97]]⟩

def asListed : SetOrder := ⟨id, fun l => List.Perm.refl l⟩

/-- The ends of the edges a query finds. -/
def foundVertices (query : FocusedIntervalQuery Time) (fuel : Nat) : Option (List VertexId) :=
  (answer? (processFocusedIntervalQuery asListed query fuel flushed)).map
    (List.map EdgeIterator.Found.toVertex)

theorem answers_of_found {query : FocusedIntervalQuery Time} {fuel : Nat} {ends : List VertexId}
    (hfound : foundVertices query fuel = some ends)
    (hends : ∀ v, v ∈ ends ↔ Adjacent storedEdge query query.headVertex v) :
    Answers asListed storedEdge query flushed := by
  obtain ⟨found, hanswer, hlist⟩ := Option.map_eq_some_iff.mp hfound
  obtain ⟨g', hquery⟩ := of_answer? hanswer
  exact ⟨fuel, found, g', hquery, by rw [hlist]; exact hends⟩

theorem isolated_before (v : VertexId) : ¬ Adjacent storedEdge (edgesFrom 0.0 0.5) 1 v := by
  intro ⟨e, he, _, hlt, _⟩
  rw [List.mem_singleton.mp he] at hlt
  exact absurd hlt (by decide +kernel)

theorem answers_before : Answers asListed storedEdge (edgesFrom 0.0 0.5) flushed := by
  have hfound : foundVertices (edgesFrom 0.0 0.5) 2 = some [] := by decide +kernel
  refine answers_of_found hfound ?_
  intro v
  exact iff_of_false List.not_mem_nil (isolated_before v)

theorem answers_around : Answers asListed storedEdge (edgesFrom 0.0 2.0) flushed := by
  have hfound : foundVertices (edgesFrom 0.0 2.0) 2 = some [2] := by decide +kernel
  refine answers_of_found hfound ?_
  intro v
  rw [List.mem_singleton]
  refine ⟨?_, ?_⟩
  · intro hv
    rw [hv]
    exact ⟨_, List.mem_singleton_self _, by decide +kernel, by decide +kernel, Or.inl ⟨rfl, rfl⟩⟩
  · intro ⟨e, he, _, _, hends⟩
    rw [List.mem_singleton.mp he] at hends
    rcases hends with ⟨-, hv⟩ | ⟨-, hsecond⟩
    · exact hv.symm
    · exact absurd hsecond (by decide)

theorem loops_storedEdge : ∀ e ∈ storedEdge, e.firstVertex ≠ e.secondVertex := by
  intro e he
  rw [List.mem_singleton.mp he]
  decide

/-- Before the edge there is nothing to traverse. -/
theorem visitsReachable_before :
    VisitsReachable storedEdge (edgesFrom 0.0 0.5)
      (fun edgeFuel fuel => dfs asListed edgeFuel fuel (edgesFrom 0.0 0.5) ⟨∅, []⟩) flushed ∧
    VisitsReachable storedEdge (edgesFrom 0.0 0.5)
      (fun edgeFuel fuel => bfs asListed edgeFuel fuel (edgesFrom 0.0 0.5)) flushed := by
  obtain ⟨hdfs, hbfs⟩ := visitsReachable_iff loops_storedEdge answers_before
  exact ⟨hdfs.mpr isolated_before, hbfs.mpr isolated_before⟩

/-- The other end of the edge is never visited. -/
theorem not_visitsReachable_around :
    Answers asListed storedEdge (edgesFrom 0.0 2.0) flushed ∧
    ¬ VisitsReachable storedEdge (edgesFrom 0.0 2.0)
      (fun edgeFuel fuel => dfs asListed edgeFuel fuel (edgesFrom 0.0 2.0) ⟨∅, []⟩) flushed ∧
    ¬ VisitsReachable storedEdge (edgesFrom 0.0 2.0)
      (fun edgeFuel fuel => bfs asListed edgeFuel fuel (edgesFrom 0.0 2.0)) flushed := by
  have hedge : Adjacent storedEdge (edgesFrom 0.0 2.0) (edgesFrom 0.0 2.0).headVertex 2 :=
    ⟨_, List.mem_singleton_self _, by decide +kernel, by decide +kernel, Or.inl ⟨rfl, rfl⟩⟩
  obtain ⟨hdfs, hdfsOnly⟩ := dfs_outcome loops_storedEdge answers_around
  obtain ⟨hbfs, hbfsOnly⟩ := bfs_outcome loops_storedEdge answers_around
  refine ⟨answers_around, ?_, ?_⟩
  · intro hvisits
    exact (visitsReachable_iff_isolated loops_storedEdge hdfs hdfsOnly).mp hvisits 2 hedge
  · intro hvisits
    exact (visitsReachable_iff_isolated loops_storedEdge hbfs hbfsOnly).mp hvisits 2 hedge

end Example

end RailwayDB.ExpSetupHelper
