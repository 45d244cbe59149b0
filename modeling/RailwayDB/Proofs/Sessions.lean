/-
Any number of sessions on one storage directory.

A session is a number of calls on an open graph, each from the state the one before it
left, whether that returned or threw.  Closing the graph and opening it again keeps
what is on disk.  A call on the graph is followed down to the calls on the block
manager it is made of.
-/
import RailwayDB.Proofs.InteractionGraph
import RailwayDB.Proofs.StorageSteps

namespace RailwayDB.InteractionGraph

open Storage

variable {P T S : Type} [LinearOrder T] [LinearOrder S] [Score S] [TimeScore T S] [Timestamp T]
  [BlockTime T] [SliceIndex P T] {vertexSchema edgeSchema : Schema} {α : Type}

/-! ### The calls -/

/-- The calls of a session. -/
inductive Call (T S : Type) [LinearOrder T] where
  | createVertex (id : VertexId) (vertexData : List Value)
  | getVertexData (id : VertexId)
  | addEdge (ω : Nat → Oracle S) (v u : VertexId) (time : T) (edgeData : List Value)
  | flush (ω ω' : Nat → Oracle S) (fuel : Nat)
  | processIntervalQuery (rtree : RTree T) (startTime endTime : T)
  | processIntervalQueryBatch (rtree : RTree T) (startTime endTime : T)
  | processFocusedIntervalQuery (ω : SetOrder) (query : HistoricalGraph.FocusedIntervalQuery T)
      (fuel : Nat)
  | replaceTimeSlicedPartitioning (rtree : RTree T) (toBeReplaced : TimeSlicedPartitioning T)
      (replacement : List (TimeSlicedPartitioning T))
  | replaceTimeSlicedPartitionings (rtree : RTree T)
      (toBeReplaced : List (TimeSlicedPartitioning T)) (replacement : TimeSlicedPartitioning T)

/-- The state after a call, whether it returned or threw. -/
def Call.after (g : InteractionGraph P T S vertexSchema edgeSchema) :
    Call T S → InteractionGraph P T S vertexSchema edgeSchema
  | createVertex id vertexData => stateAfter (InteractionGraph.createVertex id vertexData) g
  | getVertexData id => stateAfter (InteractionGraph.getVertexData id) g
  | addEdge ω v u time edgeData => stateAfter (InteractionGraph.addEdge ω v u time edgeData) g
  | flush ω ω' fuel => stateAfter (InteractionGraph.flush ω ω' fuel) g
  | processIntervalQuery rtree startTime endTime =>
      stateAfter (InteractionGraph.processIntervalQuery rtree startTime endTime) g
  | processIntervalQueryBatch rtree startTime endTime =>
      stateAfter (InteractionGraph.processIntervalQueryBatch rtree startTime endTime) g
  | processFocusedIntervalQuery ω query fuel =>
      stateAfter (InteractionGraph.processFocusedIntervalQuery ω query fuel) g
  | replaceTimeSlicedPartitioning rtree toBeReplaced replacement =>
      stateAfter (InteractionGraph.replaceTimeSlicedPartitioning rtree toBeReplaced replacement) g
  | replaceTimeSlicedPartitionings rtree toBeReplaced replacement =>
      stateAfter (InteractionGraph.replaceTimeSlicedPartitionings rtree toBeReplaced replacement) g

/-! ### What a call is made of -/

/-- The historical graph went through calls on the block manager. -/
def Passes (g g' : InteractionGraph P T S vertexSchema edgeSchema) : Prop := Steps g.hisg g'.hisg

instance isPreorder_passes :
    IsPreorder (InteractionGraph P T S vertexSchema edgeSchema) Passes where
  refl _ := Relation.ReflTransGen.refl
  trans _ _ _ h h' := Relation.ReflTransGen.trans h h'

theorem passes_onHistory {S : Type} [LinearOrder S] {x : Storage P T edgeSchema α}
    (h : Keeps Steps x) :
    Keeps Passes (onHistory x : Session P T S vertexSchema edgeSchema α) := by
  intro g
  have hx := h g.hisg
  unfold Ends at hx
  unfold Ends onHistory
  cases hrun : x g.hisg with
  | ok a hisg =>
      rw [hrun] at hx
      exact hx
  | error e hisg =>
      rw [hrun] at hx
      exact hx

theorem passes_frame {S : Type} [LinearOrder S] :
    Frame (Passes : InteractionGraph P T S vertexSchema edgeSchema → _ → Prop) where
  vertices _ _ := Relation.ReflTransGen.refl
  memory _ _ := Relation.ReflTransGen.refl
  addBlock block := passes_onHistory (steps_frame.storeBlock block)
  stats g stats := Relation.ReflTransGen.single (Step.schemaStats g.hisg stats)
  addr _ _ := Relation.ReflTransGen.refl

theorem passes_addEdge (ω : Nat → Oracle S) (v u : VertexId) (time : T) (edgeData : List Value) :
    Keeps Passes (addEdge ω v u time edgeData : Session P T S vertexSchema edgeSchema Unit) := by
  unfold addEdge
  refine Keeps.ite (Keeps.throw _) ?_
  refine Keeps.get.bind fun g => Keeps.ite (Keeps.throw _) ?_
  refine Keeps.bind ?_ fun _ => passes_frame.insertEdge ω v u time edgeData
  exact Keeps.modify fun g => Relation.ReflTransGen.refl

theorem passes_flush (ω ω' : Nat → Oracle S) (fuel : Nat) :
    Keeps Passes (flush ω ω' fuel : Session P T S vertexSchema edgeSchema Unit) := by
  unfold flush
  refine Keeps.get.bind fun g => (passes_frame.expireWhile _ ω _).bind fun _ => ?_
  refine (passes_frame.writeBlocks ω' fuel).bind fun _ => ?_
  exact Keeps.modify fun g => Relation.ReflTransGen.refl

/-- Every call is a number of calls on the block manager. -/
theorem Call.passes (g : InteractionGraph P T S vertexSchema edgeSchema) (c : Call T S) :
    Steps g.hisg (c.after g).hisg := by
  cases c with
  | createVertex id vertexData => exact (passes_frame.onVertices _).stateAfter g
  | getVertexData id => exact (passes_frame.onVertices _).stateAfter g
  | addEdge ω v u time edgeData => exact (passes_addEdge ω v u time edgeData).stateAfter g
  | flush ω ω' fuel => exact (passes_flush ω ω' fuel).stateAfter g
  | processIntervalQuery rtree startTime endTime =>
      exact (passes_onHistory (steps_intervalQuery rtree startTime endTime)).stateAfter g
  | processIntervalQueryBatch rtree startTime endTime =>
      exact (passes_onHistory (steps_intervalQueryBatch rtree startTime endTime)).stateAfter g
  | processFocusedIntervalQuery ω query fuel =>
      exact (passes_onHistory (steps_focusedIntervalQuery ω query fuel)).stateAfter g
  | replaceTimeSlicedPartitioning rtree old new =>
      exact (passes_onHistory (steps_replaceTimeSlicedPartitioning rtree old new)).stateAfter g
  | replaceTimeSlicedPartitionings rtree old new =>
      exact (passes_onHistory (steps_replaceTimeSlicedPartitionings rtree old new)).stateAfter g

/-! ### Runs -/

/-- What any number of sessions on one directory reach, when each is closed in a state that meets
`closed`. -/
inductive Reached (closed : InteractionGraph P T S vertexSchema edgeSchema → Prop) :
    InteractionGraph P T S vertexSchema edgeSchema → Prop
  | new (conf : Conf) (partIndex : P) : Reached closed (.new conf partIndex)
  | call {g : InteractionGraph P T S vertexSchema edgeSchema} (c : Call T S) :
      Reached closed g → Reached closed (c.after g)
  | reopen {g : InteractionGraph P T S vertexSchema edgeSchema} (conf : Conf) :
      Reached closed g → closed g → Reached closed (g.reopen conf)

theorem Reached.calls {closed : InteractionGraph P T S vertexSchema edgeSchema → Prop}
    {g : InteractionGraph P T S vertexSchema edgeSchema} (h : Reached closed g)
    (cs : List (Call T S)) : Reached closed (cs.foldl Call.after g) := by
  induction cs generalizing g with
  | nil => exact h
  | cons c cs ih => exact ih (h.call c)

end RailwayDB.InteractionGraph
