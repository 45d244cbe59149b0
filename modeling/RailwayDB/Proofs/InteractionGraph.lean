/-
What a call on the graph can change.

`addEdge` notes the time of the edge before it looks at anything else.  Nothing that
comes after writes that field again, so a call that throws has moved the clock: the
time it was given cannot be given again.
-/
import RailwayDB.Core.InteractionGraph
import RailwayDB.Lib.Calls
import RailwayDB.Proofs.BlockManager
import RailwayDB.Proofs.Flush

namespace RailwayDB

namespace InteractionGraph

variable {P T S : Type} [LinearOrder T] [LinearOrder S] [Score S] [TimeScore T S] [Timestamp T]
  [BlockTime T] [SliceIndex P T] {vertexSchema edgeSchema : Schema} {α β : Type}

/-! ### Frames -/

/-- A relation on states that every step between the asserts of `addEdge` and its end keeps. -/
structure Frame (R : InteractionGraph P T S vertexSchema edgeSchema →
    InteractionGraph P T S vertexSchema edgeSchema → Prop) : Prop where
  vertices : ∀ g vman, R g { g with vman := vman }
  memory : ∀ g memg, R g { g with memg := memg }
  addBlock : ∀ block, Keeps R (onHistory (HistoricalGraph.addBlock block) :
    Session P T S vertexSchema edgeSchema Unit)
  stats : ∀ g stats, R g { g with hisg := { g.hisg with metaData :=
    { g.hisg.metaData with schemaStats := stats } } }
  addr : ∀ g n, R g { g with nextAddr := n }

variable {R : InteractionGraph P T S vertexSchema edgeSchema →
    InteractionGraph P T S vertexSchema edgeSchema → Prop} [IsPreorder _ R]

section

omit [LinearOrder T] [Score S] [TimeScore T S] [Timestamp T] [BlockTime T] [SliceIndex P T]

theorem keeps_ofResult (x : Except Fault α) :
    Keeps R (ofResult x : Session P T S vertexSchema edgeSchema α) := by
  cases x with
  | ok a => exact Keeps.pure a
  | error e => exact Keeps.throw e

end

namespace Frame

variable (h : Frame R)

include h

section

omit [Score S] [TimeScore T S] [IsPreorder (InteractionGraph P T S vertexSchema edgeSchema) R]

theorem onVertices (x : VertexManager.Vertices vertexSchema α) :
    Keeps R (onVertices x : Session P T S vertexSchema edgeSchema α) := by
  intro g
  unfold Ends InteractionGraph.onVertices
  cases hx : x g.vman with
  | ok a vman => exact h.vertices g vman
  | error e vman => exact h.vertices g vman

theorem modifyMemory (f : InMemoryGraph T S (AttributeData edgeSchema) →
    InMemoryGraph T S (AttributeData edgeSchema)) :
    Keeps R (modifyMemory f : Session P T S vertexSchema edgeSchema Unit) :=
  Keeps.modify fun g => h.memory g (f g.memg)

end

section

omit [Score S] [TimeScore T S]

theorem handOver (block : Option (Block T (AttributeData edgeSchema))) :
    Keeps R (handOver block : Session P T S vertexSchema edgeSchema Unit) := by
  cases block with
  | none => exact Keeps.pure ()
  | some block => exact h.addBlock block

end

theorem expire (ω : Oracle S) :
    Keeps R (expire ω : Session P T S vertexSchema edgeSchema Unit) := by
  unfold InteractionGraph.expire
  refine Keeps.get.bind fun g => (keeps_ofResult _).bind fun oldEdge => ?_
  refine Keeps.get.bind fun g => (keeps_ofResult _).bind fun removed => ?_
  refine (h.modifyMemory _).bind fun _ => (keeps_ofResult _).bind fun added => ?_
  refine (h.modifyMemory _).bind fun _ => (h.handOver _).bind fun _ => ?_
  exact h.modifyMemory _

theorem expireWhile (more : EdgeFIFO T → Bool) (ω : Nat → Oracle S) (fuel : Nat) :
    Keeps R (expireWhile more ω fuel : Session P T S vertexSchema edgeSchema Unit) := by
  induction fuel with
  | zero =>
      unfold InteractionGraph.expireWhile
      exact Keeps.get.bind fun g => Keeps.ite (Keeps.throw _) (Keeps.pure _)
  | succ fuel ih =>
      unfold InteractionGraph.expireWhile
      exact Keeps.get.bind fun g => Keeps.ite ((h.expire _).bind fun _ => ih) (Keeps.pure _)

section

omit [Score S] [TimeScore T S]

theorem countSizes (fields : List (Nat × Value)) :
    Keeps R (countSizes fields : Session P T S vertexSchema edgeSchema Unit) := by
  induction fields with
  | nil => exact Keeps.pure ()
  | cons f fields ih =>
      unfold InteractionGraph.countSizes
      refine (keeps_ofResult _).bind fun size => ?_
      exact (Keeps.modify fun g => h.stats g _).bind fun _ => ih

end

theorem remember (ω : Nat → Oracle S) (v u : VertexId) (ts : T)
    (data : SharedPtr (AttributeData edgeSchema)) :
    Keeps R (remember ω v u ts data : Session P T S vertexSchema edgeSchema Unit) := by
  unfold InteractionGraph.remember
  refine (h.modifyMemory _).bind fun _ => Keeps.get.bind fun g => ?_
  exact (h.expireWhile _ ω _).bind fun _ => h.countSizes _

theorem insertEdge (ω : Nat → Oracle S) (v u : VertexId) (time : T) (edgeData : List Value) :
    Keeps R (insertEdge ω v u time edgeData : Session P T S vertexSchema edgeSchema Unit) := by
  unfold InteractionGraph.insertEdge InteractionGraph.getVertexData
  refine (h.onVertices _).bind fun _ => (h.onVertices _).bind fun _ => ?_
  refine Keeps.ite (Keeps.throw _) ?_
  refine Keeps.get.bind fun g => (Keeps.modify fun g => h.addr g _).bind fun _ => ?_
  exact h.remember ω v u time _

theorem writeBlocks (ω : Nat → Oracle S) (fuel : Nat) :
    Keeps R (writeBlocks ω fuel : Session P T S vertexSchema edgeSchema Unit) := by
  induction fuel with
  | zero =>
      unfold InteractionGraph.writeBlocks
      exact Keeps.get.bind fun g => Keeps.ite (Keeps.throw _) (Keeps.pure _)
  | succ fuel ih =>
      unfold InteractionGraph.writeBlocks
      refine Keeps.get.bind fun g => Keeps.ite ?_ (Keeps.pure _)
      refine Keeps.get.bind fun g => (keeps_ofResult _).bind fun written => ?_
      exact (h.modifyMemory _).bind fun _ => (h.handOver _).bind fun _ => ih

end Frame

/-! ### The clock -/

/-- The time noted last is the same. -/
def SameClock (g g' : InteractionGraph P T S vertexSchema edgeSchema) : Prop :=
  g'.lastTime = g.lastTime

instance : IsPreorder (InteractionGraph P T S vertexSchema edgeSchema) SameClock where
  refl _ := rfl
  trans _ _ _ h h' := Eq.trans h' h

theorem keeps_onHistory {T S : Type} [LinearOrder S]
    {R : InteractionGraph P T S vertexSchema edgeSchema →
      InteractionGraph P T S vertexSchema edgeSchema → Prop}
    (h : ∀ g hisg, R g { g with hisg := hisg }) (x : Storage P T edgeSchema α) :
    Keeps R (onHistory x : Session P T S vertexSchema edgeSchema α) := by
  intro g
  unfold Ends onHistory
  cases hx : x g.hisg with
  | ok a hisg => exact h g hisg
  | error e hisg => exact h g hisg

theorem sameClock_frame {S : Type} [LinearOrder S] :
    Frame (SameClock : InteractionGraph P T S vertexSchema edgeSchema → _ → Prop) :=
  ⟨fun _ _ => rfl, fun _ _ => rfl, fun _ => keeps_onHistory (fun _ _ => rfl) _, fun _ _ => rfl,
    fun _ _ => rfl⟩

variable {g g' : InteractionGraph P T S vertexSchema edgeSchema} {ω : Nat → Oracle S}
  {v u : VertexId} {time : T} {edgeData : List Value} {fault : Fault}

/-- A call past its asserts goes on from the state with the new time. -/
theorem addEdge_of_asserts (hne : v ≠ u) (htime : g.lastTime < time) :
    addEdge ω v u time edgeData g = insertEdge ω v u time edgeData { g with lastTime := time } := by
  unfold addEdge
  rw [if_neg hne]
  show (if ¬ g.lastTime < time then _ else _ : Session P T S vertexSchema edgeSchema Unit) g = _
  rw [if_neg (not_not.mpr htime)]
  rfl

/-- A time that is not later than the last one is refused. -/
theorem addEdge_of_not_lt (hne : v ≠ u) (htime : ¬ g.lastTime < time) :
    addEdge ω v u time edgeData g = .error (.assertFailed .addEdgeIncreasingTime) g := by
  unfold addEdge
  rw [if_neg hne]
  show (if ¬ g.lastTime < time then _ else _ : Session P T S vertexSchema edgeSchema Unit) g = _
  rw [if_pos htime]
  rfl

theorem addEdge_of_eq (heq : v = u) :
    addEdge ω v u time edgeData g = .error (.assertFailed .addEdgeDistinctEndpoints) g := by
  unfold addEdge
  rw [if_pos heq]
  rfl

/-- What later calls see of a state, apart from the buffers: the clock, the window with its queue,
the expiration map and the sizes counted. -/
structure Unchanged (g g' : InteractionGraph P T S vertexSchema edgeSchema) : Prop where
  lastTime : g'.lastTime = g.lastTime
  vfifo : g'.memg.vfifo = g.memg.vfifo
  neigLists : g'.memg.neigLists = g.memg.neigLists
  expm : g'.memg.expm = g.memg.expm
  schemaStats : g'.hisg.metaData.schemaStats = g.hisg.metaData.schemaStats

/-- **A call that throws is never without a trace**: the clock has moved, and no call with the same
time is accepted afterwards. -/
theorem addEdge_throw_changes (hthrow : addEdge ω v u time edgeData g = .error fault g')
    (hfault : fault.isException = true) :
    ¬ Unchanged g g' ∧ ∀ ω' v' u' edgeData', v' ≠ u' →
      addEdge ω' v' u' time edgeData' g' = .error (.assertFailed .addEdgeIncreasingTime) g' := by
  have hne : v ≠ u := by
    intro heq
    rw [addEdge_of_eq heq, EStateM.Result.error.injEq] at hthrow
    rw [← hthrow.1] at hfault
    cases hfault
  have htime : g.lastTime < time := by
    by_contra hle
    rw [addEdge_of_not_lt hne hle, EStateM.Result.error.injEq] at hthrow
    rw [← hthrow.1] at hfault
    cases hfault
  rw [addEdge_of_asserts hne htime] at hthrow
  have hkept : g'.lastTime = time :=
    (sameClock_frame.insertEdge ω v u time edgeData { g with lastTime := time }).of_error hthrow
  refine ⟨?_, ?_⟩
  · intro hsame
    have hback := hsame.lastTime
    rw [hkept] at hback
    exact absurd htime (by rw [hback]; exact lt_irrefl _)
  · intro ω' v' u' edgeData' hne'
    refine addEdge_of_not_lt hne' ?_
    rw [hkept]
    exact lt_irrefl _

/-! ### Two vertices -/

section TwoVertices

open Block BlockManager

/-- Buffers for one block, one slice and four vertices. -/
def smallConf : Conf :=
  { Conf.default with blockBufferSize := 1, partitioningBufferSize := 1, vertexDataBufferSize := 4 }

/-- A new graph with the vertices 1 and 2. -/
def twoVertices : InteractionGraph (PartitionIndex Time) Time ℚ textSchema textSchema :=
  stateAfter (do createVertex 1 [.string [], .string []]; createVertex 2 [.string [], .string []])
    (new smallConf oneSlice)

/-- An edge with one value where the schema has two. -/
def shortEdge : Session (PartitionIndex Time) Time ℚ textSchema textSchema Unit :=
  addEdge (fun _ => Oracle.plain) 1 2 atOne [.string [120]]

/-- The edge as it should have been. -/
def wholeEdge : Session (PartitionIndex Time) Time ℚ textSchema textSchema Unit :=
  addEdge (fun _ => Oracle.plain) 1 2 atOne [.string [120], .string [121]]

theorem shortEdge_throws : shortEdge twoVertices
    = .error (.runtimeError "Edge does not have the correct data for the schema.")
      (stateAfter shortEdge twoVertices) :=
  eq_of_fault? (by decide +kernel)

/-- The short edge is refused, and then so is every edge at its time. -/
theorem addEdge_throw_changes_shortEdge :
    ∃ fault g', shortEdge twoVertices = .error fault g' ∧ fault.isException = true ∧
      ¬ Unchanged twoVertices g' ∧
      wholeEdge g' = .error (.assertFailed .addEdgeIncreasingTime) g' := by
  obtain ⟨hchanged, hrefused⟩ := addEdge_throw_changes shortEdge_throws rfl
  exact ⟨_, _, shortEdge_throws, rfl, hchanged, hrefused _ 1 2 _ (by decide)⟩

/-- The whole edge is accepted before the short one was tried, and not after it. -/
theorem shortEdge_spoils_wholeEdge :
    ∃ g', shortEdge twoVertices
        = .error (.runtimeError "Edge does not have the correct data for the schema.") g' ∧
      g'.lastTime ≠ twoVertices.lastTime ∧ (∃ g'', wholeEdge twoVertices = .ok () g'') ∧
      ∃ g'', wholeEdge g' = .error (.assertFailed .addEdgeIncreasingTime) g'' := by
  have haccepted : answer? (wholeEdge twoVertices) = some () := by decide +kernel
  have hrefused : fault? (wholeEdge (stateAfter shortEdge twoVertices))
      = some (.assertFailed .addEdgeIncreasingTime) := by decide +kernel
  refine ⟨_, shortEdge_throws, by decide +kernel, of_answer? haccepted, _, eq_of_fault? hrefused⟩

end TwoVertices

end InteractionGraph

end RailwayDB
