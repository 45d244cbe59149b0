/-
No edge is lost on the way to the blocks.

An edge enters the window, moves on to the expiration map and leaves in a block.  At
every point the edges seen so far are split in two: those that left the window and
those in it.  The window's lists are the incidence lists of the second part, and the
blocks written so far followed by the map's lists are those of the first part.  So
for each vertex the three places, read one after the other, give its edges in order.

The asserts of `removeEdge` follow: the edge at the front of the queue is the oldest
edge of the window, so it is at the front of the lists of both its ends.
-/
import RailwayDB.Core.InMemoryGraph
import RailwayDB.Proofs.Flush

namespace RailwayDB

variable {T S D : Type} [LinearOrder T] [LinearOrder S] [Score S] [TimeScore T S] [SerializedSize D]

open ExpirationMap (Sound Usable unusableFault written)

/-! ### Calls that return unless the configuration cannot write blocks -/

/-- The computation returns a value with `P`, or the configuration cannot write blocks and the
fault of that is what stopped it. -/
def Returns {α : Type} (conf : Conf) (x : Except Fault α) (P : α → Prop) : Prop :=
  (∃ a, x = .ok a ∧ P a) ∨ (¬ Usable conf ∧ x = .error (unusableFault conf))

namespace Returns

variable {α β : Type} {conf : Conf} {x : Except Fault α} {P : α → Prop}

theorem ok {a : α} (h : P a) : Returns conf (.ok a) P := Or.inl ⟨a, rfl, h⟩

theorem bind {f : α → Except Fault β} {Q : β → Prop} (hx : Returns conf x P)
    (hf : ∀ a, P a → Returns conf (f a) Q) : Returns conf (x >>= f) Q := by
  obtain ⟨a, hxa, hP⟩ | ⟨hconf, hfault⟩ := hx
  · rw [hxa, Except.ok_bind]
    exact hf a hP
  · rw [hfault, Except.error_bind]
    exact Or.inr ⟨hconf, rfl⟩

end Returns

/-! ### Blocks one after the other -/

section Written

theorem written_append {T D : Type} (blocks more : List (Block T D)) (w : VertexId) :
    written (blocks ++ more) w = written blocks w ++ written more w :=
  List.flatMap_append

theorem written_cons {T D : Type} (block : Block T D) (blocks : List (Block T D)) (w : VertexId) :
    written (block :: blocks) w = block.neigs.edges w ++ written blocks w :=
  List.flatMap_cons

end Written

/-- The blocks of a flush and what is left split every list. -/
theorem ExpirationMap.flushTurns_ok {es : List (GraphEdge T D)} (ω : Nat → Oracle S)
    (m : ExpirationMap T S D) (turns : Nat) (hm : Sound es m) :
    Returns m.conf (m.flushTurns ω turns) fun r => Sound es r.2 ∧ r.2.conf = m.conf ∧
      ∀ w, written r.1 w ++ r.2.neigLists.edges w = m.neigLists.edges w := by
  induction turns generalizing m with
  | zero => exact Returns.ok ⟨hm, rfl, fun w => rfl⟩
  | succ turns ih =>
      unfold flushTurns
      by_cases hsize : m.size = 0
      · rw [if_pos hsize]
        exact Returns.ok ⟨hm, rfl, fun w => rfl⟩
      · rw [if_neg hsize]
        by_cases husable : Usable m.conf
        · obtain ⟨block, m', hwrite, hm', hconf, hsplit, -⟩ :=
            writeBlock_ok (ω turns) hm husable fun _ => hsize
          rw [hwrite, Except.ok_bind]
          have hrest := ih m' hm'
          rw [hconf] at hrest
          refine hrest.bind ?_
          intro r hr
          obtain ⟨hr, hconf', hedges⟩ := hr
          refine Returns.ok ⟨hr, hconf', ?_⟩
          intro w
          rw [written_cons, List.append_assoc, hedges w, hsplit w]
        · rw [writeBlock_unusable (ω turns) husable]
          exact Or.inr ⟨husable, rfl⟩

namespace InMemoryGraph

variable {g : InMemoryGraph T S D} {expired window : List (GraphEdge T D)} {e : GraphEdge T D}

/-! ### The window -/

/-- The edges that left the window are with the map, the others in the window. -/
structure Held (expired window : List (GraphEdge T D)) (g : InMemoryGraph T S D) : Prop where
  history : History (expired ++ window)
  sound : Sound expired g.expm
  lists : ListsOK g.neigLists
  edges : ∀ w, g.neigLists.edges w = incident w window
  fifo : g.vfifo.edges = window.map GraphEdge.toUEdge

theorem removeFrom_ok {D : Type} {lists : NeighborListMap T D} (hlists : ListsOK lists)
    {v : VertexId} {x : NLEdge T D} {rest : List (NLEdge T D)}
    (hedges : lists.edges v = x :: rest) :
    ∃ lists', removeFrom lists v x.toVertex x.time = .ok (x.data, lists') ∧ ListsOK lists' ∧
      ∀ w, lists'.edges w = if w = v then rest else lists.edges w := by
  unfold removeFrom
  rw [hedges]
  simp only [ne_eq, not_true_eq_false, if_false]
  by_cases hrest : rest = []
  · refine ⟨lists.erase v, by simp [hrest], hlists.erase v, ?_⟩
    intro w
    rw [NeighborListMap.edges_erase, hrest]
  · refine ⟨lists.insert v ⟨v, rest⟩, by simp [hrest], hlists.insert hrest, ?_⟩
    intro w
    exact NeighborListMap.edges_insert _ _ _ _

/-- The oldest edge of the window is at the front of both its lists. -/
theorem removeEdge_ok {D : Type} {g : InMemoryGraph T S D} {expired window : List (GraphEdge T D)}
    {e : GraphEdge T D} (hg : Held expired (e :: window) g) :
    ∃ lists, g.removeEdge e.toUEdge = .ok (e.data, { g with neigLists := lists }) ∧
      ListsOK lists ∧ ∀ w, lists.edges w = incident w window := by
  have hne : e.firstVertex ≠ e.secondVertex :=
    hg.history.distinct e (List.mem_append_right _ List.mem_cons_self)
  have hcons : ∀ w, incident w (e :: window) = (e.at? w).toList ++ incident w window := by
    intro w
    rw [← incident_singleton, ← incident_append]
    rfl
  have hfirst : g.neigLists.edges e.firstVertex
      = ⟨e.secondVertex, e.time, e.data⟩ :: incident e.firstVertex window := by
    rw [hg.edges, hcons, GraphEdge.at?, if_pos rfl]
    rfl
  obtain ⟨lists₁, hremove₁, hlists₁, hedges₁⟩ := removeFrom_ok hg.lists hfirst
  have hsecond : lists₁.edges e.secondVertex
      = ⟨e.firstVertex, e.time, e.data⟩ :: incident e.secondVertex window := by
    rw [hedges₁, if_neg hne.symm, hg.edges, hcons, GraphEdge.at?, if_neg hne, if_pos rfl]
    rfl
  obtain ⟨lists₂, hremove₂, hlists₂, hedges₂⟩ := removeFrom_ok hlists₁ hsecond
  refine ⟨lists₂, ?_, hlists₂, ?_⟩
  · unfold removeEdge GraphEdge.toUEdge
    rw [hremove₁, Except.ok_bind]
    simp only [hremove₂, Except.ok_bind]
    rfl
  · intro w
    rw [hedges₂, hedges₁, hg.edges, hcons]
    by_cases h2 : w = e.secondVertex
    · rw [if_pos h2, h2]
    · rw [if_neg h2]
      by_cases h1 : w = e.firstVertex
      · rw [if_pos h1, h1]
      · rw [if_neg h1, GraphEdge.at?, if_neg (Ne.symm h1), if_neg (Ne.symm h2)]
        rfl

/-- One edge moves from the window to the map. -/
theorem expire_ok (ω : Oracle S) (hg : Held expired (e :: window) g) :
    Returns g.expm.conf (g.expire ω) fun r => Held (expired ++ [e]) window r.2 ∧
      r.2.expm.conf = g.expm.conf ∧
      ∀ w, written r.1.toList w ++ r.2.expm.neigLists.edges w
        = g.expm.neigLists.edges w ++ (e.at? w).toList := by
  obtain ⟨lists, hremove, hlists, hedges⟩ := removeEdge_ok hg
  have hes : History (expired ++ [e] ++ window) := by
    rw [List.append_assoc]
    exact hg.history
  have holdest : g.vfifo.getOldestEdge = .ok e.toUEdge := by
    unfold EdgeFIFO.getOldestEdge
    rw [hg.fifo]
    rfl
  unfold expire
  rw [holdest, Except.ok_bind, hremove, Except.ok_bind]
  obtain ⟨block, m', hadd, hm', hconf, hwritten⟩ | ⟨hconf, hfault⟩ :=
    ExpirationMap.addEdge_ok ω hg.sound hes.left
  · simp only [hadd, Except.ok_bind]
    refine Returns.ok ⟨⟨hes, hm', hlists, hedges, ?_⟩, hconf, hwritten⟩
    show g.vfifo.edges.tail = _
    rw [hg.fifo]
    rfl
  · simp only [hfault]
    exact Or.inr ⟨hconf, rfl⟩

/-! ### Loops over the window -/

/-- Some edges at the front of the window moved on, and the blocks took what the map does not
hold any more. -/
def Moves (expired window : List (GraphEdge T D)) (m : ExpirationMap T S D)
    (r : List (Block T D) × InMemoryGraph T S D) : Prop :=
  ∃ moved rest, window = moved ++ rest ∧ Held (expired ++ moved) rest r.2 ∧
    r.2.expm.conf = m.conf ∧ ∀ w, written r.1 w ++ r.2.expm.neigLists.edges w
      = m.neigLists.edges w ++ incident w moved

theorem Held.fifo_eq {D : Type} {g : InMemoryGraph T S D} {expired window : List (GraphEdge T D)}
    (hg : Held expired window g) :
    g.vfifo = ⟨g.vfifo.windowSize, window.map GraphEdge.toUEdge⟩ := by
  rw [← hg.fifo]

theorem Held.moves {D : Type} {g : InMemoryGraph T S D} {expired window : List (GraphEdge T D)}
    (hg : Held expired window g) : Moves expired window g.expm ([], g) := by
  refine ⟨[], window, rfl, ?_, rfl, ?_⟩
  · rw [List.append_nil]
    exact hg
  · intro w
    rw [incident_nil, List.append_nil]
    rfl

/-- One edge moves, then some more. -/
theorem moves_cons {D : Type} {g : InMemoryGraph T S D} {expired window : List (GraphEdge T D)}
    {e : GraphEdge T D} {block : Option (Block T D)} {g' : InMemoryGraph T S D}
    {r : List (Block T D) × InMemoryGraph T S D}
    (hwritten : ∀ w, written block.toList w ++ g'.expm.neigLists.edges w
      = g.expm.neigLists.edges w ++ (e.at? w).toList) (hconf : g'.expm.conf = g.expm.conf)
    (hr : Moves (expired ++ [e]) window g'.expm r) :
    Moves expired (e :: window) g.expm (block.toList ++ r.1, r.2) := by
  obtain ⟨moved, rest, hwindow, hheld, hconf', hrest⟩ := hr
  refine ⟨e :: moved, rest, by rw [hwindow]; rfl, ?_, hconf'.trans hconf, ?_⟩
  · rw [show expired ++ e :: moved = expired ++ [e] ++ moved by simp]
    exact hheld
  · intro w
    show written (block.toList ++ r.1) w ++ _ = _
    rw [written_append, List.append_assoc, hrest w, ← List.append_assoc, hwritten w,
      List.append_assoc, ← incident_singleton, ← incident_append]
    rfl

/-- A loop whose condition is false on an empty window ends, and moves edges on. -/
theorem expireWhile_ok {more : EdgeFIFO T → Bool} (hmore : ∀ size, more ⟨size, []⟩ = false)
    (ω : Nat → Oracle S) (fuel : Nat) (hg : Held expired window g)
    (hfuel : window.length ≤ fuel) :
    Returns g.expm.conf (g.expireWhile more ω fuel) (Moves expired window g.expm) := by
  induction fuel generalizing g expired window with
  | zero =>
      have hnil : window = [] := List.length_eq_zero_iff.mp (by omega)
      have hlast : more g.vfifo = false := by
        rw [hg.fifo_eq, hnil]
        exact hmore _
      unfold expireWhile
      rw [hlast]
      exact Returns.ok hg.moves
  | succ fuel ih =>
      unfold expireWhile
      split_ifs with hcond
      · cases window with
        | nil =>
            rw [hg.fifo_eq, List.map_nil, hmore] at hcond
            simp at hcond
        | cons e window =>
            refine (expire_ok (ω fuel) hg).bind ?_
            intro r hr
            obtain ⟨hheld, hconf, hwritten⟩ := hr
            have hrest := ih hheld (by simp at hfuel; omega)
            rw [hconf] at hrest
            refine hrest.bind ?_
            intro r' hr'
            exact Returns.ok (moves_cons hwritten hconf hr')
      · exact Returns.ok hg.moves

/-- An edge later than all others enters the window. -/
theorem enter_held {D : Type} {g : InMemoryGraph T S D} {expired window : List (GraphEdge T D)}
    {e : GraphEdge T D} (hg : Held expired window g) (hes : History (expired ++ (window ++ [e]))) :
    Held expired (window ++ [e]) (g.enter e.firstVertex e.secondVertex e.time e.data) := by
  have hne : e.secondVertex ≠ e.firstVertex :=
    (hes.distinct e (by simp)).symm
  refine ⟨hes, hg.sound, (hg.lists.addEdge _ _).addEdge _ _, ?_, ?_⟩
  · intro w
    show NeighborListMap.edges (NeighborListMap.addEdge (NeighborListMap.addEdge g.neigLists _ _)
      _ _) w = _
    rw [NeighborListMap.edges_addEdge, NeighborListMap.edges_addEdge,
      NeighborListMap.edges_addEdge, if_neg hne, hg.edges, hg.edges, incident_append,
      incident_singleton, GraphEdge.at?]
    by_cases h2 : w = e.secondVertex
    · rw [if_pos h2, h2, if_neg hne.symm, if_pos rfl]
      rfl
    · rw [if_neg h2]
      by_cases h1 : w = e.firstVertex
      · rw [if_pos h1, h1, if_pos rfl]
        rfl
      · rw [if_neg h1, if_neg (Ne.symm h1), if_neg (Ne.symm h2), hg.edges]
        simp
  · show g.vfifo.edges ++ [_] = _
    rw [hg.fifo, List.map_append]
    rfl

theorem addEdge_ok (ω : Nat → Oracle S) (hg : Held expired window g)
    (hes : History (expired ++ (window ++ [e]))) :
    Returns g.expm.conf (g.addEdge ω e.firstVertex e.secondVertex e.time e.data)
      (Moves expired (window ++ [e]) g.expm) := by
  have hheld := enter_held hg hes
  refine expireWhile_ok ?_ ω _ hheld ?_
  · intro size
    simp [EdgeFIFO.hasExpiredEdges]
  · rw [hheld.fifo, List.length_map]

/-- A flush, stopped after any number of blocks. -/
theorem flushTurns_ok (ω ω' : Nat → Oracle S) (turns : Nat) (hg : Held expired window g) :
    Returns g.expm.conf (g.flushTurns ω ω' turns) (Moves expired window g.expm) := by
  have hdrain : Returns g.expm.conf (g.drain ω) (Moves expired window g.expm) := by
    refine expireWhile_ok (fun size => rfl) ω _ hg ?_
    rw [hg.fifo, List.length_map]
  refine hdrain.bind ?_
  intro r hr
  obtain ⟨moved, rest, hwindow, hheld, hconf, hwritten⟩ := hr
  have hturns := ExpirationMap.flushTurns_ok ω' r.2.expm turns hheld.sound
  rw [hconf] at hturns
  refine hturns.bind ?_
  intro r' hr'
  obtain ⟨hsound, hconf', hedges⟩ := hr'
  refine Returns.ok ⟨moved, rest, hwindow,
    ⟨hheld.history, hsound, hheld.lists, hheld.edges, hheld.fifo⟩, hconf', ?_⟩
  intro w
  show written (r.1 ++ r'.1) w ++ r'.2.neigLists.edges w = _
  rw [written_append, List.append_assoc, hedges w, hwritten w]

/-! ### Runs -/

/-- A call of a run, with the oracles of the library calls it makes. -/
inductive Call (T S D : Type) where
  | addEdge (e : GraphEdge T D) (ω : Nat → Oracle S)
  /-- A flush as far as it got after at most `turns` blocks of the expiration map. -/
  | flush (ω ω' : Nat → Oracle S) (turns : Nat)

/-- The edge a call adds. -/
def Call.added : Call T S D → List (GraphEdge T D)
  | .addEdge e _ => [e]
  | .flush _ _ _ => []

def call (g : InMemoryGraph T S D) : Call T S D → Except Fault (List (Block T D) × InMemoryGraph T S D)
  | .addEdge e ω => g.addEdge ω e.firstVertex e.secondVertex e.time e.data
  | .flush ω ω' turns => g.flushTurns ω ω' turns

/-- Call after call; the blocks handed to the historical graph, in order. -/
def run (g : InMemoryGraph T S D) : List (Call T S D) →
    Except Fault (List (Block T D) × InMemoryGraph T S D)
  | [] => .ok ([], g)
  | c :: calls => do
      let (blocks, g) ← g.call c
      let (more, g) ← run g calls
      return (blocks ++ more, g)

/-- The three places an edge can be in, one after the other, hold the edges of each vertex. -/
structure Keeps (es : List (GraphEdge T D)) (r : List (Block T D) × InMemoryGraph T S D) :
    Prop where
  edges : ∀ w, written r.1 w ++ r.2.expm.neigLists.edges w ++ r.2.neigLists.edges w
    = incident w es
  disjoint : r.1.Pairwise fun b b' =>
    ∀ w, ∀ x ∈ b.neigs.edges w, ∀ y ∈ b'.neigs.edges w, x.time < y.time

/-- Lists that make up a list in time order are in time order among themselves. -/
theorem pairwise_written {D : Type} {blocks : List (Block T D)}
    (h : ∀ w, (written blocks w).Pairwise fun x y => x.time < y.time) :
    blocks.Pairwise fun b b' =>
      ∀ w, ∀ x ∈ b.neigs.edges w, ∀ y ∈ b'.neigs.edges w, x.time < y.time := by
  induction blocks with
  | nil => exact List.Pairwise.nil
  | cons b blocks ih =>
      have hsplit : ∀ w, (b.neigs.edges w ++ written blocks w).Pairwise
          fun x y => x.time < y.time := h
      refine List.pairwise_cons.mpr ⟨?_, ih fun w => (List.pairwise_append.mp (hsplit w)).2.1⟩
      intro b' hb' w x hx y hy
      exact (List.pairwise_append.mp (hsplit w)).2.2 x hx y (List.mem_flatMap.mpr ⟨b', hb', hy⟩)

/-- A run on top of what was there before. -/
theorem run_ok {calls : List (Call T S D)} (hg : Held expired window g)
    (hes : History (expired ++ window ++ calls.flatMap Call.added)) :
    Returns g.expm.conf (g.run calls) fun r => ∃ expired' window',
      expired ++ window ++ calls.flatMap Call.added = expired' ++ window' ∧
      Held expired' window' r.2 ∧ ∃ moved, expired' = expired ++ moved ∧
        ∀ w, written r.1 w ++ r.2.expm.neigLists.edges w
          = g.expm.neigLists.edges w ++ incident w moved := by
  induction calls generalizing g expired window with
  | nil =>
      refine Returns.ok ⟨expired, window, by simp, hg, [], by simp, ?_⟩
      intro w
      rw [incident_nil, List.append_nil]
      rfl
  | cons c calls ih =>
      have hcall : Returns g.expm.conf (g.call c) (Moves expired (window ++ c.added) g.expm) := by
        cases c with
        | addEdge e ω =>
            refine addEdge_ok ω hg ?_
            rw [List.flatMap_cons, ← List.append_assoc] at hes
            rw [← List.append_assoc]
            exact hes.left
        | flush ω ω' turns =>
            rw [Call.added, List.append_nil]
            exact flushTurns_ok ω ω' turns hg
      refine hcall.bind ?_
      intro r hr
      obtain ⟨moved, rest, hsplit, hheld, hconf, hwritten⟩ := hr
      have hassoc : expired ++ window ++ (c :: calls).flatMap Call.added
          = expired ++ moved ++ rest ++ calls.flatMap Call.added := by
        rw [List.flatMap_cons, List.append_assoc expired moved, ← hsplit]
        simp only [List.append_assoc]
      rw [hassoc] at hes ⊢
      have hrest := ih hheld hes
      rw [hconf] at hrest
      refine hrest.bind ?_
      intro r' hr'
      obtain ⟨expired', window', hsplit', hheld', moved', hexpired', hwritten'⟩ := hr'
      refine Returns.ok ⟨expired', window', hsplit', hheld', moved ++ moved', ?_, ?_⟩
      · rw [hexpired', List.append_assoc]
      · intro w
        show written (r.1 ++ r'.1) w ++ r'.2.expm.neigLists.edges w = _
        rw [written_append, List.append_assoc, hwritten' w, ← List.append_assoc, hwritten w,
          List.append_assoc, incident_append]

theorem Held.new {D : Type} (conf : Conf) : Held [] [] (new conf : InMemoryGraph T S D) :=
  ⟨History.nil, Sound.new conf, ListsOK.empty, fun _ => rfl, rfl⟩

/-- Every run, whatever the layout and the block size, keeps every edge of every vertex exactly
once and in order: blocks, then the expiration map, then the window.  It returns unless the
configuration cannot write blocks, and then no assertion of `removeEdge` is what stopped it. -/
theorem run_keeps_edges (conf : Conf) (calls : List (Call T S D))
    (hes : History (calls.flatMap Call.added)) :
    (∃ r, (new conf).run calls = .ok r ∧ Keeps (calls.flatMap Call.added) r) ∨
    (¬ Usable conf ∧ (new conf : InMemoryGraph T S D).run calls = .error (unusableFault conf) ∧
      unusableFault conf ≠ .assertFailed .removeEdgeToVertex ∧
      unusableFault conf ≠ .assertFailed .removeEdgeTime) := by
  have hrun := run_ok (Held.new conf) (show History ([] ++ [] ++ calls.flatMap Call.added) from hes)
  obtain ⟨r, hr, expired, window, hsplit, hheld, moved, hmoved, hwritten⟩ | ⟨hconf, hfault⟩ := hrun
  · refine Or.inl ⟨r, hr, ?_⟩
    have hedges : ∀ w, written r.1 w ++ r.2.expm.neigLists.edges w ++ r.2.neigLists.edges w
        = incident w (calls.flatMap Call.added) := by
      intro w
      have hw : written r.1 w ++ r.2.expm.neigLists.edges w = incident w moved := hwritten w
      rw [hw, hheld.edges, ← incident_append]
      rw [hmoved] at hsplit
      exact congrArg (incident w) hsplit.symm
    refine ⟨hedges, pairwise_written ?_⟩
    intro w
    have hincr := hes.incident_increasing w
    rw [← hedges w, List.append_assoc] at hincr
    exact (List.pairwise_append.mp hincr).1
  · refine Or.inr ⟨hconf, hfault, ?_, ?_⟩
    · unfold unusableFault
      split_ifs <;> simp
    · unfold unusableFault
      split_ifs <;> simp

section Example

open ExpirationMap (textSchema wordEdge)

/-- Two edges of vertex 1, a flush into blocks of 128 bytes, and one more edge. -/
def fewCalls : List (Call Time ℚ (AttributeData textSchema)) :=
  [.addEdge (wordEdge 1 2 1.0 3) fun _ => Oracle.plain,
    .addEdge (wordEdge 3 1 2.0 100) fun _ => Oracle.plain,
    .flush (fun _ => Oracle.plain) (fun _ => Oracle.plain) 2,
    .addEdge (wordEdge 1 2 3.0 4) fun _ => Oracle.plain]

/-- The first edge is in a block, both ways, the second in a block one way and in the map the other,
and the third in the window. -/
theorem run_keeps_edges_flush :
    ∃ r, (new { Conf.default with blockSize := 128 }).run fewCalls = .ok r ∧
      r.1.map (fun block => edgeTotal block.neigs) = [2, 1] ∧ r.2.expm.size = 1 ∧
      Keeps (fewCalls.flatMap Call.added) r := by
  have heval : ((new { Conf.default with blockSize := 128 }).run fewCalls).toOption.map
      (fun r => (r.1.map fun block => edgeTotal block.neigs, r.2.expm.size)) = some ([2, 1], 1) := by
    decide +kernel
  obtain ⟨r, hrun, hr⟩ := Except.of_toOption_map heval
  obtain ⟨hblocks, hsize⟩ := Prod.mk.inj hr
  have hhistory : History (fewCalls.flatMap Call.added) := ⟨by decide +kernel, by decide +kernel⟩
  obtain ⟨r', hrun', hkeeps⟩ | ⟨hconf, -⟩ := run_keeps_edges _ fewCalls hhistory
  · rw [hrun, Except.ok.injEq] at hrun'
    rw [← hrun'] at hkeeps
    exact ⟨r, hrun, hblocks, hsize, hkeeps⟩
  · exact absurd (by decide) hconf

end Example

end InMemoryGraph

end RailwayDB
