/-
The lists and the queue of an expiration map are in step after every call.

`getBlock` takes heads out of the queue, scores them at the edge they have come to and
puts the last one back when its edge was too much, all with the lists as they were;
`removeEdges` brings the lists up to date and scores what is left of them.  What is in
the queue afterwards is one item for each list, keyed by the score of its oldest edge.
A layout that draws its scores keeps one item for each list, but a second draw need not
give the key it was queued with.
-/
import RailwayDB.Proofs.CandidateRun

namespace RailwayDB

variable {T S D : Type} [LinearOrder T] [LinearOrder S] [Score S] [TimeScore T S] [SerializedSize D]

namespace ExpirationMap

/-- No score is drawn. -/
structure Deterministic (conf : Conf) : Prop where
  layout : conf.layoutMode ≠ .random
  policy : conf.layoutMode = .smart → conf.initialCandidateSelectionPolicy ≠ .random

/-- What the members of an expiration map say of each other. -/
structure Represented (m : ExpirationMap T S D) : Prop where
  size : m.size = (m.neigLists.entries.map fun entry => entry.2.edges.length).sum
  lists : ∀ w nlist, m.neigLists.lookup w = some nlist → nlist.headVertex = w ∧
    nlist.edges ≠ [] ∧ nlist.edges.Pairwise fun x y => x.time < y.time
  ids : ∀ w, w ∈ m.neigLists ↔ ∃ s, (s, w) ∈ m.scoreQueue.getItems
  keys : ∀ s w, (s, w) ∈ m.scoreQueue.getItems → ∀ ω place, m.score ω place w 0 = .ok s

variable {conf : Conf} {es : List (GraphEdge T D)} {m : ExpirationMap T S D}

theorem Deterministic.scorer_ne (hdet : Deterministic conf) : getHeadVertexScorer conf ≠ .rand := by
  intro hrand
  unfold getHeadVertexScorer at hrand
  cases hmode : conf.layoutMode with
  | random => exact hdet.layout hmode
  | old => simp [hmode] at hrand
  | max => simp [hmode] at hrand
  | smart =>
      have hpolicy := hdet.policy hmode
      cases hsel : conf.initialCandidateSelectionPolicy with
      | random => exact hpolicy hsel
      | old => simp [hmode, hsel] at hrand
      | new => simp [hmode, hsel] at hrand
      | max => simp [hmode, hsel] at hrand
      | min => simp [hmode, hsel] at hrand

/-- A score that is not drawn is the same whoever asks. -/
theorem score_eq {T D : Type} [TimeScore T S] {m : ExpirationMap T S D}
    (hdet : Deterministic m.conf) (ω ω' : Oracle S) (place place' : Nat) (v : VertexId) (i : Nat) :
    m.score ω place v i = m.score ω' place' v i := by
  have hne := hdet.scorer_ne
  unfold score
  cases hscorer : getHeadVertexScorer m.conf with
  | rand => exact absurd hscorer hne
  | min => rfl
  | max => rfl
  | old => rfl
  | new => rfl

theorem Sound.represented {D : Type} {es : List (GraphEdge T D)} {m : ExpirationMap T S D}
    (hm : Sound es m) (hdet : Deterministic m.conf) : Represented m := by
  refine ⟨hm.size, ?_, ?_, ?_⟩
  · intro w nlist hlookup
    obtain ⟨hhead, hne⟩ := hm.lists w nlist hlookup
    have hincr := hm.suffixes.increasing w
    rw [NeighborListMap.edges_of_lookup hlookup] at hincr
    exact ⟨hhead, hne, hincr⟩
  · intro w
    simp only [PriorityQueue.mem_getItems]
    rw [hm.lists.mem_iff, ne_eq, ← hm.queued w, ← ne_eq, Option.ne_none_iff_exists']
  · intro s w hitem ω place
    obtain ⟨ω', place', hscore⟩ := hm.scored w s (PriorityQueue.mem_getItems.mp hitem)
    rw [score_eq hdet ω ω' place place', hscore]

/-- The queue has as many items as there are lists whenever `writeBlock` looks. -/
theorem Sound.writeBlock_ne_assert (hm : Sound es m) (ω : Oracle S) :
    m.writeBlock ω ≠ .error (.assertFailed .writeBlockQueueSize) := by
  intro hfault
  by_cases hconf : Usable m.conf
  · by_cases hempty : m.conf.layoutMode = .smart ∧ m.size = 0
    · rw [writeBlock_empty ω hm hempty.1 hempty.2] at hfault
      simp at hfault
    · obtain ⟨block, m', hwrite, -⟩ := writeBlock_ok ω hm hconf fun hmode hzero =>
        hempty ⟨hmode, hzero⟩
      rw [hwrite] at hfault
      simp at hfault
  · rw [writeBlock_unusable ω hconf, unusableFault] at hfault
    split_ifs at hfault
    · simp at hfault
    · simp at hfault

/-- Whatever was added and written so far, lists, size and queue agree. -/
theorem reached_represented (hm : Reached conf es m) (hdet : Deterministic conf) :
    Represented m ∧ ∀ ω, m.writeBlock ω ≠ .error (.assertFailed .writeBlockQueueSize) := by
  obtain ⟨hsound, hconf⟩ := hm.sound
  rw [← hconf] at hdet
  exact ⟨hsound.represented hdet, hsound.writeBlock_ne_assert⟩

section Example

/-- Two edges between 1 and 2, and a large one between 3 and 1. -/
def wideEdges : List (GraphEdge Time (AttributeData textSchema) × Oracle ℚ) :=
  pairEdges ++ [(wordEdge 3 1 3.0 100, Oracle.plain)]

/-- With blocks of 128 bytes a block takes the edges between 1 and 2; the map still represents the
other. -/
theorem reached_represented_written :
    ∃ (m m' : ExpirationMap Time ℚ (AttributeData textSchema))
      (block : Block Time (AttributeData textSchema)),
      (new { Conf.default with blockSize := 128 }).addEdges wideEdges = .ok m ∧
      m.writeBlock Oracle.plain = .ok (block, m') ∧ edgeTotal block.neigs = 4 ∧
      m'.neigLists.keys.length = 2 ∧ Represented m' := by
  have heval : (do
      let m ← (new { Conf.default with blockSize := 128 }).addEdges wideEdges
      let r ← m.writeBlock Oracle.plain
      Except.ok (edgeTotal r.1.neigs, r.2.neigLists.keys.length)).toOption.map id = some (4, 2) := by
    decide +kernel
  obtain ⟨r, hrun, hr⟩ := Except.of_toOption_map heval
  obtain ⟨m, hadd, hrun⟩ := Except.bind_eq_ok.mp hrun
  obtain ⟨⟨block, m'⟩, hwrite, hrun⟩ := Except.bind_eq_ok.mp hrun
  rw [Except.ok.injEq] at hrun
  rw [id, ← hrun, Prod.mk.injEq] at hr
  have hhistory : History (wideEdges.map Prod.fst) := ⟨by decide +kernel, by decide +kernel⟩
  have hm' := (reached_addEdges hhistory hadd).writeBlock hwrite
  exact ⟨m, m', block, hadd, hwrite, hr.1, hr.2,
    (reached_represented hm' ⟨by decide, fun _ => by decide⟩).1⟩

end Example

end ExpirationMap

end RailwayDB
