/-
When a candidate is given up.

A candidate is extended by an edge of a vertex it already touches, if one fits, and
otherwise by the first edge in the queue that fits.  The walk over the queue ends early
at a head whose next edge is too large, on the ground that no other edge will do: the
edge needs no new list, or is too large even without one.  But edges differ in their
data, and a smaller one may stand behind.  So a candidate may be given up although an
edge fits; that happens exactly when such a head comes before every head that has room.
-/
import RailwayDB.Proofs.CandidateRun

namespace RailwayDB

variable {T S D : Type} [LinearOrder T] [LinearOrder S] [Score S] [TimeScore T S] [SerializedSize D]

namespace ExpirationMap

/-- A candidate that started with one edge and was extended since. -/
inductive Built (m : ExpirationMap T S D) : Candidate T → Prop where
  | seed {h : VertexId} {c : Candidate T} :
      m.trySetEdgeCount Candidate.new h 1 = .ok c → Built m c
  | extend {c c' : Candidate T} {ω : Oracle S} {place turn : Nat} {done : Bool} :
      Built m c → m.extendCandidate ω place turn c = .ok (c', done) → Built m c'

/-- If an edge can be added at all, one can be that is found. -/
def NotCutOff (m : ExpirationMap T S D) (c : Candidate T) : Prop :=
  (∃ h, NextFits m c h) → Extendable m c

variable {conf : Conf} {es : List (GraphEdge T D)} {m : ExpirationMap T S D} {n : VertexId → Nat}
  {c : Candidate T} {h : VertexId}

/-! ### Candidates as choices -/

theorem Built.grows (hm : ListsFrom es m) (hc : Built m c) : Grows es m 1 c := by
  induction hc with
  | seed hset => exact grows_seed hm hset
  | @extend c c' ω place turn done _ hextend ih =>
      obtain ⟨c₁, done₁, hextend₁, hgrows, -⟩ := extendCandidate_ok hm ω place turn ih
      rw [hextend, Except.ok.injEq, Prod.mk.injEq] at hextend₁
      rw [hextend₁.1]
      exact hgrows

theorem notCutOff_iff {T S D : Type} [LinearOrder T] [LinearOrder S] [SerializedSize D]
    {es : List (GraphEdge T D)} {m : ExpirationMap T S D} {n : VertexId → Nat}
    {c : Candidate T} (hm : ListsFrom es m) (hc : Candidate.Chosen es m.neigLists.edges n c) :
    NotCutOff m c ↔ ((∃ h, Room es m n h) → (∃ v ∈ c.presentVertices, Room es m n v) ∨
      Free es m n (m.scoreQueue.getItems.map Prod.snd)) := by
  unfold NotCutOff
  rw [extendable_iff hm hc]
  simp only [nextFits_iff hm hc]

section

omit [Score S] [TimeScore T S]

/-- A choice that leaves room is below the block size. -/
theorem Room.size_lt (hm : ListsFrom es m) (hroom : Room es m n h) :
    selectionSize es m.neigLists.edges n < m.conf.blockSize :=
  lt_of_lt_of_le (selectionSize_lt hm.suffixes (Nat.lt_succ_self _) hroom.1) hroom.2

end

/-! ### Giving up -/

/-- `extendCandidate` says that the candidate cannot be extended: it is full or no next edge fits.
That is so if and only if the walk over the queue is not cut off. -/
theorem extendCandidate_maximal_iff (hm : Reached conf es m) (hc : Built m c) (ω : Oracle S)
    (place turn : Nat) :
    ∃ c' done, m.extendCandidate ω place turn c = .ok (c', done) ∧
      ((done = true → c'.getSerializedSize = m.conf.blockSize ∨
          ∀ h ∈ m.neigLists, ¬ NextFits m c' h) ↔
        NotCutOff m c) := by
  have hlists := hm.sound.1.toListsFrom
  obtain ⟨n, hc, ⟨⟨h, hh⟩, -⟩, -⟩ := hc.grows hlists
  obtain ⟨⟨c₁, best⟩, hr, ⟨hc₁, hbest⟩, hfound⟩ := findExtension_ok hlists ω place turn hc hh
  unfold extendCandidate
  rw [hr, Except.ok_bind, notCutOff_iff hlists hc]
  cases best with
  | none =>
      refine ⟨c₁, true, rfl, ?_⟩
      have hnone : ¬ ((∃ v ∈ c.presentVertices, Room es m n v) ∨
          Free es m n (m.scoreQueue.getItems.map Prod.snd)) := by
        intro hsome
        have hfalse := hfound.mpr hsome
        simp at hfalse
      have hsize : c₁.getSerializedSize = selectionSize es m.neigLists.edges n := hc₁.size
      rw [hsize]
      constructor
      · intro hmax hroom
        exfalso
        obtain ⟨v, hroom⟩ := hroom
        rcases hmax rfl with hfull | hnext
        · exact absurd hfull (hroom.size_lt hlists).ne
        · refine hnext v ?_ ((nextFits_iff hlists hc₁).mpr hroom)
          refine (hlists.lists.mem_iff v).mpr fun hnil => ?_
          have hlt := hroom.1
          rw [hnil] at hlt
          simp at hlt
      · intro hcut _
        refine Or.inr fun v _ hfits => hnone (hcut ⟨v, ?_⟩)
        exact (nextFits_iff hlists hc₁).mp hfits
  | some b =>
      obtain ⟨hlt, hle, hfits⟩ := hbest b rfl
      obtain ⟨c₂, hset, hc₂⟩ := trySetEdgeCount_ok hlists hc₁ hle
      simp only [hset, Except.ok_bind]
      refine ⟨c₂, _, rfl, ?_⟩
      refine iff_of_true ?_ fun _ => hfound.mp rfl
      intro hdone
      exact Or.inl (of_decide_eq_true hdone)

/-- An edge of the map of two edges is taken, then the next ones, until there is none. -/
def growPair (m : ExpirationMap Time ℚ (AttributeData textSchema)) :
    Except Fault (Bool × Option Nat × Option Nat) := do
  let c ← m.trySetEdgeCount Candidate.new 1 1
  let (c, _) ← m.extendCandidate Oracle.plain 0 0 c
  let (c, _) ← m.extendCandidate Oracle.plain 0 0 c
  let (c, _) ← m.extendCandidate Oracle.plain 0 0 c
  let (c, done) ← m.extendCandidate Oracle.plain 0 0 c
  return (done, (m.sizeWithNext c 1).toOption, (m.sizeWithNext c 2).toOption)

/-- It is given up when no edge is left, and was not cut off. -/
theorem extendCandidate_maximal_pair :
    ∃ (m : ExpirationMap Time ℚ (AttributeData textSchema)) (c c' : Candidate Time),
      (new Conf.default).addEdges pairEdges = .ok m ∧ Built m c ∧
      m.extendCandidate Oracle.plain 0 0 c = .ok (c', true) ∧
      (∀ h ∈ m.neigLists, ¬ NextFits m c' h) ∧ NotCutOff m c := by
  have heval : ((new Conf.default).addEdges pairEdges).toOption.map
      (fun m => (m.neigLists.keys, (growPair m).toOption))
        = some ([2, 1], some (true, none, none)) := by
    decide +kernel
  obtain ⟨m, hadd, hm⟩ := Except.of_toOption_map heval
  obtain ⟨hkeys, hgrow⟩ := Prod.mk.inj hm
  obtain ⟨c, hseed, hrest⟩ := Except.bind_eq_ok.mp (Except.of_toOption hgrow)
  obtain ⟨⟨c₁, done₁⟩, hextend₁, hrest⟩ := Except.bind_eq_ok.mp hrest
  obtain ⟨⟨c₂, done₂⟩, hextend₂, hrest⟩ := Except.bind_eq_ok.mp hrest
  obtain ⟨⟨c₃, done₃⟩, hextend₃, hrest⟩ := Except.bind_eq_ok.mp hrest
  obtain ⟨⟨c₄, done₄⟩, hextend₄, hrest⟩ := Except.bind_eq_ok.mp hrest
  simp only [Except.pure_eq_ok, Except.ok.injEq, Prod.mk.injEq] at hrest
  obtain ⟨rfl, hone, htwo⟩ := hrest
  have hbuilt : Built m c₃ := .extend (.extend (.extend (.seed hseed) hextend₁) hextend₂) hextend₃
  have hnone : ∀ h ∈ m.neigLists, ¬ NextFits m c₄ h := by
    intro h hh hfits
    obtain ⟨size, hsize, -⟩ := hfits
    rw [AList.mem_keys, hkeys] at hh
    simp only [List.mem_cons, List.not_mem_nil, or_false] at hh
    rcases hh with rfl | rfl
    · rw [hsize] at htwo
      cases htwo
    · rw [hsize] at hone
      cases hone
  obtain ⟨c', done, hextend, hiff⟩ := extendCandidate_maximal_iff
    (reached_addEdges pairEdges_history hadd) hbuilt Oracle.plain 0 0
  rw [hextend₄, Except.ok.injEq, Prod.mk.injEq] at hextend
  rw [← hextend.1] at hiff
  exact ⟨m, c₃, c₄, hadd, hbuilt, hextend₄, hnone, hiff.mp fun _ => Or.inr hnone⟩

/-! ### A large edge before a small one -/

def crampedConf : Conf := { Conf.default with blockSize := 128 }

/-- Two edges between 1 and 2, the second a large one, and a small one between 3 and 4. -/
def crampedEdges : List (GraphEdge Time (AttributeData textSchema) × Oracle ℚ) :=
  [(wordEdge 1 2 1.0 1, Oracle.plain), (wordEdge 1 2 2.0 100, Oracle.plain),
    (wordEdge 3 4 3.0 1, Oracle.plain)]

/-- A candidate that starts with the first edge of 1 and is extended twice: whether it is done, its
size, and its size with the first edge of 3. -/
def growCramped (m : ExpirationMap Time ℚ (AttributeData textSchema)) :
    Except Fault (Bool × Nat × Nat) := do
  let c ← m.trySetEdgeCount Candidate.new 1 1
  let (c, _) ← m.extendCandidate Oracle.plain 0 0 c
  let (c, done) ← m.extendCandidate Oracle.plain 0 0 c
  let size ← m.sizeWithNext c 3
  return (done, c.getSerializedSize, size)

/-- With both directions of the first edge the candidate has 69 bytes of 128.  The next edge of 1
is too large, so it is given up, although it would have 102 bytes with an edge of 3. -/
theorem extendCandidate_gives_up_early :
    ∃ (m : ExpirationMap Time ℚ (AttributeData textSchema)) (c c' : Candidate Time),
      Reached crampedConf (crampedEdges.map Prod.fst) m ∧ Built m c ∧
      m.extendCandidate Oracle.plain 0 0 c = .ok (c', true) ∧
      ¬ (c'.getSerializedSize = m.conf.blockSize ∨ ∀ h ∈ m.neigLists, ¬ NextFits m c' h) := by
  have hhistory : History (crampedEdges.map Prod.fst) := ⟨by decide +kernel, by decide +kernel⟩
  have heval : ((new crampedConf).addEdges crampedEdges).toOption.map
      (fun m => (m.conf.blockSize, decide (3 ∈ m.neigLists), (growCramped m).toOption))
        = some (128, true, some (true, 69, 102)) := by
    decide +kernel
  obtain ⟨m, hadd, hm⟩ := Except.of_toOption_map heval
  simp only [Prod.mk.injEq, decide_eq_true_eq] at hm
  obtain ⟨hblock, hmem, hgrow⟩ := hm
  obtain ⟨c, hseed, hrest⟩ := Except.bind_eq_ok.mp (Except.of_toOption hgrow)
  obtain ⟨⟨c₁, done₁⟩, hextend₁, hrest⟩ := Except.bind_eq_ok.mp hrest
  obtain ⟨⟨c₂, done₂⟩, hextend₂, hrest⟩ := Except.bind_eq_ok.mp hrest
  obtain ⟨size, hnext, hrest⟩ := Except.bind_eq_ok.mp hrest
  simp only [Except.pure_eq_ok, Except.ok.injEq, Prod.mk.injEq] at hrest
  obtain ⟨hdone, hsize, hsize'⟩ := hrest
  rw [hdone] at hextend₂
  refine ⟨m, c₁, c₂, reached_addEdges hhistory hadd, .extend (.seed hseed) hextend₁, hextend₂, ?_⟩
  rintro (hfull | hnone)
  · rw [hsize, hblock] at hfull
    simp at hfull
  · refine hnone 3 hmem ⟨size, hnext, ?_⟩
    rw [hsize', hblock]
    decide

end ExpirationMap

end RailwayDB
