/-
Whatever counts are set, the counters of a candidate are what a count from scratch gives.

A run sets the counts of some heads, up and down, in any order.  Afterwards the
candidate holds the counts set last; its edge count, its dangling count and its newest
time are those of the edges chosen, and its size is the one a block comes to that is
given these edges head by head.  The size of a block is counted by `Block::addEdge`,
which finds the other direction of an edge by looking, where a candidate infers it from
times.  On the way no counter is taken below zero.
-/
import RailwayDB.Proofs.Flush

namespace RailwayDB

variable {T S D : Type} [LinearOrder T] [LinearOrder S] [Score S] [TimeScore T S] [SerializedSize D]

namespace Candidate

/-- `setEdgeCount` for one head after another. -/
def setEdgeCounts (lists : NeighborListMap T D) (c : Candidate T)
    (calls : List (VertexId × Nat)) : Except Fault (Candidate T) :=
  calls.foldlM (fun c call => c.setEdgeCount lists call.1 call.2) c

/-- The counts after some calls, the last call for a head deciding. -/
def countsAfter (n : VertexId → Nat) (calls : List (VertexId × Nat)) : VertexId → Nat :=
  calls.foldl (fun n call => Function.update n call.1 call.2) n

/-- The candidate after the edges of `h` from `j` on were given back. -/
def GivenBack (lists : NeighborListMap T D) (c : Candidate T) (h : VertexId) (j : Nat)
    (c' : Candidate T) : Prop :=
  ∃ nlist, findList lists h = .ok nlist ∧
    (List.range' j (c.getEdgeCount h - j)).reverse.foldlM (dropEdge lists h nlist) c = .ok c'

/-- Setting the count of `h` to `k` takes nothing off a counter that is not there: not for an edge
that is given back, nor for the list of `h` when the last one is. -/
structure NoUnderflow (lists : NeighborListMap T D) (c : Candidate T) (h : VertexId) (k : Nat) :
    Prop where
  edges : ∀ j c', k ≤ j → j < c.getEdgeCount h → GivenBack lists c h (j + 1) c' →
    ∃ nlist edge found, findList lists h = .ok nlist ∧ nlist.getNthOldestEdge j = .ok edge ∧
      c'.hasReverseEdge lists h edge = .ok found ∧ 1 ≤ c'.edgeCount ∧
      (found = false → 1 ≤ c'.outEdgeCount) ∧
      16 + (if found then 0 else getSerializedSizeOf edge.data.val) ≤ c'.size
  head : ∀ c', k = 0 → c.getEdgeCount h ≠ 0 → GivenBack lists c h 0 c' → 12 ≤ c'.size

variable {es : List (GraphEdge T D)} {L : VertexId → List (NLEdge T D)} {n : VertexId → Nat}
  {lists : NeighborListMap T D} {c : Candidate T} {h : VertexId}

theorem countsAfter_append (n : VertexId → Nat) (before after : List (VertexId × Nat)) :
    countsAfter n (before ++ after) = countsAfter (countsAfter n before) after :=
  List.foldl_append

theorem setEdgeCounts_append (lists : NeighborListMap T D) (c : Candidate T)
    (before after : List (VertexId × Nat)) :
    setEdgeCounts lists c (before ++ after)
      = (setEdgeCounts lists c before).bind fun c' => setEdgeCounts lists c' after :=
  List.foldlM_append

theorem setEdgeCounts_singleton (lists : NeighborListMap T D) (c : Candidate T) (h : VertexId)
    (k : Nat) : setEdgeCounts lists c [(h, k)] = c.setEdgeCount lists h k := by
  unfold setEdgeCounts
  rw [List.foldlM_cons]
  simp only [List.foldlM_nil, bind_pure]

/-- What a call that is allowed keeps, a run of such calls keeps. -/
theorem setEdgeCounts_keeps {P : (VertexId → Nat) → Candidate T → Prop}
    {A : (VertexId → Nat) → VertexId → Nat → Prop} (hs : Suffixes es L)
    (hlists : Holds lists L)
    (hstep : ∀ n c c' h k, Chosen es L n c → k ≤ (L h).length → A n h k → P n c →
      c.setEdgeCount lists h k = .ok c' → P (Function.update n h k) c')
    {calls : List (VertexId × Nat)} (hc : Chosen es L n c) (hp : P n c)
    (hcalls : ∀ call ∈ calls, call.2 ≤ (L call.1).length)
    (hallowed : ∀ before h k after, calls = before ++ (h, k) :: after →
      A (countsAfter n before) h k) :
    ∃ c', setEdgeCounts lists c calls = .ok c' ∧ Chosen es L (countsAfter n calls) c' ∧
      P (countsAfter n calls) c' := by
  induction calls generalizing n c with
  | nil => exact ⟨c, rfl, hc, hp⟩
  | cons call calls ih =>
      have hk := hcalls call List.mem_cons_self
      obtain ⟨c₁, hset, hc₁⟩ := setEdgeCount_ok hs hlists hc hk
      have hp₁ := hstep n c c₁ call.1 call.2 hc hk (hallowed [] call.1 call.2 calls rfl) hp hset
      obtain ⟨c', hrest, hc', hp'⟩ := ih hc₁ hp₁
        (fun call' hmem => hcalls call' (List.mem_cons_of_mem _ hmem))
        (fun before h k after heq => hallowed (call :: before) h k after (by rw [heq]; rfl))
      refine ⟨c', ?_, hc', hp'⟩
      unfold setEdgeCounts
      rw [List.foldlM_cons, hset]
      exact hrest

/-- And so does every beginning of the run. -/
theorem setEdgeCounts_keeps_along {P : (VertexId → Nat) → Candidate T → Prop}
    {A : (VertexId → Nat) → VertexId → Nat → Prop} (hs : Suffixes es L)
    (hlists : Holds lists L)
    (hstep : ∀ n c c' h k, Chosen es L n c → k ≤ (L h).length → A n h k → P n c →
      c.setEdgeCount lists h k = .ok c' → P (Function.update n h k) c')
    {calls : List (VertexId × Nat)} (hc : Chosen es L n c) (hp : P n c)
    (hcalls : ∀ call ∈ calls, call.2 ≤ (L call.1).length)
    (hallowed : ∀ before h k after, calls = before ++ (h, k) :: after →
      A (countsAfter n before) h k)
    {before after : List (VertexId × Nat)} (heq : calls = before ++ after) :
    ∃ c', setEdgeCounts lists c before = .ok c' ∧ Chosen es L (countsAfter n before) c' ∧
      P (countsAfter n before) c' := by
  refine setEdgeCounts_keeps hs hlists hstep hc hp ?_ ?_
  · intro call hmem
    refine hcalls call ?_
    rw [heq]
    exact List.mem_append_left _ hmem
  · intro before' h k after' heq'
    refine hallowed before' h k (after' ++ after) ?_
    rw [heq, heq', List.append_assoc, List.cons_append]

theorem setEdgeCounts_ok (hs : Suffixes es L) (hlists : Holds lists L)
    {calls : List (VertexId × Nat)} (hc : Chosen es L n c)
    (hcalls : ∀ call ∈ calls, call.2 ≤ (L call.1).length) :
    ∃ c', setEdgeCounts lists c calls = .ok c' ∧ Chosen es L (countsAfter n calls) c' := by
  obtain ⟨c', hset, hc', -⟩ := setEdgeCounts_keeps (P := fun _ _ => True)
    (A := fun _ _ _ => True) hs hlists (fun _ _ _ _ _ _ _ _ _ _ => trivial) hc trivial
    hcalls (fun _ _ _ _ _ => trivial)
  exact ⟨c', hset, hc'⟩

/-- What was given back is what the loop gives back. -/
theorem GivenBack.counting (hs : Suffixes es L) (hlists : Holds lists L) (hc : Chosen es L n c)
    {j : Nat} (hj : j ≤ n h) (hh : n h ≠ 0) {c' : Candidate T}
    (hback : GivenBack lists c h j c') : Counting es L n h j c' := by
  have hlen := hc.within h
  have hne : L h ≠ [] := by
    intro hnil
    rw [hnil, List.length_nil] at hlen
    omega
  obtain ⟨nlist, hfind, hfold⟩ := hback
  rw [findList_ok hlists hne, Except.ok.injEq] at hfind
  rw [← hfind, hc.getEdgeCount] at hfold
  have hcount : Counting es L n h (j + (n h - j)) c := by
    rw [Nat.add_sub_of_le hj]
    exact hc.counting h
  obtain ⟨c'', hfold', hcount'⟩ := dropEdges_ok hs hlists hc.within hcount (by omega)
  rw [hfold', Except.ok.injEq] at hfold
  rw [← hfold]
  exact hcount'

theorem Chosen.noUnderflow (hs : Suffixes es L) (hlists : Holds lists L) (hc : Chosen es L n c)
    (h : VertexId) (k : Nat) : NoUnderflow lists c h k := by
  have hlen := hc.within h
  refine ⟨?_, ?_⟩
  · intro j c' _ hj hback
    rw [hc.getEdgeCount] at hj
    obtain ⟨e, he⟩ : ∃ e, (L h)[j]? = some e := ⟨_, List.getElem?_eq_getElem (by omega)⟩
    have hne : L h ≠ [] := List.ne_nil_of_mem (List.mem_of_getElem? he)
    have hcount := hback.counting hs hlists hc (Nat.succ_le_of_lt hj) (by omega)
    obtain ⟨hedges, hin, hout⟩ := counts_succ (n := n) hs he
    refine ⟨_, e, _, findList_ok hlists hne, getNthOldestEdge_ok he,
      hasReverseEdge_ok hs hlists hc.within (List.mem_of_getElem? he) (hcount.counts e.toVertex),
      ?_, ?_, ?_⟩
    · rw [hcount.edgeCount, hedges]
      omega
    · intro hrev
      obtain ⟨hdangling, -⟩ := hout (of_decide_eq_false hrev)
      rw [hcount.outEdgeCount, hdangling]
      omega
    · rw [hcount.size]
      by_cases hrev : (e.directed h).rev ∈ included L n
      · obtain ⟨-, hcost⟩ := hin hrev
        rw [hcost]
        simp only [hrev, decide_true, if_true]
        omega
      · obtain ⟨-, hcost⟩ := hout hrev
        rw [hcost]
        simp only [hrev, decide_false, Bool.false_eq_true, if_false]
        omega
  · intro c' _ hh hback
    rw [hc.getEdgeCount] at hh
    have hcount := hback.counting hs hlists hc (Nat.zero_le _) hh
    have hheads := headCount_pos (Nat.pos_of_ne_zero hh)
    rw [hcount.size]
    omega

end Candidate

namespace ExpirationMap

variable {conf : Conf} {es : List (GraphEdge T D)} {m : ExpirationMap T S D} {n : VertexId → Nat}

/-- The block that is given the edges chosen, the heads one after another. -/
def blockOf (m : ExpirationMap T S D) (n : VertexId → Nat) (heads : List VertexId) :
    Except Fault (Block T D) :=
  heads.foldlM (fun block v => do
    let nlist ← Candidate.findList m.neigLists v
    copyEdges block v nlist (n v)) Block.new

/-- The counters of the candidate are those of the edges chosen, and its size is that of a block
with these edges, whatever the order of its heads. -/
structure CountersExact (m : ExpirationMap T S D) (n : VertexId → Nat) (c : Candidate T) : Prop where
  edgeCount : c.edgeCount = (included m.neigLists.edges n).card
  outEdgeCount : c.outEdgeCount = ((included m.neigLists.edges n).filter
    fun a => a.rev ∉ included m.neigLists.edges n).card
  size : ∀ heads : List VertexId, heads.Nodup → (∀ w, w ∈ heads ↔ n w ≠ 0) →
    ∃ block, m.blockOf n heads = .ok block ∧ block.getSerializedSize = c.getSerializedSize
  newestTime : (∃ h, n h ≠ 0) → ∃ t, c.getNewestTime = .ok t ∧
    IsGreatest {t | ∃ a ∈ included m.neigLists.edges n, a.time = t} t

theorem countersExact_of_chosen {T S D : Type} [LinearOrder T] [LinearOrder S] [SerializedSize D]
    {es : List (GraphEdge T D)} {m : ExpirationMap T S D} {n : VertexId → Nat}
    (hm : ListsFrom es m) {c : Candidate T}
    (hc : Candidate.Chosen es m.neigLists.edges n c) : CountersExact m n c := by
  refine ⟨hc.edgeCount, hc.outEdgeCount, ?_, ?_⟩
  · intro heads hnodup hheads
    obtain ⟨block, hblock, hf⟩ := copyHeads_ok hm hc.within hnodup hheads
    refine ⟨block, hblock, ?_⟩
    unfold Block.getSerializedSize Candidate.getSerializedSize
    rw [hf.size, hc.size]
  · intro hpos
    obtain ⟨h, hh⟩ := hpos
    exact hc.getNewestTime hm.suffixes hh

/-- From any map that can be reached, any counts within the lists can be set one after another.
No assertion fails, the counters are exact afterwards, and no further call takes one below zero. -/
theorem setEdgeCounts_exact (hm : Reached conf es m) (calls : List (VertexId × Nat))
    (hcalls : ∀ call ∈ calls, call.2 ≤ (m.neigLists.edges call.1).length) :
    ∃ c, Candidate.setEdgeCounts m.neigLists Candidate.new calls = .ok c ∧
      CountersExact m (Candidate.countsAfter (fun _ => 0) calls) c ∧
      ∀ h k, k ≤ (m.neigLists.edges h).length → Candidate.NoUnderflow m.neigLists c h k := by
  obtain ⟨hsound, -⟩ := hm.sound
  obtain ⟨c, hset, hc⟩ := Candidate.setEdgeCounts_ok hsound.suffixes hsound.holds
    (Candidate.Chosen.new : Candidate.Chosen es m.neigLists.edges _ _) hcalls
  refine ⟨c, hset, countersExact_of_chosen hsound.toListsFrom hc, ?_⟩
  intro h k _
  exact hc.noUnderflow hsound.suffixes hsound.holds h k

/-! ### The other direction of an edge -/

/-- The counts of a candidate are within the lists; a head without edges has none. -/
def CountsWithin (m : ExpirationMap T S D) (c : Candidate T) : Prop :=
  ∀ w k, c.numEdges.lookup w = some k → k ≠ 0 ∧ k ≤ (m.neigLists.edges w).length

theorem CountsWithin.counts {S D : Type} [LinearOrder S] {m : ExpirationMap T S D} {c : Candidate T}
    (hc : CountsWithin m c) (w : VertexId) :
    Candidate.Counts c.numEdges c.getEdgeCount w := by
  unfold Candidate.Counts Candidate.getEdgeCount
  cases hlookup : c.numEdges.lookup w with
  | none => rfl
  | some k => exact (if_neg (hc w k hlookup).1).symm

theorem CountsWithin.within {S D : Type} [LinearOrder S] {m : ExpirationMap T S D} {c : Candidate T}
    (hc : CountsWithin m c) (w : VertexId) :
    c.getEdgeCount w ≤ (m.neigLists.edges w).length := by
  unfold Candidate.getEdgeCount
  cases hlookup : c.numEdges.lookup w with
  | none => exact Nat.zero_le _
  | some k => exact (hc w k hlookup).2

theorem countsWithin_of_chosen {S : Type} [LinearOrder S] {m : ExpirationMap T S D}
    {c : Candidate T} (hc : Candidate.Chosen es m.neigLists.edges n c) : CountsWithin m c := by
  intro w k hlookup
  have hcount := (hc.counting w).counts w
  unfold Candidate.Counts at hcount
  rw [hlookup] at hcount
  split_ifs at hcount with hz
  rw [Option.some.injEq] at hcount
  rw [hcount]
  exact ⟨hz, hc.within w⟩

/-- **The other direction of an edge is found when it is among the edges taken, and only then**, in
every map that can be reached and for every candidate whose counts are within its lists.  Setting
counts within the lists gives such candidates. -/
theorem hasReverseEdge_iff (hm : Reached conf es m) :
    (∀ calls : List (VertexId × Nat),
      (∀ call ∈ calls, call.2 ≤ (m.neigLists.edges call.1).length) →
      ∃ c, Candidate.setEdgeCounts m.neigLists Candidate.new calls = .ok c ∧ CountsWithin m c) ∧
    ∀ c, CountsWithin m c → ∀ h, ∀ e ∈ m.neigLists.edges h,
      ∃ found, c.hasReverseEdge m.neigLists h e = .ok found ∧
        (found = true ↔ ∃ x ∈ (m.neigLists.edges e.toVertex).take (c.getEdgeCount e.toVertex),
          x.toVertex = h ∧ x.time = e.time) := by
  obtain ⟨hsound, -⟩ := hm.sound
  refine ⟨?_, ?_⟩
  · intro calls hcalls
    obtain ⟨c, hset, hc⟩ := Candidate.setEdgeCounts_ok hsound.suffixes hsound.holds
      (Candidate.Chosen.new : Candidate.Chosen es m.neigLists.edges _ _) hcalls
    exact ⟨c, hset, countsWithin_of_chosen hc⟩
  · intro c hc h e he
    refine ⟨_, Candidate.hasReverseEdge_ok hsound.suffixes hsound.holds hc.within he
      (hc.counts e.toVertex), ?_⟩
    rw [decide_eq_true_iff]
    exact rev_mem_included

/-! ### A map with two edges -/

section Example

/-- Two edges between 1 and 2. -/
def pairEdges : List (GraphEdge Time (AttributeData textSchema) × Oracle ℚ) :=
  [(wordEdge 1 2 1.0 3, Oracle.plain), (wordEdge 1 2 2.0 4, Oracle.plain)]

theorem pairEdges_history : History (pairEdges.map Prod.fst) :=
  ⟨by decide +kernel, by decide +kernel⟩

/-- The map that holds them. -/
theorem pairEdges_reached :
    ∃ m : ExpirationMap Time ℚ (AttributeData textSchema),
      (new Conf.default).addEdges pairEdges = .ok m ∧
      Reached Conf.default (pairEdges.map Prod.fst) m ∧
      (m.neigLists.edges 1).length = 2 ∧ (m.neigLists.edges 2).length = 2 := by
  have heval : ((new Conf.default : ExpirationMap Time ℚ (AttributeData textSchema)).addEdges
      pairEdges).toOption.map (fun m => ((m.neigLists.edges 1).length,
        (m.neigLists.edges 2).length)) = some (2, 2) := by
    decide +kernel
  obtain ⟨m, hm, hlen⟩ := Except.of_toOption_map heval
  obtain ⟨hone, htwo⟩ := Prod.mk.inj hlen
  exact ⟨m, hm, reached_addEdges pairEdges_history hm, hone, htwo⟩

/-- All four directed edges are taken, then one is given back. -/
theorem setEdgeCounts_exact_pair :
    ∃ (m : ExpirationMap Time ℚ (AttributeData textSchema)) (c : Candidate Time),
      (new Conf.default).addEdges pairEdges = .ok m ∧
      Candidate.setEdgeCounts m.neigLists Candidate.new [(1, 2), (2, 2), (1, 1)] = .ok c ∧
      CountersExact m (Candidate.countsAfter (fun _ => 0) [(1, 2), (2, 2), (1, 1)]) c := by
  obtain ⟨m, hadd, hm, hone, htwo⟩ := pairEdges_reached
  obtain ⟨c, hset, hc, -⟩ := setEdgeCounts_exact hm [(1, 2), (2, 2), (1, 1)] (by
    simp [hone, htwo])
  exact ⟨m, c, hadd, hset, hc⟩

/-- The older edge of 2 is taken: the older edge of 1 has its other direction there, the newer one
does not. -/
theorem hasReverseEdge_iff_pair :
    ∃ (m : ExpirationMap Time ℚ (AttributeData textSchema)) (c : Candidate Time),
      (new Conf.default).addEdges pairEdges = .ok m ∧
      Candidate.setEdgeCounts m.neigLists Candidate.new [(2, 1)] = .ok c ∧
      ∀ e ∈ m.neigLists.edges 1, ∃ found, c.hasReverseEdge m.neigLists 1 e = .ok found ∧
        (found = true ↔ ∃ x ∈ (m.neigLists.edges e.toVertex).take (c.getEdgeCount e.toVertex),
          x.toVertex = 1 ∧ x.time = e.time) := by
  obtain ⟨m, hadd, hm, -, htwo⟩ := pairEdges_reached
  obtain ⟨hset, hfound⟩ := hasReverseEdge_iff hm
  obtain ⟨c, hc, hwithin⟩ := hset [(2, 1)] (by simp [htwo])
  exact ⟨m, c, hadd, hc, hfound c hwithin 1⟩

end Example

end ExpirationMap

end RailwayDB
