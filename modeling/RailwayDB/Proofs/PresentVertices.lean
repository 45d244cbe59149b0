/-
How often a candidate thinks a vertex is present.

A vertex is present once as a head and once for every edge that is chosen and leads to
it.  Taking and giving back edges counts that up and down, and giving back the last
edge of a head takes off its own presence.  Opening a head does not add to the count:
it sets it to one, whatever it was.  So the counts are right as long as no head is
opened to which a chosen edge leads already, and wrong as soon as one is.  In a block
that grows along its edges that is how most heads come in.
-/
import RailwayDB.Proofs.CandidateRun

namespace RailwayDB

/-! ### Counts in a hash map -/

section Tally

variable {K : Type} [DecidableEq K] {m : AList fun _ : K => Nat} {f : K → Nat} {k : K}

/-- The map holds the counts `f`, and no entry where the count is zero. -/
def Tallies (m : AList fun _ : K => Nat) (f : K → Nat) : Prop :=
  ∀ k, m.lookup k = if f k = 0 then none else some (f k)

theorem Tallies.getD (h : Tallies m f) (k : K) : (m.lookup k).getD 0 = f k := by
  rw [h k]
  split_ifs with hz
  · rw [hz]
    rfl
  · rfl

/-- The keys are what is counted at least once. -/
theorem Tallies.mem_iff (h : Tallies m f) (k : K) : k ∈ m ↔ 0 < f k := by
  rw [← AList.lookup_isSome, h k]
  split_ifs with hz
  · simp [hz]
  · simp [Nat.pos_of_ne_zero hz]

theorem Tallies.insert (h : Tallies m f) {x : Nat} (hx : x ≠ 0) :
    Tallies (m.insert k x) (Function.update f k x) := by
  intro k'
  by_cases hk : k' = k
  · rw [hk, AList.lookup_insert, Function.update_self, if_neg hx]
  · rw [AList.lookup_insert_ne hk, Function.update_of_ne hk]
    exact h k'

theorem Tallies.erase (h : Tallies m f) : Tallies (m.erase k) (Function.update f k 0) := by
  intro k'
  by_cases hk : k' = k
  · rw [hk, AList.lookup_erase, Function.update_self, if_pos rfl]
  · rw [AList.lookup_erase_ne hk, Function.update_of_ne hk]
    exact h k'

theorem Tallies.countUp (h : Tallies m f) (hlt : f k + 1 < 2 ^ 64) :
    Tallies (countUp m k) (Function.update f k (f k + 1)) := by
  unfold RailwayDB.countUp
  rw [h.getD, Nat.mod_eq_of_lt hlt]
  exact h.insert (Nat.succ_ne_zero _)

/-- A count that is not zero goes down by one, and at zero the entry goes. -/
theorem Tallies.countDown (h : Tallies m f) (hpos : 0 < f k) (hlt : f k < 2 ^ 64) :
    Tallies (countDown m k) (Function.update f k (f k - 1)) := by
  have hmod : (f k + (2 ^ 64 - 1)) % 2 ^ 64 = f k - 1 := by
    rw [show f k + (2 ^ 64 - 1) = f k - 1 + 2 ^ 64 by omega, Nat.add_mod_right,
      Nat.mod_eq_of_lt (by omega)]
  unfold RailwayDB.countDown
  simp only [h.getD, hmod]
  split_ifs with hz
  · rw [hz]
    exact h.erase
  · exact h.insert hz

end Tally

namespace Candidate

variable {T D : Type} [LinearOrder T] [SerializedSize D] {es : List (GraphEdge T D)}
  {L : VertexId → List (NLEdge T D)} {n : VertexId → Nat} {lists : NeighborListMap T D}
  {c c' : Candidate T} {h : VertexId} {nlist : NeighborList T D} {e : NLEdge T D} {j k : Nat}

/-! ### What the loops do to the two maps -/

/-- Taking an edge counts its end, and the pair if the other direction is there. -/
theorem takeEdge_maps (htake : takeEdge lists h nlist c j = .ok c') :
    ∃ e found, nlist.getNthOldestEdge j = .ok e ∧ c.hasReverseEdge lists h e = .ok found ∧
      c'.presentVertices = countUp c.presentVertices e.toVertex ∧
      c'.internalEdges = if found then countUp c.internalEdges (SUEdge.of h e.toVertex)
        else c.internalEdges := by
  unfold takeEdge at htake
  obtain ⟨e, he, htake⟩ := Except.bind_eq_ok.mp htake
  obtain ⟨found, hfound, htake⟩ := Except.bind_eq_ok.mp htake
  refine ⟨e, found, he, hfound, ?_⟩
  cases found with
  | true =>
      simp only [if_true] at htake
      split_ifs at htake with hz
      · exact absurd htake (by simp)
      · rw [← Except.ok.inj htake]
        exact ⟨rfl, rfl⟩
  | false =>
      simp only [Bool.false_eq_true, if_false] at htake
      rw [← Except.ok.inj htake]
      exact ⟨rfl, rfl⟩

theorem dropEdge_maps (hdrop : dropEdge lists h nlist c j = .ok c') :
    ∃ e found, nlist.getNthOldestEdge j = .ok e ∧ c.hasReverseEdge lists h e = .ok found ∧
      c'.presentVertices = countDown c.presentVertices e.toVertex ∧
      c'.internalEdges = if found then countDown c.internalEdges (SUEdge.of h e.toVertex)
        else c.internalEdges := by
  unfold dropEdge at hdrop
  obtain ⟨e, he, hdrop⟩ := Except.bind_eq_ok.mp hdrop
  obtain ⟨found, hfound, hdrop⟩ := Except.bind_eq_ok.mp hdrop
  refine ⟨e, found, he, hfound, ?_⟩
  cases found with
  | true =>
      simp only [if_true] at hdrop
      rw [← Except.ok.inj hdrop]
      simp only [if_true, and_self]
  | false =>
      simp only [Bool.false_eq_true, if_false] at hdrop
      split_ifs at hdrop with hz
      · exact absurd hdrop (by simp)
      · rw [← Except.ok.inj hdrop]
        simp only [Bool.false_eq_true, if_false, and_self]

/-- Opening a head sets its presence to one; closing it takes one off. -/
theorem setHead_maps {D : Type} {nlist : NeighborList T D} {cn k : Nat}
    (hset : setHead h nlist c cn k = .ok c') :
    (c'.presentVertices =
      let present := if cn = 0 then c.presentVertices.insert h 1 else c.presentVertices
      if k = 0 then countDown present h else present) ∧ c'.internalEdges = c.internalEdges := by
  unfold setHead at hset
  by_cases hk : k = 0
  · rw [if_pos hk] at hset
    rw [← Except.ok.inj hset]
    simp only [hk, if_true]
    split_ifs <;> exact ⟨rfl, rfl⟩
  · rw [if_neg hk] at hset
    obtain ⟨newest, -, hset⟩ := Except.map_eq_ok.mp hset
    rw [← hset]
    simp only [hk, if_false]
    split_ifs <;> exact ⟨rfl, rfl⟩

theorem getNthOldestEdge_eq_ok {T D : Type} {e : NLEdge T D} {w : VertexId} {l : List (NLEdge T D)}
    (he : NeighborList.getNthOldestEdge ⟨w, l⟩ j = .ok e) : l[j]? = some e := by
  unfold NeighborList.getNthOldestEdge at he
  simp only at he
  split at he
  · rename_i e' he'
    rw [← Except.ok.inj he]
    exact he'
  · exact absurd he (by simp)

/-- What taking and giving back one edge keeps, moving to a count keeps. -/
theorem moveEdges_keeps {P : Nat → Candidate T → Prop} {cn : Nat}
    (htake : ∀ i c c', cn ≤ i → i < k → P i c → takeEdge lists h nlist c i = .ok c' →
      P (i + 1) c')
    (hdrop : ∀ i c c', k ≤ i → i < cn → P (i + 1) c → dropEdge lists h nlist c i = .ok c' →
      P i c')
    (hc : P cn c) (hmove : moveEdges lists h nlist c cn k = .ok c') : P k c' := by
  unfold moveEdges at hmove
  split_ifs at hmove with hlt
  · have hend := Except.foldlM_range'_ok
      (fun i a b hle hi => htake i a b hle (by omega)) hc hmove
    rwa [Nat.add_sub_of_le (le_of_lt hlt)] at hend
  · refine Except.foldlM_range'_reverse_ok (k := cn - k)
      (fun i a b hle hi => hdrop i a b hle (by omega)) ?_ hmove
    rwa [Nat.add_sub_of_le (not_lt.mp hlt)]

/-- A call changes nothing, or moves to the count and then sets the entries of the head. -/
theorem setEdgeCount_cases (hset : c.setEdgeCount lists h k = .ok c') :
    (c.getEdgeCount h = k ∧ c' = c) ∨
    (c.getEdgeCount h ≠ k ∧ ∃ nlist c₁, findList lists h = .ok nlist ∧
      moveEdges lists h nlist c (c.getEdgeCount h) k = .ok c₁ ∧
      setHead h nlist c₁ (c.getEdgeCount h) k = .ok c') := by
  unfold setEdgeCount at hset
  simp only at hset
  split_ifs at hset with hsame
  · exact Or.inl ⟨hsame, (Except.ok.inj hset).symm⟩
  · obtain ⟨nlist, hfind, hset⟩ := Except.bind_eq_ok.mp hset
    obtain ⟨c₁, hmove, hset⟩ := Except.bind_eq_ok.mp hset
    split_ifs at hset with hlt
    · exact absurd hset (by simp)
    · exact Or.inr ⟨hsame, nlist, c₁, hfind, hmove, hset⟩

/-! ### Presence -/

/-- The edges chosen that lead to a vertex. -/
def inward (L : VertexId → List (NLEdge T D)) (n : VertexId → Nat) (w : VertexId) : Nat :=
  ((included L n).filter fun a => a.2.1 = w).card

/-- How often a vertex is present: once for each edge that leads to it, and once as a head. -/
def present (L : VertexId → List (NLEdge T D)) (n : VertexId → Nat) (w : VertexId) : Nat :=
  inward L n w + if n w = 0 then 0 else 1

theorem inward_succ {D : Type} {es : List (GraphEdge T D)} {L : VertexId → List (NLEdge T D)}
    {e : NLEdge T D} (hs : Suffixes es L) (he : (L h)[j]? = some e) (w : VertexId) :
    inward L (Function.update n h (j + 1)) w
      = inward L (Function.update n h j) w + if e.toVertex = w then 1 else 0 := by
  obtain ⟨hins, hnew⟩ := included_succ (n := n) hs he
  unfold inward
  rw [hins, Finset.filter_insert, show (e.directed h).2.1 = e.toVertex from rfl]
  by_cases hw : e.toVertex = w
  · rw [if_pos hw, if_pos hw, Finset.card_insert_of_notMem]
    intro hc
    exact hnew (Finset.mem_of_mem_filter _ hc)
  · rw [if_neg hw, if_neg hw, Nat.add_zero]

/-- No edge of a head leads back to the head. -/
theorem inward_update_self {D : Type} {es : List (GraphEdge T D)} {L : VertexId → List (NLEdge T D)}
    (hs : Suffixes es L) (j : Nat) :
    inward L (Function.update n h j) h = inward L n h := by
  unfold inward
  congr 1
  ext ⟨v, w, t⟩
  rw [Finset.mem_filter, Finset.mem_filter, mem_included, mem_included]
  refine and_congr_left ?_
  intro hw
  by_cases hv : v = h
  · have hno : ∀ i, ¬ ∃ x ∈ (L v).take i, x.toVertex = w ∧ x.time = t := by
      intro i hx
      obtain ⟨x, hx, hto, -⟩ := hx
      apply hs.toVertex_ne (List.mem_of_mem_take hx)
      rw [hto, hv]
      exact hw
    exact iff_of_false (hno _) (hno _)
  · rw [Function.update_of_ne hv]

/-- A vertex is not present more often than there are edges. -/
theorem present_le {D : Type} {es : List (GraphEdge T D)} {L : VertexId → List (NLEdge T D)}
    (hs : Suffixes es L) (hn : ∀ w, n w ≤ (L w).length) (w : VertexId) :
    present L n w ≤ (included L n).card := by
  unfold present inward
  by_cases hz : n w = 0
  · rw [if_pos hz, Nat.add_zero]
    exact Finset.card_filter_le _ _
  · rw [if_neg hz]
    have hlen := hn w
    obtain ⟨e, he⟩ : ∃ e, ((L w).take (n w))[0]? = some e := by
      refine ⟨_, List.getElem?_eq_getElem ?_⟩
      rw [List.length_take]
      omega
    have hmem := List.mem_of_getElem? he
    refine Finset.card_lt_card (Finset.filter_ssubset.mpr ⟨e.directed w, ?_, ?_⟩)
    · exact mem_included.mpr ⟨e, hmem, rfl, rfl⟩
    · exact hs.toVertex_ne (List.mem_of_mem_take hmem)

/-- The presence counted while `j` edges of `h` are taken and its entry is not set yet. -/
def presentAt (L : VertexId → List (NLEdge T D)) (n : VertexId → Nat) (h : VertexId) (j : Nat)
    (w : VertexId) : Nat :=
  inward L (Function.update n h j) w + if n w = 0 then 0 else 1

/-- The edge at `j` counts for its end. -/
theorem presentAt_succ {D : Type} {es : List (GraphEdge T D)} {L : VertexId → List (NLEdge T D)}
    {e : NLEdge T D} (hs : Suffixes es L) (he : (L h)[j]? = some e) :
    presentAt L n h (j + 1) = Function.update (presentAt L n h j) e.toVertex
      (presentAt L n h j e.toVertex + 1) := by
  funext w
  unfold presentAt
  rw [inward_succ hs he]
  by_cases hw : w = e.toVertex
  · rw [hw, Function.update_self, if_pos rfl]
    omega
  · rw [Function.update_of_ne hw, if_neg (Ne.symm hw), Nat.add_zero]

/-- Away from the head the counts of the loop are those of a choice, and so in bounds. -/
theorem presentAt_le {D : Type} {es : List (GraphEdge T D)} {L : VertexId → List (NLEdge T D)}
    (hs : Suffixes es L) (hn : ∀ w, n w ≤ (L w).length) (hj : j ≤ (L h).length) {w : VertexId}
    (hw : w ≠ h) :
    presentAt L n h j w ≤ (included L (Function.update n h j)).card := by
  have hle := present_le hs (within_update hn hj) w
  unfold present at hle
  rw [Function.update_of_ne hw] at hle
  exact hle

theorem presentAt_self {D : Type} {es : List (GraphEdge T D)} {L : VertexId → List (NLEdge T D)}
    (hs : Suffixes es L) (j : Nat) : presentAt L n h j h = present L n h := by
  unfold presentAt present
  rw [inward_update_self hs]

theorem presentAt_start {D : Type} {L : VertexId → List (NLEdge T D)} :
    presentAt L n h (n h) = present L n := by
  funext w
  unfold presentAt present
  rw [Function.update_eq_self]

variable (hs : Suffixes es L) (hsmall : ∀ n, (included L n).card < 2 ^ 64)
  (hn : ∀ w, n w ≤ (L w).length)

include hs hsmall hn

theorem takeEdge_present {i : Nat} (hi : i < (L h).length)
    (hc : Tallies c.presentVertices (presentAt L n h i))
    (htake : takeEdge lists h ⟨h, L h⟩ c i = .ok c') :
    Tallies c'.presentVertices (presentAt L n h (i + 1)) := by
  obtain ⟨e, found, he, -, hpresent, -⟩ := takeEdge_maps htake
  have he := getNthOldestEdge_eq_ok he
  have hne := hs.toVertex_ne (List.mem_of_getElem? he)
  have hle := presentAt_le hs hn (Nat.succ_le_of_lt hi) hne
  rw [presentAt_succ hs he, Function.update_self] at hle
  rw [hpresent, presentAt_succ hs he]
  exact hc.countUp (lt_of_le_of_lt hle (hsmall _))

theorem dropEdge_present {i : Nat} (hi : i < (L h).length)
    (hc : Tallies c.presentVertices (presentAt L n h (i + 1)))
    (hdrop : dropEdge lists h ⟨h, L h⟩ c i = .ok c') :
    Tallies c'.presentVertices (presentAt L n h i) := by
  obtain ⟨e, found, he, -, hpresent, -⟩ := dropEdge_maps hdrop
  have he := getNthOldestEdge_eq_ok he
  have hne := hs.toVertex_ne (List.mem_of_getElem? he)
  have hle := presentAt_le hs hn (Nat.succ_le_of_lt hi) hne
  have hsucc := presentAt_succ (n := n) hs he
  have hval : presentAt L n h (i + 1) e.toVertex = presentAt L n h i e.toVertex + 1 := by
    rw [hsucc, Function.update_self]
  have hdown := hc.countDown (k := e.toVertex) (by omega) (lt_of_le_of_lt hle (hsmall _))
  rw [hval, hsucc, Function.update_idem, Nat.add_sub_cancel, Function.update_eq_self] at hdown
  rw [hpresent]
  exact hdown

/-- The loops keep the counts. -/
theorem moveEdges_present {cn : Nat} (hcn : cn ≤ (L h).length) (hk : k ≤ (L h).length)
    (hc : Tallies c.presentVertices (presentAt L n h cn))
    (hmove : moveEdges lists h ⟨h, L h⟩ c cn k = .ok c') :
    Tallies c'.presentVertices (presentAt L n h k) :=
  moveEdges_keeps (P := fun i c => Tallies c.presentVertices (presentAt L n h i))
    (fun _ _ _ _ hi => takeEdge_present hs hsmall hn (lt_of_lt_of_le hi hk))
    (fun _ _ _ _ hi => dropEdge_present hs hsmall hn (lt_of_lt_of_le hi hcn)) hc hmove

section

omit [SerializedSize D]

/-- The entries of the head: right unless it is opened while edges lead to it. -/
theorem setHead_present (hne : n h ≠ k)
    (hfresh : n h = 0 → k ≠ 0 → inward L n h = 0)
    (hc : Tallies c.presentVertices (presentAt L n h k))
    (hset : setHead h ⟨h, L h⟩ c (n h) k = .ok c') :
    Tallies c'.presentVertices (present L (Function.update n h k)) := by
  obtain ⟨hpresent, -⟩ := setHead_maps hset
  have hrest : ∀ w ≠ h, present L (Function.update n h k) w = presentAt L n h k w := by
    intro w hw
    unfold present presentAt
    rw [Function.update_of_ne hw]
  have hself := presentAt_self (n := n) (h := h) hs k
  have hinward : inward L (Function.update n h k) h = inward L n h := inward_update_self hs k
  have hnew : ∀ x, x = present L (Function.update n h k) h →
      Function.update (presentAt L n h k) h x = present L (Function.update n h k) := by
    intro x hx
    funext w
    by_cases hw : w = h
    · rw [hw, Function.update_self, hx]
    · rw [Function.update_of_ne hw, hrest w hw]
  rw [hpresent]
  by_cases hz : n h = 0
  · have hk' : k ≠ 0 := by omega
    simp only [hz, if_true, hk', if_false]
    rw [← hnew 1]
    · exact hc.insert Nat.one_ne_zero
    · unfold present
      rw [hinward, hfresh hz hk', Function.update_self, if_neg hk']
  · simp only [hz, if_false]
    have hval : presentAt L n h k h = inward L n h + 1 := by
      rw [hself]
      unfold present
      rw [if_neg hz]
    by_cases hk' : k = 0
    · rw [if_pos hk', ← hnew (presentAt L n h k h - 1)]
      · refine hc.countDown (by omega) ?_
        rw [hself]
        exact lt_of_le_of_lt (present_le hs hn h) (hsmall n)
      · unfold present
        rw [hval, hinward, Function.update_self, if_pos hk']
        omega
    · rw [if_neg hk', ← hnew (presentAt L n h k h), Function.update_eq_self]
      · exact hc
      · unfold present
        rw [hval, hinward, Function.update_self, if_neg hk']

end

omit hn in
/-- One call keeps the presence of every vertex, unless it opens a head to which edges lead. -/
theorem setEdgeCount_present (hlists : Holds lists L) (hc : Chosen es L n c)
    (hk : k ≤ (L h).length) (hfresh : n h = 0 → k ≠ 0 → inward L n h = 0)
    (hp : Tallies c.presentVertices (present L n))
    (hset : c.setEdgeCount lists h k = .ok c') :
    Tallies c'.presentVertices (present L (Function.update n h k)) := by
  have hlen := hc.within h
  obtain ⟨hsame, rfl⟩ | ⟨hne, nlist, c₁, hfind, hmove, hhead⟩ := setEdgeCount_cases hset
  · rw [hc.getEdgeCount] at hsame
    rw [← hsame, Function.update_eq_self]
    exact hp
  · rw [hc.getEdgeCount] at hne hmove hhead
    have hfull : L h ≠ [] := by
      intro hnil
      rw [hnil, List.length_nil] at hlen hk
      omega
    rw [findList_ok hlists hfull, Except.ok.injEq] at hfind
    rw [← hfind] at hmove hhead
    rw [← presentAt_start (h := h)] at hp
    exact setHead_present hs hsmall hc.within hne hfresh
      (moveEdges_present hs hsmall hc.within hlen hk hp hmove) hhead

end Candidate

namespace Candidate

variable {T D : Type} [LinearOrder T] [SerializedSize D] {es : List (GraphEdge T D)}
  {L : VertexId → List (NLEdge T D)} {n : VertexId → Nat} {lists : NeighborListMap T D}
  {c c' : Candidate T} {h : VertexId} {k : Nat}

/-! ### Runs -/

/-- The call opens a head to which a chosen edge leads. -/
def OpensPresent (L : VertexId → List (NLEdge T D)) (n : VertexId → Nat) (h : VertexId)
    (k : Nat) : Prop :=
  n h = 0 ∧ k ≠ 0 ∧ ∃ a ∈ included L n, a.2.1 = h

theorem inward_eq_zero {D : Type} {L : VertexId → List (NLEdge T D)}
    (hopens : ¬ OpensPresent L n h k) (hz : n h = 0) (hk : k ≠ 0) :
    inward L n h = 0 := by
  unfold inward
  rw [Finset.card_eq_zero, Finset.filter_eq_empty_iff]
  intro a ha hto
  exact hopens ⟨hz, hk, a, ha, hto⟩

/-- Opening a head sets its presence to one. -/
theorem lookup_present_of_opens (hc : Chosen es L n c) (hz : n h = 0) (hpos : k ≠ 0)
    (hset : c.setEdgeCount lists h k = .ok c') : c'.presentVertices.lookup h = some 1 := by
  obtain ⟨hsame, -⟩ | ⟨-, nlist, c₁, -, -, hhead⟩ := setEdgeCount_cases hset
  · rw [hc.getEdgeCount, hz] at hsame
    exact absurd hsame.symm hpos
  · obtain ⟨hpresent, -⟩ := setHead_maps hhead
    rw [hc.getEdgeCount] at hpresent
    simp only [hz, hpos, if_true, if_false] at hpresent
    rw [hpresent, AList.lookup_insert]

/-- Every presence that setting the count of `h` to `k` takes one off is there. -/
structure NoWrap (lists : NeighborListMap T D) (c : Candidate T) (h : VertexId) (k : Nat) :
    Prop where
  edges : ∀ j c', k ≤ j → j < c.getEdgeCount h → GivenBack lists c h (j + 1) c' →
    ∃ nlist edge, findList lists h = .ok nlist ∧ nlist.getNthOldestEdge j = .ok edge ∧
      0 < (c'.presentVertices.lookup edge.toVertex).getD 0
  head : ∀ c', k = 0 → c.getEdgeCount h ≠ 0 → GivenBack lists c h 0 c' →
    0 < (c'.presentVertices.lookup h).getD 0

/-- While the presence counts are right, none of them wraps. -/
theorem noWrap_of_present (hs : Suffixes es L) (hlists : Holds lists L)
    (hsmall : ∀ n, (included L n).card < 2 ^ 64) (hc : Chosen es L n c)
    (hp : Tallies c.presentVertices (present L n)) (h : VertexId) (k : Nat) :
    NoWrap lists c h k := by
  have hlen := hc.within h
  -- the counts after some edges were given back
  have hback : ∀ j c', j ≤ n h → n h ≠ 0 → GivenBack lists c h j c' →
      findList lists h = .ok ⟨h, L h⟩ ∧ Tallies c'.presentVertices (presentAt L n h j) := by
    intro j c' hj hh hback
    have hfull : L h ≠ [] := by
      intro hnil
      rw [hnil, List.length_nil] at hlen
      omega
    obtain ⟨nlist, hfind, hfold⟩ := hback
    have hfind' := findList_ok hlists hfull
    rw [hfind, Except.ok.injEq] at hfind'
    rw [hfind', hc.getEdgeCount] at hfold
    refine ⟨by rw [hfind, hfind'], ?_⟩
    refine Except.foldlM_range'_reverse_ok (k := n h - j)
      (P := fun i c => Tallies c.presentVertices (presentAt L n h i))
      (fun i a b _ hi => dropEdge_present hs hsmall hc.within (by omega)) ?_ hfold
    rw [Nat.add_sub_of_le hj, presentAt_start]
    exact hp
  refine ⟨?_, ?_⟩
  · intro j c' _ hj hgiven
    rw [hc.getEdgeCount] at hj
    obtain ⟨hfind, htally⟩ := hback (j + 1) c' (by omega) (by omega) hgiven
    obtain ⟨e, he⟩ : ∃ e, (L h)[j]? = some e := ⟨_, List.getElem?_eq_getElem (by omega)⟩
    refine ⟨_, e, hfind, getNthOldestEdge_ok he, ?_⟩
    rw [htally.getD, presentAt_succ hs he, Function.update_self]
    omega
  · intro c' _ hh hgiven
    rw [hc.getEdgeCount] at hh
    obtain ⟨-, htally⟩ := hback 0 c' (Nat.zero_le _) hh hgiven
    rw [htally.getD, presentAt_self hs]
    unfold present
    rw [if_neg hh]
    omega

end Candidate

namespace ExpirationMap

open Candidate

variable {T S D : Type} [LinearOrder T] [LinearOrder S] [Score S] [TimeScore T S] [SerializedSize D]
  {conf : Conf} {es : List (GraphEdge T D)} {m : ExpirationMap T S D}
  {calls : List (VertexId × Nat)}

/-- Along the calls every vertex is counted as present as often as it is, no count wraps, and a
count that is set and set back leaves the present vertices as they were. -/
structure PresentExact (m : ExpirationMap T S D) (calls : List (VertexId × Nat)) : Prop where
  counts : ∀ before after, calls = before ++ after →
    ∃ c, setEdgeCounts m.neigLists Candidate.new before = .ok c ∧
      ∀ w, c.presentVertices.lookup w =
        if present m.neigLists.edges (countsAfter (fun _ => 0) before) w = 0 then none
        else some (present m.neigLists.edges (countsAfter (fun _ => 0) before) w)
  noWrap : ∀ before h k after c, calls = before ++ (h, k) :: after →
    setEdgeCounts m.neigLists Candidate.new before = .ok c → NoWrap m.neigLists c h k
  undone : ∀ before h k after c c',
    calls = before ++ (h, k) :: (h, countsAfter (fun _ => 0) before h) :: after →
    setEdgeCounts m.neigLists Candidate.new before = .ok c →
    setEdgeCounts m.neigLists Candidate.new
      (before ++ [(h, k), (h, countsAfter (fun _ => 0) before h)]) = .ok c' →
    ∀ w, w ∈ c'.presentVertices ↔ w ∈ c.presentVertices

/-- The edges a candidate can hold are edges of the map. -/
theorem Sound.card_included_lt {D : Type} {es : List (GraphEdge T D)} {m : ExpirationMap T S D}
    (hm : Sound es m) (hsize : m.size < 2 ^ 64) (n : VertexId → Nat) :
    (included m.neigLists.edges n).card < 2 ^ 64 := by
  rw [hm.size] at hsize
  exact lt_of_le_of_lt (card_included_le m.neigLists n) hsize

theorem presentExact_of_fresh (hm : Sound es m) (hsize : m.size < 2 ^ 64)
    (hcalls : ∀ call ∈ calls, call.2 ≤ (m.neigLists.edges call.1).length)
    (hgood : ∀ before h k after, calls = before ++ (h, k) :: after →
      ¬ OpensPresent m.neigLists.edges (countsAfter (fun _ => 0) before) h k) :
    PresentExact m calls := by
  have hstart : Tallies (Candidate.new : Candidate T).presentVertices
      (present m.neigLists.edges fun _ => 0) := by
    intro w
    unfold present inward
    rw [included_zero]
    rfl
  have hrun : ∀ before after, calls = before ++ after →
      ∃ c, setEdgeCounts m.neigLists Candidate.new before = .ok c ∧
        Chosen es m.neigLists.edges (countsAfter (fun _ => 0) before) c ∧
        Tallies c.presentVertices
          (present m.neigLists.edges (countsAfter (fun _ => 0) before)) := by
    intro before after heq
    refine setEdgeCounts_keeps_along
      (P := fun n c => Tallies c.presentVertices (present m.neigLists.edges n))
      (A := fun n h k => ¬ OpensPresent m.neigLists.edges n h k) hm.suffixes hm.holds ?_
      Chosen.new hstart hcalls hgood heq
    intro n c c' h k hc hk hfresh hp hset
    exact setEdgeCount_present hm.suffixes (hm.card_included_lt hsize) hm.holds hc hk
      (fun hz hpos => inward_eq_zero hfresh hz hpos) hp hset
  refine ⟨?_, ?_, ?_⟩
  · intro before after heq
    obtain ⟨c, hset, -, hp⟩ := hrun before after heq
    exact ⟨c, hset, hp⟩
  · intro before h k after c heq hset
    obtain ⟨c₁, hset', hc, hp⟩ := hrun before _ heq
    rw [hset', Except.ok.injEq] at hset
    rw [← hset]
    exact noWrap_of_present hm.suffixes hm.holds (hm.card_included_lt hsize) hc hp h k
  · intro before h k after c c' heq hset hset' w
    obtain ⟨c₁, hrun₁, -, hp₁⟩ := hrun before _ heq
    obtain ⟨c₂, hrun₂, -, hp₂⟩ :=
      hrun (before ++ [(h, k), (h, countsAfter (fun _ => 0) before h)]) after (by
        rw [heq, List.append_assoc]
        rfl)
    rw [hrun₁, Except.ok.injEq] at hset
    rw [hrun₂, Except.ok.injEq] at hset'
    -- the last call brings the counts back
    have hback : countsAfter (fun _ => 0)
        (before ++ [(h, k), (h, countsAfter (fun _ => 0) before h)])
        = countsAfter (fun _ => 0) before := by
      rw [countsAfter_append]
      show Function.update (Function.update (countsAfter (fun _ => 0) before) h k) h _ = _
      rw [Function.update_idem, Function.update_eq_self]
    rw [hback] at hp₂
    rw [← hset, ← hset', hp₁.mem_iff, hp₂.mem_iff]

/-- Along a run of calls the present vertices are counted right, without a wrap and with trial
extensions undone exactly, if and only if no call opens a head to which a chosen edge leads. -/
theorem presentVertices_exact_iff (hm : Reached conf es m) (hsize : m.size < 2 ^ 64)
    (hcalls : ∀ call ∈ calls, call.2 ≤ (m.neigLists.edges call.1).length) :
    PresentExact m calls ↔ ∀ before h k after, calls = before ++ (h, k) :: after →
      ¬ OpensPresent m.neigLists.edges (countsAfter (fun _ => 0) before) h k := by
  obtain ⟨hsound, -⟩ := hm.sound
  refine ⟨?_, presentExact_of_fresh hsound hsize hcalls⟩
  intro hexact before h k after heq hopens
  obtain ⟨hz, hk, a, ha, hto⟩ := hopens
  have hbefore : ∀ call ∈ before, call.2 ≤ (m.neigLists.edges call.1).length := by
    intro call hmem
    refine hcalls call ?_
    rw [heq]
    exact List.mem_append_left _ hmem
  obtain ⟨c, hset, hc⟩ := setEdgeCounts_ok hsound.suffixes hsound.holds
    (Chosen.new : Chosen es m.neigLists.edges _ _) hbefore
  obtain ⟨c', hset', hp⟩ := hexact.counts (before ++ [(h, k)]) after (by
    rw [heq, List.append_assoc]
    rfl)
  have hcall : c.setEdgeCount m.neigLists h k = .ok c' := by
    rw [setEdgeCounts_append, hset] at hset'
    rw [← setEdgeCounts_singleton]
    exact hset'
  have hone := lookup_present_of_opens hc hz hk hcall
  have hinward : 0 < inward m.neigLists.edges (countsAfter (fun _ => 0) before) h :=
    Finset.card_pos.mpr ⟨a, Finset.mem_filter.mpr ⟨ha, hto⟩⟩
  have hcount : present m.neigLists.edges (countsAfter (fun _ => 0) (before ++ [(h, k)])) h
      = inward m.neigLists.edges (countsAfter (fun _ => 0) before) h + 1 := by
    rw [countsAfter_append]
    unfold present
    rw [show countsAfter (countsAfter (fun _ => 0) before) [(h, k)]
      = Function.update (countsAfter (fun _ => 0) before) h k from rfl,
      inward_update_self hsound.suffixes, Function.update_self, if_neg hk]
  rw [hp h, hcount, if_neg (Nat.succ_ne_zero _), Option.some.injEq] at hone
  omega

/-! ### A head opened along an edge -/

/-- The two edges of a head, taken and given back. -/
theorem presentVertices_exact_one :
    ∃ m : ExpirationMap Time ℚ (AttributeData textSchema),
      (new Conf.default).addEdges pairEdges = .ok m ∧ PresentExact m [(1, 2), (1, 0)] := by
  obtain ⟨m, hadd, hm, hone, -⟩ := pairEdges_reached
  have hsize : m.size < 2 ^ 64 := by
    have hmax : ((new Conf.default : ExpirationMap Time ℚ (AttributeData textSchema)).addEdges
        pairEdges).toOption.map ExpirationMap.size = some 4 := by
      decide +kernel
    rw [hadd] at hmax
    have hfour : m.size = 4 := Option.some.inj hmax
    omega
  refine ⟨m, hadd, (presentVertices_exact_iff hm hsize (by simp [hone])).mpr ?_⟩
  intro before h k after heq hopens
  obtain ⟨-, hk, a, ha, -⟩ := hopens
  rcases before with _ | ⟨call, before⟩
  · rw [show countsAfter (fun _ => 0) [] = fun _ => 0 from rfl, included_zero] at ha
    exact absurd ha (Finset.notMem_empty a)
  · obtain ⟨-, hrest⟩ := List.cons.inj heq
    rcases before with _ | ⟨call', before⟩
    · have hlast : ((1 : VertexId), 0) = (h, k) := (List.cons.inj hrest).1
      exact hk (Prod.mk.inj hlast).2.symm
    · exact absurd (congrArg List.length hrest) (by simp)

/-- Opening 2 after the edge from 1 that leads to it, and closing it again, makes 2 disappear. -/
theorem presentVertices_lost :
    ∃ m : ExpirationMap Time ℚ (AttributeData textSchema),
      (new Conf.default).addEdges pairEdges = .ok m ∧
      ¬ PresentExact m [(1, 1), (2, 1), (2, 0)] := by
  have heval : ((new Conf.default : ExpirationMap Time ℚ (AttributeData textSchema)).addEdges
      pairEdges).toOption.map (fun m =>
        ((setEdgeCounts m.neigLists Candidate.new [(1, 1)]).toOption.map
            fun c => c.presentVertices.lookup 2,
          (setEdgeCounts m.neigLists Candidate.new [(1, 1), (2, 1), (2, 0)]).toOption.map
            fun c => c.presentVertices.lookup 2))
      = some (some (some 1), some none) := by
    decide +kernel
  obtain ⟨m, hadd, hm⟩ := Except.of_toOption_map heval
  obtain ⟨hbefore, hafter⟩ := Prod.mk.inj hm
  obtain ⟨c, hset, hc⟩ := Except.of_toOption_map hbefore
  obtain ⟨c', hset', hc'⟩ := Except.of_toOption_map hafter
  refine ⟨m, hadd, ?_⟩
  intro hexact
  have hundone := hexact.undone [(1, 1)] 2 1 [] c c' rfl hset hset' 2
  rw [← AList.lookup_isSome, ← AList.lookup_isSome, hc, hc'] at hundone
  simp at hundone

end ExpirationMap

end RailwayDB
