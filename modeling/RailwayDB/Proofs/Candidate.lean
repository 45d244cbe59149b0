/-
The counters of a candidate.

A candidate never looks at the edges it holds all at once; it moves its counters
edge by edge and trusts them.  Here they are tied to the choice of prefixes: the
edge count is the number of directed edges chosen, the dangling count those whose
partner is not chosen, the size what the choice costs.  From that the assertions of
`setEdgeCount` follow, and that a locality is never negative.

While the loop of `setEdgeCount` runs, the edges of one head are counted up to some
point and its entry in `numEdges_` still has the old value.  That does no harm: the
entry read by `hasReverseEdge` is the one of the other end.
-/
import RailwayDB.Core.Candidate
import RailwayDB.Proofs.NeighborList
import RailwayDB.Proofs.Selection
import RailwayDB.Lib.Except

namespace RailwayDB

variable {T D : Type} [LinearOrder T]

/-- The map holds the lists `L`; a vertex with no edge has none. -/
def Holds (lists : NeighborListMap T D) (L : VertexId → List (NLEdge T D)) : Prop :=
  ∀ w, L w ≠ [] → lists.lookup w = some ⟨w, L w⟩

namespace Candidate

variable {es : List (GraphEdge T D)} {L : VertexId → List (NLEdge T D)} {n : VertexId → Nat}
  {lists : NeighborListMap T D} {c : Candidate T} {h : VertexId} {e : NLEdge T D} {j : Nat}

/-! ### Looking for the other direction -/

omit [LinearOrder T] in
theorem findList_ok (hlists : Holds lists L) {w : VertexId} (hw : L w ≠ []) :
    findList lists w = .ok ⟨w, L w⟩ := by
  unfold findList
  rw [hlists w hw]

omit [LinearOrder T] in
theorem getNthOldestEdge_ok {w : VertexId} {l : List (NLEdge T D)} (he : l[j]? = some e) :
    NeighborList.getNthOldestEdge ⟨w, l⟩ j = .ok e := by
  unfold NeighborList.getNthOldestEdge
  rw [he]

/-- The oldest edge of a list in time order is no later than any. -/
theorem getOldestEdge_ok {w : VertexId} {l : List (NLEdge T D)}
    (hincr : l.Pairwise fun x y => x.time < y.time) (hne : l ≠ []) :
    ∃ oldest ∈ l, NeighborList.getOldestEdge ⟨w, l⟩ = .ok oldest ∧
      ∀ y ∈ l, oldest.time ≤ y.time := by
  obtain ⟨oldest, rest, rfl⟩ := List.exists_cons_of_ne_nil hne
  refine ⟨oldest, List.mem_cons_self, rfl, ?_⟩
  intro y hy
  rcases List.mem_cons.mp hy with rfl | hy
  · exact le_refl _
  · exact le_of_lt ((List.pairwise_cons.mp hincr).1 y hy)

/-- The scan ends at once: an edge at the time asked for is the one asked for. -/
theorem scanReverse_eq {w : VertexId} {l : List (NLEdge T D)} {tm : T} (he : l[j]? = some e)
    (hsame : tm = e.time → e.toVertex = h) :
    scanReverse ⟨w, l⟩ h tm j = .ok (decide (tm = e.time)) := by
  cases j with
  | zero =>
      unfold scanReverse
      rw [getNthOldestEdge_ok he]
      by_cases ht : tm = e.time
      · simp [ht, hsame ht]
      · simp [ht]
  | succ j =>
      unfold scanReverse
      rw [getNthOldestEdge_ok he]
      by_cases ht : tm = e.time
      · simp [ht, hsame ht]
      · simp [ht]

/-- In a list in time order, the first edges are those no later than the last of them. -/
theorem mem_take_iff {l : List (NLEdge T D)} {x b : NLEdge T D}
    (hincr : l.Pairwise fun x y => x.time < y.time) (hx : l[j]? = some x) (hb : b ∈ l) :
    b ∈ l.take (j + 1) ↔ b.time ≤ x.time := by
  obtain ⟨hj, hxj⟩ := List.getElem?_eq_some_iff.mp hx
  obtain ⟨i, hi, hbi⟩ := List.getElem_of_mem hb
  rw [List.pairwise_iff_getElem] at hincr
  refine ⟨?_, ?_⟩
  · intro hmem
    obtain ⟨i', hi', hbi'⟩ := List.mem_take_iff_getElem.mp hmem
    rcases Nat.lt_or_ge i' j with hlt | hge
    · have hlt' := hincr i' j (by omega) hj hlt
      rw [hbi', hxj] at hlt'
      exact le_of_lt hlt'
    · have hij : i' = j := by omega
      subst hij
      rw [← hbi', hxj]
  · intro hle
    rcases Nat.lt_or_ge j i with hlt | hge
    · have hlt' := hincr j i hj hi hlt
      rw [hbi, hxj] at hlt'
      exact absurd hle (not_le_of_gt hlt')
    · exact List.mem_take_iff_getElem.mpr ⟨i, by omega, hbi⟩

/-- The edges counted for a head, as `numEdges_` holds them. -/
def Counts (numEdges : AList fun _ : VertexId => Nat) (n : VertexId → Nat) (w : VertexId) : Prop :=
  numEdges.lookup w = if n w = 0 then none else some (n w)

/-- The newest time taken from a list, as `timestamps_` holds it. -/
def Newest (timestamps : PriorityQueue Tᵒᵈ VertexId) (L : VertexId → List (NLEdge T D))
    (n : VertexId → Nat) (w : VertexId) : Prop :=
  timestamps.index.lookup w
    = if n w = 0 then none else ((L w)[n w - 1]?).map fun e => OrderDual.toDual e.time

/-- The candidate sees the other direction of an edge exactly when it is chosen. -/
theorem hasReverseEdge_ok (hs : Suffixes es L) (hlists : Holds lists L)
    (hn : ∀ w, n w ≤ (L w).length) (he : e ∈ L h) (hcount : Counts c.numEdges n e.toVertex) :
    c.hasReverseEdge lists h e = .ok (decide ((e.directed h).rev ∈ included L n)) := by
  unfold hasReverseEdge
  unfold Counts at hcount
  by_cases hz : n e.toVertex = 0
  · rw [if_pos hz] at hcount
    rw [hcount]
    simp [rev_mem_included, hz]
  · rw [if_neg hz] at hcount
    obtain ⟨k, hk⟩ := Nat.exists_eq_succ_of_ne_zero hz
    have hlen := hn e.toVertex
    have hne : L e.toVertex ≠ [] := by
      intro hc
      rw [hc, hk] at hlen
      simp at hlen
    obtain ⟨x, hx⟩ : ∃ x, (L e.toVertex)[k]? = some x :=
      ⟨_, List.getElem?_eq_getElem (by omega)⟩
    have hincr := hs.increasing e.toVertex
    obtain ⟨oldest, hmem, hfirst, hleast⟩ := getOldestEdge_ok (w := e.toVertex) hincr hne
    rw [hcount]
    simp only [findList_ok hlists hne, Except.ok_bind, hfirst, hk, Nat.succ_sub_one,
      getNthOldestEdge_ok hx]
    by_cases hold : oldest.time ≤ e.time
    · -- the other direction is in the list; it is chosen when it is old enough
      have hback := hs.back he hmem hold
      have hrev : (e.directed h).rev ∈ included L n ↔ e.time ≤ x.time := by
        rw [← mem_take_iff hincr hx hback, rev_mem_included, hk]
        refine ⟨?_, fun hb => ⟨_, hb, rfl, rfl⟩⟩
        intro hy
        obtain ⟨y, hy, -, ht⟩ := hy
        rw [← hs.eq_of_time hback (List.mem_of_mem_take hy) ht.symm]
        exact hy
      have hsame : e.time = x.time → x.toVertex = h := by
        intro ht
        rw [hs.eq_of_time hback (List.mem_of_getElem? hx) ht]
      rw [if_pos hold, scanReverse_eq hx hsame]
      by_cases hlt : e.time < x.time
      · rw [if_pos hlt, decide_eq_true (hrev.mpr (le_of_lt hlt))]
        rfl
      · rw [if_neg hlt]
        congr 1
        rw [decide_eq_decide, hrev, le_iff_lt_or_eq]
        simp [hlt]
    · -- the whole list is younger
      have hout : (e.directed h).rev ∉ included L n := by
        intro hc
        obtain ⟨y, hy, -, ht⟩ := rev_mem_included.mp hc
        rw [← ht] at hold
        exact hold (hleast y (List.mem_of_mem_take hy))
      rw [if_neg hold, decide_eq_false hout]
      rfl

/-! ### One edge more, one edge less -/

/-- The counters with `j` edges of `h` counted, before the entry of `h` is set. -/
structure Counting (es : List (GraphEdge T D)) (L : VertexId → List (NLEdge T D))
    (n : VertexId → Nat) [SerializedSize D] (h : VertexId) (j : Nat) (c : Candidate T) : Prop where
  counts : ∀ w, Counts c.numEdges n w
  edgeCount : c.edgeCount = (included L (Function.update n h j)).card
  outEdgeCount : c.outEdgeCount
    = (Pairing.dangling Directed.rev (included L (Function.update n h j))).card
  size : c.size = 8 + 12 * headCount n + edgeCost es L (Function.update n h j)
  timestamps : ∀ w, Newest c.timestamps L n w

variable [SerializedSize D]

omit [SerializedSize D] in
/-- Whether the other direction is chosen does not depend on what is taken from `h`. -/
theorem rev_mem_included_update (hs : Suffixes es L) (he : e ∈ L h) (j : Nat) :
    (e.directed h).rev ∈ included L (Function.update n h j)
      ↔ (e.directed h).rev ∈ included L n := by
  rw [rev_mem_included, rev_mem_included, Function.update_of_ne (hs.toVertex_ne he)]

omit [SerializedSize D] in
/-- The edge at `j` of a head comes in between `j` and `j + 1`. -/
theorem included_succ (hs : Suffixes es L) (he : (L h)[j]? = some e) :
    included L (Function.update n h (j + 1))
        = insert (e.directed h) (included L (Function.update n h j)) ∧
      e.directed h ∉ included L (Function.update n h j) := by
  have he' : (L h)[Function.update n h j h]? = some e := by
    rw [Function.update_self]
    exact he
  have hins := included_update he'
  rw [Function.update_idem, Function.update_self] at hins
  exact ⟨hins, next_notMem hs he'⟩

/-- How the counts move between `j` and `j + 1` edges of a head. -/
theorem counts_succ (hs : Suffixes es L) (he : (L h)[j]? = some e) :
    (included L (Function.update n h (j + 1))).card
        = (included L (Function.update n h j)).card + 1 ∧
    ((e.directed h).rev ∈ included L n →
      (Pairing.dangling Directed.rev (included L (Function.update n h (j + 1)))).card + 1
        = (Pairing.dangling Directed.rev (included L (Function.update n h j))).card ∧
      edgeCost es L (Function.update n h (j + 1))
        = edgeCost es L (Function.update n h j) + 16) ∧
    ((e.directed h).rev ∉ included L n →
      (Pairing.dangling Directed.rev (included L (Function.update n h (j + 1)))).card
        = (Pairing.dangling Directed.rev (included L (Function.update n h j))).card + 1 ∧
      edgeCost es L (Function.update n h (j + 1))
        = edgeCost es L (Function.update n h j) + 16 + getSerializedSizeOf e.data.val) := by
  have hmem : e ∈ L h := List.mem_of_getElem? he
  have he' : (L h)[Function.update n h j h]? = some e := by
    rw [Function.update_self]
    exact he
  have hcost := edgeCost_update hs he'
  rw [Function.update_idem, Function.update_self] at hcost
  obtain ⟨hins, hnew⟩ := included_succ (n := n) hs he
  have hrev := rev_mem_included_update (n := n) hs hmem j
  refine ⟨?_, ?_, ?_⟩
  · rw [hins, Finset.card_insert_of_notMem hnew]
  · intro hin
    rw [← hrev] at hin
    refine ⟨?_, by rw [hcost, if_pos hin]⟩
    rw [hins]
    exact Pairing.card_dangling_insert_of_mem Directed.rev_rev hnew hin
  · intro hout
    rw [← hrev] at hout
    refine ⟨?_, by rw [hcost, if_neg hout]⟩
    rw [hins]
    refine Pairing.card_dangling_insert_of_notMem Directed.rev_rev hnew ?_ hout
    intro hfix
    exact hs.toVertex_ne hmem (congrArg Prod.fst hfix)

theorem takeEdge_ok (hs : Suffixes es L) (hlists : Holds lists L)
    (hn : ∀ w, n w ≤ (L w).length) (hc : Counting es L n h j c) (he : (L h)[j]? = some e) :
    ∃ c', takeEdge lists h ⟨h, L h⟩ c j = .ok c' ∧ Counting es L n h (j + 1) c' := by
  obtain ⟨hedges, hin, hout⟩ := counts_succ (n := n) hs he
  obtain ⟨hcounts, hec, hoc, hsize, htime⟩ := hc
  unfold takeEdge
  simp only [getNthOldestEdge_ok he, Except.ok_bind]
  rw [hasReverseEdge_ok hs hlists hn (List.mem_of_getElem? he) ?_]
  swap
  · exact hcounts e.toVertex
  by_cases hrev : (e.directed h).rev ∈ included L n
  · obtain ⟨hdangling, hcost⟩ := hin hrev
    have hpos : c.outEdgeCount ≠ 0 := by omega
    simp only [hrev, decide_true, Except.ok_bind, if_true, hpos, if_false, Except.pure_eq_ok]
    refine ⟨_, rfl, hcounts, ?_, ?_, ?_, htime⟩ <;> simp only <;> omega
  · obtain ⟨hdangling, hcost⟩ := hout hrev
    simp only [hrev, decide_false, Except.ok_bind, Except.pure_eq_ok]
    refine ⟨_, rfl, hcounts, ?_, ?_, ?_, htime⟩ <;> simp only <;> omega

theorem dropEdge_ok (hs : Suffixes es L) (hlists : Holds lists L)
    (hn : ∀ w, n w ≤ (L w).length) (hc : Counting es L n h (j + 1) c) (he : (L h)[j]? = some e) :
    ∃ c', dropEdge lists h ⟨h, L h⟩ c j = .ok c' ∧ Counting es L n h j c' := by
  obtain ⟨hedges, hin, hout⟩ := counts_succ (n := n) hs he
  obtain ⟨hcounts, hec, hoc, hsize, htime⟩ := hc
  unfold dropEdge
  simp only [getNthOldestEdge_ok he, Except.ok_bind]
  rw [hasReverseEdge_ok hs hlists hn (List.mem_of_getElem? he) ?_]
  swap
  · exact hcounts e.toVertex
  by_cases hrev : (e.directed h).rev ∈ included L n
  · obtain ⟨hdangling, hcost⟩ := hin hrev
    simp only [hrev, decide_true, Except.ok_bind, if_true, Except.pure_eq_ok]
    refine ⟨_, rfl, hcounts, ?_, ?_, ?_, htime⟩ <;> simp only <;> omega
  · obtain ⟨hdangling, hcost⟩ := hout hrev
    have hpos : c.outEdgeCount ≠ 0 := by omega
    simp only [hrev, decide_false, Except.ok_bind, if_false, hpos, Except.pure_eq_ok]
    refine ⟨_, rfl, hcounts, ?_, ?_, ?_, htime⟩ <;> simp only <;> omega

/-! ### Setting a count -/

/-- The candidate takes `n w` edges from each list. -/
structure Chosen (es : List (GraphEdge T D)) (L : VertexId → List (NLEdge T D))
    (n : VertexId → Nat) (c : Candidate T) : Prop where
  within : ∀ w, n w ≤ (L w).length
  counts : ∀ w, Counts c.numEdges n w
  edgeCount : c.edgeCount = (included L n).card
  outEdgeCount : c.outEdgeCount = (Pairing.dangling Directed.rev (included L n)).card
  size : c.size = selectionSize es L n
  timestamps : ∀ w, Newest c.timestamps L n w

theorem Chosen.new : Chosen es L (fun _ => 0) (Candidate.new : Candidate T) := by
  refine ⟨fun w => Nat.zero_le _, fun w => rfl, ?_, ?_, selectionSize_zero.symm, fun w => rfl⟩
  · rw [included_zero]
    rfl
  · rw [included_zero]
    rfl

theorem Chosen.counting (hc : Chosen es L n c) (h : VertexId) : Counting es L n h (n h) c := by
  obtain ⟨-, hcounts, hec, hoc, hsize, htime⟩ := hc
  refine ⟨hcounts, ?_, ?_, ?_, htime⟩ <;> rw [Function.update_eq_self]
  · exact hec
  · exact hoc
  · exact hsize

theorem Chosen.getEdgeCount (hc : Chosen es L n c) (w : VertexId) : c.getEdgeCount w = n w := by
  unfold Candidate.getEdgeCount
  rw [hc.counts w]
  split_ifs with hz
  · exact hz.symm
  · rfl

/-- The loop that takes edges. -/
theorem takeEdges_ok (hs : Suffixes es L) (hlists : Holds lists L)
    (hn : ∀ w, n w ≤ (L w).length) (hc : Counting es L n h j c) {k : Nat}
    (hk : j + k ≤ (L h).length) :
    ∃ c', (List.range' j k).foldlM (takeEdge lists h ⟨h, L h⟩) c = .ok c' ∧
      Counting es L n h (j + k) c' := by
  induction k generalizing j c with
  | zero => exact ⟨c, rfl, hc⟩
  | succ k ih =>
      obtain ⟨c', hc', hcount⟩ := takeEdge_ok hs hlists hn hc
        (List.getElem?_eq_getElem (by omega : j < (L h).length))
      obtain ⟨c'', hc'', hcount'⟩ := ih hcount (by omega)
      refine ⟨c'', ?_, ?_⟩
      · rw [List.range'_succ, List.foldlM_cons, hc']
        exact hc''
      · rw [show j + (k + 1) = j + 1 + k by omega]
        exact hcount'

/-- The loop that gives edges back, the newest first. -/
theorem dropEdges_ok (hs : Suffixes es L) (hlists : Holds lists L)
    (hn : ∀ w, n w ≤ (L w).length) {k : Nat} (hc : Counting es L n h (j + k) c)
    (hk : j + k ≤ (L h).length) :
    ∃ c', (List.range' j k).reverse.foldlM (dropEdge lists h ⟨h, L h⟩) c = .ok c' ∧
      Counting es L n h j c' := by
  induction k generalizing c with
  | zero => exact ⟨c, rfl, hc⟩
  | succ k ih =>
      obtain ⟨c', hc', hcount⟩ := @dropEdge_ok _ _ _ es L n _ c h _ (j + k) _ hs hlists hn hc
        (List.getElem?_eq_getElem (by omega))
      obtain ⟨c'', hc'', hcount'⟩ := ih hcount (by omega)
      refine ⟨c'', ?_, hcount'⟩
      rw [List.range'_concat, List.reverse_concat, List.foldlM_cons, Nat.one_mul, hc']
      exact hc''

/-- The loops bring the counters from the old count to the new one. -/
theorem moveEdges_ok (hs : Suffixes es L) (hlists : Holds lists L) (hc : Chosen es L n c)
    {k : Nat} (hk : k ≤ (L h).length) :
    ∃ c', moveEdges lists h ⟨h, L h⟩ c (n h) k = .ok c' ∧ Counting es L n h k c' := by
  have hlen := hc.within h
  unfold moveEdges
  split_ifs with hlt
  · have hcount := takeEdges_ok hs hlists hc.within (hc.counting h)
      (by omega : n h + (k - n h) ≤ (L h).length)
    rwa [show n h + (k - n h) = k by omega] at hcount
  · refine dropEdges_ok hs hlists hc.within ?_ (by omega : k + (n h - k) ≤ (L h).length)
    rw [show k + (n h - k) = n h by omega]
    exact hc.counting h

/-- The entries of the head follow its count. -/
theorem setHead_ok (hc : Counting es L n h j c) (hn : ∀ w, n w ≤ (L w).length)
    (hj : j ≤ (L h).length) (hne : n h ≠ j) :
    ∃ c', setHead h ⟨h, L h⟩ c (n h) j = .ok c' ∧ Chosen es L (Function.update n h j) c' := by
  have hcounts : ∀ w ≠ h, Counts c.numEdges (Function.update n h j) w := by
    intro w hw
    unfold Counts
    rw [Function.update_of_ne hw]
    exact hc.counts w
  have htime : ∀ w ≠ h, Newest c.timestamps L (Function.update n h j) w := by
    intro w hw
    unfold Newest
    rw [Function.update_of_ne hw]
    exact hc.timestamps w
  have hwithin := within_update hn hj
  unfold setHead
  by_cases hz : j = 0
  · subst hz
    simp only [hne, if_false, if_true]
    have hheads := headCount_update_to_zero hne
    refine ⟨_, rfl, hwithin, ?_, hc.edgeCount, hc.outEdgeCount, ?_, ?_⟩
    · intro w
      by_cases hw : w = h
      · subst hw
        simp [Counts]
      · unfold Counts
        rw [AList.lookup_erase_ne hw]
        exact hcounts w hw
    · have hsize := hc.size
      unfold selectionSize
      simp only
      omega
    · intro w
      unfold Newest
      rw [PriorityQueue.lookup_removeItem]
      by_cases hw : w = h
      · simp [hw]
      · rw [if_neg hw]
        exact htime w hw
  · obtain ⟨newest, hnewest⟩ : ∃ newest, (L h)[j - 1]? = some newest :=
      ⟨_, List.getElem?_eq_getElem (by omega)⟩
    have hheads := headCount_update n h (Nat.pos_of_ne_zero hz)
    -- the candidate after the head was opened
    obtain ⟨c', hc', hnum, hec, hoc, hsize, hts⟩ : ∃ c' : Candidate T,
        (if n h = 0 then
          { c with size := c.size + 12, presentVertices := c.presentVertices.insert h 1 }
        else c) = c' ∧ c'.numEdges = c.numEdges ∧ c'.edgeCount = c.edgeCount ∧
        c'.outEdgeCount = c.outEdgeCount ∧ c'.size = c.size + (if n h = 0 then 12 else 0) ∧
        c'.timestamps = c.timestamps := by
      split_ifs with hz'
      · exact ⟨_, rfl, rfl, rfl, rfl, rfl, rfl⟩
      · exact ⟨_, rfl, rfl, rfl, rfl, rfl, rfl⟩
    rw [hc', if_neg hz, getNthOldestEdge_ok hnewest, Except.ok_map]
    refine ⟨_, rfl, hwithin, ?_, ?_, ?_, ?_, ?_⟩
    · intro w
      by_cases hw : w = h
      · subst hw
        simp [Counts, hz]
      · unfold Counts
        rw [AList.lookup_insert_ne hw, hnum]
        exact hcounts w hw
    · exact hec.trans hc.edgeCount
    · exact hoc.trans hc.outEdgeCount
    · have hold := hc.size
      unfold selectionSize
      rw [hheads]
      simp only
      split_ifs at hsize ⊢ <;> omega
    · intro w
      unfold Newest
      rw [PriorityQueue.lookup_updateItem, hts]
      by_cases hw : w = h
      · rw [hw, if_pos rfl, Function.update_self, if_neg hz, hnewest]
        rfl
      · rw [if_neg hw]
        exact htime w hw

/-- A count within the list can be set, and the counters follow. -/
theorem setEdgeCount_ok (hs : Suffixes es L) (hlists : Holds lists L) (hc : Chosen es L n c)
    {k : Nat} (hk : k ≤ (L h).length) :
    ∃ c', c.setEdgeCount lists h k = .ok c' ∧ Chosen es L (Function.update n h k) c' := by
  unfold setEdgeCount
  rw [hc.getEdgeCount h]
  by_cases hsame : n h = k
  · refine ⟨c, by simp [hsame], ?_⟩
    rw [← hsame, Function.update_eq_self]
    exact hc
  · have hlen := hc.within h
    have hne : L h ≠ [] := by
      intro hnil
      rw [hnil] at hlen hk
      simp at hlen hk
      omega
    obtain ⟨c', hc', hcount⟩ := moveEdges_ok hs hlists hc hk
    have hle : ¬ c'.edgeCount < c'.outEdgeCount := by
      rw [hcount.edgeCount, hcount.outEdgeCount, not_lt]
      exact Pairing.card_dangling_le _
    rw [findList_ok hlists hne, if_neg hsame, Except.ok_bind, hc', Except.ok_bind, if_neg hle]
    exact setHead_ok hcount hc.within hk hsame

/-- An edge that is chosen is no later than the newest one of its head. -/
theorem Chosen.newest (hs : Suffixes es L) (hc : Chosen es L n c) {w : VertexId}
    (hw : n w ≠ 0) :
    ∃ x ∈ (L w).take (n w), c.timestamps.index.lookup w = some (OrderDual.toDual x.time) ∧
      ∀ y ∈ (L w).take (n w), y.time ≤ x.time := by
  have hlen := hc.within w
  obtain ⟨k, hk⟩ := Nat.exists_eq_succ_of_ne_zero hw
  obtain ⟨x, hx⟩ : ∃ x, (L w)[k]? = some x := ⟨_, List.getElem?_eq_getElem (by omega)⟩
  have hlookup : c.timestamps.index.lookup w = some (OrderDual.toDual x.time) := by
    rw [hc.timestamps w, if_neg hw, hk, Nat.succ_sub_one, hx]
    rfl
  have hle : ∀ y ∈ L w, y ∈ (L w).take (n w) ↔ y.time ≤ x.time := by
    intro y hy
    rw [hk]
    exact mem_take_iff (hs.increasing w) hx hy
  refine ⟨x, (hle x (List.mem_of_getElem? hx)).mpr (le_refl _), hlookup, ?_⟩
  intro y hy
  exact (hle y (List.mem_of_mem_take hy)).mp hy

/-- The newest time of a candidate that holds an edge is the largest one chosen. -/
theorem Chosen.getNewestTime (hs : Suffixes es L) (hc : Chosen es L n c) (hh : n h ≠ 0) :
    ∃ t, c.getNewestTime = .ok t ∧ IsGreatest {t | ∃ a ∈ included L n, a.time = t} t := by
  have hfull : c.timestamps.isEmpty = false := by
    obtain ⟨x, -, hx, -⟩ := hc.newest hs hh
    rw [Bool.eq_false_iff, ne_eq, PriorityQueue.isEmpty_iff, not_forall]
    exact ⟨h, by rw [hx]; simp⟩
  obtain ⟨item, hitem, hlookup, htop⟩ := PriorityQueue.getTopItem_ok hfull
  have hw : n item.2 ≠ 0 := by
    intro hz
    rw [hc.timestamps item.2, if_pos hz] at hlookup
    simp at hlookup
  obtain ⟨x, hx, hlookup', -⟩ := hc.newest hs hw
  have htime : OrderDual.ofDual item.1 = x.time := by
    rw [hlookup', Option.some.injEq] at hlookup
    rw [← hlookup]
    rfl
  refine ⟨x.time, ?_, ⟨x.directed item.2, mem_included.mpr ⟨x, hx, rfl, rfl⟩, rfl⟩, ?_⟩
  · unfold Candidate.getNewestTime
    rw [hitem, Except.ok_map, htime]
  · intro t ht
    obtain ⟨⟨v, w, t⟩, ha, rfl⟩ := ht
    obtain ⟨y, hy, -, rfl⟩ := mem_included.mp ha
    have hv : n v ≠ 0 := by
      intro hz
      rw [hz] at hy
      simp at hy
    obtain ⟨z, -, hz, hnewest⟩ := hc.newest hs hv
    have hle : OrderDual.toDual z.time ≥ item.1 := htop v _ hz
    rw [← htime]
    exact (hnewest y hy).trans hle

/-- The locality of a candidate that holds an edge is not negative. -/
theorem Chosen.getLocality_nonneg {S : Type} [LinearOrder S] [Score S] (hc : Chosen es L n c)
    (hh : n h ≠ 0)
    (metric : LocalityMetric) : (Score.ofNat 0 : S) ≤ c.getLocality metric := by
  have hmem : h ∈ c.numEdges := by
    rw [← AList.lookup_isSome, hc.counts h, if_neg hh]
    rfl
  have hlists : 1 ≤ c.numEdges.keys.length :=
    List.length_pos_of_mem (AList.mem_keys.mp hmem)
  have hedges : 0 < c.edgeCount := by
    have hlen := hc.within h
    obtain ⟨e, he⟩ : ∃ e, (L h)[0]? = some e := ⟨_, List.getElem?_eq_getElem (by omega)⟩
    have htake : e ∈ (L h).take (n h) := by
      refine List.mem_of_getElem? (i := 0) ?_
      rw [List.getElem?_take_of_lt (Nat.pos_of_ne_zero hh)]
      exact he
    rw [hc.edgeCount]
    exact Finset.card_pos.mpr ⟨e.directed h, mem_included.mpr ⟨e, htake, rfl, rfl⟩⟩
  have hout : c.outEdgeCount ≤ c.edgeCount := by
    rw [hc.edgeCount, hc.outEdgeCount]
    exact Pairing.card_dangling_le _
  have hconductance := Score.one_sub_div_nonneg (S := S) c.outEdgeCount c.edgeCount hout hedges
  have hcohesiveness : (Score.ofNat 0 : S) ≤ if c.numEdges.keys.length = 1 then (Score.half : S)
      else Score.div (Score.ofNat c.internalEdges.keys.length)
        (Score.mul (Score.mul Score.half (Score.ofNat c.numEdges.keys.length))
          (Score.sub (Score.ofNat c.numEdges.keys.length) (Score.ofNat 1))) := by
    split_ifs with hone
    · exact Score.half_nonneg
    · exact Score.div_nonneg _ _ (Score.pairs_pos _ (by omega))
  unfold getLocality
  cases metric with
  | rccMixed => exact Score.mul_nonneg _ _ hconductance hcohesiveness
  | rConductance => exact hconductance
  | cohesiveness => exact hcohesiveness

end Candidate

end RailwayDB
