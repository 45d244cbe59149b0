/-
What the expiration map keeps, and when a flush comes to an end.

The map holds end stretches of the edges it was given; its queue has one item for each
list and its size is the number of edges.  Writing a block splits every list in two:
the block has the front and the map keeps the back.  `removeEdges` finds the place to
split by looking for the newest edge of the block, which is the right place because a
time names an edge.

A block of the smart layout is never empty.  A block of a plain layout is empty when
the edge at the top of the queue does not fit, and then the next one is empty too.
-/
import RailwayDB.Proofs.PlainLayout

namespace RailwayDB

namespace ExpirationMap

variable {T S D : Type} [LinearOrder T] [LinearOrder S] [Score S] [TimeScore T S] [SerializedSize D]

/-! ### Taking the edges of a block out -/

/-- Edges are dropped up to the one looked for, and no further. -/
theorem removeUpTo_ok {D : Type} {l : List (NLEdge T D)} {j : Nat} {x : NLEdge T D}
    (hincr : l.Pairwise fun x y => x.time < y.time) (hx : l[j]? = some x) :
    removeUpTo x l = .ok (l.drop (j + 1), j + 1) := by
  induction l generalizing j with
  | nil => simp at hx
  | cons y l ih =>
      obtain ⟨hy, hincr'⟩ := List.pairwise_cons.mp hincr
      cases j with
      | zero =>
          have hxy : y = x := by simpa using hx
          unfold removeUpTo
          rw [if_pos ⟨by rw [hxy], by rw [hxy]⟩]
          rfl
      | succ j =>
          have hx' : l[j]? = some x := by simpa using hx
          have hne : ¬ (y.toVertex = x.toVertex ∧ y.time = x.time) := by
            intro hc
            exact ne_of_lt (hy x (List.mem_of_getElem? hx')) hc.2
          unfold removeUpTo
          rw [if_neg hne, ih hincr' hx']
          rfl

variable {es : List (GraphEdge T D)} {m : ExpirationMap T S D} {n : VertexId → Nat}
  {L : VertexId → List (NLEdge T D)} {block : Block T D}

/-- The key of a vertex in the queue is the score of its oldest edge. -/
def Scored (m : ExpirationMap T S D) (w : VertexId) : Prop :=
  ∀ s, m.scoreQueue.index.lookup w = some s → ∃ ω place, m.score ω place w 0 = .ok s

theorem Scored.of_kept {T D : Type} [TimeScore T S] {m m' : ExpirationMap T S D} {w : VertexId}
    (h : Scored m w) (hconf : m'.conf = m.conf)
    (hedges : m'.neigLists.edges w = m.neigLists.edges w)
    (hkept : m'.scoreQueue.index.lookup w = m.scoreQueue.index.lookup w) : Scored m' w := by
  intro s hs
  rw [hkept] at hs
  obtain ⟨ω, place, hscore⟩ := h s hs
  exact ⟨ω, place, (score_congr hconf hedges ω place 0).trans hscore⟩

/-- Beside the size, only the list of `v` changed: it is `l` now, and queued by its score unless
empty. -/
structure Relisted (m : ExpirationMap T S D) (v : VertexId) (l : List (NLEdge T D))
    (m' : ExpirationMap T S D) : Prop where
  conf : m'.conf = m.conf
  edges : ∀ w, m'.neigLists.edges w = if w = v then l else m.neigLists.edges w
  lists : ListsOK m'.neigLists
  total : edgeTotal m'.neigLists + (m.neigLists.edges v).length
    = edgeTotal m.neigLists + l.length
  queue : ∀ w, m'.scoreQueue.index.lookup w = none ↔
    if w = v then l = [] else m.scoreQueue.index.lookup w = none
  kept : ∀ w ≠ v, m'.scoreQueue.index.lookup w = m.scoreQueue.index.lookup w
  scored : Scored m' v

theorem Relisted.scored_of {T D : Type} [TimeScore T S] {m : ExpirationMap T S D} {v : VertexId}
    {l : List (NLEdge T D)} {m' : ExpirationMap T S D} (hrel : Relisted m v l m') {w : VertexId}
    (hs : w ≠ v → Scored m w) : Scored m' w := by
  by_cases hw : w = v
  · rw [hw]
    exact hrel.scored
  · exact (hs hw).of_kept hrel.conf (by rw [hrel.edges, if_neg hw]) (hrel.kept w hw)

theorem Relisted.queued {T D : Type} [TimeScore T S] {m : ExpirationMap T S D} {v : VertexId}
    {l : List (NLEdge T D)} {m' : ExpirationMap T S D} (hrel : Relisted m v l m') (hq : Queued m) :
    Queued m' := by
  intro w
  rw [hrel.queue, hrel.edges]
  by_cases hw : w = v
  · rw [if_pos hw, if_pos hw]
  · rw [if_neg hw, if_neg hw]
    exact hq w

/-- One list of the block is taken out of the map. -/
theorem removeList_ok {D : Type} {es : List (GraphEdge T D)} {m : ExpirationMap T S D}
    {L : VertexId → List (NLEdge T D)} {block : Block T D} (ω : Oracle S) (hs : Suffixes es L)
    (hb : Taken L n block) (hlists : ListsOK m.neigLists) {v : VertexId} (hv : n v ≠ 0)
    (hold : m.neigLists.edges v = L v) :
    ∃ m', removeList ω block m v = .ok m' ∧ m'.size = m.size - n v ∧
      Relisted m v ((L v).drop (n v)) m' := by
  have hlen := hb.within v
  obtain ⟨k, hk⟩ := Nat.exists_eq_succ_of_ne_zero hv
  obtain ⟨x, hx⟩ : ∃ x, (L v)[k]? = some x := ⟨_, List.getElem?_eq_getElem (by omega)⟩
  have hfront : block.neigs.edges v = (L v).take k ++ [x] := by
    rw [hb.edges, hk, List.take_add_one, hx]
    rfl
  have hfind : Candidate.findList block.neigs v = .ok ⟨v, (L v).take k ++ [x]⟩ := by
    unfold Candidate.findList
    rw [hb.lists.lookup_eq (by rw [hfront]; simp), hfront]
  have hnewest : NeighborList.getNewestEdge ⟨v, (L v).take k ++ [x]⟩ = .ok x := by
    unfold NeighborList.getNewestEdge
    rw [List.getLast?_concat]
  have hremove := removeUpTo_ok (hs.increasing v) hx
  rw [← Nat.succ_eq_add_one, ← hk] at hremove
  unfold removeList
  simp only [hfind, Except.ok_bind, hnewest, listOf, hold, hremove]
  by_cases hrest : (L v).drop (n v) = []
  · rw [if_pos (List.isEmpty_iff.mpr hrest)]
    refine ⟨_, rfl, rfl, rfl, ?_, hlists.erase v, ?_, ?_, ?_, ?_⟩
    · intro w
      rw [NeighborListMap.edges_erase, hrest]
    · have htotal := edgeTotal_erase m.neigLists v
      simp only [hrest, List.length_nil]
      omega
    · intro w
      rw [PriorityQueue.lookup_removeItem]
      by_cases hw : w = v
      · simp [hw, hrest]
      · simp [hw]
    · intro w hw
      rw [PriorityQueue.lookup_removeItem, if_neg hw]
    · intro s hs
      rw [PriorityQueue.lookup_removeItem, if_pos rfl] at hs
      simp at hs
  · rw [if_neg (by rw [List.isEmpty_iff]; exact hrest)]
    obtain ⟨q, s, hrescore, hscore, hlookup⟩ := rescore_ok ω
      { m with
        size := m.size - n v
        neigLists := m.neigLists.insert v ⟨v, (L v).drop (n v)⟩ } 3 (v := v) (i := 0) (by
          rw [NeighborListMap.edges_insert, if_pos rfl]
          exact List.length_pos_iff.mpr hrest)
    refine ⟨_, hrescore, rfl, rfl, ?_, hlists.insert hrest, ?_, ?_, ?_, ?_⟩
    · intro w
      exact NeighborListMap.edges_insert _ _ _ _
    · exact edgeTotal_insert_add _ _ _
    · intro w
      rw [hlookup]
      by_cases hw : w = v
      · simp [hw, hrest]
      · simp [hw]
    · intro w hw
      rw [hlookup, if_neg hw]
    · intro s' hs'
      rw [hlookup, if_pos rfl, Option.some.injEq] at hs'
      rw [← hs']
      exact ⟨ω, 3, hscore⟩

/-- The map with the lists of the block still in `l` not taken out yet. -/
structure Removing (m : ExpirationMap T S D) (n : VertexId → Nat) (l : List VertexId)
    (m' : ExpirationMap T S D) : Prop where
  heads : l.Nodup ∧ ∀ w ∈ l, n w ≠ 0
  conf : m'.conf = m.conf
  edges : ∀ w, m'.neigLists.edges w
    = if w ∈ l then m.neigLists.edges w else (m.neigLists.edges w).drop (n w)
  lists : ListsOK m'.neigLists
  size : m'.size = edgeTotal m'.neigLists
  shrinks : m'.size ≤ m.size ∧ ∀ w ∉ l, n w ≠ 0 → m'.size < m.size
  queue : ∀ w ∉ l, m'.scoreQueue.index.lookup w = none ↔ m'.neigLists.edges w = []
  scored : ∀ w ∉ l, Scored m' w

theorem removeList_step {D : Type} {es : List (GraphEdge T D)} {m : ExpirationMap T S D}
    {block : Block T D} (ω : Oracle S) (hs : Suffixes es m.neigLists.edges)
    (hb : Taken m.neigLists.edges n block) {v : VertexId} {l : List VertexId}
    {m' : ExpirationMap T S D} (hr : Removing m n (v :: l) m') :
    ∃ m'', removeList ω block m' v = .ok m'' ∧ Removing m n l m'' := by
  obtain ⟨hnodup, hpos⟩ := hr.heads
  obtain ⟨hv, hnodup'⟩ := List.nodup_cons.mp hnodup
  have hold : m'.neigLists.edges v = m.neigLists.edges v := by
    rw [hr.edges, if_pos List.mem_cons_self]
  obtain ⟨m'', hremove, hsize, hrel⟩ :=
    removeList_ok ω hs hb hr.lists (hpos v List.mem_cons_self) hold
  have htotal : edgeTotal m''.neigLists + n v = edgeTotal m'.neigLists := by
    have htotal := hrel.total
    have hwithin := hb.within v
    rw [hold, List.length_drop] at htotal
    omega
  have hnv := hpos v List.mem_cons_self
  have hedges : ∀ w, m''.neigLists.edges w
      = if w ∈ l then m.neigLists.edges w else (m.neigLists.edges w).drop (n w) := by
    intro w
    rw [hrel.edges]
    by_cases hw : w = v
    · rw [if_pos hw, hw, if_neg hv]
    · rw [if_neg hw, hr.edges]
      simp [hw]
  refine ⟨m'', hremove, ⟨hnodup', fun w hw => hpos w (List.mem_cons_of_mem _ hw)⟩,
    hrel.conf.trans hr.conf, hedges, hrel.lists, ?_, ?_, ?_, ?_⟩
  · rw [hsize, hr.size]
    omega
  · have hle := hr.shrinks.1
    rw [hsize]
    refine ⟨by omega, fun w _ _ => ?_⟩
    have htotal' := hr.size
    omega
  · intro w hw
    rw [hrel.queue, hrel.edges]
    by_cases hwv : w = v
    · rw [if_pos hwv, if_pos hwv]
    · rw [if_neg hwv, if_neg hwv]
      exact hr.queue w (by simp [hwv, hw])
  · intro w hw
    exact hrel.scored_of fun hwv => hr.scored w (by simp [hwv, hw])

/-- What is kept between calls. -/
structure Sound (es : List (GraphEdge T D)) (m : ExpirationMap T S D) : Prop
    extends ListsFrom es m where
  queued : Queued m
  size : m.size = edgeTotal m.neigLists
  scored : ∀ w, Scored m w

/-- One queue item per list. -/
theorem Sound.getSize {D : Type} {es : List (GraphEdge T D)} {m : ExpirationMap T S D}
    (hm : Sound es m) :
    m.neigLists.keys.length = m.scoreQueue.getSize := by
  have hperm : m.neigLists.keys.Perm m.scoreQueue.index.keys := by
    refine (List.perm_ext_iff_of_nodup m.neigLists.nodupKeys
      m.scoreQueue.index.nodupKeys).mpr ?_
    intro w
    show w ∈ m.neigLists.keys ↔ w ∈ m.scoreQueue.index.keys
    rw [← AList.mem_keys, ← AList.mem_keys, hm.lists.mem_iff, ← AList.lookup_isSome,
      Option.isSome_iff_ne_none, ne_eq, ne_eq, hm.queued w]
  exact hperm.length_eq

/-- The block has the front of every list and the map keeps the back. -/
theorem removeEdges_ok {D : Type} {es : List (GraphEdge T D)} {m : ExpirationMap T S D}
    {block : Block T D} (ω : Oracle S) (hm : ListsFrom es m)
    (hsize : m.size = edgeTotal m.neigLists) (hb : Taken m.neigLists.edges n block)
    (hq : ∀ w, n w = 0 → (m.scoreQueue.index.lookup w = none ↔ m.neigLists.edges w = []))
    (hscored : ∀ w, n w = 0 → Scored m w) :
    ∃ m', m.removeEdges ω block = .ok m' ∧ Sound es m' ∧ m'.conf = m.conf ∧
      (∀ w, m'.neigLists.edges w = (m.neigLists.edges w).drop (n w)) ∧
      ∀ w, n w ≠ 0 → m'.size < m.size := by
  have hperm := ω.order_perm 0 0 block.neigs.keys
  have hkeys : ∀ w, w ∈ ω.order 0 0 block.neigs.keys ↔ n w ≠ 0 := by
    intro w
    rw [hperm.mem_iff, ← AList.mem_keys, hb.mem_iff]
  have hstart : Removing m n (ω.order 0 0 block.neigs.keys) m := by
    refine ⟨⟨hperm.nodup_iff.mpr block.neigs.nodupKeys, fun w hw => (hkeys w).mp hw⟩, rfl, ?_,
      hm.lists, hsize, ⟨le_refl _, ?_⟩, ?_, ?_⟩
    · intro w
      by_cases hw : w ∈ ω.order 0 0 block.neigs.keys
      · rw [if_pos hw]
      · have hz : n w = 0 := by
          by_contra hz
          exact hw ((hkeys w).mpr hz)
        rw [if_neg hw, hz, List.drop_zero]
    · intro w hw hz
      exact absurd ((hkeys w).mpr hz) hw
    · intro w hw
      refine hq w ?_
      by_contra hz
      exact hw ((hkeys w).mpr hz)
    · intro w hw
      refine hscored w ?_
      by_contra hz
      exact hw ((hkeys w).mpr hz)
  obtain ⟨m', hremove, hr⟩ := Except.foldlM_ok (P := Removing m n)
    (fun v l m' hr => removeList_step ω hm.suffixes hb hr) _ _ hstart
  have hedges : ∀ w, m'.neigLists.edges w = (m.neigLists.edges w).drop (n w) := by
    intro w
    rw [hr.edges, if_neg (by simp)]
  refine ⟨m', hremove, ⟨⟨⟨hm.suffixes.history, ?_⟩, hr.lists⟩, ?_, hr.size, ?_⟩, hr.conf, hedges,
    ?_⟩
  · intro w
    rw [hedges]
    exact (List.drop_suffix _ _).trans (hm.suffixes.suffix w)
  · intro w
    exact hr.queue w (by simp)
  · intro w
    exact hr.scored w (by simp)
  · intro w
    exact hr.shrinks.2 w (by simp)

/-! ### Writing a block -/

/-- The block is the front of every list, the map keeps the back. -/
def Splits (m : ExpirationMap T S D) (block : Block T D) (m' : ExpirationMap T S D) : Prop :=
  ∀ w, block.neigs.edges w ++ m'.neigLists.edges w = m.neigLists.edges w

/-- A plain block has room for its id, and a smart layout has a candidate to start from. -/
def Usable (conf : Conf) : Prop :=
  if conf.layoutMode = .smart then conf.initialCandidateCount ≠ 0 else 8 ≤ conf.blockSize

instance (conf : Conf) : Decidable (Usable conf) := by
  unfold Usable
  infer_instance

/-- Taking out the edges of a block that is a choice of prefixes. -/
theorem removeEdges_splits {D : Type} {es : List (GraphEdge T D)} {m : ExpirationMap T S D}
    {block : Block T D} (ω : Oracle S) (hm : Sound es m) {m' : ExpirationMap T S D}
    (hcut : Cut m n block m') :
    ∃ m'', m'.removeEdges ω block = .ok m'' ∧
      m''.neigLists.keys.length = m''.scoreQueue.getSize ∧ Sound es m'' ∧ m''.conf = m.conf ∧
      Splits m block m'' ∧ ((∃ h, n h ≠ 0) → m''.size < m.size) := by
  have hm' : ListsFrom es m' := by
    refine ⟨?_, ?_⟩ <;> rw [hcut.lists]
    · exact hm.suffixes
    · exact hm.lists
  have htaken : Taken m'.neigLists.edges n block := by
    rw [hcut.lists]
    exact hcut.taken
  have hcount : m'.size = edgeTotal m'.neigLists := by
    rw [hcut.count, hcut.lists]
    exact hm.size
  have hqueue : ∀ w, n w = 0 →
      (m'.scoreQueue.index.lookup w = none ↔ m'.neigLists.edges w = []) := by
    rw [hcut.lists]
    exact hcut.queue
  have hscored : ∀ w, n w = 0 → Scored m' w := by
    intro w hw
    have hedges : m'.neigLists.edges w = m.neigLists.edges w := by rw [hcut.lists]
    rcases hcut.kept w hw with hkept | ⟨ω', place, s, hscore, hkey⟩
    · exact (hm.scored w).of_kept hcut.conf hedges hkept
    · intro s' hs'
      rw [hkey, Option.some.injEq] at hs'
      rw [← hs']
      exact ⟨ω', place, (score_congr hcut.conf hedges ω' place 0).trans hscore⟩
  obtain ⟨m'', hremove, hsound, hconf, hedges, hshrinks⟩ :=
    removeEdges_ok ω hm' hcount htaken hqueue hscored
  have hsplit : Splits m block m'' := by
    intro w
    rw [hcut.taken.edges, hedges, hcut.lists]
    exact List.take_append_drop _ _
  refine ⟨m'', hremove, hsound.getSize, hsound, hconf.trans hcut.conf, hsplit, ?_⟩
  intro hpos
  obtain ⟨h, hh⟩ := hpos
  rw [← hcut.count]
  exact hshrinks h hh

/-- Some list is not empty when the size is not zero. -/
theorem Sound.exists_edges {D : Type} {es : List (GraphEdge T D)} {m : ExpirationMap T S D}
    (hm : Sound es m) (hsize : m.size ≠ 0) :
    ∃ w, m.neigLists.edges w ≠ [] := by
  by_contra hnone
  apply hsize
  rw [hm.size]
  refine edgeTotal_eq_zero ?_
  intro w
  by_contra hw
  exact hnone ⟨w, hw⟩

/-- Every layout but the smart one cuts its blocks from the queue. -/
theorem cutBlock_plain (ω : Oracle S) (hmode : m.conf.layoutMode ≠ .smart) :
    m.cutBlock ω = m.getBlock ω := by
  unfold cutBlock
  split
  · rename_i hsmart
    exact absurd hsmart hmode
  · rfl

/-- Cutting a block: the lists stay as they are, the block is a choice of prefixes. -/
theorem cutBlock_ok (ω : Oracle S) (hm : Sound es m) (hconf : Usable m.conf)
    (hsize : m.conf.layoutMode = .smart → m.size ≠ 0) :
    ∃ block m' n, m.cutBlock ω = .ok (block, m') ∧ Cut m n block m' ∧
      (m.size ≠ 0 → m.conf.layoutMode = .smart ∨ Fits m → ∃ h, n h ≠ 0) ∧
      (selectionSize es m.neigLists.edges n ≤ m.conf.blockSize ∨
        m.conf.layoutMode = .smart ∧ (included m.neigLists.edges n).card = 1) := by
  unfold Usable at hconf
  by_cases hmode : m.conf.layoutMode = .smart
  · rw [if_pos hmode] at hconf
    obtain ⟨block, n, hblock, hf, ⟨hpos, hroom⟩, -⟩ :=
      getBlockSmart_ok hm.toListsFrom hm.queued ω hconf (hm.exists_edges (hsize hmode))
    refine ⟨block, m, n, ?_, ⟨rfl, rfl, rfl, hf.toTaken, fun w _ => hm.queued w,
      fun w _ => Or.inl rfl⟩, fun _ _ => hpos, ?_⟩
    · unfold cutBlock
      simp only [hmode, hblock, Except.ok_map]
    · exact hroom.imp_right fun hone => ⟨hmode, hone⟩
  · rw [if_neg hmode] at hconf
    rw [cutBlock_plain ω hmode]
    by_cases hall : m.size ≠ 0 ∧ Fits m
    · have hfirst : FirstFits m := fun item e _ he => hall.2 item.2 e (List.mem_of_getElem? he)
      obtain ⟨block, m', n, hblock, hcut, hfits, hcard⟩ := getBlock_first hm.toListsFrom hm.queued ω
        (hm.exists_edges hall.1) hfirst
      exact ⟨block, m', n, hblock, hcut, fun _ _ => exists_of_card_included hcard, Or.inl hfits⟩
    · obtain ⟨block, m', n, hblock, hcut, hfits⟩ := getBlock_ok hm.toListsFrom hm.queued ω hconf
      exact ⟨block, m', n, hblock, hcut,
        fun hne hcase => absurd ⟨hne, hcase.resolve_left hmode⟩ hall, Or.inl hfits⟩

/-- A block that was cut is written. -/
theorem writeBlock_of_cut (ω : Oracle S) (hm : Sound es m) {m₁ : ExpirationMap T S D}
    (hblock : m.cutBlock ω = .ok (block, m₁)) (hcut : Cut m n block m₁) :
    ∃ m', m.writeBlock ω = .ok (block, m') ∧ Sound es m' ∧ m'.conf = m.conf ∧
      Splits m block m' ∧ ((∃ h, n h ≠ 0) → m'.size < m.size) := by
  obtain ⟨m', hremove, hkeys, hrest⟩ := removeEdges_splits ω hm hcut
  refine ⟨m', ?_, hrest⟩
  unfold writeBlock
  rw [hblock, Except.ok_bind]
  simp only [hremove, Except.ok_bind, hkeys, ne_eq, not_true_eq_false, if_false]
  rfl

/-- A written block takes the front of every list.  It shrinks the map when the layout is the
smart one or every edge fits, and a plain block holds only edges that fit. -/
theorem writeBlock_ok (ω : Oracle S) (hm : Sound es m) (hconf : Usable m.conf)
    (hsize : m.conf.layoutMode = .smart → m.size ≠ 0) :
    ∃ block m', m.writeBlock ω = .ok (block, m') ∧ Sound es m' ∧ m'.conf = m.conf ∧
      Splits m block m' ∧
      (m.size ≠ 0 → m.conf.layoutMode = .smart ∨ Fits m → m'.size < m.size) ∧
      (m.conf.layoutMode ≠ .smart → ∀ w, ∀ e ∈ block.neigs.edges w,
        36 + getSerializedSizeOf e.data.val ≤ m.conf.blockSize) := by
  obtain ⟨block, m₁, n, hblock, hcut, hpos, hfits⟩ := cutBlock_ok ω hm hconf hsize
  obtain ⟨m', hwrite, hsound, hconf', hsplit, hshrinks⟩ := writeBlock_of_cut ω hm hblock hcut
  refine ⟨block, m', hwrite, hsound, hconf', hsplit, fun hne hcase => hshrinks (hpos hne hcase), ?_⟩
  intro hmode w e he
  rw [hcut.taken.edges] at he
  refine (selectionSize_ge hm.suffixes he).trans (hfits.resolve_right ?_)
  intro hsmart
  exact hmode hsmart.1

/-- The fault of a configuration that cannot write blocks. -/
def unusableFault (conf : Conf) : Fault :=
  if conf.layoutMode = .smart then .undefined .outOfRange
  else .assertFailed .blockRemoveNewestEdgeHead

/-- Without a candidate to start from, the smart layout reads past the end of an empty vector. -/
theorem writeBlock_no_seed (ω : Oracle S) (hmode : m.conf.layoutMode = .smart)
    (hnone : min m.neigLists.keys.length m.conf.initialCandidateCount = 0) :
    m.writeBlock ω = .error (.undefined .outOfRange) := by
  have hnil : ω.order 3 0 [] = [] := (ω.order_perm 3 0 []).eq_nil
  have hseeds : m.seedCandidates ω = .ok [] := by
    unfold seedCandidates
    simp only [hnone, List.take_zero, hnil]
    rfl
  have hblock : m.getBlockSmart ω = .error (.undefined .outOfRange) := by
    unfold getBlockSmart
    rw [hseeds, Except.ok_bind]
    unfold growLoop
    rfl
  unfold writeBlock cutBlock
  simp only [hmode, hblock]
  rfl

theorem writeBlock_unusable (ω : Oracle S) (hconf : ¬ Usable m.conf) :
    m.writeBlock ω = .error (unusableFault m.conf) := by
  unfold Usable at hconf
  unfold unusableFault
  by_cases hmode : m.conf.layoutMode = .smart
  · rw [if_pos hmode, not_not] at hconf
    rw [if_pos hmode]
    exact writeBlock_no_seed ω hmode (by rw [hconf, Nat.min_zero])
  · rw [if_neg hmode, not_le] at hconf
    rw [if_neg hmode]
    unfold writeBlock cutBlock
    split
    · rename_i hsmart
      exact absurd hsmart hmode
    · rw [getBlock_small ω hconf]
      rfl

/-- So does a map without edges. -/
theorem writeBlock_empty (ω : Oracle S) (hm : Sound es m) (hmode : m.conf.layoutMode = .smart)
    (hsize : m.size = 0) : m.writeBlock ω = .error (.undefined .outOfRange) := by
  refine writeBlock_no_seed ω hmode ?_
  have hkeys : m.neigLists.keys = [] := by
    rw [List.eq_nil_iff_forall_not_mem]
    intro w hw
    rw [hm.size] at hsize
    exact (hm.lists.mem_iff w).mp (AList.mem_keys.mpr hw) (edges_eq_nil_of_edgeTotal hsize w)
  rw [hkeys, List.length_nil, Nat.zero_min]

/-! ### Adding an edge -/

/-- The edge stands behind the list of `v`, and `v` is queued. -/
theorem push_ok {T D : Type} [TimeScore T S] {m : ExpirationMap T S D} (ω : Oracle S) (place : Nat)
    (hlists : ListsOK m.neigLists) (v : VertexId) (e : NLEdge T D) :
    ∃ m', m.push ω place v e = .ok m' ∧ m'.size = m.size ∧
      Relisted m v (m.neigLists.edges v ++ [e]) m' := by
  obtain ⟨q, s, hrescore, hscore, hlookup⟩ := rescore_ok ω
    { m with neigLists := NeighborListMap.addEdge m.neigLists v e } place (v := v) (i := 0) (by
      rw [NeighborListMap.edges_addEdge, if_pos rfl]
      simp)
  refine ⟨_, hrescore, rfl, rfl, ?_, hlists.addEdge v e, ?_, ?_, ?_, ?_⟩
  · intro w
    exact NeighborListMap.edges_addEdge _ _ _ _
  · exact edgeTotal_insert_add _ _ _
  · intro w
    rw [hlookup]
    by_cases hw : w = v
    · simp [hw]
    · simp [hw]
  · intro w hw
    rw [hlookup, if_neg hw]
  · intro s' hs'
    rw [hlookup, if_pos rfl, Option.some.injEq] at hs'
    rw [← hs']
    exact ⟨ω, place, hscore⟩

/-- An edge later than all others enters the lists of its ends. -/
theorem pushes_ok {D : Type} {es : List (GraphEdge T D)} {m : ExpirationMap T S D} (ω : Oracle S)
    (hm : Sound es m) {e : GraphEdge T D} (hes : History (es ++ [e])) :
    ∃ m₁ m₂, m.push ω 4 e.firstVertex ⟨e.secondVertex, e.time, e.data⟩ = .ok m₁ ∧
      m₁.push ω 5 e.secondVertex ⟨e.firstVertex, e.time, e.data⟩ = .ok m₂ ∧
      m₂.conf = m.conf ∧ Sound (es ++ [e]) { m₂ with size := m₂.size + 2 } ∧
      ∀ w, m₂.neigLists.edges w = m.neigLists.edges w ++ (e.at? w).toList := by
  have hne : e.secondVertex ≠ e.firstVertex :=
    (hes.distinct e (List.mem_append_right _ List.mem_cons_self)).symm
  obtain ⟨m₁, hpush₁, hsize₁, hrel₁⟩ :=
    push_ok ω 4 hm.lists e.firstVertex ⟨e.secondVertex, e.time, e.data⟩
  obtain ⟨m₂, hpush₂, hsize₂, hrel₂⟩ :=
    push_ok ω 5 hrel₁.lists e.secondVertex ⟨e.firstVertex, e.time, e.data⟩
  have hsecond : m₁.neigLists.edges e.secondVertex = m.neigLists.edges e.secondVertex := by
    rw [hrel₁.edges, if_neg hne]
  have hedges : ∀ w, m₂.neigLists.edges w = m.neigLists.edges w ++ (e.at? w).toList := by
    intro w
    rw [hrel₂.edges, hsecond, hrel₁.edges]
    unfold GraphEdge.at?
    by_cases h2 : w = e.secondVertex
    · rw [if_pos h2, h2, if_neg hne.symm, if_pos rfl]
      rfl
    · rw [if_neg h2, if_neg (Ne.symm h2)]
      by_cases h1 : w = e.firstVertex
      · rw [if_pos h1, h1, if_pos rfl]
        rfl
      · rw [if_neg h1, if_neg (Ne.symm h1)]
        simp
  refine ⟨m₁, m₂, hpush₁, hpush₂, hrel₂.conf.trans hrel₁.conf,
    ⟨⟨⟨hes, ?_⟩, hrel₂.lists⟩, ?_, ?_, ?_⟩, hedges⟩
  · intro w
    rw [hedges, incident_append, incident_singleton]
    obtain ⟨older, holder⟩ := hm.suffixes.suffix w
    exact ⟨older, by rw [← List.append_assoc, holder]⟩
  · exact hrel₂.queued (hrel₁.queued hm.queued)
  · have htotal₁ := hrel₁.total
    have htotal₂ := hrel₂.total
    have hsize := hm.size
    rw [List.length_append, List.length_singleton] at htotal₁ htotal₂
    show m₂.size + 2 = edgeTotal m₂.neigLists
    omega
  · intro w
    exact hrel₂.scored_of fun _ => hrel₁.scored_of fun _ => hm.scored w

/-- The lists of blocks, front to back. -/
def written (blocks : List (Block T D)) (w : VertexId) : List (NLEdge T D) :=
  blocks.flatMap fun block => block.neigs.edges w

/-- Adding an edge, with the block that was written if the map was full.  A configuration that
cannot write blocks faults there. -/
theorem addEdge_ok (ω : Oracle S) (hm : Sound es m) {e : GraphEdge T D}
    (hes : History (es ++ [e])) :
    (∃ block m', m.addEdge ω e.toUEdge e.data = .ok (block, m') ∧ Sound (es ++ [e]) m' ∧
      m'.conf = m.conf ∧ ∀ w, written block.toList w ++ m'.neigLists.edges w
        = m.neigLists.edges w ++ (e.at? w).toList) ∨
    (¬ Usable m.conf ∧ m.addEdge ω e.toUEdge e.data = .error (unusableFault m.conf)) := by
  obtain ⟨m₁, m₂, hpush₁, hpush₂, hconf, hsound, hedges⟩ := pushes_ok ω hm hes
  unfold addEdge GraphEdge.toUEdge
  simp only [hpush₁, hpush₂, Except.ok_bind]
  split_ifs with hfull
  · by_cases husable : Usable m.conf
    · obtain ⟨block, m', hwrite, hsound', hconf', hsplit, -⟩ :=
        writeBlock_ok ω hsound (by rw [← hconf] at husable; exact husable)
          fun _ => show m₂.size + 2 ≠ 0 by omega
      refine Or.inl ⟨some block, m', ?_, hsound', hconf'.trans hconf, ?_⟩
      · rw [hwrite, Except.ok_map]
      · intro w
        rw [← hedges w, ← hsplit w]
        simp [written]
    · refine Or.inr ⟨husable, ?_⟩
      rw [writeBlock_unusable ω (by rw [← hconf] at husable; exact husable)]
      rw [show ({ m₂ with size := m₂.size + 2 } : ExpirationMap T S D).conf = m.conf from hconf]
      rfl
  · refine Or.inl ⟨none, _, rfl, hsound, hconf, ?_⟩
    intro w
    rw [← hedges w]
    rfl

end ExpirationMap

end RailwayDB
