/-
The smart layout always finds a block.

Candidates are tried out by setting counts and setting them back.  Whatever is tried,
the candidate stays a choice of prefixes (`Candidate.Chosen`), so no assertion fails;
an extension that is kept fits the block and makes the candidate larger, so a block
size of passes is enough; and the edge a candidate starts with is never given back,
so the block formed from the best one is not empty.
-/
import RailwayDB.Core.ExpirationMap
import RailwayDB.Proofs.BlockFill
import RailwayDB.Proofs.Candidate

namespace RailwayDB

namespace ExpirationMap

variable {T S D : Type} [LinearOrder T] [LinearOrder S] [SerializedSize D]

/-- The lists of the map are end stretches of one history. -/
structure ListsFrom (es : List (GraphEdge T D)) (m : ExpirationMap T S D) : Prop where
  suffixes : Suffixes es m.neigLists.edges
  lists : ListsOK m.neigLists

variable {es : List (GraphEdge T D)} {m : ExpirationMap T S D} {n : VertexId → Nat}
  {c : Candidate T} {h : VertexId}

theorem ListsFrom.holds {T S D : Type} [LinearOrder T] [LinearOrder S]
    {es : List (GraphEdge T D)} {m : ExpirationMap T S D} (hm : ListsFrom es m) :
    Holds m.neigLists m.neigLists.edges :=
  fun _ hw => hm.lists.lookup_eq hw

@[simp] theorem listOf_edges {T S D : Type} [LinearOrder S] {m : ExpirationMap T S D}
    (v : VertexId) : (m.listOf v).edges = m.neigLists.edges v := rfl

theorem trySetEdgeCount_ok (hm : ListsFrom es m)
    (hc : Candidate.Chosen es m.neigLists.edges n c) {k : Nat}
    (hk : k ≤ (m.neigLists.edges h).length) :
    ∃ c', m.trySetEdgeCount c h k = .ok c' ∧
      Candidate.Chosen es m.neigLists.edges (Function.update n h k) c' := by
  unfold trySetEdgeCount
  rw [listOf_edges, if_pos hk]
  exact Candidate.setEdgeCount_ok hm.suffixes hm.holds hc hk

/-! ### Trying extensions -/

/-- An extension that takes more from one list and fits the block. -/
def Extends (es : List (GraphEdge T D)) (m : ExpirationMap T S D) (n : VertexId → Nat)
    (b : Best S) : Prop :=
  n b.headVertex < b.edgeCount ∧ b.edgeCount ≤ (m.neigLists.edges b.headVertex).length ∧
    selectionSize es m.neigLists.edges (Function.update n b.headVertex b.edgeCount)
      ≤ m.conf.blockSize

/-- The next edge of a list fits beside what is chosen. -/
def Room (es : List (GraphEdge T D)) (m : ExpirationMap T S D) (n : VertexId → Nat)
    (h : VertexId) : Prop :=
  n h < (m.neigLists.edges h).length ∧
    selectionSize es m.neigLists.edges (Function.update n h (n h + 1)) ≤ m.conf.blockSize

/-- The next edge of a list does not fit, and not for want of a new list's twelve bytes. -/
def Blocks (es : List (GraphEdge T D)) (m : ExpirationMap T S D) (n : VertexId → Nat)
    (h : VertexId) : Prop :=
  n h < (m.neigLists.edges h).length ∧
    m.conf.blockSize < selectionSize es m.neigLists.edges (Function.update n h (n h + 1)) ∧
    (n h ≠ 0 ∨ m.conf.blockSize
      < selectionSize es m.neigLists.edges (Function.update n h (n h + 1)) - 12)

/-- Some head has room and none before it blocks. -/
def Free (es : List (GraphEdge T D)) (m : ExpirationMap T S D) (n : VertexId → Nat)
    (heads : List VertexId) : Prop :=
  ∃ before h after, heads = before ++ h :: after ∧ Room es m n h ∧ ∀ v ∈ before, ¬ Blocks es m n v

theorem free_cons {heads : List VertexId} :
    Free es m n (h :: heads) ↔ Room es m n h ∨ ¬ Blocks es m n h ∧ Free es m n heads := by
  constructor
  · rintro ⟨before, v, after, heq, hroom, hbefore⟩
    cases before with
    | nil =>
        rw [List.nil_append, List.cons.injEq] at heq
        rw [heq.1]
        exact Or.inl hroom
    | cons w before =>
        rw [List.cons_append, List.cons.injEq] at heq
        rw [heq.1]
        exact Or.inr ⟨hbefore w List.mem_cons_self, before, v, after, heq.2, hroom,
          fun u hu => hbefore u (List.mem_cons_of_mem _ hu)⟩
  · rintro (hroom | ⟨hblock, before, v, after, heq, hroom, hbefore⟩)
    · exact ⟨[], h, heads, rfl, hroom, by simp⟩
    · refine ⟨h :: before, v, after, by rw [heq, List.cons_append], hroom, ?_⟩
      intro u hu
      rcases List.mem_cons.mp hu with heq | hu
      · rw [heq]
        exact hblock
      · exact hbefore u hu

/-- What trying out leaves behind: the candidate as it was, and an extension if any. -/
def Tried (es : List (GraphEdge T D)) (m : ExpirationMap T S D) (n : VertexId → Nat)
    (r : Candidate T × Option (Best S)) : Prop :=
  Candidate.Chosen es m.neigLists.edges n r.1 ∧ ∀ b ∈ r.2, Extends es m n b

theorem better_extends {best : Option (Best S)} {b : Best S}
    (hbest : ∀ b ∈ best, Extends es m n b) (hb : Extends es m n b) :
    ∀ b' ∈ better best b, Extends es m n b' := by
  intro b' hb'
  unfold better at hb'
  cases best with
  | none =>
      rw [← Option.some.inj hb']
      exact hb
  | some old =>
      simp only at hb'
      split_ifs at hb' with hlt
      · rw [← Option.some.inj hb']
        exact hb
      · rw [← Option.some.inj hb']
        exact hbest old rfl

theorem isSome_better {S : Type} [LinearOrder S] (best : Option (Best S)) (b : Best S) :
    (better best b).isSome = true := by
  unfold better
  cases best with
  | none => rfl
  | some old =>
      simp only
      split_ifs <;> rfl

variable (initLocality : S) (orgSize : Nat)

/-- Longer and longer prefixes of one list, from `j` edges on. -/
theorem tryPrefixes_ok [Score S] (hm : ListsFrom es m) (orgMaxTime : T) {j k : Nat}
    (hc : Candidate.Chosen es m.neigLists.edges (Function.update n h j) c) (hj : n h ≤ j)
    (hk : j + k = (m.neigLists.edges h).length) {best : Option (Best S)}
    (hbest : ∀ b ∈ best, Extends es m n b) :
    ∃ c' best' j', m.tryPrefixes initLocality orgSize orgMaxTime h ⟨h, m.neigLists.edges h⟩
        (List.range' (j + 1) k) c best = .ok (c', best') ∧
      Candidate.Chosen es m.neigLists.edges (Function.update n h j') c' ∧
      (∀ b ∈ best', Extends es m n b) ∧
      (best'.isSome = true → best.isSome = true ∨ n h < j ∨ Room es m n h) := by
  induction k generalizing j c best with
  | zero => exact ⟨c, best, j, rfl, hc, hbest, Or.inl⟩
  | succ k ih =>
      obtain ⟨e, he⟩ : ∃ e, (m.neigLists.edges h)[j]? = some e :=
        ⟨_, List.getElem?_eq_getElem (by omega)⟩
      rw [List.range'_succ]
      unfold tryPrefixes
      rw [Nat.add_sub_cancel, Candidate.getNthOldestEdge_ok he, Except.ok_bind]
      by_cases hnew : orgMaxTime < e.time
      · rw [if_pos hnew]
        exact ⟨c, best, j, rfl, hc, hbest, Or.inl⟩
      · obtain ⟨c', hset, hc'⟩ := trySetEdgeCount_ok hm hc (h := h) (k := j + 1) (by omega)
        rw [Function.update_idem] at hc'
        rw [if_neg hnew, hset, Except.ok_bind]
        by_cases hfull : m.conf.blockSize < c'.getSerializedSize
        · rw [if_pos hfull]
          exact ⟨c', best, j + 1, rfl, hc', hbest, Or.inl⟩
        · rw [if_neg hfull]
          have hsize : c'.getSerializedSize = _ := hc'.size
          rw [not_lt, hsize] at hfull
          have hextends : Extends es m n
              (⟨h, j + 1, m.gain initLocality orgSize c'⟩ : Best S) :=
            ⟨Nat.lt_succ_of_le hj, show j + 1 ≤ (m.neigLists.edges h).length by omega, hfull⟩
          obtain ⟨c'', best', j', htry, hc'', hbest', -⟩ :=
            ih hc' (by omega) (by omega) (better_extends hbest hextends)
          refine ⟨c'', best', j', htry, hc'', hbest', fun _ => Or.inr ?_⟩
          rcases Nat.lt_or_eq_of_le hj with hlt | heq
          · exact Or.inl hlt
          · rw [← heq] at hfull
            exact Or.inr ⟨by omega, hfull⟩

/-- A count that was changed can be set back. -/
theorem trySetEdgeCount_back (hm : ListsFrom es m) {j : Nat}
    (hc : Candidate.Chosen es m.neigLists.edges (Function.update n h j) c)
    (hn : n h ≤ (m.neigLists.edges h).length) :
    ∃ c', m.trySetEdgeCount c h (n h) = .ok c' ∧
      Candidate.Chosen es m.neigLists.edges n c' := by
  obtain ⟨c', hset, hc'⟩ := trySetEdgeCount_ok hm hc hn
  rw [Function.update_idem, Function.update_eq_self] at hc'
  exact ⟨c', hset, hc'⟩

theorem tryPresent_ok [Score S] (hm : ListsFrom es m) (orgMaxTime : T)
    {r : Candidate T × Option (Best S)} (hr : Tried es m n r) (h : VertexId) :
    ∃ r', m.tryPresent initLocality orgSize orgMaxTime r h = .ok r' ∧ Tried es m n r' ∧
      (r'.2.isSome = true → r.2.isSome = true ∨ Room es m n h) := by
  obtain ⟨hc, hbest⟩ := hr
  unfold tryPresent
  cases hl : m.neigLists.lookup h with
  | none => exact ⟨r, rfl, ⟨hc, hbest⟩, Or.inl⟩
  | some nlist =>
      rw [hm.lists.eq_of_lookup hl]
      have hn := hc.within h
      have hstart : Candidate.Chosen es m.neigLists.edges (Function.update n h (n h)) r.1 := by
        rw [Function.update_eq_self]
        exact hc
      obtain ⟨c', best', j', htry, hc', hbest', hfound⟩ := tryPrefixes_ok initLocality orgSize hm
        orgMaxTime hstart (le_refl _) (Nat.add_sub_of_le hn) hbest
      obtain ⟨c'', hset, hc''⟩ := trySetEdgeCount_back hm hc' hn
      refine ⟨(c'', best'), ?_, ⟨hc'', hbest'⟩, ?_⟩
      · simp only [hc.getEdgeCount, htry, Except.ok_bind, hset]
        rfl
      · intro hsome
        rcases hfound hsome with hbefore | hlt | hroom
        · exact Or.inl hbefore
        · omega
        · exact Or.inr hroom

theorem tryOneStep_ok [Score S] (hm : ListsFrom es m) {r : Candidate T × Option (Best S)}
    (hr : Tried es m n r) (h : VertexId) :
    ∃ r', m.tryOneStep initLocality orgSize r h = .ok r' ∧ Tried es m n r' ∧
      (r'.2.isSome = true ↔ r.2.isSome = true ∨ Room es m n h) := by
  obtain ⟨hc, hbest⟩ := hr
  unfold tryOneStep
  cases hl : m.neigLists.lookup h with
  | none =>
      refine ⟨r, rfl, ⟨hc, hbest⟩, Or.inl, ?_⟩
      rintro (hsome | hroom)
      · exact hsome
      · have hlt := hroom.1
        rw [NeighborListMap.edges_of_notMem (AList.lookup_eq_none.mp hl)] at hlt
        simp at hlt
  | some nlist =>
      rw [hm.lists.eq_of_lookup hl]
      have hn := hc.within h
      simp only [hc.getEdgeCount]
      by_cases hall : n h = (m.neigLists.edges h).length
      · rw [if_pos hall]
        refine ⟨r, rfl, ⟨hc, hbest⟩, Or.inl, ?_⟩
        rintro (hsome | hroom)
        · exact hsome
        · exact absurd hall hroom.1.ne
      · have hk : n h + 1 ≤ (m.neigLists.edges h).length := by omega
        obtain ⟨c', hset, hc'⟩ := trySetEdgeCount_ok hm hc hk
        obtain ⟨c'', hback, hc''⟩ := trySetEdgeCount_back hm hc' hn
        have hsize : c'.getSerializedSize = _ := hc'.size
        rw [if_neg hall, hset, Except.ok_bind, hback, Except.ok_bind]
        by_cases hfits : c'.getSerializedSize ≤ m.conf.blockSize
        · simp only [hfits, if_true]
          refine ⟨_, rfl, ⟨hc'', ?_⟩, fun _ => Or.inr ⟨hk, ?_⟩, fun _ => isSome_better _ _⟩
          · refine better_extends hbest ⟨Nat.lt_succ_self _, hk, ?_⟩
            rw [hsize] at hfits
            exact hfits
          · rw [hsize] at hfits
            exact hfits
        · simp only [hfits, if_false]
          refine ⟨_, rfl, ⟨hc'', hbest⟩, Or.inl, ?_⟩
          rintro (hsome | hroom)
          · exact hsome
          · rw [hsize] at hfits
            exact absurd hroom.2 hfits

theorem tryQueue_ok (hm : ListsFrom es m) (dummy : S) (heads : List VertexId)
    (hc : Candidate.Chosen es m.neigLists.edges n c) :
    ∃ r, m.tryQueue dummy heads c = .ok r ∧ Tried es m n r ∧
      (r.2.isSome = true ↔ Free es m n heads) := by
  induction heads generalizing c with
  | nil =>
      refine ⟨(c, none), rfl, ⟨hc, by simp⟩, ?_⟩
      simp [Free]
  | cons h more ih =>
      have hn := hc.within h
      rw [free_cons]
      unfold tryQueue
      simp only [hc.getEdgeCount, listOf_edges]
      by_cases hall : n h = (m.neigLists.edges h).length
      · rw [if_pos hall]
        have hroom : ¬ Room es m n h := fun hroom => absurd hall hroom.1.ne
        have hblock : ¬ Blocks es m n h := fun hblock => absurd hall hblock.1.ne
        simp only [hroom, hblock, not_false_eq_true, true_and, false_or]
        exact ih hc
      · have hk : n h + 1 ≤ (m.neigLists.edges h).length := by omega
        obtain ⟨c', hset, hc'⟩ := trySetEdgeCount_ok hm hc hk
        obtain ⟨c'', hback, hc''⟩ := trySetEdgeCount_back hm hc' hn
        have hsize : c'.getSerializedSize = selectionSize es m.neigLists.edges
          (Function.update n h (n h + 1)) := hc'.size
        rw [if_neg hall, hset, Except.ok_bind, hback, Except.ok_bind, hsize]
        by_cases hfits : selectionSize es m.neigLists.edges (Function.update n h (n h + 1))
            ≤ m.conf.blockSize
        · rw [if_pos hfits]
          refine ⟨_, rfl, ⟨hc'', ?_⟩, fun _ => Or.inl ⟨hk, hfits⟩, fun _ => rfl⟩
          intro b hb
          rw [← Option.some.inj hb]
          exact ⟨Nat.lt_succ_self _, hk, hfits⟩
        · have hroom : ¬ Room es m n h := fun hroom => hfits hroom.2
          rw [if_neg hfits]
          by_cases hstop : n h ≠ 0 ∨ m.conf.blockSize
              < selectionSize es m.neigLists.edges (Function.update n h (n h + 1)) - 12
          · have hblock : Blocks es m n h := ⟨hk, not_le.mp hfits, hstop⟩
            refine ⟨(c'', none), ?_, ⟨hc'', by simp⟩, ?_⟩
            · split_ifs with h1 h2
              · rfl
              · rfl
              · exact absurd hstop (not_or.mpr ⟨h1, h2⟩)
            · simp [hroom, hblock]
          · have hblock : ¬ Blocks es m n h := fun hblock => hstop hblock.2.2
            rw [not_or] at hstop
            rw [if_neg hstop.1, if_neg hstop.2]
            simp only [hroom, hblock, not_false_eq_true, true_and, false_or]
            exact ih hc''

/-! ### Whether there is an extension -/

/-- The size of the candidate with the next edge of `h`, when there is one. -/
def sizeWithNext (m : ExpirationMap T S D) (c : Candidate T) (h : VertexId) : Except Fault Nat :=
  (m.trySetEdgeCount c h (c.getEdgeCount h + 1)).map Candidate.getSerializedSize

/-- The next edge of `h` could be added. -/
def NextFits (m : ExpirationMap T S D) (c : Candidate T) (h : VertexId) : Prop :=
  ∃ size, m.sizeWithNext c h = .ok size ∧ size ≤ m.conf.blockSize

/-- The next edge of `h` is too large, and it is not the twelve bytes of a new list that make it
so. -/
def NextBlocks (m : ExpirationMap T S D) (c : Candidate T) (h : VertexId) : Prop :=
  ∃ size, m.sizeWithNext c h = .ok size ∧ m.conf.blockSize < size ∧
    (c.getEdgeCount h ≠ 0 ∨ m.conf.blockSize < size - 12)

/-- An edge of a present vertex fits, or one in the queue with nothing before it that blocks. -/
def Extendable (m : ExpirationMap T S D) (c : Candidate T) : Prop :=
  (∃ v ∈ c.presentVertices, NextFits m c v) ∨
    ∃ before h after, m.scoreQueue.getItems.map Prod.snd = before ++ h :: after ∧
      NextFits m c h ∧ ∀ v ∈ before, ¬ NextBlocks m c v

/-- With a next edge, the size is that of the choice with it. -/
theorem sizeWithNext_eq_ok (hm : ListsFrom es m)
    (hc : Candidate.Chosen es m.neigLists.edges n c) {size : Nat} :
    m.sizeWithNext c h = .ok size ↔ n h < (m.neigLists.edges h).length ∧
      size = selectionSize es m.neigLists.edges (Function.update n h (n h + 1)) := by
  unfold sizeWithNext
  rw [hc.getEdgeCount]
  by_cases hlt : n h < (m.neigLists.edges h).length
  · obtain ⟨c', hset, hc'⟩ := trySetEdgeCount_ok hm hc hlt
    have hsize : c'.getSerializedSize = _ := hc'.size
    rw [hset, Except.ok_map, Except.ok.injEq, hsize]
    exact ⟨fun heq => ⟨hlt, heq.symm⟩, fun heq => heq.2.symm⟩
  · have hfault : m.trySetEdgeCount c h (n h + 1) = .error (.assertFailed .candidateWithinList) := by
      unfold trySetEdgeCount
      rw [listOf_edges, if_neg (by omega)]
    rw [hfault]
    simp [hlt]

theorem nextFits_iff (hm : ListsFrom es m) (hc : Candidate.Chosen es m.neigLists.edges n c) :
    NextFits m c h ↔ Room es m n h := by
  unfold NextFits Room
  simp only [sizeWithNext_eq_ok hm hc]
  constructor
  · rintro ⟨size, ⟨hlt, rfl⟩, hfits⟩
    exact ⟨hlt, hfits⟩
  · rintro ⟨hlt, hfits⟩
    exact ⟨_, ⟨hlt, rfl⟩, hfits⟩

theorem nextBlocks_iff (hm : ListsFrom es m) (hc : Candidate.Chosen es m.neigLists.edges n c) :
    NextBlocks m c h ↔ Blocks es m n h := by
  unfold NextBlocks Blocks
  simp only [sizeWithNext_eq_ok hm hc, hc.getEdgeCount]
  constructor
  · rintro ⟨size, ⟨hlt, rfl⟩, hrest⟩
    exact ⟨hlt, hrest⟩
  · rintro ⟨hlt, hrest⟩
    exact ⟨_, ⟨hlt, rfl⟩, hrest⟩

theorem extendable_iff (hm : ListsFrom es m) (hc : Candidate.Chosen es m.neigLists.edges n c) :
    Extendable m c ↔ (∃ v ∈ c.presentVertices, Room es m n v) ∨
      Free es m n (m.scoreQueue.getItems.map Prod.snd) := by
  unfold Extendable Free
  simp only [nextFits_iff hm hc, nextBlocks_iff hm hc]

/-! ### Growing candidates -/

/-- Something is chosen, and it fits a block unless it is a single edge. -/
def Blockable (es : List (GraphEdge T D)) (m : ExpirationMap T S D) (n : VertexId → Nat) : Prop :=
  (∃ h, n h ≠ 0) ∧ (selectionSize es m.neigLists.edges n ≤ m.conf.blockSize ∨
    (included m.neigLists.edges n).card = 1)

/-- A candidate that holds an edge, and more than one only if they fit; it has `k` or more. -/
def Grows (es : List (GraphEdge T D)) (m : ExpirationMap T S D) (k : Nat) (c : Candidate T) : Prop :=
  ∃ n, Candidate.Chosen es m.neigLists.edges n c ∧ Blockable es m n ∧
    k ≤ (included m.neigLists.edges n).card

/-- The first loop over some vertices. -/
theorem tryPresents_ok [Score S] (hm : ListsFrom es m) (orgMaxTime : T) (vs : List VertexId)
    {r : Candidate T × Option (Best S)} (hr : Tried es m n r) :
    ∃ r', vs.foldlM (m.tryPresent initLocality orgSize orgMaxTime) r = .ok r' ∧ Tried es m n r' ∧
      (r'.2.isSome = true → r.2.isSome = true ∨ ∃ v ∈ vs, Room es m n v) := by
  induction vs generalizing r with
  | nil => exact ⟨r, rfl, hr, Or.inl⟩
  | cons v vs ih =>
      obtain ⟨r₁, hr₁, htried₁, hfound₁⟩ := tryPresent_ok initLocality orgSize hm orgMaxTime hr v
      obtain ⟨r₂, hr₂, htried₂, hfound₂⟩ := ih htried₁
      refine ⟨r₂, by rw [List.foldlM_cons, hr₁, Except.ok_bind, hr₂], htried₂, ?_⟩
      intro hsome
      rcases hfound₂ hsome with hsome₁ | ⟨w, hw, hroom⟩
      · rcases hfound₁ hsome₁ with hbefore | hroom
        · exact Or.inl hbefore
        · exact Or.inr ⟨v, List.mem_cons_self, hroom⟩
      · exact Or.inr ⟨w, List.mem_cons_of_mem _ hw, hroom⟩

/-- The second loop finds an extension exactly when there is one. -/
theorem tryOneSteps_ok [Score S] (hm : ListsFrom es m) (vs : List VertexId)
    {r : Candidate T × Option (Best S)} (hr : Tried es m n r) :
    ∃ r', vs.foldlM (m.tryOneStep initLocality orgSize) r = .ok r' ∧ Tried es m n r' ∧
      (r'.2.isSome = true ↔ r.2.isSome = true ∨ ∃ v ∈ vs, Room es m n v) := by
  induction vs generalizing r with
  | nil => exact ⟨r, rfl, hr, by simp⟩
  | cons v vs ih =>
      obtain ⟨r₁, hr₁, htried₁, hfound₁⟩ := tryOneStep_ok initLocality orgSize hm hr v
      obtain ⟨r₂, hr₂, htried₂, hfound₂⟩ := ih htried₁
      refine ⟨r₂, by rw [List.foldlM_cons, hr₁, Except.ok_bind, hr₂], htried₂, ?_⟩
      rw [hfound₂, hfound₁, or_assoc]
      simp only [List.mem_cons, exists_eq_or_imp]

/-- An extension is found if a present vertex has room, or if the queue gives one before it
stops. -/
theorem findExtension_ok [Score S] [TimeScore T S] (hm : ListsFrom es m) (ω : Oracle S)
    (place turn : Nat) (hc : Candidate.Chosen es m.neigLists.edges n c) (hh : n h ≠ 0) :
    ∃ r, m.findExtension ω place turn c = .ok r ∧ Tried es m n r ∧
      (r.2.isSome = true ↔ (∃ v ∈ c.presentVertices, Room es m n v) ∨
        Free es m n (m.scoreQueue.getItems.map Prod.snd)) := by
  obtain ⟨orgMaxTime, htime, -⟩ := hc.getNewestTime hm.suffixes hh
  obtain ⟨r₁, hr₁, htried₁, hfound₁⟩ := tryPresents_ok (c.getLocality m.conf.localityMetric)
    c.getSerializedSize hm orgMaxTime (ω.order place turn c.presentVertices.keys) (r := (c, none))
    ⟨hc, by simp⟩
  obtain ⟨r₂, hr₂, htried₂, hfound₂⟩ := tryOneSteps_ok (c.getLocality m.conf.localityMetric)
    c.getSerializedSize hm (ω.order place turn c.presentVertices.keys) htried₁
  have hpresent : (∃ v ∈ ω.order place turn c.presentVertices.keys, Room es m n v) ↔
      ∃ v ∈ c.presentVertices, Room es m n v := by
    simp only [(ω.order_perm place turn c.presentVertices.keys).mem_iff, ← AList.mem_keys]
  unfold findExtension
  simp only [htime, Except.ok_bind, hr₁]
  split_ifs with hsome₁
  · refine ⟨r₁, rfl, htried₁, fun _ => Or.inl (hpresent.mp ?_), fun _ => hsome₁⟩
    exact (hfound₁ hsome₁).resolve_left (by simp)
  · rw [hr₂, Except.ok_bind]
    simp only [hsome₁, Bool.false_eq_true, false_or, hpresent] at hfound₂
    split_ifs with hsome₂
    · exact ⟨r₂, rfl, htried₂, fun _ => Or.inl (hfound₂.mp hsome₂), fun _ => hsome₂⟩
    · obtain ⟨r₃, hr₃, htried₃, hfound₃⟩ := tryQueue_ok hm (c.getLocality m.conf.localityMetric)
        (m.scoreQueue.getItems.map Prod.snd) htried₂.1
      refine ⟨r₃, hr₃, htried₃, ?_⟩
      rw [hfound₃]
      exact ⟨Or.inr, fun hor => hor.resolve_left fun hex => hsome₂ (hfound₂.mpr hex)⟩

/-- A candidate that is not done has grown and still fits.  With an extension to be found it has an
edge more. -/
theorem extendCandidate_ok [Score S] [TimeScore T S] (hm : ListsFrom es m) (ω : Oracle S)
    (place turn : Nat) {k : Nat} (hc : Grows es m k c) :
    ∃ c' done, m.extendCandidate ω place turn c = .ok (c', done) ∧ Grows es m k c' ∧
      (done = false → c.size < c'.size ∧ c'.size ≤ m.conf.blockSize) ∧
      (Extendable m c → Grows es m (k + 1) c') := by
  obtain ⟨n, hc, ⟨⟨h, hh⟩, hroom⟩, hk⟩ := hc
  obtain ⟨⟨c₁, best⟩, hr, ⟨hc₁, hbest⟩, hfound⟩ := findExtension_ok hm ω place turn hc hh
  unfold extendCandidate
  rw [hr, Except.ok_bind]
  cases best with
  | none =>
      refine ⟨c₁, true, rfl, ⟨n, hc₁, ⟨⟨h, hh⟩, hroom⟩, hk⟩, by simp, ?_⟩
      intro hext
      have hfalse := hfound.mpr ((extendable_iff hm hc).mp hext)
      simp at hfalse
  | some b =>
      obtain ⟨hlt, hle, hfits⟩ := hbest b rfl
      obtain ⟨c₂, hset, hc₂⟩ := trySetEdgeCount_ok hm hc₁ hle
      have hpos : ∃ h, Function.update n b.headVertex b.edgeCount h ≠ 0 := by
        refine ⟨b.headVertex, ?_⟩
        rw [Function.update_self]
        omega
      have hmore := card_included_lt hm.suffixes hlt hle
      simp only [hset, Except.ok_bind]
      refine ⟨c₂, _, rfl, ⟨_, hc₂, ⟨hpos, Or.inl hfits⟩, by omega⟩, ?_,
        fun _ => ⟨_, hc₂, ⟨hpos, Or.inl hfits⟩, by omega⟩⟩
      intro _
      rw [hc.size, hc₂.size]
      exact ⟨selectionSize_lt hm.suffixes hlt hle, hfits⟩

/-- Candidates with room for `fuel` more bytes at most. -/
def Growing (es : List (GraphEdge T D)) (m : ExpirationMap T S D) (k fuel : Nat)
    (cs : List (Candidate T)) : Prop :=
  ∀ c ∈ cs, Grows es m k c ∧ m.conf.blockSize < c.size + fuel

/-- An extension leads to at least `k` edges. -/
def Reaches (es : List (GraphEdge T D)) (m : ExpirationMap T S D) (k : Nat) (c : Candidate T) :
    Prop :=
  Grows es m k c ∨ ∃ j, Grows es m j c ∧ Extendable m c ∧ k = j + 1

theorem Reaches.extendCandidate [Score S] [TimeScore T S] (hm : ListsFrom es m) (ω : Oracle S)
    (place turn : Nat) {k : Nat} (hc : Reaches es m k c) :
    ∃ c' done, m.extendCandidate ω place turn c = .ok (c', done) ∧ Grows es m k c' ∧
      (done = false → c.size < c'.size ∧ c'.size ≤ m.conf.blockSize) := by
  rcases hc with hc | ⟨j, hc, hext, hk⟩
  · obtain ⟨c', done, hextend, hc', hgrew, -⟩ := extendCandidate_ok hm ω place turn hc
    exact ⟨c', done, hextend, hc', hgrew⟩
  · obtain ⟨c', done, hextend, -, hgrew, hmore⟩ := extendCandidate_ok hm ω place turn hc
    rw [hk]
    exact ⟨c', done, hextend, hmore hext, hgrew⟩

theorem growPass_ok [Score S] [TimeScore T S] (hm : ListsFrom es m) (ω : Oracle S)
    (place turn fuel : Nat) {k : Nat} {cs : List (Candidate T)}
    (hcs : ∀ c ∈ cs, Reaches es m k c ∧ m.conf.blockSize < c.size + (fuel + 1)) :
    ∃ growing finalized, m.growPass ω place turn cs = .ok (growing, finalized) ∧
      growing.length + finalized.length = cs.length ∧
      Growing es m k fuel growing ∧ (growing ≠ [] → 0 < fuel) ∧
      ∀ c ∈ finalized, Grows es m k c := by
  induction cs generalizing turn with
  | nil =>
      refine ⟨[], [], rfl, rfl, ?_, by simp, by simp⟩
      intro c hc
      simp at hc
  | cons c cs ih =>
      obtain ⟨hc, hroom⟩ := hcs c List.mem_cons_self
      obtain ⟨c', done, hext, hc', hgrew⟩ := hc.extendCandidate hm ω place turn
      obtain ⟨growing, finalized, hpass, hlen, hgrowing, hfuel, hfinal⟩ :=
        ih (turn + 1) fun c hc => hcs c (List.mem_cons_of_mem _ hc)
      unfold growPass
      simp only [hext, Except.ok_bind, hpass]
      cases done with
      | true =>
          refine ⟨growing, c' :: finalized, rfl, ?_, hgrowing, hfuel, ?_⟩
          · simp only [List.length_cons]
            omega
          · intro x hx
            rcases List.mem_cons.mp hx with hxc | hx
            · rw [hxc]
              exact hc'
            · exact hfinal x hx
      | false =>
          obtain ⟨hlt, hfits⟩ := hgrew rfl
          have hlt' : c.getSerializedSize < c'.getSerializedSize := hlt
          simp only [hlt', not_true_eq_false, and_false, if_false]
          refine ⟨c' :: growing, finalized, rfl, ?_, ?_, ?_, hfinal⟩
          · simp only [List.length_cons]
            omega
          · intro x hx
            rcases List.mem_cons.mp hx with hxc | hx
            · rw [hxc]
              exact ⟨hc', by omega⟩
            · exact hgrowing x hx
          · intro _
            omega

/-- Every candidate is finalized. -/
theorem growLoop_ok [Score S] [TimeScore T S] (hm : ListsFrom es m) (ω : Oracle S) (fuel : Nat)
    {k : Nat} {cs finalized : List (Candidate T)}
    (hcs : ∀ c ∈ cs, Reaches es m k c ∧ m.conf.blockSize < c.size + fuel)
    (hfuel : cs ≠ [] → 0 < fuel) (hfinal : ∀ c ∈ finalized, Grows es m k c) :
    ∃ all, m.growLoop ω fuel cs finalized = .ok all ∧
      all.length = cs.length + finalized.length ∧ ∀ c ∈ all, Grows es m k c := by
  induction fuel generalizing cs finalized with
  | zero =>
      cases cs with
      | nil =>
          refine ⟨finalized, ?_, by simp, hfinal⟩
          unfold growLoop
          rfl
      | cons c cs => exact absurd (hfuel (by simp)) (by omega)
  | succ fuel ih =>
      cases cs with
      | nil =>
          refine ⟨finalized, ?_, by simp, hfinal⟩
          unfold growLoop
          rfl
      | cons c cs =>
          obtain ⟨growing, more, hpass, hlen, hgrowing, hfuel', hmore⟩ :=
            growPass_ok hm ω (fuel + 4) 0 fuel hcs
          have hdone : ∀ c ∈ finalized ++ more, Grows es m k c := by
            intro c hc
            exact (List.mem_append.mp hc).elim (hfinal c) (hmore c)
          obtain ⟨all, hall, hlen', hgrows⟩ := ih
            (fun c hc => ⟨Or.inl (hgrowing c hc).1, (hgrowing c hc).2⟩) hfuel' hdone
          refine ⟨all, ?_, ?_, hgrows⟩
          · unfold growLoop
            simp only [hpass, Except.ok_bind]
            exact hall
          · rw [List.length_append] at hlen'
            omega

theorem bestCandidate_ok [Score S] {k : Nat} {cs : List (Candidate T)} {best : Candidate T}
    (bValue : S) (hcs : ∀ c ∈ cs, Grows es m k c) (hbest : Grows es m k best) :
    ∃ c, m.bestCandidate cs best bValue = .ok c ∧ Grows es m k c := by
  induction cs generalizing best bValue with
  | nil => exact ⟨best, rfl, hbest⟩
  | cons c cs ih =>
      have hc := hcs c List.mem_cons_self
      have hrest : ∀ c ∈ cs, Grows es m k c := fun c hc => hcs c (List.mem_cons_of_mem _ hc)
      have hloc : Score.ofNat 0 ≤ (c.getLocality m.conf.localityMetric : S) := by
        obtain ⟨n, hchosen, ⟨⟨h, hh⟩, -⟩, -⟩ := hc
        exact hchosen.getLocality_nonneg hh m.conf.localityMetric
      unfold bestCandidate
      simp only [not_lt_of_ge hloc, if_false]
      split_ifs with hlt
      · exact ih _ hrest hc
      · exact ih _ hrest hbest

/-! ### Forming the block -/

/-- The edges of one head, copied to a block that has none of them. -/
theorem copyEdges_ok (hm : ListsFrom es m) {block : Block T D} {k : Nat}
    (hf : Filled es m.neigLists.edges n block) (hn : n h = 0)
    (hk : k ≤ (m.neigLists.edges h).length) :
    ∃ block', copyEdges block h ⟨h, m.neigLists.edges h⟩ k = .ok block' ∧
      Filled es m.neigLists.edges (Function.update n h k) block' := by
  unfold copyEdges
  induction k with
  | zero =>
      refine ⟨block, rfl, ?_⟩
      rw [← hn, Function.update_eq_self]
      exact hf
  | succ k ih =>
      obtain ⟨block', hprev, hf'⟩ := ih (by omega)
      obtain ⟨e, he⟩ : ∃ e, (m.neigLists.edges h)[k]? = some e :=
        ⟨_, List.getElem?_eq_getElem (by omega)⟩
      have he' : (m.neigLists.edges h)[Function.update n h k h]? = some e := by
        rw [Function.update_self]
        exact he
      obtain ⟨block'', hadd, hf''⟩ := hf'.addEdge hm.suffixes he'
      rw [Function.update_idem, Function.update_self] at hf''
      refine ⟨block'', ?_, hf''⟩
      rw [List.range_succ, List.foldlM_append, hprev, Except.ok_bind, List.foldlM_cons,
        Candidate.getNthOldestEdge_ok he, Except.ok_bind, hadd]
      rfl

/-- Heads in any order, each with the edges chosen from its list, make a block that holds what was
chosen. -/
theorem copyHeads_ok (hm : ListsFrom es m) (hn : ∀ w, n w ≤ (m.neigLists.edges w).length)
    {heads : List VertexId} (hnodup : heads.Nodup) (hheads : ∀ w, w ∈ heads ↔ n w ≠ 0) :
    ∃ block, heads.foldlM (fun block v => do
        let nlist ← Candidate.findList m.neigLists v
        copyEdges block v nlist (n v)) Block.new = .ok block ∧
      Filled es m.neigLists.edges n block := by
  -- heads still to come contribute nothing yet
  let P : List VertexId → Block T D → Prop := fun l block =>
    l.Nodup ∧ (∀ w ∈ l, n w ≠ 0) ∧
      Filled es m.neigLists.edges (fun w => if w ∈ l then 0 else n w) block
  have hstart : P heads Block.new := by
    refine ⟨hnodup, fun w hw => (hheads w).mp hw, ?_⟩
    have hzero : (fun w => if w ∈ heads then 0 else n w) = fun _ => 0 := by
      funext w
      by_cases hw : w ∈ heads
      · rw [if_pos hw]
      · rw [if_neg hw]
        by_contra hz
        exact hw ((hheads w).mpr hz)
    rw [hzero]
    exact Filled.new
  have hstep : ∀ v l block, P (v :: l) block → ∃ block', (do
      let nlist ← Candidate.findList m.neigLists v
      copyEdges block v nlist (n v)) = .ok block' ∧ P l block' := by
    intro v l block hP
    obtain ⟨hnodup, hpos, hf⟩ := hP
    obtain ⟨hv, hnodup'⟩ := List.nodup_cons.mp hnodup
    have hlen := hn v
    have hne : m.neigLists.edges v ≠ [] := by
      intro hnil
      rw [hnil] at hlen
      exact hpos v List.mem_cons_self (Nat.le_zero.mp hlen)
    obtain ⟨block', hcopy, hf'⟩ := copyEdges_ok hm hf (if_pos List.mem_cons_self) hlen
    refine ⟨block', ?_, hnodup', fun w hw => hpos w (List.mem_cons_of_mem _ hw), ?_⟩
    · rw [Candidate.findList_ok hm.holds hne, Except.ok_bind]
      exact hcopy
    · have hnext : Function.update (fun w => if w ∈ v :: l then 0 else n w) v (n v)
          = fun w => if w ∈ l then 0 else n w := by
        funext w
        by_cases hw : w = v
        · rw [hw, Function.update_self, if_neg hv]
        · rw [Function.update_of_ne hw]
          simp [hw]
      rw [← hnext]
      exact hf'
  obtain ⟨block, hblock, -, -, hf⟩ := Except.foldlM_ok hstep _ _ hstart
  refine ⟨block, hblock, ?_⟩
  simpa using hf

/-- The block formed from a candidate holds what the candidate chose. -/
theorem formBlock_ok (hm : ListsFrom es m) (ω : Oracle S)
    (hc : Candidate.Chosen es m.neigLists.edges n c) :
    ∃ block, m.formBlock ω c = .ok block ∧ Filled es m.neigLists.edges n block := by
  have hperm := ω.order_perm 2 0 c.numEdges.keys
  have hkeys : ∀ w, w ∈ ω.order 2 0 c.numEdges.keys ↔ n w ≠ 0 := by
    intro w
    rw [hperm.mem_iff, ← AList.mem_keys, ← AList.lookup_isSome, hc.counts w]
    by_cases hz : n w = 0
    · simp [hz]
    · simp [hz]
  obtain ⟨block, hblock, hf⟩ :=
    copyHeads_ok hm hc.within (hperm.nodup_iff.mpr c.numEdges.nodupKeys) hkeys
  refine ⟨block, ?_, hf⟩
  unfold formBlock
  simp only [hc.getEdgeCount]
  exact hblock

/-- The queue holds the heads of the lists. -/
def Queued (m : ExpirationMap T S D) : Prop :=
  ∀ w, m.scoreQueue.index.lookup w = none ↔ m.neigLists.edges w = []

/-- A candidate that was given one edge. -/
theorem grows_seed (hm : ListsFrom es m) (hset : m.trySetEdgeCount Candidate.new h 1 = .ok c) :
    Grows es m 1 c := by
  have hpos : 1 ≤ (m.neigLists.edges h).length := by
    unfold trySetEdgeCount at hset
    by_contra hnone
    rw [listOf_edges, if_neg hnone] at hset
    simp at hset
  obtain ⟨c', hset', hc⟩ := trySetEdgeCount_ok hm Candidate.Chosen.new hpos
  rw [hset, Except.ok.injEq] at hset'
  rw [← hset'] at hc
  have hcard := card_included_update (n := fun _ => 0) hm.suffixes hpos
  rw [included_zero] at hcard
  refine ⟨_, hc, ⟨⟨h, ?_⟩, Or.inr hcard⟩, hcard.ge⟩
  rw [Function.update_self]
  exact Nat.one_ne_zero

/-- The heads candidates are started from. -/
def seedHeads (m : ExpirationMap T S D) : List VertexId :=
  (m.scoreQueue.getItems.map Prod.snd).take
    (min m.neigLists.keys.length m.conf.initialCandidateCount)

/-- Every candidate starts with an edge. -/
theorem seedCandidates_ok (hm : ListsFrom es m) (hq : Queued m) (ω : Oracle S) :
    ∃ cs, m.seedCandidates ω = .ok cs ∧ cs.length = m.seedHeads.length ∧
      ∀ c ∈ cs, ∃ v ∈ m.seedHeads, m.trySetEdgeCount Candidate.new v 1 = .ok c := by
  have hseed : ∀ v ∈ ω.order 3 0 m.seedHeads,
      ∃ c, m.trySetEdgeCount Candidate.new v (min (m.listOf v).edges.length m.conf.seedEdgeCount)
        = .ok c ∧ ∃ v ∈ m.seedHeads, m.trySetEdgeCount Candidate.new v 1 = .ok c := by
    intro v hv
    rw [(ω.order_perm _ _ _).mem_iff] at hv
    have hhead := hv
    obtain ⟨item, hitem, rfl⟩ := List.mem_map.mp (List.mem_of_mem_take hv)
    have hne : m.neigLists.edges item.2 ≠ [] := by
      intro hnil
      have hnone := (hq item.2).mpr hnil
      rw [PriorityQueue.mem_getItems.mp hitem] at hnone
      simp at hnone
    have hpos := List.length_pos_iff.mpr hne
    have hone : min (m.listOf item.2).edges.length m.conf.seedEdgeCount = 1 := by
      rw [listOf_edges]
      unfold Conf.seedEdgeCount
      omega
    obtain ⟨c, hset, -⟩ := trySetEdgeCount_ok hm Candidate.Chosen.new hpos
    rw [hone]
    exact ⟨c, hset, item.2, hhead, hset⟩
  obtain ⟨cs, hcs, hlen, hheads⟩ := Except.mapM_ok _ hseed
  refine ⟨cs, hcs, ?_, hheads⟩
  rw [hlen]
  exact (ω.order_perm _ _ _).length_eq

/-- With at least one candidate to start from, the block is a choice of prefixes that is not
empty, and that fits unless it is a single edge.  It has two edges or more when every candidate can
be extended at its start. -/
theorem getBlockSmart_ok [Score S] [TimeScore T S] (hm : ListsFrom es m) (hq : Queued m)
    (ω : Oracle S) (hcount : m.conf.initialCandidateCount ≠ 0)
    (hfull : ∃ w, m.neigLists.edges w ≠ []) :
    ∃ block n, m.getBlockSmart ω = .ok block ∧ Filled es m.neigLists.edges n block ∧
      Blockable es m n ∧
      ((∀ v ∈ m.seedHeads, ∀ c, m.trySetEdgeCount Candidate.new v 1 = .ok c → Extendable m c) →
        2 ≤ (included m.neigLists.edges n).card) := by
  obtain ⟨cs, hseeds, hlen, hheads⟩ := seedCandidates_ok hm hq ω
  have hcs : cs ≠ [] := by
    obtain ⟨w, hw⟩ := hfull
    have hitem : ∃ key, (key, w) ∈ m.scoreQueue.getItems := by
      obtain ⟨key, hkey⟩ := Option.ne_none_iff_exists'.mp fun hnone => hw ((hq w).mp hnone)
      exact ⟨key, PriorityQueue.mem_getItems.mpr hkey⟩
    obtain ⟨key, hitem⟩ := hitem
    have hitems := List.length_pos_of_mem hitem
    have hkeys : 0 < m.neigLists.keys.length :=
      List.length_pos_of_mem (AList.mem_keys.mp ((hm.lists.mem_iff w).mpr hw))
    rw [seedHeads, List.length_take, List.length_map] at hlen
    intro hnil
    rw [hnil, List.length_nil] at hlen
    omega
  -- with every seed extendable all candidates get to two edges, otherwise they keep one
  obtain ⟨k, hk, hreach⟩ : ∃ k, ((∀ v ∈ m.seedHeads, ∀ c,
      m.trySetEdgeCount Candidate.new v 1 = .ok c → Extendable m c) → 2 ≤ k) ∧
        ∀ c ∈ cs, Reaches es m k c := by
    by_cases hext : ∀ v ∈ m.seedHeads, ∀ c, m.trySetEdgeCount Candidate.new v 1 = .ok c →
        Extendable m c
    · refine ⟨2, fun _ => le_rfl, ?_⟩
      intro c hc
      obtain ⟨v, hv, hset⟩ := hheads c hc
      exact Or.inr ⟨1, grows_seed hm hset, hext v hv c hset, rfl⟩
    · refine ⟨1, fun hall => absurd hall hext, ?_⟩
      intro c hc
      obtain ⟨v, -, hset⟩ := hheads c hc
      exact Or.inl (grows_seed hm hset)
  have hnone : ∀ c ∈ ([] : List (Candidate T)), Grows es m k c := by simp
  obtain ⟨all, hall, hlen', hfinal⟩ := growLoop_ok hm ω (m.conf.blockSize + 1)
    (fun c hc => ⟨hreach c hc, by omega⟩) (by omega) hnone
  unfold getBlockSmart
  rw [hseeds, Except.ok_bind, hall, Except.ok_bind]
  cases all with
  | nil =>
      have hpos := List.length_pos_iff.mpr hcs
      simp at hlen'
      omega
  | cons c all =>
      obtain ⟨c', hbest, n, hchosen, hn, hcard⟩ := bestCandidate_ok (m := m)
        (Score.neg (Score.ofNat 1)) hfinal (hfinal c List.mem_cons_self)
      obtain ⟨block, hblock, hf⟩ := formBlock_ok hm ω hchosen
      refine ⟨block, n, ?_, hf, hn, fun hext => (hk hext).trans hcard⟩
      simp only [hbest, Except.ok_bind]
      exact hblock

end ExpirationMap

end RailwayDB
