/-
The pairs of heads a candidate has an edge between.

An edge lies between two heads when both its directions are chosen.  The candidate
counts such edges by pair, from whichever end the second direction comes in and the
first goes out, and the key it uses is meant to be the unordered pair.  It is when the
moving end is the larger one.  When the smaller end moves, the key holds that end
twice: pairs with the same smaller end fall together, and one pair can have two keys.
-/
import RailwayDB.Proofs.PresentVertices
import Mathlib.Data.Sym.Card

namespace RailwayDB

variable {T D : Type} [LinearOrder T]

namespace Candidate

/-- The number of edges between two vertices with both directions chosen. -/
def joined (L : VertexId → List (NLEdge T D)) (n : VertexId → Nat) (p : Sym2 VertexId) : Nat :=
  ((Pairing.complete Directed.rev Directed.undirected (included L n)).filter
    fun x => x.1 = p).card

variable {es : List (GraphEdge T D)} {L : VertexId → List (NLEdge T D)}
  {n : VertexId → Nat} {lists : NeighborListMap T D} {c c' : Candidate T} {h : VertexId}
  {e : NLEdge T D} {j k : Nat}

theorem joined_pos {p : Sym2 VertexId} :
    0 < joined L n p ↔ ∃ a ∈ included L n, a.rev ∈ included L n ∧ s(a.1, a.2.1) = p := by
  unfold joined
  rw [Finset.card_pos]
  refine ⟨?_, ?_⟩
  · intro hx
    obtain ⟨x, hx⟩ := hx
    obtain ⟨hx, hp⟩ := Finset.mem_filter.mp hx
    obtain ⟨a, ha, hrev, rfl⟩ := Pairing.mem_complete.mp hx
    exact ⟨a, ha, hrev, hp⟩
  · intro ha
    obtain ⟨a, ha, hrev, hp⟩ := ha
    exact ⟨a.undirected, Finset.mem_filter.mpr ⟨Pairing.mem_complete.mpr ⟨a, ha, hrev, rfl⟩, hp⟩⟩

theorem joined_le (p : Sym2 VertexId) : joined L n p ≤ (included L n).card := by
  unfold joined Pairing.complete
  calc _ ≤ _ := Finset.card_filter_le _ _
    _ ≤ _ := Finset.card_image_le
    _ ≤ _ := Finset.card_filter_le _ _

/-- The edge at `j` of a head joins its ends when the other direction is chosen. -/
theorem joined_succ (hs : Suffixes es L) (he : (L h)[j]? = some e) (p : Sym2 VertexId) :
    joined L (Function.update n h (j + 1)) p = joined L (Function.update n h j) p
      + if (e.directed h).rev ∈ included L n ∧ s(h, e.toVertex) = p then 1 else 0 := by
  have hmem : e ∈ L h := List.mem_of_getElem? he
  obtain ⟨hins, hnew⟩ := included_succ (n := n) hs he
  have hrev := rev_mem_included_update (n := n) hs hmem j
  unfold joined
  rw [hins]
  by_cases hin : (e.directed h).rev ∈ included L n
  · rw [Pairing.complete_insert_of_mem Directed.undirected_rev (hrev.mpr hin),
      Finset.filter_insert, show (e.directed h).undirected.1 = s(h, e.toVertex) from rfl]
    by_cases hp : s(h, e.toVertex) = p
    · rw [if_pos hp, if_pos ⟨hin, hp⟩, Finset.card_insert_of_notMem]
      intro hc
      refine Pairing.pair_notMem_complete Directed.rev_rev hnew ?_ (Finset.mem_of_mem_filter _ hc)
      intro b hb hpair
      exact eq_or_rev hs hmem hb (congrArg Prod.snd hpair)
    · rw [if_neg hp, if_neg fun hc => hp hc.2, Nat.add_zero]
  · rw [Pairing.complete_insert_of_notMem Directed.rev_rev ?_ fun hc => hin (hrev.mp hc),
      if_neg fun hc => hin hc.1, Nat.add_zero]
    intro hfix
    exact hs.toVertex_ne hmem (congrArg Prod.fst hfix)

/-! ### One key for each pair -/

/-- The counts by key, a pair under the key with its smaller end first. -/
def keyed (L : VertexId → List (NLEdge T D)) (n : VertexId → Nat) (key : SUEdge) : Nat :=
  if key.u < key.v then joined L n s(key.u, key.v) else 0

/-- The key of a pair, seen from its larger end. -/
theorem SUEdge.of_lt {u v : VertexId} (hlt : v < u) : SUEdge.of u v = ⟨v, u⟩ := if_pos hlt

theorem keyed_succ_of_notMem (hs : Suffixes es L) (he : (L h)[j]? = some e)
    (hout : (e.directed h).rev ∉ included L n) :
    keyed L (Function.update n h (j + 1)) = keyed L (Function.update n h j) := by
  have hsame : ∀ p, joined L (Function.update n h (j + 1)) p
      = joined L (Function.update n h j) p := by
    intro p
    rw [joined_succ hs he, if_neg fun hc => hout hc.1, Nat.add_zero]
  funext key
  unfold keyed
  rw [hsame]

theorem keyed_succ_of_mem (hs : Suffixes es L) (he : (L h)[j]? = some e)
    (hin : (e.directed h).rev ∈ included L n) (hlt : e.toVertex < h) :
    keyed L (Function.update n h (j + 1))
      = Function.update (keyed L (Function.update n h j)) (SUEdge.of h e.toVertex)
        (keyed L (Function.update n h j) (SUEdge.of h e.toVertex) + 1) := by
  funext key
  rw [SUEdge.of_lt hlt]
  by_cases hkey : key = ⟨e.toVertex, h⟩
  · rw [hkey, Function.update_self]
    unfold keyed
    rw [if_pos hlt, if_pos hlt, joined_succ hs he, if_pos ⟨hin, Sym2.eq_swap⟩]
  · rw [Function.update_of_ne hkey]
    unfold keyed
    by_cases hord : key.u < key.v
    · rw [if_pos hord, if_pos hord, joined_succ hs he, if_neg, Nat.add_zero]
      -- in order, the two ends of a key are those of no other pair
      intro hc
      obtain ⟨hu, hv⟩ | ⟨hu, hv⟩ := Sym2.eq_iff.mp hc.2
      · rw [← hu, ← hv] at hord
        exact lt_asymm hord hlt
      · apply hkey
        obtain ⟨u, v⟩ := key
        simp only at hu hv
        rw [hu, hv]
    · rw [if_neg hord, if_neg hord]

theorem keyed_le (key : SUEdge) : keyed L n key ≤ (included L n).card := by
  unfold keyed
  split_ifs
  · exact joined_le _
  · exact Nat.zero_le _

/-- The call moves an edge to a larger vertex while the other direction is chosen. -/
def MovesUpward (L : VertexId → List (NLEdge T D)) (n : VertexId → Nat) (h : VertexId)
    (k : Nat) : Prop :=
  ∃ j e, min (n h) k ≤ j ∧ j < max (n h) k ∧ (L h)[j]? = some e ∧
    (e.directed h).rev ∈ included L n ∧ h < e.toVertex

section Call

variable [SerializedSize D] (hs : Suffixes es L) (hlists : Holds lists L)
  (hsmall : ∀ n, (included L n).card < 2 ^ 64) (hn : ∀ w, n w ≤ (L w).length)

include hs hlists hsmall hn

/-- The edge that is moved at `i` goes to a smaller vertex if it completes or breaks a pair. -/
theorem takeEdge_internal {i : Nat}
    (hdown : ∀ e, (L h)[i]? = some e → (e.directed h).rev ∈ included L n → e.toVertex < h)
    (hc : Counting es L n h i c ∧ Tallies c.internalEdges (keyed L (Function.update n h i)))
    (htake : takeEdge lists h ⟨h, L h⟩ c i = .ok c') :
    Counting es L n h (i + 1) c' ∧
      Tallies c'.internalEdges (keyed L (Function.update n h (i + 1))) := by
  obtain ⟨hcount, htally⟩ := hc
  obtain ⟨e, found, he, hfound, -, hinternal⟩ := takeEdge_maps htake
  have he := getNthOldestEdge_eq_ok he
  obtain ⟨c₁, htake', hcount'⟩ := takeEdge_ok hs hlists hn hcount he
  rw [htake, Except.ok.injEq] at htake'
  rw [← htake'] at hcount'
  refine ⟨hcount', ?_⟩
  rw [hasReverseEdge_ok hs hlists hn (List.mem_of_getElem? he) (hcount.counts e.toVertex),
    Except.ok.injEq] at hfound
  rw [hinternal, ← hfound]
  by_cases hin : (e.directed h).rev ∈ included L n
  · have hsucc := keyed_succ_of_mem hs he hin (hdown e he hin)
    have hle := keyed_le (L := L) (n := Function.update n h (i + 1)) (SUEdge.of h e.toVertex)
    rw [hsucc, Function.update_self] at hle
    rw [decide_eq_true hin, if_pos rfl, hsucc]
    exact htally.countUp (lt_of_le_of_lt hle (hsmall _))
  · rw [decide_eq_false hin, if_neg Bool.false_ne_true, keyed_succ_of_notMem hs he hin]
    exact htally

theorem dropEdge_internal {i : Nat}
    (hdown : ∀ e, (L h)[i]? = some e → (e.directed h).rev ∈ included L n → e.toVertex < h)
    (hc : Counting es L n h (i + 1) c ∧
      Tallies c.internalEdges (keyed L (Function.update n h (i + 1))))
    (hdrop : dropEdge lists h ⟨h, L h⟩ c i = .ok c') :
    Counting es L n h i c' ∧ Tallies c'.internalEdges (keyed L (Function.update n h i)) := by
  obtain ⟨hcount, htally⟩ := hc
  obtain ⟨e, found, he, hfound, -, hinternal⟩ := dropEdge_maps hdrop
  have he := getNthOldestEdge_eq_ok he
  obtain ⟨c₁, hdrop', hcount'⟩ := dropEdge_ok hs hlists hn hcount he
  rw [hdrop, Except.ok.injEq] at hdrop'
  rw [← hdrop'] at hcount'
  refine ⟨hcount', ?_⟩
  rw [hasReverseEdge_ok hs hlists hn (List.mem_of_getElem? he) (hcount.counts e.toVertex),
    Except.ok.injEq] at hfound
  rw [hinternal, ← hfound]
  by_cases hin : (e.directed h).rev ∈ included L n
  · have hsucc := keyed_succ_of_mem hs he hin (hdown e he hin)
    have hval : keyed L (Function.update n h (i + 1)) (SUEdge.of h e.toVertex)
        = keyed L (Function.update n h i) (SUEdge.of h e.toVertex) + 1 := by
      rw [hsucc, Function.update_self]
    have hcd := htally.countDown (k := SUEdge.of h e.toVertex) (by omega)
      (lt_of_le_of_lt (keyed_le _) (hsmall _))
    rw [hval, hsucc, Function.update_idem, Nat.add_sub_cancel, Function.update_eq_self] at hcd
    rw [decide_eq_true hin, if_pos rfl]
    exact hcd
  · rw [decide_eq_false hin, if_neg Bool.false_ne_true, ← keyed_succ_of_notMem hs he hin]
    exact htally

omit hn in
/-- One call keeps the counts by pair, unless it moves an edge upward. -/
theorem setEdgeCount_internal (hc : Chosen es L n c) (hk : k ≤ (L h).length)
    (hdown : ¬ MovesUpward L n h k) (hp : Tallies c.internalEdges (keyed L n))
    (hset : c.setEdgeCount lists h k = .ok c') :
    Tallies c'.internalEdges (keyed L (Function.update n h k)) := by
  have hlen := hc.within h
  obtain ⟨hsame, rfl⟩ | ⟨hne, nlist, c₁, hfind, hmove, hhead⟩ := setEdgeCount_cases hset
  · rw [hc.getEdgeCount] at hsame
    rw [← hsame, Function.update_eq_self]
    exact hp
  · rw [hc.getEdgeCount] at hne hmove hhead
    have hfull : L h ≠ [] := by
      intro hnil
      rw [hnil, List.length_nil] at hlen hk
      omega
    rw [findList_ok hlists hfull, Except.ok.injEq] at hfind
    rw [← hfind] at hmove hhead
    have hstep : ∀ i, min (n h) k ≤ i → i < max (n h) k → ∀ e, (L h)[i]? = some e →
        (e.directed h).rev ∈ included L n → e.toVertex < h := by
      intro i hi hi' e he hin
      have hne := hs.toVertex_ne (List.mem_of_getElem? he)
      by_contra hge
      exact hdown ⟨i, e, hi, hi', he, hin, lt_of_le_of_ne (not_lt.mp hge) hne.symm⟩
    have hmoved := moveEdges_keeps (P := fun i c => Counting es L n h i c ∧
        Tallies c.internalEdges (keyed L (Function.update n h i)))
      (fun i _ _ hi hi' => takeEdge_internal hs hlists hsmall hc.within
        (hstep i (by omega) (by omega)))
      (fun i _ _ hi hi' => dropEdge_internal hs hlists hsmall hc.within
        (hstep i (by omega) (by omega)))
      ⟨hc.counting h, by rw [Function.update_eq_self]; exact hp⟩ hmove
    rw [(setHead_maps hhead).2]
    exact hmoved.2

end Call

/-! ### Runs -/

/-- The keys stand for the pairs of vertices with an edge between them whose two directions are
chosen, one for one, and each holds the number of these edges. -/
def InternalPairs (L : VertexId → List (NLEdge T D)) (n : VertexId → Nat) (c : Candidate T) :
    Prop :=
  ∃ pairOf : SUEdge → Sym2 VertexId,
    Set.BijOn pairOf {key | key ∈ c.internalEdges} {p | 0 < joined L n p} ∧
    ∀ key ∈ c.internalEdges, c.internalEdges.lookup key = some (joined L n (pairOf key))

theorem internalPairs_of_tallies (hs : Suffixes es L) (hp : Tallies c.internalEdges (keyed L n)) :
    InternalPairs L n c := by
  have hkey : ∀ key ∈ c.internalEdges, key.u < key.v ∧ 0 < joined L n s(key.u, key.v) := by
    intro key hmem
    have hpos := (hp.mem_iff key).mp hmem
    unfold keyed at hpos
    split_ifs at hpos with hlt
    · exact ⟨hlt, hpos⟩
    · exact absurd hpos (lt_irrefl _)
  refine ⟨fun key => s(key.u, key.v), ⟨?_, ?_, ?_⟩, ?_⟩
  · intro key hmem
    exact (hkey key hmem).2
  · intro key hmem key' hmem' heq
    have hlt := (hkey key hmem).1
    have hlt' := (hkey key' hmem').1
    obtain ⟨u, v⟩ := key
    obtain ⟨u', v'⟩ := key'
    obtain ⟨hu, hv⟩ | ⟨hu, hv⟩ := Sym2.eq_iff.mp heq
    · simp only at hu hv
      rw [hu, hv]
    · simp only at hu hv hlt hlt'
      rw [hu, hv] at hlt
      exact absurd hlt (lt_asymm hlt')
  · intro p hpos
    have hpos : 0 < joined L n p := hpos
    obtain ⟨⟨u, v, t⟩, ha, -, hends⟩ := joined_pos.mp hpos
    obtain ⟨x, hx, hto, -⟩ := mem_included.mp ha
    have hne := hs.toVertex_ne (List.mem_of_mem_take hx)
    rw [hto] at hne
    -- the ends in order are the key
    have hin : ∀ a b : VertexId, a < b → s(a, b) = p → ∃ key ∈ c.internalEdges,
        s(key.u, key.v) = p := by
      intro a b hlt hab
      refine ⟨⟨a, b⟩, (hp.mem_iff _).mpr ?_, hab⟩
      unfold keyed
      rw [if_pos hlt, hab]
      exact hpos
    rcases lt_or_gt_of_ne hne with hlt | hlt
    · exact hin v u hlt (by rw [← hends]; exact Sym2.eq_swap)
    · exact hin u v hlt hends
  · intro key hmem
    obtain ⟨hlt, hpos⟩ := hkey key hmem
    rw [hp key]
    unfold keyed
    rw [if_pos hlt, if_neg (Nat.pos_iff_ne_zero.mp hpos)]

variable [SerializedSize D]

/-- There are no more keys than pairs of heads. -/
theorem length_keys_le_of_pairs (hs : Suffixes es L) (hc : Chosen es L n c)
    (hp : InternalPairs L n c) :
    c.internalEdges.keys.length ≤ c.numEdges.keys.length.choose 2 := by
  obtain ⟨pairOf, hbij, -⟩ := hp
  have hhead : ∀ a ∈ included L n, a.1 ∈ c.numEdges.keys.toFinset := by
    intro a ha
    obtain ⟨v, w, t⟩ := a
    obtain ⟨x, hx, -⟩ := mem_included.mp ha
    have hv : n v ≠ 0 := by
      intro hz
      rw [hz, List.take_zero] at hx
      exact absurd hx (List.not_mem_nil)
    rw [List.mem_toFinset, ← AList.mem_keys, ← AList.lookup_isSome, hc.counts v, if_neg hv]
    rfl
  have hsub : c.internalEdges.keys.toFinset.image pairOf
      ⊆ c.numEdges.keys.toFinset.offDiag.image Sym2.mk.uncurry := by
    intro p hmem
    obtain ⟨key, hkey, rfl⟩ := Finset.mem_image.mp hmem
    have hpos : 0 < joined L n (pairOf key) :=
      hbij.1 (AList.mem_keys.mpr (List.mem_toFinset.mp hkey))
    obtain ⟨⟨u, v, t⟩, ha, hrev, hends⟩ := joined_pos.mp hpos
    obtain ⟨x, hx, hto, -⟩ := mem_included.mp ha
    have hne := hs.toVertex_ne (List.mem_of_mem_take hx)
    rw [hto] at hne
    exact Finset.mem_image.mpr ⟨(u, v),
      Finset.mem_offDiag.mpr ⟨hhead _ ha, hhead _ hrev, hne.symm⟩, hends⟩
  have hinj : Set.InjOn pairOf c.internalEdges.keys.toFinset := by
    intro key hkey key' hkey'
    exact hbij.2.1 (AList.mem_keys.mpr (List.mem_toFinset.mp hkey))
      (AList.mem_keys.mpr (List.mem_toFinset.mp hkey'))
  calc c.internalEdges.keys.length
      = c.internalEdges.keys.toFinset.card :=
        (List.toFinset_card_of_nodup c.internalEdges.nodupKeys).symm
    _ = (c.internalEdges.keys.toFinset.image pairOf).card :=
        (Finset.card_image_of_injOn hinj).symm
    _ ≤ (c.numEdges.keys.toFinset.offDiag.image Sym2.mk.uncurry).card := Finset.card_le_card hsub
    _ = c.numEdges.keys.toFinset.card.choose 2 := Sym2.card_image_offDiag _
    _ = c.numEdges.keys.length.choose 2 :=
        congrArg (Nat.choose · 2) (List.toFinset_card_of_nodup c.numEdges.nodupKeys)

/-- The cohesiveness of a candidate with several heads is a share of their pairs. -/
theorem cohesiveness_of_pairs (hs : Suffixes es L) (hc : Chosen es L n c)
    (hp : InternalPairs L n c) (hheads : 2 ≤ c.numEdges.keys.length) :
    (0 : ℚ) ≤ c.getLocality .cohesiveness ∧ c.getLocality .cohesiveness ≤ (1 : ℚ) := by
  have hle := length_keys_le_of_pairs hs hc hp
  have hchoose : 2 * c.internalEdges.keys.length
      ≤ c.numEdges.keys.length * (c.numEdges.keys.length - 1) := by
    rw [Nat.choose_two_right] at hle
    omega
  have hle' : (2 : ℚ) * c.internalEdges.keys.length
      ≤ c.numEdges.keys.length * (c.numEdges.keys.length - 1) := by
    have hcast : ((c.numEdges.keys.length - 1 : Nat) : ℚ) = c.numEdges.keys.length - 1 := by
      rw [Nat.cast_sub (by omega), Nat.cast_one]
    rw [← hcast]
    exact_mod_cast hchoose
  have hpos : (0 : ℚ) < 1 / 2 * c.numEdges.keys.length * (c.numEdges.keys.length - 1) := by
    have htwo : (2 : ℚ) ≤ c.numEdges.keys.length := by exact_mod_cast hheads
    have hone : (0 : ℚ) < c.numEdges.keys.length - 1 := by linarith
    positivity
  have hval : (c.getLocality .cohesiveness : ℚ) = c.internalEdges.keys.length
      / (1 / 2 * c.numEdges.keys.length * (c.numEdges.keys.length - 1)) := by
    unfold getLocality
    simp only [if_neg (show ¬ c.numEdges.keys.length = 1 by omega), Score.div, Score.mul,
      Score.half, Score.sub, Score.ofNat, Nat.cast_one]
  rw [hval]
  refine ⟨by positivity, (div_le_one hpos).mpr ?_⟩
  linarith

end Candidate

namespace ExpirationMap

open Candidate

variable {S : Type} [LinearOrder S] [Score S] [TimeScore T S] [SerializedSize D]
  {conf : Conf} {es : List (GraphEdge T D)} {m : ExpirationMap T S D}
  {calls : List (VertexId × Nat)}

/-- The internal edges are counted by pair, and the cohesiveness of several heads is at most one. -/
structure InternalExact (m : ExpirationMap T S D) (n : VertexId → Nat) (c : Candidate T) :
    Prop where
  pairs : InternalPairs m.neigLists.edges n c
  cohesiveness : 2 ≤ c.numEdges.keys.length →
    (0 : ℚ) ≤ c.getLocality .cohesiveness ∧ c.getLocality .cohesiveness ≤ (1 : ℚ)

/-- Along a run that moves no edge to a larger head while the other direction is chosen, the
internal edges are counted by unordered pair. -/
theorem internalEdges_exact (hm : Reached conf es m) (hsize : m.size < 2 ^ 64)
    (hcalls : ∀ call ∈ calls, call.2 ≤ (m.neigLists.edges call.1).length)
    (hdown : ∀ before h k after, calls = before ++ (h, k) :: after →
      ¬ MovesUpward m.neigLists.edges (countsAfter (fun _ => 0) before) h k) :
    ∀ before after, calls = before ++ after →
      ∃ c, setEdgeCounts m.neigLists Candidate.new before = .ok c ∧
        InternalExact m (countsAfter (fun _ => 0) before) c := by
  obtain ⟨hsound, -⟩ := hm.sound
  have hstart : Tallies (Candidate.new : Candidate T).internalEdges
      (keyed m.neigLists.edges fun _ => 0) := by
    intro key
    have hzero := keyed_le (L := m.neigLists.edges) (n := fun _ => 0) key
    rw [included_zero, Finset.card_empty, Nat.le_zero] at hzero
    rw [hzero]
    rfl
  intro before after heq
  obtain ⟨c, hset, hc, hp⟩ := setEdgeCounts_keeps_along
    (P := fun n c => Tallies c.internalEdges (keyed m.neigLists.edges n))
    (A := fun n h k => ¬ MovesUpward m.neigLists.edges n h k) hsound.suffixes hsound.holds
    (fun n c c' h k hc hk hdown hp hset => setEdgeCount_internal hsound.suffixes hsound.holds
      (hsound.card_included_lt hsize) hc hk hdown hp hset)
    Chosen.new hstart hcalls hdown heq
  have hpairs := internalPairs_of_tallies hsound.suffixes hp
  exact ⟨c, hset, hpairs, cohesiveness_of_pairs hsound.suffixes hc hpairs⟩

/-! ### The two ends of one pair -/

/-- The larger head comes in second and goes out first. -/
theorem internalEdges_exact_downward :
    ∃ m : ExpirationMap Time ℚ (AttributeData textSchema),
      (new Conf.default).addEdges pairEdges = .ok m ∧
      ∃ c, setEdgeCounts m.neigLists Candidate.new [(1, 2), (2, 2), (2, 1)] = .ok c ∧
        InternalExact m (countsAfter (fun _ => 0) [(1, 2), (2, 2), (2, 1)]) c := by
  have heval : ((new Conf.default : ExpirationMap Time ℚ (AttributeData textSchema)).addEdges
      pairEdges).toOption.map (fun m => (m.size, (m.neigLists.edges 1).length,
        (m.neigLists.edges 2).map NLEdge.toVertex)) = some (4, 2, [1, 1]) := by
    decide +kernel
  obtain ⟨m, hadd, hval⟩ := Except.of_toOption_map heval
  obtain ⟨hsize, hval⟩ := Prod.mk.inj hval
  obtain ⟨hone, htwo⟩ := Prod.mk.inj hval
  have hlen : (m.neigLists.edges 2).length = 2 := by
    rw [← List.length_map NLEdge.toVertex, htwo]
    rfl
  have hto : ∀ e ∈ m.neigLists.edges 2, e.toVertex = 1 := by
    intro e he
    have hmem := List.mem_map_of_mem (f := NLEdge.toVertex) he
    rw [htwo] at hmem
    simpa using hmem
  have hwithin : ∀ call ∈ [((1 : VertexId), 2), (2, 2), (2, 1)],
      call.2 ≤ (m.neigLists.edges call.1).length := by
    simp [hone, hlen]
  refine ⟨m, hadd, internalEdges_exact (reached_addEdges pairEdges_history hadd)
    (by rw [hsize]; norm_num) hwithin ?_ _ [] (List.append_nil _).symm⟩
  intro before h k after heq hup
  obtain ⟨j, e, -, -, he, hrev, hlt⟩ := hup
  have hmem := List.mem_of_getElem? he
  -- the edges of 2 go down, and the edges of 1 come first
  have hcase : h = 2 ∨ before = [] := by
    rcases before with _ | ⟨call, before⟩
    · exact Or.inr rfl
    · refine Or.inl ?_
      obtain ⟨-, hrest⟩ := List.cons.inj heq
      have hin : (h, k) ∈ [((2 : VertexId), 2), (2, 1)] := by
        rw [hrest]
        simp
      rcases List.mem_cons.mp hin with heq' | hin
      · exact (Prod.mk.inj heq').1
      · exact (Prod.mk.inj (List.mem_singleton.mp hin)).1
  rcases hcase with rfl | rfl
  · rw [hto e hmem] at hlt
    exact absurd hlt (by decide)
  · rw [show countsAfter (fun _ => 0) [] = fun _ => 0 from rfl, included_zero] at hrev
    exact Finset.notMem_empty _ hrev

/-- One pair of heads with two edges, one joined from either end: the candidate holds two keys for
it, and its cohesiveness is two. -/
theorem internalEdges_two_keys :
    ∃ (m : ExpirationMap Time ℚ (AttributeData textSchema)) (c : Candidate Time),
      (new Conf.default).addEdges pairEdges = .ok m ∧
      setEdgeCounts m.neigLists Candidate.new [(1, 1), (2, 2), (1, 2)] = .ok c ∧
      c.getLocality .cohesiveness = (2 : ℚ) ∧
      ¬ InternalPairs m.neigLists.edges
        (countsAfter (fun _ => 0) [(1, 1), (2, 2), (1, 2)]) c := by
  obtain ⟨m, hadd, hm, hone, htwo⟩ := pairEdges_reached
  obtain ⟨hsound, -⟩ := hm.sound
  have hwithin : ∀ call ∈ [((1 : VertexId), 1), (2, 2), (1, 2)],
      call.2 ≤ (m.neigLists.edges call.1).length := by
    simp [hone, htwo]
  obtain ⟨c, hset, hc⟩ := setEdgeCounts_ok hsound.suffixes hsound.holds
    (Chosen.new : Chosen _ m.neigLists.edges _ _) hwithin
  have heval : ((new Conf.default : ExpirationMap Time ℚ (AttributeData textSchema)).addEdges
      pairEdges).toOption.map (fun m =>
        (setEdgeCounts m.neigLists Candidate.new [(1, 1), (2, 2), (1, 2)]).toOption.map
          fun c => (c.numEdges.keys.length, (c.getLocality .cohesiveness : ℚ)))
      = some (some (2, 2)) := by
    decide +kernel
  simp only [hadd, Except.toOption, Option.map_some, hset, Option.some.injEq,
    Prod.mk.injEq] at heval
  obtain ⟨hheads, hvalue⟩ := heval
  refine ⟨m, c, hadd, hset, hvalue, ?_⟩
  intro hpairs
  have hbound := (cohesiveness_of_pairs hsound.suffixes hc hpairs (by rw [hheads])).2
  rw [hvalue] at hbound
  norm_num at hbound

end ExpirationMap

end RailwayDB
