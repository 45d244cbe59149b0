/-
Half-open intervals that tile a stretch.

A family of intervals tiles from `lo` to `hi` when none is empty, no point is in
two of them, and every point of the stretch is in one.  Points come from a total
preorder, so two ends that compare equal need not be identical.

The two ways a tiling is used: a point has exactly one interval, and the interval
is found from its end alone (`stop_le_of_mem`); and a part of a tiling may be
exchanged for another tiling of the same stretch (`Tiles.exchange`).
-/
import RailwayDB.Lib.SortedMap
import Mathlib.Data.Set.Insert
import Mathlib.Data.List.Chain

namespace RailwayDB

variable {ι T : Type*} [Preorder T]

/-- The intervals `[start i, stop i)` for `i ∈ S` tile `[lo, hi)`. -/
structure Tiles (start stop : ι → T) (S : Set ι) (lo hi : T) : Prop where
  nonempty : ∀ i ∈ S, start i < stop i
  within : ∀ i ∈ S, lo ≤ start i ∧ stop i ≤ hi
  disjoint : ∀ i ∈ S, ∀ j ∈ S, ∀ t, start i ≤ t → t < stop i → start j ≤ t → t < stop j → i = j
  cover : ∀ t, lo ≤ t → t < hi → ∃ i ∈ S, start i ≤ t ∧ t < stop i

namespace Tiles

variable {start stop : ι → T} {S : Set ι} {lo hi : T}

/-- A point of an interval that comes in for a part of the tiling lies in that part, so it is in no
interval that stays. -/
theorem apart {R N : Set ι} {a b : T} (h : Tiles start stop S lo hi) (hR : R ⊆ S)
    (htR : Tiles start stop R a b) (htN : Tiles start stop N a b) {i j : ι} (hi : i ∈ S \ R)
    (hj : j ∈ N) {t : T} (h1 : start i ≤ t) (h2 : t < stop i) (h3 : start j ≤ t)
    (h4 : t < stop j) : False := by
  obtain ⟨hja, hjb⟩ := htN.within j hj
  obtain ⟨r, hr, hr1, hr2⟩ := htR.cover t (le_trans hja h3) (lt_of_lt_of_le h4 hjb)
  have hir := h.disjoint i hi.1 r (hR hr) t h1 h2 hr1 hr2
  exact hi.2 (hir ▸ hr)

/-- A part of a tiling may be exchanged for another tiling of the same stretch. -/
theorem exchange {R N : Set ι} {a b : T} (h : Tiles start stop S lo hi) (hR : R ⊆ S)
    (htR : Tiles start stop R a b) (htN : Tiles start stop N a b) (ha : lo ≤ a) (hb : b ≤ hi) :
    Tiles start stop ((S \ R) ∪ N) lo hi := by
  refine ⟨?_, ?_, ?_, ?_⟩
  · intro i hi
    rcases hi with hi | hi
    · exact h.nonempty i hi.1
    · exact htN.nonempty i hi
  · intro i hi
    rcases hi with hi | hi
    · exact h.within i hi.1
    · obtain ⟨h1, h2⟩ := htN.within i hi
      exact ⟨le_trans ha h1, le_trans h2 hb⟩
  · intro i hi j hj t h1 h2 h3 h4
    rcases hi with hi | hi
    · rcases hj with hj | hj
      · exact h.disjoint i hi.1 j hj.1 t h1 h2 h3 h4
      · exact (h.apart hR htR htN hi hj h1 h2 h3 h4).elim
    · rcases hj with hj | hj
      · exact (h.apart hR htR htN hj hi h3 h4 h1 h2).elim
      · exact htN.disjoint i hi j hj t h1 h2 h3 h4
  · intro t ht1 ht2
    obtain ⟨i, hi, h1, h2⟩ := h.cover t ht1 ht2
    by_cases hir : i ∈ R
    · obtain ⟨hia, hib⟩ := htR.within i hir
      obtain ⟨j, hj, h3, h4⟩ := htN.cover t (le_trans hia h1) (lt_of_lt_of_le h2 hib)
      exact ⟨j, Or.inr hj, h3, h4⟩
    · exact ⟨i, Or.inl ⟨hi, hir⟩, h1, h2⟩

/-- The bounds of the stretch matter up to comparison. -/
theorem congr {lo' hi' : T} (h : Tiles start stop S lo hi) (hlo : lo ≤ lo') (hlo' : lo' ≤ lo)
    (hhi : hi ≤ hi') (hhi' : hi' ≤ hi) : Tiles start stop S lo' hi' := by
  refine ⟨h.nonempty, ?_, h.disjoint, ?_⟩
  · intro i hi
    obtain ⟨h1, h2⟩ := h.within i hi
    exact ⟨le_trans hlo' h1, le_trans h2 hhi⟩
  · intro t h1 h2
    exact h.cover t (le_trans hlo h1) (lt_of_lt_of_le h2 hhi')

/-- A single interval tiles itself. -/
theorem singleton {i : ι} (h : start i < stop i) :
    Tiles start stop {i} (start i) (stop i) := by
  refine ⟨?_, ?_, ?_, ?_⟩
  · intro j hj
    rw [hj]
    exact h
  · intro j hj
    rw [hj]
    exact ⟨le_refl _, le_refl _⟩
  · intro j hj k hk t _ _ _ _
    rw [hj, hk]
  · intro t h1 h2
    exact ⟨i, rfl, h1, h2⟩

section Total

variable [@Std.Total T (· ≤ ·)]

/-- Among the intervals that end after a point, the one that holds it ends first. -/
theorem stop_le_of_mem (h : Tiles start stop S lo hi) {i j : ι} (hi : i ∈ S) (hj : j ∈ S) {t : T}
    (h1 : start i ≤ t) (h2 : t < stop i) (h3 : t < stop j) : stop i ≤ stop j := by
  apply SortedMap.le_of_not_gt_total
  intro hlt
  have hij : i = j := by
    by_cases hs : t < start j
    · exact h.disjoint i hi j hj (start j) (le_trans h1 (le_of_lt hs))
        (lt_trans (h.nonempty j hj) hlt) (le_refl _) (h.nonempty j hj)
    · exact h.disjoint i hi j hj t h1 h2 (SortedMap.le_of_not_gt_total hs) h3
  rw [hij] at hlt
  exact lt_irrefl _ hlt

/-- Two intervals with the same end are one. -/
theorem eq_of_stop (h : Tiles start stop S lo hi) {i j : ι} (hi : i ∈ S) (hj : j ∈ S)
    (h1 : stop i ≤ stop j) (h2 : stop j ≤ stop i) : i = j := by
  rcases Std.Total.total (r := (· ≤ ·)) (start i) (start j) with hle | hle
  · exact h.disjoint i hi j hj (start j) hle (lt_of_lt_of_le (h.nonempty j hj) h2) (le_refl _)
      (h.nonempty j hj)
  · exact h.disjoint i hi j hj (start i) (le_refl _) (h.nonempty i hi) hle
      (lt_of_lt_of_le (h.nonempty i hi) h1)

/-- An interval that stays ends elsewhere than one that comes in. -/
theorem stop_apart {R N : Set ι} {a b : T} (h : Tiles start stop S lo hi) (hR : R ⊆ S)
    (htR : Tiles start stop R a b) (htN : Tiles start stop N a b) {i j : ι} (hi : i ∈ S \ R)
    (hj : j ∈ N) : ¬ (stop i ≤ stop j ∧ stop j ≤ stop i) := by
  rintro ⟨h1, h2⟩
  rcases Std.Total.total (r := (· ≤ ·)) (start i) (start j) with hle | hle
  · exact h.apart hR htR htN hi hj hle (lt_of_lt_of_le (htN.nonempty j hj) h2) (le_refl _)
      (htN.nonempty j hj)
  · exact h.apart hR htR htN hi hj (le_refl _) (h.nonempty i hi.1) hle
      (lt_of_lt_of_le (h.nonempty i hi.1) h1)

/-- An interval that ends after another starts no earlier than that one ends. -/
theorem stop_le_start (h : Tiles start stop S lo hi) {i j : ι} (hi : i ∈ S) (hj : j ∈ S)
    (h2 : stop i < stop j) : stop i ≤ start j := by
  apply SortedMap.le_of_not_gt_total
  intro hlt
  have hij : i = j := by
    rcases Std.Total.total (r := (· ≤ ·)) (start i) (start j) with hle | hle
    · exact h.disjoint i hi j hj (start j) hle hlt (le_refl _) (h.nonempty j hj)
    · exact h.disjoint i hi j hj (start i) (le_refl _) (h.nonempty i hi) hle
        (lt_trans (h.nonempty i hi) h2)
  rw [hij] at h2
  exact lt_irrefl _ h2

end Total

end Tiles

/-! ### Contiguous lists -/

/-- Each interval starts where the one before it ends. -/
def Contiguous (start stop : ι → T) (l : List ι) : Prop :=
  l.IsChain fun i j => start j ≤ stop i ∧ stop i ≤ start j

/-- The ends of contiguous non-empty intervals increase. -/
theorem Contiguous.pairwise_stop {start stop : ι → T} {l : List ι} (h : Contiguous start stop l)
    (hne : ∀ i ∈ l, start i < stop i) : l.Pairwise fun i j => stop i < stop j := by
  induction l with
  | nil => exact List.Pairwise.nil
  | cons i l ih =>
      cases l with
      | nil => exact List.pairwise_singleton _ _
      | cons j rest =>
          obtain ⟨⟨-, hge⟩, hrest⟩ := List.isChain_cons_cons.mp h
          have htail := ih hrest fun k hk => hne k (List.mem_cons_of_mem _ hk)
          have hij : stop i < stop j := lt_of_le_of_lt hge (hne j (by simp))
          refine List.pairwise_cons.mpr ⟨?_, htail⟩
          intro k hk
          rcases List.mem_cons.mp hk with rfl | hk
          · exact hij
          · exact lt_trans hij ((List.pairwise_cons.mp htail).1 k hk)

/-- Contiguous non-empty intervals tile from the start of the first to the end of the last. -/
theorem Contiguous.tiles [@Std.Total T (· ≤ ·)] {start stop : ι → T} {l : List ι}
    (h : Contiguous start stop l) (hne : ∀ i ∈ l, start i < stop i) {i j : ι}
    (hfirst : l.head? = some i) (hlast : l.getLast? = some j) :
    Tiles start stop {k | k ∈ l} (start i) (stop j) := by
  induction l generalizing i with
  | nil => simp at hfirst
  | cons k rest ih =>
      simp only [List.head?_cons, Option.some.injEq] at hfirst
      subst hfirst
      cases rest with
      | nil =>
          simp only [List.getLast?_singleton, Option.some.injEq] at hlast
          subst hlast
          have hset : {m | m ∈ [k]} = ({k} : Set ι) := by
            ext m
            simp
          rw [hset]
          exact Tiles.singleton (hne k (by simp))
      | cons k' rest =>
          obtain ⟨⟨hle, hge⟩, hrest⟩ := List.isChain_cons_cons.mp h
          have hlast' : (k' :: rest).getLast? = some j := by simpa using hlast
          have ht := ih hrest (fun m hm => hne m (List.mem_cons_of_mem _ hm)) rfl hlast'
          have hk := hne k (by simp)
          have hlo : ∀ m ∈ k' :: rest, stop k ≤ start m := by
            intro m hm
            exact le_trans hge (ht.within m hm).1
          have hj : stop k ≤ stop j := by
            have hk' := hne k' (by simp)
            exact le_trans hge (le_trans (le_of_lt hk') (ht.within k' (by simp)).2)
          refine ⟨hne, ?_, ?_, ?_⟩
          · intro m hm
            rcases List.mem_cons.mp hm with hmk | hm
            · rw [hmk]
              exact ⟨le_refl _, hj⟩
            · exact ⟨le_trans (le_of_lt hk) (hlo m hm), (ht.within m hm).2⟩
          · intro a ha b hb t h1 h2 h3 h4
            rcases List.mem_cons.mp ha with hak | ha
            · rcases List.mem_cons.mp hb with hbk | hb
              · rw [hak, hbk]
              · rw [hak] at h2
                exact absurd h2 (not_lt_of_ge (le_trans (hlo b hb) h3))
            · rcases List.mem_cons.mp hb with hbk | hb
              · rw [hbk] at h4
                exact absurd h4 (not_lt_of_ge (le_trans (hlo a ha) h1))
              · exact ht.disjoint a ha b hb t h1 h2 h3 h4
          · intro t h1 h2
            by_cases htk : t < stop k
            · exact ⟨k, by simp, h1, htk⟩
            · obtain ⟨m, hm, h3, h4⟩ := ht.cover t
                (le_trans hle (SortedMap.le_of_not_gt_total htk)) h2
              exact ⟨m, List.mem_cons_of_mem _ hm, h3, h4⟩

end RailwayDB
