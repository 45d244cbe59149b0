/-
The frequencies of a workload drawn at random.

The second pass of `getQueryWorkloadAndStats` divides every frequency by the total and
sets it again.  `setFrequency` goes through `emplace`, which leaves a key that is there
with the value it has, so the pass changes nothing and the workload keeps the frequencies
as they were drawn.  They are normalised exactly when the generator gave normalised ones.

The shuffle is right: the indices stay a permutation from one query to the next, and
those a query has picked are the ones at the end, in the order of the turns.
-/
import RailwayDB.Core.SimulationConf
import RailwayDB.Proofs.QuerySummary
import RailwayDB.Lib.Except
import Mathlib.Algebra.BigOperators.Group.List.Lemmas

namespace RailwayDB.SimulationConf

open Common.Hashed

variable {A N : Type} {address : Nat → A} {n : Nat}

/-! ### Picking without repetition -/

/-- The attributes of the simulation. -/
def allocated (address : Nat → A) (n : Nat) : List A := (List.range n).map address

theorem length_allocated : (allocated address n).length = n := by
  simp [allocated]

/-- After `j` turns: the last `j` indices are those of the attributes picked. -/
structure Picked (address : Nat → A) (n j : Nat) (acc : QuerySummary A × List Nat) : Prop where
  perm : acc.2.Perm (List.range n)
  attributes : acc.1.attributes = (acc.2.drop (n - j)).reverse.map address

theorem Picked.nodup (haddress : Function.Injective address) {j : Nat}
    {acc : QuerySummary A × List Nat} (h : Picked address n j acc) : acc.1.attributes.Nodup := by
  rw [h.attributes]
  have hindices : acc.2.Nodup := h.perm.nodup_iff.mpr List.nodup_range
  refine List.Nodup.map haddress ?_
  rw [List.nodup_reverse]
  exact hindices.sublist (List.drop_sublist _ _)

theorem Picked.pickAttribute {j : Nat} {acc : QuerySummary A × List Nat}
    (h : Picked address n j acc) (hj : j < n) {pick : Nat → Nat} (hpick : pick j < n - j) :
    ∃ acc', SimulationConf.pickAttribute (allocated address n) pick acc j = .ok acc' ∧
      Picked address n (j + 1) acc' := by
  obtain ⟨query, indices⟩ := acc
  have hlength : indices.length = n := by
    rw [h.perm.length_eq, List.length_range]
  have hk : pick j < indices.length := by omega
  have hm : n - j - 1 < indices.length := by omega
  have hindex : indices[pick j] < n :=
    List.mem_range.mp (h.perm.subset (List.getElem_mem hk))
  have hattribute : (allocated address n)[indices[pick j]]? = some (address indices[pick j]) := by
    simp [allocated, hindex]
  have hswap : swapAt indices (pick j) (n - j - 1)
      = .ok ((indices.set (pick j) indices[n - j - 1]).set (n - j - 1) indices[pick j]) :=
    swapAt_eq (List.getElem?_eq_getElem hk) (List.getElem?_eq_getElem hm)
  refine ⟨(query.addAttribute (address indices[pick j]),
    (indices.set (pick j) indices[n - j - 1]).set (n - j - 1) indices[pick j]), ?_, ?_, ?_⟩
  · unfold SimulationConf.pickAttribute
    simp only [elementAt_eq (List.getElem?_eq_getElem hk), Except.ok_bind,
      elementAt_eq hattribute, length_allocated, hswap]
    rfl
  · exact (List.set_set_perm hk hm).trans h.perm
  · -- the index that was picked now stands right before those picked earlier
    have hdrop : ((indices.set (pick j) indices[n - j - 1]).set (n - j - 1) indices[pick j]).drop
        (n - (j + 1)) = indices[pick j] :: indices.drop (n - j) := by
      rw [show n - (j + 1) = n - j - 1 by omega,
        List.drop_eq_getElem_cons (by simpa using hm), List.getElem_set_self,
        show n - j - 1 + 1 = n - j by omega, List.drop_set_of_lt (by omega),
        List.drop_set_of_lt (by omega)]
    show query.attributes ++ [address indices[pick j]] = _
    rw [hdrop, List.reverse_cons, List.map_append, h.attributes]
    rfl

/-- The loop over the turns of one query. -/
theorem exists_picked (address : Nat → A) {indices : List Nat}
    (hperm : indices.Perm (List.range n)) (hash : BitVec 64)
    {pick : Nat → Nat} {k : Nat} (hk : k ≤ n) (hpick : ∀ j < k, pick j < n - j) :
    ∃ acc, (List.range k).foldlM (SimulationConf.pickAttribute (allocated address n) pick)
        (.new hash, indices) = .ok acc ∧ Picked address n k acc := by
  induction k with
  | zero =>
      refine ⟨_, rfl, hperm, ?_⟩
      have hlength : indices.length = n := by
        rw [hperm.length_eq, List.length_range]
      simp [QuerySummary.new, ← hlength]
  | succ k ih =>
      obtain ⟨acc, hacc, hpicked⟩ := ih (by omega) fun j hj => hpick j (by omega)
      obtain ⟨acc', hacc', hpicked'⟩ := hpicked.pickAttribute (by omega) (hpick k (by omega))
      refine ⟨acc', ?_, hpicked'⟩
      rw [List.range_succ, List.foldlM_append, hacc, Except.ok_bind, List.foldlM_cons, hacc']
      rfl

/-! ### Drawing the queries -/

variable [DecidableEq N] [LinearOrder A]

/-- Every summary that was generated is a key of its own. -/
def OwnKeys (w : QueryWorkload A N) : Prop :=
  w.queries.Pairwise fun s t => ¬ UnorderedMap.Same s t

/-- After the query types `drawn`: each query is a key, and where the keys are all different they
hold the frequencies that were drawn. -/
structure Drawn (n : Nat) (drawn : List Draw) (d : Drawing A N) : Prop where
  perm : d.attributeIndices.Perm (List.range n)
  total : d.totalFrequency = (drawn.map Draw.frequency).sum
  length : d.workload.queries.length = drawn.length
  distinct : ∀ s ∈ d.workload.queries, s.attributes.Nodup
  one : drawn ≠ [] → d.workload.totalQueries = 1
  found : ∀ s ∈ d.workload.queries, d.workload.counts.find? s ≠ none
  counts : OwnKeys d.workload →
    d.workload.counts.entries = d.workload.queries.zip (drawn.map Draw.frequency)

theorem Drawn.drawQuery {N : Type} (haddress : Function.Injective address) {drawn : List Draw}
    {d : Drawing A N} (h : Drawn n drawn d) {draw : Draw}
    (hpick : ∀ j < min draw.length n, draw.pick j < n - j) :
    ∃ d', SimulationConf.drawQuery (allocated address n) d draw = .ok d' ∧
      Drawn n (drawn ++ [draw]) d' := by
  obtain ⟨⟨query, indices⟩, hloop, hpicked⟩ :=
    exists_picked address h.perm draw.hash (Nat.min_le_right _ _) hpick
  refine ⟨{ workload := (d.workload.setFrequency query draw.frequency).addQuerySummary query
            attributeIndices := indices
            totalFrequency := d.totalFrequency + draw.frequency }, ?_, ?_⟩
  · unfold SimulationConf.drawQuery
    simp only [length_allocated, hloop, Except.ok_bind]
    rfl
  · refine ⟨hpicked.perm, ?_, ?_, ?_, fun _ => rfl, ?_, ?_⟩
    · show d.totalFrequency + draw.frequency = _
      rw [h.total, List.map_append, List.sum_append]
      simp
    · show (d.workload.queries ++ [query]).length = _
      rw [List.length_append, List.length_append, h.length]
      rfl
    · intro s hs
      rcases List.mem_append.mp hs with hs | hs
      · exact h.distinct s hs
      · rw [List.mem_singleton.mp hs]
        exact hpicked.nodup haddress
    · intro s hs
      show (d.workload.counts.emplace query draw.frequency).find? s ≠ none
      rcases List.mem_append.mp hs with hs | hs
      · exact UnorderedMap.find?_emplace_ne_none (h.found s hs) query draw.frequency
      · rw [List.mem_singleton.mp hs]
        exact UnorderedMap.find?_emplace_self (QuerySummary.same_self query) draw.frequency
    · intro hown
      have hown : (d.workload.queries ++ [query]).Pairwise fun s t => ¬ UnorderedMap.Same s t :=
        hown
      obtain ⟨hbefore, -, hnew⟩ := List.pairwise_append.mp hown
      have hcounts := h.counts hbefore
      have hnone : d.workload.counts.find? query = none := by
        rw [UnorderedMap.find?_eq_none, hcounts]
        intro e he
        exact hnew e.1 (List.of_mem_zip he).1 query List.mem_cons_self
      show (d.workload.counts.emplace query draw.frequency).entries
        = (d.workload.queries ++ [query]).zip _
      have hlength : d.workload.queries.length = (drawn.map Draw.frequency).length := by
        rw [List.length_map]
        exact h.length
      rw [UnorderedMap.emplace_of_none hnone, hcounts, List.map_append, List.zip_append hlength]
      rfl

theorem exists_drawn {N : Type} (haddress : Function.Injective address) {drawn draws : List Draw}
    {d : Drawing A N} (h : Drawn n drawn d)
    (hpick : ∀ draw ∈ draws, ∀ j < min draw.length n, draw.pick j < n - j) :
    ∃ d', draws.foldlM (SimulationConf.drawQuery (allocated address n)) d = .ok d' ∧
      Drawn n (drawn ++ draws) d' := by
  induction draws generalizing drawn d with
  | nil =>
      refine ⟨d, rfl, ?_⟩
      rw [List.append_nil]
      exact h
  | cons draw draws ih =>
      obtain ⟨d₁, hdraw, h₁⟩ := h.drawQuery haddress (hpick draw List.mem_cons_self)
      obtain ⟨d₂, hrest, h₂⟩ := ih h₁ fun e he => hpick e (List.mem_cons_of_mem _ he)
      refine ⟨d₂, ?_, ?_⟩
      · rw [List.foldlM_cons, hdraw, Except.ok_bind]
        exact hrest
      · rw [List.append_cons]
        exact h₂

/-! ### The second pass -/

/-- Setting the frequency of a key that is there changes nothing. -/
theorem normalise_eq {N : Type} {w : QueryWorkload A N} (hone : w.totalQueries = 1)
    {s : QuerySummary A} (hfound : w.counts.find? s ≠ none) (total : ℚ) :
    normalise total w s = .ok w := by
  obtain ⟨count, hcount⟩ := Option.ne_none_iff_exists'.mp hfound
  have hfrequency : w.getFrequency s = .ok (count / w.totalQueries) := by
    unfold QueryWorkload.getFrequency
    rw [hcount]
  unfold normalise QueryWorkload.setFrequency
  rw [hfrequency, Except.ok_bind, UnorderedMap.emplace_of_some hfound, ← hone]
  rfl

theorem foldlM_normalise {N : Type} {w : QueryWorkload A N} (hone : w.totalQueries = 1)
    {qs : List (QuerySummary A)} (hfound : ∀ s ∈ qs, w.counts.find? s ≠ none) (total : ℚ) :
    qs.foldlM (normalise total) w = .ok w := by
  induction qs with
  | nil => rfl
  | cons s qs ih =>
      rw [List.foldlM_cons, normalise_eq hone (hfound s List.mem_cons_self), Except.ok_bind]
      exact ih fun t ht => hfound t (List.mem_cons_of_mem _ ht)

/-- The whole pass leaves the workload as it was drawn. -/
theorem Drawn.secondPass {N : Type} {drawn : List Draw} {d : Drawing A N} (h : Drawn n drawn d) :
    d.workload.queries.foldlM (normalise d.totalFrequency) d.workload = .ok d.workload := by
  cases hdrawn : drawn with
  | nil =>
      have hnil : d.workload.queries = [] := by
        rw [← List.length_eq_zero_iff, h.length, hdrawn, List.length_nil]
      rw [hnil]
      rfl
  | cons draw drawn' =>
      refine foldlM_normalise (h.one ?_) h.found d.totalFrequency
      rw [hdrawn]
      exact List.cons_ne_nil _ _

/-- The frequencies are read as they were drawn. -/
theorem Drawn.frequencies {N : Type} {drawn : List Draw} {d : Drawing A N} (h : Drawn n drawn d)
    (hown : OwnKeys d.workload) :
    d.workload.queries.mapM d.workload.getFrequency = .ok (drawn.map Draw.frequency) := by
  have hlength : d.workload.queries.length = (drawn.map Draw.frequency).length := by
    rw [List.length_map]
    exact h.length
  have hkeys : d.workload.counts.entries.Pairwise fun e e' => ¬ UnorderedMap.Same e.1 e'.1 := by
    rw [h.counts hown,
      ← List.pairwise_map (f := Prod.fst) (R := fun s t => ¬ UnorderedMap.Same s t),
      List.map_fst_zip hlength.le]
    exact hown
  have hread : ∀ e ∈ d.workload.counts.entries, d.workload.getFrequency e.1 = .ok e.2 := by
    intro e he
    have hdrawn : drawn ≠ [] := by
      intro hnil
      rw [h.counts hown, hnil] at he
      simp at he
    unfold QueryWorkload.getFrequency
    rw [UnorderedMap.find?_of_pairwise QuerySummary.same_self hkeys he, h.one hdrawn]
    show Except.ok (e.2 / 1) = _
    rw [div_one]
  have hqueries : d.workload.queries = d.workload.counts.entries.map Prod.fst := by
    rw [h.counts hown, List.map_fst_zip hlength.le]
  have hvalues : drawn.map Draw.frequency = d.workload.counts.entries.map Prod.snd := by
    rw [h.counts hown, List.map_snd_zip hlength.ge]
  rw [hqueries, hvalues, List.mapM_map]
  exact Except.mapM_eq_ok _ hread

/-! ### The workload that is returned -/

/-- No query has an attribute twice, and the frequencies are those drawn, divided by their total,
so that they sum to one. -/
structure Normalised (draws : List Draw) (w : QueryWorkload A N) : Prop where
  distinct : ∀ s ∈ w.queries, s.attributes.Nodup
  frequencies : ∃ fs, w.queries.mapM w.getFrequency = .ok fs ∧
    fs = draws.map (fun draw => draw.frequency / (draws.map Draw.frequency).sum) ∧ fs.sum = 1

theorem foldl_addAttribute {A N : Type} (attributes : List A) (w : QueryWorkload A N) :
    attributes.foldl QueryWorkload.addAttribute w
      = { w with attributes := w.attributes ++ attributes } := by
  induction attributes generalizing w with
  | nil => simp
  | cons attrb attributes ih => simp [ih, QueryWorkload.addAttribute]

/-- **The workload returned has no attribute twice in a query; with a key for each query, its
frequencies are normalised exactly when those drawn were.** -/
theorem getQueryWorkloadAndStats_normalised_iff {N : Type} (haddress : Function.Injective address)
    (totalQueries : ℚ) {attributeSizes : List ℚ} {draws : List Draw}
    (hpick : ∀ draw ∈ draws, ∀ j < min draw.length attributeSizes.length,
      draw.pick j < attributeSizes.length - j) :
    ∃ (w : QueryWorkload A N) (stats : SchemaStats),
      getQueryWorkloadAndStats address totalQueries attributeSizes draws = .ok (w, stats) ∧
      (∀ s ∈ w.queries, s.attributes.Nodup) ∧
      (OwnKeys w → (Normalised draws w ↔ (draws.map Draw.frequency).sum = 1)) := by
  have hstart : Drawn attributeSizes.length []
      { workload := (allocated address attributeSizes.length).foldl QueryWorkload.addAttribute
          (QueryWorkload.new totalQueries : QueryWorkload A N)
        attributeIndices := List.range (allocated address attributeSizes.length).length
        totalFrequency := 0 } := by
    rw [foldl_addAttribute, length_allocated]
    refine ⟨List.Perm.refl _, rfl, rfl, ?_, fun h => absurd rfl h, ?_, fun _ => rfl⟩
    · simp [QueryWorkload.new]
    · simp [QueryWorkload.new]
  obtain ⟨d, hdraws, h⟩ := exists_drawn haddress hstart hpick
  rw [List.nil_append] at h
  refine ⟨d.workload, attributeSizes.zipIdx.foldl
    (fun stats size => stats.incrCountAndBytes size.2 size.1) SchemaStats.new, ?_, h.distinct, ?_⟩
  · have hattributes : ((allocated address attributeSizes.length).foldl QueryWorkload.addAttribute
        (QueryWorkload.new totalQueries : QueryWorkload A N)).attributes
          = allocated address attributeSizes.length := by
      rw [foldl_addAttribute]
      rfl
    unfold getQueryWorkloadAndStats
    rw [← allocated]
    simp only [hattributes, hdraws, Except.ok_bind, h.secondPass]
    rfl
  · intro hown
    refine ⟨?_, ?_⟩
    · intro hnormalised
      obtain ⟨fs, hfs, -, hsum⟩ := hnormalised.frequencies
      rw [h.frequencies hown, Except.ok.injEq] at hfs
      rw [hfs]
      exact hsum
    · intro hsum
      refine ⟨h.distinct, draws.map Draw.frequency, h.frequencies hown, ?_, hsum⟩
      simp [hsum]

/-- Two query types that are drawn with the same frequency. -/
def twoTypes (frequency : ℚ) : List Draw :=
  [{ length := 1, pick := fun _ => 0, frequency := frequency, hash := 0 },
   { length := 2, pick := fun _ => 0, frequency := frequency, hash := 0 }]

theorem getQueryWorkloadAndStats_normalised_twoHalves :
    ∃ (w : QueryWorkload Nat Nat) (stats : SchemaStats),
      getQueryWorkloadAndStats (fun i => 8 * i) 0 [4, 4] (twoTypes (1 / 2)) = .ok (w, stats) ∧
      Normalised (twoTypes (1 / 2)) w := by
  have hpick : ∀ draw ∈ twoTypes (1 / 2), ∀ j < min draw.length ([4, 4] : List ℚ).length,
      draw.pick j < ([4, 4] : List ℚ).length - j := by decide
  have haddress : Function.Injective fun i : Nat => 8 * i := by
    intro i j hij
    exact Nat.eq_of_mul_eq_mul_left (by decide) hij
  obtain ⟨w, stats, hrun, -, hnormalised⟩ :=
    getQueryWorkloadAndStats_normalised_iff (N := Nat) haddress 0 hpick
  refine ⟨w, stats, hrun, (hnormalised ?_).mpr (by decide +kernel)⟩
  have hqueries : (getQueryWorkloadAndStats (N := Nat) (fun i => 8 * i) 0 [4, 4]
      (twoTypes (1 / 2))).map (fun r => r.1.queries) = .ok [⟨[0], 0⟩, ⟨[8, 0], 0⟩] := by decide +kernel
  rw [hrun] at hqueries
  unfold OwnKeys
  rw [show w.queries = [⟨[0], 0⟩, ⟨[8, 0], 0⟩] from Except.ok.inj hqueries]
  decide

/-- Drawn with a frequency of one each, they keep it. -/
theorem getQueryWorkloadAndStats_not_normalised :
    (getQueryWorkloadAndStats (A := Nat) (N := Nat) (fun i => 8 * i) 0 [4, 4] (twoTypes 1)).bind
      (fun r => r.1.queries.mapM r.1.getFrequency) = .ok [1, 1] ∧ ([1, 1] : List ℚ).sum ≠ 1 := by
  decide +kernel

end RailwayDB.SimulationConf
