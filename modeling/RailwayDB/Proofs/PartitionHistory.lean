/-
Histories of lookups.

From one lookup to any number of them, and to the range lookup, which steps from
slice to slice by looking up the end of each.  A range lookup therefore asks for a
boundary as soon as it leaves its first slice, and at that moment the cache holds
the slice that ends there: the boundary is a miss, and the case of a single lookup
that goes wrong.  What is left of a history that works is in `calls_exact_iff`.
-/
import RailwayDB.Proofs.PartitionLookup

namespace RailwayDB.PartitionIndex

/-! ### Any number of lookups -/

/-- Each of the lookups, made one after the other, is exact. -/
def LookupsExact (ss : List (TimeSlicedPartitioning Double)) :
    PartitionIndex Double → List Double → Prop
  | _, [] => True
  | idx, t :: ts => ∃ idx', LookupExact ss idx t idx' ∧ LookupsExact ss idx' ts

/-- Each of the lookups starts in a state that meets its condition. -/
def LookupsOk (ss : List (TimeSlicedPartitioning Double)) :
    PartitionIndex Double → List Double → Prop
  | _, [] => True
  | idx, t :: ts => LookupOk ss idx t ∧
      match idx.getTimeSlicedPartitioning t with
      | .ok (_, idx') => LookupsOk ss idx' ts
      | .error _ => True

instance decidableLookupsOk (ss : List (TimeSlicedPartitioning Double)) :
    (idx : PartitionIndex Double) → (ts : List Double) → Decidable (LookupsOk ss idx ts)
  | _, [] => isTrue trivial
  | idx, t :: ts =>
      have : Decidable (match idx.getTimeSlicedPartitioning t with
          | .ok (_, idx') => LookupsOk ss idx' ts
          | .error _ => True) :=
        match idx.getTimeSlicedPartitioning t with
        | .ok (_, idx') => decidableLookupsOk ss idx' ts
        | .error _ => isTrue trivial
      inferInstanceAs (Decidable (LookupOk ss idx t ∧ _))

/-- A time on the line, not before zero. -/
def OnLine (t : Double) : Prop := Double.zero ≤ t ∧ t < Timestamp.infinity

theorem lookups_exact_iff {ss : List (TimeSlicedPartitioning Double)} (hl : TilesLine ss)
    (ts : List Double) (hts : ∀ t ∈ ts, OnLine t) {idx : PartitionIndex Double}
    (hst : idx.Stores ss) (hgood : CacheGood ss idx) :
    LookupsExact ss idx ts ↔ LookupsOk ss idx ts := by
  induction ts generalizing idx with
  | nil => exact Iff.rfl
  | cons t ts ih =>
      have hrest : ∀ u ∈ ts, OnLine u := fun u hu => hts u (List.mem_cons_of_mem _ hu)
      obtain ⟨h0, hinf⟩ := hts t List.mem_cons_self
      refine ⟨?_, ?_⟩
      · intro h
        obtain ⟨idx', hexact, hmore⟩ := h
        refine ⟨lookup_ok_of_exact hl hst hexact, ?_⟩
        obtain ⟨s, hget, -, -, -, hgood'⟩ := hexact
        simp only [hget]
        exact (ih hrest (hst.of_db (getTimeSlicedPartitioning_db hget)) hgood').mp hmore
      · intro h
        obtain ⟨hok, hmore⟩ := h
        obtain ⟨idx', hexact⟩ := lookup_exact hl hst hgood h0 hinf hok
        refine ⟨idx', hexact, ?_⟩
        obtain ⟨s, hget, -, -, -, hgood'⟩ := hexact
        simp only [hget] at hmore
        exact (ih hrest (hst.of_db (getTimeSlicedPartitioning_db hget)) hgood').mpr hmore

/-! ### Range lookups -/

section Range

variable {ss : List (TimeSlicedPartitioning Double)}

/-- The stored slices that meet `[a, b)`, in order. -/
def meeting (ss : List (TimeSlicedPartitioning Double)) (a b : Double) :
    List (TimeSlicedPartitioning Double) :=
  ss.filter fun s => a < b ∧ s.startTime < b ∧ a < s.endTime

/-- The times a range lookup looks up: its start, then every boundary before its end. -/
def rangeTimes (ss : List (TimeSlicedPartitioning Double)) (a b : Double) : List Double :=
  a :: ((meeting ss a b).map TimeSlicedPartitioning.endTime).filter fun e => e < b

/-- The slice after the one that ends at a time holds that time. -/
theorem next_slice (hl : TilesLine ss) {pre post : List (TimeSlicedPartitioning Double)}
    {s : TimeSlicedPartitioning Double} (hss : ss = pre ++ s :: post)
    (hend : s.endTime < Timestamp.infinity) :
    ∃ s' post', post = s' :: post' ∧ s'.startTime ≤ s.endTime ∧ s.endTime < s'.endTime := by
  have hs : s ∈ ss := by rw [hss]; simp
  have hord := hl.ordered
  rw [hss] at hord
  obtain ⟨-, hord', hpre⟩ := List.pairwise_append.mp hord
  obtain ⟨hpost, hord''⟩ := List.pairwise_cons.mp hord'
  have hlo : Timestamp.negInfinity ≤ s.endTime :=
    le_trans (by decide +kernel) (le_of_lt (hl.positive s hs))
  obtain ⟨k, hk, h1, h2⟩ := hl.tiles.cover s.endTime hlo hend
  have hkpost : k ∈ post := by
    have hk' : k ∈ pre ++ s :: post := by rw [← hss]; exact hk
    rcases List.mem_append.mp hk' with hkp | hkp
    · exact absurd (hpre k hkp s List.mem_cons_self) (not_lt_of_gt h2)
    · rcases List.mem_cons.mp hkp with hks | hkp
      · rw [hks] at h2
        exact absurd h2 (lt_irrefl _)
      · exact hkp
  cases post with
  | nil => simp at hkpost
  | cons s' post' =>
      have hs' : s' ∈ ss := by rw [hss]; simp
      have hlt : s.endTime < s'.endTime := hpost s' List.mem_cons_self
      have hkk : k = s' := by
        rcases List.mem_cons.mp hkpost with hks | hkp
        · exact hks
        · have hlt' := (List.pairwise_cons.mp hord'').1 k hkp
          exact absurd hlt' (not_lt_of_ge (hl.tiles.stop_le_of_mem hk hs' h1 h2 hlt))
      rw [hkk] at h1
      exact ⟨s', post', rfl, h1, hlt⟩

/-- The loop of a range lookup, from a time in the first of the remaining slices on. -/
theorem range_loop (hl : TilesLine ss) (b : Double) (fuel : Nat) :
    ∀ (pre post : List (TimeSlicedPartitioning Double)) (s : TimeSlicedPartitioning Double)
      (t : Double) (idx : PartitionIndex Double),
      ss = pre ++ s :: post → s.startTime ≤ t → t < s.endTime → t < b → post.length < fuel →
      LookupsExact ss idx
        (t :: (((s :: post).filter fun s => s.startTime < b).map
          TimeSlicedPartitioning.endTime).filter fun e => e < b) →
      ∃ idx', idx.getTimeSlicedPartitionings t b fuel
          = .ok ((s :: post).filter (fun s => s.startTime < b), idx') ∧ CacheGood ss idx' := by
  induction fuel with
  | zero =>
      intro pre post s t idx _ _ _ _ hfuel
      exact absurd hfuel (Nat.not_lt_zero _)
  | succ fuel ih =>
      intro pre post s t idx hss h1 h2 htb hfuel hex
      have hs : s ∈ ss := by rw [hss]; simp
      obtain ⟨idx₁, ⟨s₁, hget, hs₁, h3, h4, hgood⟩, hmore⟩ := hex
      have heq : s₁ = s := hl.tiles.disjoint s₁ hs₁ s hs t h3 h4 h1 h2
      rw [heq] at hget
      have hsb : s.startTime < b := lt_of_le_of_lt h1 htb
      unfold getTimeSlicedPartitionings
      rw [hget, Except.ok_bind]
      by_cases hend : s.endTime < b
      · -- There is a next slice, and the loop goes on at its start.
        obtain ⟨s', post', hpost, h5, h6⟩ :=
          next_slice hl hss (lt_of_lt_of_le hend (Double.le_infinity b))
        rw [List.filter_cons_of_pos (by simpa using hsb), List.map_cons,
          List.filter_cons_of_pos (by simpa using hend), hpost] at hmore
        have hss' : ss = (pre ++ [s]) ++ s' :: post' := by rw [hss, hpost]; simp
        rw [hpost, List.length_cons] at hfuel
        obtain ⟨idx', hloop, hgood'⟩ :=
          ih (pre ++ [s]) post' s' s.endTime idx₁ hss' h5 h6 hend (by omega) hmore
        refine ⟨idx', ?_, hgood'⟩
        rw [List.filter_cons_of_pos (by simpa using hsb), hpost]
        simp only [hend, if_true, hloop, Except.ok_bind, Except.pure_eq_ok]
      · -- Every later slice starts at or after the end of the range.
        have hnone : post.filter (fun s => decide (s.startTime < b)) = [] := by
          rw [List.filter_eq_nil_iff]
          intro s' hs'
          have hmem : s' ∈ ss := by rw [hss]; simp [hs']
          have hord := hl.ordered
          rw [hss] at hord
          have hlt := (List.pairwise_cons.mp (List.pairwise_append.mp hord).2.1).1 s' hs'
          have hle := hl.tiles.stop_le_start hs hmem hlt
          have hbs := le_trans (SortedMap.le_of_not_gt_total hend) hle
          simpa using not_lt_of_ge hbs
        refine ⟨idx₁, ?_, hgood⟩
        rw [List.filter_cons_of_pos (by simpa using hsb), hnone]
        simp only [hend, if_false, Except.pure_eq_ok]

theorem meeting_eq (hl : TilesLine ss) {pre post : List (TimeSlicedPartitioning Double)}
    {s : TimeSlicedPartitioning Double} {a b : Double} (hss : ss = pre ++ s :: post)
    (h1 : s.startTime ≤ a) (h2 : a < s.endTime) (hab : a < b) :
    meeting ss a b = (s :: post).filter fun s => s.startTime < b := by
  have hs : s ∈ ss := by rw [hss]; simp
  have hord := hl.ordered
  rw [hss] at hord
  obtain ⟨-, hord', hpre⟩ := List.pairwise_append.mp hord
  have hout : pre.filter (fun s => decide (a < b ∧ s.startTime < b ∧ a < s.endTime)) = [] := by
    rw [List.filter_eq_nil_iff]
    intro p hp
    have hmem : p ∈ ss := by rw [hss]; simp [hp]
    have hle := hl.tiles.stop_le_start hmem hs (hpre p hp s List.mem_cons_self)
    have hnot : ¬ a < p.endTime := not_lt_of_ge (le_trans hle h1)
    simp [hnot]
  unfold meeting
  rw [hss, List.filter_append, hout, List.nil_append]
  apply List.filter_congr
  intro p hp
  have hap : a < p.endTime := by
    rcases List.mem_cons.mp hp with hps | hp
    · rw [hps]
      exact h2
    · exact lt_trans h2 ((List.pairwise_cons.mp hord').1 p hp)
  simp [hab, hap]

/-- A range lookup all of whose steps are exact returns the slices that meet the range. -/
theorem range_exact (hl : TilesLine ss) {idx : PartitionIndex Double} {a b : Double}
    (ha : OnLine a) (hab : a < b) (hex : LookupsExact ss idx (rangeTimes ss a b)) :
    ∃ idx', idx.getTimeSlicedPartitionings a b ss.length = .ok (meeting ss a b, idx') ∧
      CacheGood ss idx' := by
  have hlo : Timestamp.negInfinity ≤ a := le_trans (by decide +kernel) ha.1
  obtain ⟨s, hs, h1, h2⟩ := hl.tiles.cover a hlo ha.2
  obtain ⟨pre, post, hss⟩ := List.append_of_mem (show s ∈ ss from hs)
  unfold rangeTimes at hex
  rw [meeting_eq hl hss h1 h2 hab] at hex ⊢
  refine range_loop hl b ss.length pre post s a idx hss h1 h2 hab ?_ hex
  rw [hss, List.length_append, List.length_cons]
  omega

theorem getTimeSlicedPartitionings_ok {b : Double} (fuel : Nat) :
    ∀ {idx idx' : PartitionIndex Double} {t : Double}
      {r : List (TimeSlicedPartitioning Double)},
      idx.getTimeSlicedPartitionings t b fuel = .ok (r, idx') → r ≠ [] ∧ idx'.db = idx.db := by
  induction fuel with
  | zero =>
      intro idx idx' t r h
      simp [getTimeSlicedPartitionings] at h
  | succ fuel ih =>
      intro idx idx' t r h
      unfold getTimeSlicedPartitionings at h
      obtain ⟨⟨s, idx₁⟩, hget, h⟩ := Except.bind_eq_ok.mp h
      have hdb := getTimeSlicedPartitioning_db hget
      by_cases hend : s.endTime < b
      · simp only [hend, if_true] at h
        obtain ⟨⟨r', idx₂⟩, hloop, h⟩ := Except.bind_eq_ok.mp h
        obtain ⟨-, hdb'⟩ := ih hloop
        simp only [Except.pure_eq_ok, Except.ok.injEq, Prod.mk.injEq] at h
        rw [← h.1, ← h.2, hdb', hdb]
        exact ⟨by simp, rfl⟩
      · simp only [hend, if_false, Except.pure_eq_ok, Except.ok.injEq, Prod.mk.injEq] at h
        rw [← h.1, ← h.2]
        exact ⟨by simp, hdb⟩

end Range

/-! ### Any history of calls -/

/-- A call of the lookup interface. -/
inductive Call where
  | lookup (t : Double)
  | range (a b : Double)

/-- The call starts at a time on the line, not before zero. -/
def Call.OnLine : Call → Prop
  | .lookup t => PartitionIndex.OnLine t
  | .range a _ => PartitionIndex.OnLine a

/-- Every call returns the stored slices it asks for and leaves a good cache; a range lookup
does so at each of the lookups it makes. -/
def CallsExact (ss : List (TimeSlicedPartitioning Double)) :
    PartitionIndex Double → List Call → Prop
  | _, [] => True
  | idx, .lookup t :: calls => ∃ idx', LookupExact ss idx t idx' ∧ CallsExact ss idx' calls
  | idx, .range a b :: calls => LookupsExact ss idx (rangeTimes ss a b) ∧
      ∃ idx', idx.getTimeSlicedPartitionings a b ss.length = .ok (meeting ss a b, idx') ∧
        CacheGood ss idx' ∧ CallsExact ss idx' calls

/-- Every lookup of the history starts in a state that meets its condition, and no range is
empty. -/
def CallsOk (ss : List (TimeSlicedPartitioning Double)) :
    PartitionIndex Double → List Call → Prop
  | _, [] => True
  | idx, .lookup t :: calls => LookupOk ss idx t ∧
      match idx.getTimeSlicedPartitioning t with
      | .ok (_, idx') => CallsOk ss idx' calls
      | .error _ => True
  | idx, .range a b :: calls => a < b ∧ LookupsOk ss idx (rangeTimes ss a b) ∧
      match idx.getTimeSlicedPartitionings a b ss.length with
      | .ok (_, idx') => CallsOk ss idx' calls
      | .error _ => True

instance decidableCallsOk (ss : List (TimeSlicedPartitioning Double)) :
    (idx : PartitionIndex Double) → (calls : List Call) → Decidable (CallsOk ss idx calls)
  | _, [] => isTrue trivial
  | idx, .lookup t :: calls =>
      have : Decidable (match idx.getTimeSlicedPartitioning t with
          | .ok (_, idx') => CallsOk ss idx' calls
          | .error _ => True) :=
        match idx.getTimeSlicedPartitioning t with
        | .ok (_, idx') => decidableCallsOk ss idx' calls
        | .error _ => isTrue trivial
      inferInstanceAs (Decidable (LookupOk ss idx t ∧ _))
  | idx, .range a b :: calls =>
      have : Decidable (match idx.getTimeSlicedPartitionings a b ss.length with
          | .ok (_, idx') => CallsOk ss idx' calls
          | .error _ => True) :=
        match idx.getTimeSlicedPartitionings a b ss.length with
        | .ok (_, idx') => decidableCallsOk ss idx' calls
        | .error _ => isTrue trivial
      inferInstanceAs (Decidable (a < b ∧ LookupsOk ss idx (rangeTimes ss a b) ∧ _))

theorem rangeTimes_onLine {ss : List (TimeSlicedPartitioning Double)} (hl : TilesLine ss)
    {a b : Double} (ha : OnLine a) : ∀ t ∈ rangeTimes ss a b, OnLine t := by
  intro t ht
  rcases List.mem_cons.mp ht with hta | ht
  · rw [hta]
    exact ha
  · obtain ⟨ht, hlt⟩ := List.mem_filter.mp ht
    obtain ⟨s, hs, hst⟩ := List.mem_map.mp ht
    have hmem : s ∈ ss := List.mem_of_mem_filter hs
    rw [← hst] at hlt ⊢
    exact ⟨le_of_lt (hl.positive s hmem),
      lt_of_lt_of_le (of_decide_eq_true hlt) (Double.le_infinity b)⟩

/--
**Lookups do not depend on the cache exactly where each meets its condition.**  Over
any tiling of the line by slices with positive ends, a history of calls returns the
stored slices and keeps every cache entry a stored slice under its own end if and
only if every lookup in it starts in a state that meets `LookupOk`, and no range
lookup has an empty range.
-/
theorem calls_exact_iff {ss : List (TimeSlicedPartitioning Double)} (hl : TilesLine ss)
    (calls : List Call) (hcalls : ∀ c ∈ calls, c.OnLine) {idx : PartitionIndex Double}
    (hst : idx.Stores ss) (hgood : CacheGood ss idx) :
    CallsExact ss idx calls ↔ CallsOk ss idx calls := by
  induction calls generalizing idx with
  | nil => exact Iff.rfl
  | cons c calls ih =>
      have hrest : ∀ d ∈ calls, d.OnLine := fun d hd => hcalls d (List.mem_cons_of_mem _ hd)
      have hc := hcalls c List.mem_cons_self
      cases c with
      | lookup t =>
          refine ⟨?_, ?_⟩
          · intro h
            obtain ⟨idx', hexact, hmore⟩ := h
            refine ⟨lookup_ok_of_exact hl hst hexact, ?_⟩
            obtain ⟨s, hget, -, -, -, hgood'⟩ := hexact
            simp only [hget]
            exact (ih hrest (hst.of_db (getTimeSlicedPartitioning_db hget)) hgood').mp hmore
          · intro h
            obtain ⟨hok, hmore⟩ := h
            obtain ⟨idx', hexact⟩ := lookup_exact hl hst hgood hc.1 hc.2 hok
            refine ⟨idx', hexact, ?_⟩
            obtain ⟨s, hget, -, -, -, hgood'⟩ := hexact
            simp only [hget] at hmore
            exact (ih hrest (hst.of_db (getTimeSlicedPartitioning_db hget)) hgood').mpr hmore
      | range a b =>
          have htimes := @rangeTimes_onLine ss hl a b hc
          refine ⟨?_, ?_⟩
          · intro h
            obtain ⟨hlookups, idx', hget, hgood', hmore⟩ := h
            obtain ⟨hne, hdb⟩ := getTimeSlicedPartitionings_ok _ hget
            have hab : a < b := by
              by_contra hab
              apply hne
              unfold meeting
              rw [List.filter_eq_nil_iff]
              intro s _
              simp [hab]
            refine ⟨hab, (lookups_exact_iff hl _ htimes hst hgood).mp hlookups, ?_⟩
            simp only [hget]
            exact (ih hrest (hst.of_db hdb) hgood').mp hmore
          · intro h
            obtain ⟨hab, hlookups, hmore⟩ := h
            have hexact := (lookups_exact_iff hl _ htimes hst hgood).mpr hlookups
            obtain ⟨idx', hget, hgood'⟩ := range_exact hl hc hab hexact
            refine ⟨hexact, idx', hget, hgood', ?_⟩
            simp only [hget] at hmore
            obtain ⟨-, hdb⟩ := getTimeSlicedPartitionings_ok _ hget
            exact (ih hrest (hst.of_db hdb) hgood').mpr hmore

theorem not_callsExact {ss : List (TimeSlicedPartitioning Double)} (hl : TilesLine ss)
    {idx : PartitionIndex Double} (hst : idx.Stores ss) {t : Double} (calls : List Call)
    (h : ¬ LookupOk ss idx t) : ¬ CallsExact ss idx (.lookup t :: calls) := by
  intro hex
  obtain ⟨idx', hexact, -⟩ := hex
  exact h (lookup_ok_of_exact hl hst hexact)

/-! ### Two slices that meet at five -/

/-- One attribute, kept in one part on both sides of time five. -/
def sliceBefore : TimeSlicedPartitioning Double :=
  ⟨Timestamp.negInfinity, Double.ofFloat 5.0, [[[97]]]⟩

def sliceAfter : TimeSlicedPartitioning Double :=
  ⟨Double.ofFloat 5.0, Timestamp.infinity, [[[97]]]⟩

/-- A fresh index over the two slices. -/
def twoSlices : PartitionIndex Double :=
  match (do
    let idx ← (reopen 16384 ⟨[⟨[97], .int64⟩]⟩ .empty : PartitionIndex Double).addPartitioning
      sliceBefore
    idx.addPartitioning sliceAfter) with
  | .ok idx => idx
  | .error _ => reopen 16384 ⟨[⟨[97], .int64⟩]⟩ .empty

theorem twoSlices_tiles : TilesLine [sliceBefore, sliceAfter] := by
  have hchain : Contiguous TimeSlicedPartitioning.startTime TimeSlicedPartitioning.endTime
      [sliceBefore, sliceAfter] := by
    unfold Contiguous
    rw [List.isChain_pair]
    decide +kernel
  refine ⟨?_, by decide +kernel, by decide +kernel⟩
  exact hchain.tiles (by decide +kernel) rfl rfl

theorem twoSlices_stores : twoSlices.Stores [sliceBefore, sliceAfter] :=
  ⟨by decide +kernel, by decide +kernel⟩

theorem twoSlices_cache : CacheGood [sliceBefore, sliceAfter] twoSlices := by
  have hempty : twoSlices.cache.entries = [] := by decide +kernel
  intro e he
  rw [hempty] at he
  simp at he

/-- With only the second slice cached the boundary is a hit, and a range that stays in one
slice looks up no boundary. -/
theorem calls_exact_iff_two_slices :
    CallsExact [sliceBefore, sliceAfter] twoSlices
      [.lookup (Double.ofFloat 7.0), .lookup (Double.ofFloat 5.0),
        .range (Double.ofFloat 3.0) (Double.ofFloat 4.0)] := by
  refine (calls_exact_iff twoSlices_tiles _ ?_ twoSlices_stores twoSlices_cache).mpr ?_
  · intro c hc
    simp only [List.mem_cons, List.not_mem_nil, or_false] at hc
    rcases hc with rfl | rfl | rfl
    · exact ⟨by decide +kernel, by decide +kernel⟩
    · exact ⟨by decide +kernel, by decide +kernel⟩
    · exact ⟨by decide +kernel, by decide +kernel⟩
  · decide +kernel

/-- A lookup at the boundary leaves the second slice cached under the end of the first, and
the next lookup before the boundary gets the first slice with every part twice. -/
theorem lookup_at_boundary_doubles_parts :
    TilesLine [sliceBefore, sliceAfter] ∧ twoSlices.Stores [sliceBefore, sliceAfter] ∧
    CacheGood [sliceBefore, sliceAfter] twoSlices ∧
    (do
      let (_, idx) ← twoSlices.getTimeSlicedPartitioning (Double.ofFloat 5.0)
      let (s, _) ← idx.getTimeSlicedPartitioning (Double.ofFloat 3.0)
      return s) = .ok { sliceBefore with partitioning := [[[97]], [[97]]] } ∧
    ¬ CallsExact [sliceBefore, sliceAfter] twoSlices
      [.lookup (Double.ofFloat 5.0), .lookup (Double.ofFloat 3.0)] := by
  refine ⟨twoSlices_tiles, twoSlices_stores, twoSlices_cache, by decide +kernel, ?_⟩
  exact not_callsExact twoSlices_tiles twoSlices_stores _ (by decide +kernel)

end RailwayDB.PartitionIndex
