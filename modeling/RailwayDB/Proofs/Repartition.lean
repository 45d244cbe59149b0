/-
Replacing slices.

The slices that go leave the store and the cache and stay at hand for reading the
blocks that are still laid out by them; the slices that come enter the store.  While
the blocks are rewritten a lookup for reading finds the slice that went and any other
lookup the one that came, and outside the stretch that is replaced both find the slice
that stayed.
-/
import RailwayDB.Proofs.AcceptedSlices
import RailwayDB.Proofs.Rewriting
import RailwayDB.Proofs.SliceAnswers
import RailwayDB.Proofs.SliceRoundTrip

namespace RailwayDB

namespace PartitionIndex

open NetworkByteBuffer

variable {T : Type} [LinearOrder T] [Timestamp T] [BlockTime T]
  {removed added ss ss' : List (TimeSlicedPartitioning T)} {idx idx' : PartitionIndex T} {t : T}
  {s : TimeSlicedPartitioning T}

/-! ### Slices that go -/

/-- The slices that end where none of `removed` does. -/
def kept (removed ss : List (TimeSlicedPartitioning T)) : List (TimeSlicedPartitioning T) :=
  ss.filter fun s => ∀ r ∈ removed, s.endTime ≠ r.endTime

theorem mem_kept {T : Type} [LinearOrder T] {removed ss : List (TimeSlicedPartitioning T)}
    {s : TimeSlicedPartitioning T} :
    s ∈ kept removed ss ↔ s ∈ ss ∧ ∀ r ∈ removed, s.endTime ≠ r.endTime := by
  unfold kept
  rw [List.mem_filter, decide_eq_true_eq]

theorem kept_kept {T : Type} [LinearOrder T] (removed added ss : List (TimeSlicedPartitioning T)) :
    kept added (kept removed ss) = kept (removed ++ added) ss := by
  unfold kept
  rw [List.filter_filter]
  refine List.filter_congr fun s _ => ?_
  simp only [List.mem_append, or_imp, forall_and, Bool.decide_and, Bool.and_comm]

theorem kept_nil {T : Type} [LinearOrder T] (ss : List (TimeSlicedPartitioning T)) :
    kept [] ss = ss :=
  List.filter_eq_self.mpr fun s _ => by simp

/-- The store without a slice. -/
theorem Stores.erase {T : Type} [LinearOrder T] [Timestamp T] {ss : List (TimeSlicedPartitioning T)}
    {idx idx' : PartitionIndex T} {s : TimeSlicedPartitioning T} (h : idx.Stores ss)
    (hdb : idx'.db = idx.db.erase (timeBytes s.endTime)) :
    idx'.Stores (kept [s] ss) := by
  have hmem : ∀ e, e ∈ idx'.db.entries ↔ e ∈ idx.db.entries ∧ e.1 ≠ timeBytes s.endTime := by
    intro e
    rw [hdb, SortedMap.mem_erase_iff]
  refine ⟨?_, ?_⟩
  · intro e he
    obtain ⟨he, hne⟩ := (hmem e).mp he
    obtain ⟨s', hs', hkey, hdec⟩ := h.entry e he
    refine ⟨s', mem_kept.mpr ⟨hs', ?_⟩, hkey, hdec⟩
    intro r hr heq
    rw [List.mem_singleton.mp hr] at heq
    exact hne (by rw [key_inj hkey, heq])
  · intro s' hs'
    obtain ⟨hs', hne⟩ := mem_kept.mp hs'
    obtain ⟨e, he, hkey, hdec⟩ := h.stored s' hs'
    refine ⟨e, (hmem e).mpr ⟨he, ?_⟩, hkey, hdec⟩
    intro heq
    rw [key_inj hkey] at heq
    exact hne s List.mem_cons_self (timeBytes_injective heq)

/-- **A slice that goes is forgotten.** -/
theorem Roomy.initiate {T : Type} [LinearOrder T] [Timestamp T]
    {removed ss : List (TimeSlicedPartitioning T)} {idx idx' : PartitionIndex T}
    {s : TimeSlicedPartitioning T} (h : Roomy removed ss idx)
    (hrun : idx.initiatePartitioningRemoval s = .ok idx') :
    Roomy (removed ++ [s]) (kept [s] ss) idx' ∧
      idx'.partitioningBufferSize = idx.partitioningBufferSize := by
  have hdb := initiatePartitioningRemoval_db hrun
  have hroom : (kept [s] ss).length ≤ idx.partitioningBufferSize :=
    (List.length_filter_le _ _).trans h.room
  have hgood : ∀ e ∈ idx.cache.entries, e.1 ≠ s.endTime → e.2.partitioning ∈ kept [s] ss ∧
      e.1 = e.2.partitioning.endTime := by
    intro e he hne
    obtain ⟨hs, hkey⟩ := h.good e he
    refine ⟨mem_kept.mpr ⟨hs, ?_⟩, hkey⟩
    intro r hr
    rw [List.mem_singleton.mp hr, ← hkey]
    exact hne
  unfold initiatePartitioningRemoval at hrun
  rw [key_eq, Except.ok_bind] at hrun
  dsimp only at hrun
  cases hfind : idx.cache.find? s.endTime with
  | none =>
      rw [hfind, Except.pure_eq_ok, Except.ok.injEq] at hrun
      have hstores := h.stores.erase hdb
      rw [← hrun] at hstores ⊢
      refine ⟨⟨hstores, ?_, h.live, h.used, h.own, h.nodes, h.fresh, hroom, ?_⟩, rfl⟩
      · intro e he
        exact hgood e he (ne_iff_lt_or_gt.mpr (SortedMap.find?_eq_none.mp hfind e he))
      · show idx.removedPartitionings ++ [s] = _
        rw [h.removed]
  | some p =>
      have hp : (s.endTime, p) ∈ idx.cache.entries := SortedMap.mem_iff_find?.mpr hfind
      have hlive := h.live _ hp
      rw [hfind] at hrun
      dsimp only at hrun
      unfold eraseNode at hrun
      rw [if_pos hlive, Except.ok_bind, Except.pure_eq_ok, Except.ok.injEq] at hrun
      have hstores := h.stores.erase hdb
      rw [← hrun] at hstores ⊢
      have hnode : ∀ n, n ∈ ((idx.lruList.filter fun node => node.1 ≠ p.iter).map Prod.fst) ↔
          n ∈ idx.lruList.map Prod.fst ∧ n ≠ p.iter := by
        intro n
        simp only [List.mem_map, List.mem_filter, decide_eq_true_eq]
        refine ⟨?_, ?_⟩
        · rintro ⟨node, ⟨hnode, hne⟩, rfl⟩
          exact ⟨⟨node, hnode, rfl⟩, hne⟩
        · rintro ⟨⟨node, hnode, rfl⟩, hne⟩
          exact ⟨node, ⟨hnode, hne⟩, rfl⟩
      have hmem : ∀ e, e ∈ (idx.cache.erase s.endTime).entries ↔
          e ∈ idx.cache.entries ∧ e.1 ≠ s.endTime := fun e => SortedMap.mem_erase_iff
      refine ⟨⟨hstores, ?_, ?_, ?_, ?_, ?_, ?_, hroom, ?_⟩, rfl⟩
      · intro e he
        obtain ⟨he, hne⟩ := (hmem e).mp he
        exact hgood e he hne
      · intro e he
        obtain ⟨he, hne⟩ := (hmem e).mp he
        refine (hnode _).mpr ⟨h.live e he, fun hiter => hne ?_⟩
        rw [h.own e he _ hp hiter]
      · intro n hn
        obtain ⟨hn, hne⟩ := (hnode n).mp hn
        obtain ⟨e, he, hiter⟩ := h.used n hn
        refine ⟨e, (hmem e).mpr ⟨he, fun heq => hne ?_⟩, hiter⟩
        rw [← hiter, SortedMap.eq_of_mem he hp heq.le heq.ge]
      · intro e he e' he'
        exact h.own e ((hmem e).mp he).1 e' ((hmem e').mp he').1
      · exact (List.filter_sublist.map Prod.fst).nodup h.nodes
      · exact fun n hn => h.fresh n ((hnode n).mp hn).1
      · show idx.removedPartitionings ++ [s] = _
        rw [h.removed]

theorem Roomy.initiateAll {T : Type} [LinearOrder T] [Timestamp T]
    {removed ss : List (TimeSlicedPartitioning T)} {idx idx' : PartitionIndex T}
    (l : List (TimeSlicedPartitioning T)) (h : Roomy removed ss idx)
    (hrun : l.foldlM initiatePartitioningRemoval idx = .ok idx') :
    Roomy (removed ++ l) (kept l ss) idx' ∧
      idx'.partitioningBufferSize = idx.partitioningBufferSize := by
  induction l generalizing idx removed ss with
  | nil =>
      rw [List.append_nil, kept_nil, ← Except.ok.inj hrun]
      exact ⟨h, rfl⟩
  | cons s l ih =>
      rw [List.foldlM_cons] at hrun
      obtain ⟨idx₁, hone, hrest⟩ := Except.bind_eq_ok.mp hrun
      obtain ⟨h₁, hsize₁⟩ := h.initiate hone
      obtain ⟨h₂, hsize₂⟩ := ih h₁ hrest
      rw [kept_kept, List.append_assoc] at h₂
      exact ⟨h₂, hsize₂.trans hsize₁⟩

/-! ### Slices that come -/

/-- A slice that can be stored and read again. -/
def Storable (s : TimeSlicedPartitioning T) : Prop :=
  ∀ attributes ∈ s.partitioning, attributes.Nodup ∧ ∀ name ∈ attributes, name.length < 2 ^ 32

theorem addPartitioning_eq_ok {T : Type} [LinearOrder T] [Timestamp T] {idx idx' : PartitionIndex T}
    {s : TimeSlicedPartitioning T} (h : idx.addPartitioning s = .ok idx') :
    ∃ data, s.serialize = .ok data ∧
      idx' = { idx with db := idx.db.insert (timeBytes s.endTime) data } := by
  unfold addPartitioning at h
  rw [key_eq, Except.ok_bind] at h
  obtain ⟨data, hdata, h⟩ := Except.bind_eq_ok.mp h
  exact ⟨data, hdata, (Except.ok.inj h).symm⟩

/-- **A slice that comes is found.** -/
theorem Roomy.add {T : Type} [LinearOrder T] [Timestamp T]
    {removed ss : List (TimeSlicedPartitioning T)} {idx idx' : PartitionIndex T}
    {s : TimeSlicedPartitioning T} (h : Roomy removed ss idx) (hstorable : Storable s)
    (hnew : ∀ s' ∈ ss, s'.endTime ≠ s.endTime) (hroom : ss.length + 1 ≤ idx.partitioningBufferSize)
    (hrun : idx.addPartitioning s = .ok idx') :
    Roomy removed (ss ++ [s]) idx' ∧ idx'.partitioningBufferSize = idx.partitioningBufferSize := by
  obtain ⟨data, hdata, rfl⟩ := addPartitioning_eq_ok hrun
  have hback := (TimeSlicedPartitioning.deserialize_serialize_iff hdata).mpr hstorable
  have hmem : ∀ e, e ∈ (idx.db.insert (timeBytes s.endTime) data).entries ↔
      e = (timeBytes s.endTime, data) ∨ e ∈ idx.db.entries ∧ e.1 ≠ timeBytes s.endTime :=
    fun e => SortedMap.mem_insert_iff
  refine ⟨⟨⟨?_, ?_⟩, ?_, h.live, h.used, h.own, h.nodes, h.fresh, ?_, h.removed⟩, rfl⟩
  · intro e he
    rcases (hmem e).mp he with rfl | ⟨he, -⟩
    · exact ⟨s, List.mem_append_right _ List.mem_cons_self, key_eq _, hback⟩
    · obtain ⟨s', hs', hkey, hdec⟩ := h.stores.entry e he
      exact ⟨s', List.mem_append_left _ hs', hkey, hdec⟩
  · intro s' hs'
    rcases List.mem_append.mp hs' with hs' | hs'
    · obtain ⟨e, he, hkey, hdec⟩ := h.stores.stored s' hs'
      refine ⟨e, (hmem e).mpr (Or.inr ⟨he, fun heq => hnew s' hs' ?_⟩), hkey, hdec⟩
      rw [key_inj hkey] at heq
      exact timeBytes_injective heq
    · rw [List.mem_singleton.mp hs']
      exact ⟨_, (hmem _).mpr (Or.inl rfl), key_eq _, hback⟩
  · intro e he
    obtain ⟨hs, hkey⟩ := h.good e he
    exact ⟨List.mem_append_left _ hs, hkey⟩
  · rw [List.length_append]
    exact hroom

theorem Roomy.addAll {T : Type} [LinearOrder T] [Timestamp T]
    {removed ss : List (TimeSlicedPartitioning T)} {idx idx' : PartitionIndex T}
    (l : List (TimeSlicedPartitioning T)) (h : Roomy removed ss idx)
    (hstorable : ∀ s ∈ l, Storable s) (hends : l.Pairwise fun s s' => s.endTime ≠ s'.endTime)
    (hnew : ∀ s' ∈ ss, ∀ s ∈ l, s'.endTime ≠ s.endTime)
    (hroom : (ss ++ l).length ≤ idx.partitioningBufferSize)
    (hrun : l.foldlM addPartitioning idx = .ok idx') : Roomy removed (ss ++ l) idx' := by
  induction l generalizing idx ss with
  | nil =>
      rw [List.append_nil, ← Except.ok.inj hrun]
      exact h
  | cons s l ih =>
      rw [List.foldlM_cons] at hrun
      obtain ⟨idx₁, hone, hrest⟩ := Except.bind_eq_ok.mp hrun
      obtain ⟨hfirst, hends⟩ := List.pairwise_cons.mp hends
      rw [List.length_append, List.length_cons] at hroom
      obtain ⟨h₁, hsize₁⟩ := h.add (hstorable s List.mem_cons_self)
        (fun s' hs' => hnew s' hs' s List.mem_cons_self) (by omega) hone
      rw [List.append_cons]
      refine ih h₁ (fun s' hs' => hstorable s' (List.mem_cons_of_mem _ hs')) hends ?_ ?_ hrest
      · intro s' hs' s'' hs''
        rcases List.mem_append.mp hs' with hs' | hs'
        · exact hnew s' hs' s'' (List.mem_cons_of_mem _ hs'')
        · rw [List.mem_singleton.mp hs']
          exact hfirst s'' hs''
      · rw [hsize₁]
        simp only [List.length_append, List.length_cons, List.length_nil]
        omega

/-! ### A stretch that is cut up another way -/

/-- The slices after a replacement. -/
def recut (removed added ss : List (TimeSlicedPartitioning T)) : List (TimeSlicedPartitioning T) :=
  kept removed ss ++ added

/-- Slices of the line and others that cover the same stretch. -/
structure Recut (ss removed added : List (TimeSlicedPartitioning T)) (a b : T) : Prop where
  sub : ∀ s ∈ removed, s ∈ ss
  low : Timestamp.negInfinity ≤ a
  high : b ≤ Timestamp.infinity
  goes : Tiles TimeSlicedPartitioning.startTime TimeSlicedPartitioning.endTime {s | s ∈ removed} a b
  comes : Tiles TimeSlicedPartitioning.startTime TimeSlicedPartitioning.endTime {s | s ∈ added} a b
  lastGoes : ∃ s ∈ removed, s.endTime = b
  lastComes : ∃ s ∈ added, s.endTime = b
  ends : added.Pairwise fun s s' => s.endTime < s'.endTime

section Recut

variable {a b : T}

theorem Recut.mem_kept (hl : Timeline ss) (h : Recut ss removed added a b) :
    s ∈ kept removed ss ↔ s ∈ ss ∧ s ∉ removed := by
  rw [PartitionIndex.mem_kept]
  refine and_congr_right fun hs => ⟨fun hne hmem => hne s hmem rfl, ?_⟩
  intro hnot r hr heq
  rw [hl.tiles.eq_of_stop hs (h.sub r hr) heq.le heq.ge] at hnot
  exact hnot hr

/-- The line is tiled again. -/
theorem Recut.timeline (hl : Timeline ss) (h : Recut ss removed added a b)
    (hnonneg : ∀ s ∈ added, BlockTime.zero ≤ s.endTime) : Timeline (recut removed added ss) := by
  refine ⟨?_, ?_⟩
  · have hset : {s | s ∈ recut removed added ss}
        = ({s | s ∈ ss} \ {s | s ∈ removed}) ∪ {s | s ∈ added} := by
      ext s
      exact List.mem_append.trans (or_congr_left (h.mem_kept hl))
    rw [hset]
    exact hl.tiles.exchange h.sub h.goes h.comes h.low h.high
  · intro s hs
    rcases List.mem_append.mp hs with hs | hs
    · exact hl.nonneg s ((h.mem_kept hl).mp hs).1
    · exact hnonneg s hs

/-- A slice that stays has ends of its own. -/
theorem Recut.ends_ne (hl : Timeline ss) (h : Recut ss removed added a b) :
    ∀ s' ∈ kept removed ss, ∀ s ∈ added, s'.endTime ≠ s.endTime := by
  intro s' hs' s hs heq
  obtain ⟨hmem, hnot⟩ := (h.mem_kept hl).mp hs'
  exact hl.tiles.stop_apart h.sub h.goes h.comes ⟨hmem, hnot⟩ hs ⟨heq.le, heq.ge⟩

/-- Outside the stretch a time is in the slice it was in. -/
theorem Recut.inside (hl : Timeline ss) (h : Recut ss removed added a b)
    (hout : ¬ (a ≤ t ∧ t < b)) : Inside ss t s ↔ Inside (recut removed added ss) t s := by
  have hend : ∀ {l : List (TimeSlicedPartitioning T)}, Tiles TimeSlicedPartitioning.startTime
      TimeSlicedPartitioning.endTime {s | s ∈ l} a b → ∀ r ∈ l, r.endTime = t → t = b := by
    intro l htiles r hr heq
    obtain ⟨hstart, hstop⟩ := htiles.within r hr
    rw [heq] at hstop
    refine le_antisymm hstop (not_lt.mp fun hlt => hout ⟨?_, hlt⟩)
    rw [← heq]
    exact hstart.trans (htiles.nonempty r hr).le
  have hnot : ∀ {l : List (TimeSlicedPartitioning T)}, Tiles TimeSlicedPartitioning.startTime
      TimeSlicedPartitioning.endTime {s | s ∈ l} a b → s.startTime ≤ t → t < s.endTime → s ∉ l := by
    intro l htiles hstart hstop hs
    obtain ⟨hlow, hhigh⟩ := htiles.within s hs
    exact hout ⟨hlow.trans hstart, hstop.trans_le hhigh⟩
  refine ⟨?_, ?_⟩
  · intro hin
    refine ⟨List.mem_append_left _ ((h.mem_kept hl).mpr
      ⟨hin.mem, hnot h.goes hin.start hin.stop⟩), hin.start, hin.stop, hin.nonneg, ?_⟩
    intro s' hs' heq
    rcases List.mem_append.mp hs' with hs' | hs'
    · exact hin.inner s' ((h.mem_kept hl).mp hs').1 heq
    · obtain ⟨r, hr, hstop⟩ := h.lastGoes
      exact hin.inner r (h.sub r hr) (hstop.trans (hend h.comes s' hs' heq).symm)
  · intro hin
    have hmem := List.mem_append.mp hin.mem
    refine ⟨((h.mem_kept hl).mp (hmem.resolve_right (hnot h.comes hin.start hin.stop))).1, hin.start,
      hin.stop, hin.nonneg, ?_⟩
    intro s' hs' heq
    by_cases hr : s' ∈ removed
    · obtain ⟨r, hr', hstop⟩ := h.lastComes
      exact hin.inner r (List.mem_append_right _ hr')
        (hstop.trans (hend h.goes s' hr heq).symm)
    · exact hin.inner s' (List.mem_append_left _ ((h.mem_kept hl).mpr ⟨hs', hr⟩)) heq

/-- Outside the stretch nothing changes. -/
theorem Recut.partsOf_eq (hl : Timeline ss) (h : Recut ss removed added a b)
    (hl' : Timeline (recut removed added ss)) (hout : ¬ (a ≤ t ∧ t < b)) :
    partsOf ss t = partsOf (recut removed added ss) t := by
  refine Option.ext fun part => ⟨?_, ?_⟩
  · intro hpart
    obtain ⟨s, hin, rfl⟩ := exists_inside hpart
    exact hl'.partsOf_eq ((h.inside hl hout).mp hin)
  · intro hpart
    obtain ⟨s, hin, rfl⟩ := exists_inside hpart
    exact hl.partsOf_eq ((h.inside hl hout).mpr hin)

/-- **A block is still read by the slice that goes.** -/
theorem Recut.reads [WrittenInOrder T] (hl : Timeline ss) (h : Recut ss removed added a b)
    (hl' : Timeline (recut removed added ss)) (hr : Roomy removed (recut removed added ss) idx)
    (hin : Inside ss t s) :
    ∃ idx', idx.getTimeSlicedPartitioningForBlockDeserialization t = .ok (s, idx') ∧
      Roomy removed (recut removed added ss) idx' := by
  unfold getTimeSlicedPartitioningForBlockDeserialization
  rw [hr.removed]
  cases hfind : removed.find? fun p => p.startTime ≤ t ∧ t < p.endTime with
  | some r =>
      have hbetween := List.find?_some hfind
      rw [decide_eq_true_eq] at hbetween
      have hmem := h.sub r (List.mem_of_find?_eq_some hfind)
      rw [hl.eq_of_inside hin hmem hbetween.1 hbetween.2]
      exact ⟨idx, rfl, hr⟩
  | none =>
      refine hr.lookup hl' ((h.inside hl ?_).mp hin)
      rintro ⟨hlow, hhigh⟩
      obtain ⟨r, hr', h1, h2⟩ := h.goes.cover t hlow hhigh
      have hno := List.find?_eq_none.mp hfind r hr'
      rw [decide_eq_true_eq] at hno
      exact hno ⟨h1, h2⟩

end Recut

/-- Slices over the attributes of the schema. -/
structure Slices (schema : Schema) (ss : List (TimeSlicedPartitioning T)) : Prop where
  timeline : Timeline ss
  storable : ∀ s ∈ ss, Storable s
  names : ∀ s ∈ ss, ∀ attributes ∈ s.partitioning, schema.Has attributes
  covers : ∀ s ∈ ss, AttributeData.Covers schema s.partitioning
  length : ∀ s ∈ ss, s.partitioning.length < 2 ^ 29
  nonempty : ∀ s ∈ ss, s.partitioning ≠ []

theorem Slices.governs [WrittenInOrder T] {schema : Schema} (h : Slices schema ss) :
    Governs schema (Roomy [] ss) (partsOf ss) (fun t => partsOf ss t ≠ none) :=
  PartitionIndex.governs h.timeline h.names fun s hs => (h.length s hs).le.trans (by decide)

/-- **The blocks can be moved from the slices before to those after.** -/
theorem Recut.moves [WrittenInOrder T] {schema : Schema} {a b : T} (hss : Slices schema ss)
    (h : Recut ss removed added a b) (hss' : Slices schema (recut removed added ss)) :
    Moves schema (Roomy removed (recut removed added ss)) (partsOf ss)
      (partsOf (recut removed added ss)) := by
  have hboth : ∀ t part, partsOf ss t = some part ∨ partsOf (recut removed added ss) t = some part →
      ∃ s, (s ∈ ss ∨ s ∈ recut removed added ss) ∧ s.partitioning = part := by
    intro t part hpart
    rcases hpart with hpart | hpart
    · obtain ⟨s, hin, hs⟩ := exists_inside hpart
      exact ⟨s, Or.inl hin.mem, hs⟩
    · obtain ⟨s, hin, hs⟩ := exists_inside hpart
      exact ⟨s, Or.inr hin.mem, hs⟩
  refine ⟨?_, ?_, ?_, ?_, ?_, ?_⟩
  · intro idx t part hr hpart
    obtain ⟨s, hin, hs⟩ := exists_inside hpart
    obtain ⟨idx', hrun, hr'⟩ := h.reads hss.timeline hss'.timeline hr hin
    exact ⟨s, idx', hrun, hs, hr'⟩
  · intro idx t tpart idx' hr hsome hrun
    obtain ⟨part, hpart⟩ := Option.ne_none_iff_exists'.mp hsome
    obtain ⟨s, hin, -⟩ := exists_inside hpart
    obtain ⟨idx'', hrun', hr'⟩ := hr.lookup hss'.timeline hin
    have hsame := hrun.symm.trans hrun'
    rw [Except.ok.injEq, Prod.mk.injEq] at hsame
    rw [hsame.1, hsame.2]
    exact ⟨hss'.timeline.partsOf_eq hin, hr'⟩
  · intro t part hpart
    obtain ⟨s, hs | hs, rfl⟩ := hboth t part hpart
    · exact hss.names s hs
    · exact hss'.names s hs
  · intro t part hpart
    obtain ⟨s, hin, rfl⟩ := exists_inside hpart
    exact hss.covers s hin.mem
  · intro t part hpart
    obtain ⟨s, hs | hs, rfl⟩ := hboth t part hpart
    · exact hss.length s hs
    · exact hss'.length s hs
  · intro t part hpart
    obtain ⟨s, hin, rfl⟩ := exists_inside hpart
    exact hss'.nonempty s hin.mem

/-! ### The calls -/

section Calls

variable {schema : Schema} {g g' : HistoricalGraph (PartitionIndex T) T schema} {a b : T}

/-- The slices whose blocks a call brings up to date. -/
def Replacement.updated : Replacement T → List (TimeSlicedPartitioning T)
  | one _ new => new
  | many old _ => old

/-- Slices in a row cover the stretch from the first to the last. -/
theorem tiles_of_row {T : Type} [LinearOrder T] [Timestamp T] {l : List (TimeSlicedPartitioning T)}
    (hc : contiguous l = true) (hne : ∀ s ∈ l, s.startTime < s.endTime)
    {first last : TimeSlicedPartitioning T} (hfirst : l.head? = some first)
    (hlast : l.getLast? = some last) :
    Tiles TimeSlicedPartitioning.startTime TimeSlicedPartitioning.endTime {s | s ∈ l}
        first.startTime last.endTime ∧ l.Pairwise fun s s' => s.endTime < s'.endTime := by
  have hchain : Contiguous TimeSlicedPartitioning.startTime TimeSlicedPartitioning.endTime l := by
    have hbounds := (contiguous_iff l).mp hc
    unfold Contiguous at hbounds ⊢
    rw [List.isChain_map] at hbounds
    exact hbounds
  exact ⟨hchain.tiles hne hfirst hlast, hchain.pairwise_stop hne⟩

/-- **What a call that returned did**: it put slices in for slices that cover the same stretch, and
brought the blocks of that stretch up to date. -/
theorem Replacement.recut {c : Replacement T} {rtree : RTree T} (hl : Timeline ss)
    (hold : ∀ s ∈ c.old, s ∈ ss) (hne : c.NonEmpty) (hrun : c.run rtree g = .ok () g') :
    ∃ a b, Recut ss c.old c.new a b ∧
      Tiles TimeSlicedPartitioning.startTime TimeSlicedPartitioning.endTime {s | s ∈ c.updated} a b ∧
      (c.updated.Pairwise fun s s' => s.endTime < s'.endTime) ∧
      (replaceSlices rtree c.old c.new c.updated :
        Storage (PartitionIndex T) T schema Unit) g = .ok () g' := by
  cases c with
  | one old new =>
      have hone : (replaceTimeSlicedPartitioning rtree old new :
          Storage (PartitionIndex T) T schema Unit) g = .ok () g' := hrun
      unfold replaceTimeSlicedPartitioning at hone
      cases hcheck : checkReplacement schema old new with
      | some description =>
          rw [hcheck] at hone
          cases hone
      | none =>
          rw [hcheck] at hone
          obtain ⟨first, last, hfirst, hlast, hstart, hend, hchain, -⟩ :=
            checkReplacement_eq_none hcheck
          have hmem : old ∈ ss := hold old List.mem_cons_self
          obtain ⟨hlow, hhigh⟩ := hl.tiles.within old hmem
          obtain ⟨hgoes, -⟩ := tiles_of_row (l := [old]) rfl
            (fun s hs => by rw [List.mem_singleton.mp hs]; exact hl.tiles.nonempty old hmem) rfl rfl
          obtain ⟨hcomes, hends⟩ := tiles_of_row hchain hne hfirst hlast
          have hcomes := hcomes.congr hstart.2 hstart.1 hend.2 hend.1
          exact ⟨old.startTime, old.endTime, ⟨hold, hlow, hhigh, hgoes, hcomes,
            ⟨old, List.mem_cons_self, rfl⟩,
            ⟨last, List.mem_of_getLast? hlast, le_antisymm hend.2 hend.1⟩, hends⟩, hcomes, hends, hone⟩
  | many old new =>
      have hmany : (replaceTimeSlicedPartitionings rtree old new :
          Storage (PartitionIndex T) T schema Unit) g = .ok () g' := hrun
      unfold replaceTimeSlicedPartitionings at hmany
      cases hcheck : checkReplaced schema old new with
      | some description =>
          rw [hcheck] at hmany
          cases hmany
      | none =>
          rw [hcheck] at hmany
          obtain ⟨first, last, hfirst, hlast, hstart, hend, hchain, -⟩ :=
            checkReplaced_eq_none hcheck
          have hne : ∀ s ∈ old, s.startTime < s.endTime :=
            fun s hs => hl.tiles.nonempty s (hold s hs)
          have hmem := List.mem_of_head? hfirst
          obtain ⟨hgoes, hends⟩ := tiles_of_row hchain hne hfirst hlast
          have hgoes := hgoes.congr hstart.1 hstart.2 hend.1 hend.2
          obtain ⟨hfrom, hto⟩ := hgoes.within first hmem
          have hnew : new.startTime < new.endTime :=
            lt_of_le_of_lt hfrom (lt_of_lt_of_le (hne first hmem) hto)
          obtain ⟨hcomes, hnews⟩ := tiles_of_row (l := [new]) rfl
            (fun s hs => by rw [List.mem_singleton.mp hs]; exact hnew) rfl rfl
          refine ⟨new.startTime, new.endTime, ⟨hold, ?_, ?_, hgoes, hcomes,
            ⟨last, List.mem_of_getLast? hlast, le_antisymm hend.1 hend.2⟩,
            ⟨new, List.mem_cons_self, rfl⟩, hnews⟩, hgoes, hends, hmany⟩
          · exact (hl.tiles.within first (hold first hmem)).1.trans hstart.1
          · have hlast := List.mem_of_getLast? hlast
            exact hend.2.trans (hl.tiles.within last (hold last hlast)).2

/-- A slice that can be put in. -/
structure Insertable (schema : Schema) (s : TimeSlicedPartitioning T) : Prop where
  storable : Storable s
  nonneg : BlockTime.zero ≤ s.endTime
  names : ∀ attributes ∈ s.partitioning, schema.Has attributes
  length : s.partitioning.length < 2 ^ 29
  nonempty : s.partitioning ≠ []

/-- With the right count the parts have all attributes. -/
theorem covers_of_count {parting : Partitioning} (hnodup : schema.names.Nodup)
    (hnames : ∀ attributes ∈ parting, schema.Has attributes)
    (hcount : getPartitioningAttributeCount parting = schema.attributes.length) :
    AttributeData.Covers schema parting := by
  have hwithin : Within schema parting := by
    intro name hname
    obtain ⟨attributes, hattributes, hmem⟩ := List.mem_flatten.mp hname
    exact hnames attributes hattributes name hmem
  intro i hi
  have hlt : i < schema.names.length := by
    unfold Schema.names
    rw [List.length_map]
    exact hi
  have hmem := List.getElem_mem hlt
  obtain ⟨attributes, hattributes, hname⟩ :=
    List.mem_flatten.mp ((hwithin.complete hcount _).mpr hmem)
  refine ⟨attributes, hattributes, _, hname, ?_⟩
  unfold Schema.getIndex
  rw [if_pos hmem, hnodup.idxOf_getElem]

/-- The slices after a call that returned. -/
theorem Slices.after {c : Replacement T} {rtree : RTree T} (hss : Slices schema ss)
    (hnodup : schema.names.Nodup) (h : Recut ss c.old c.new a b)
    (hinsert : ∀ s ∈ c.new, Insertable schema s) (hrun : c.run rtree g = .ok () g') :
    Slices schema (recut c.old c.new ss) := by
  obtain ⟨hcount, -⟩ := Replacement.run_ok hrun
  have hcases : ∀ s ∈ recut c.old c.new ss, s ∈ ss ∨ s ∈ c.new := by
    intro s hs
    exact (List.mem_append.mp hs).imp_left fun hs => (PartitionIndex.mem_kept.mp hs).1
  refine ⟨h.timeline hss.timeline fun s hs => (hinsert s hs).nonneg, ?_, ?_, ?_, ?_, ?_⟩
  · intro s hs
    rcases hcases s hs with hs | hs
    · exact hss.storable s hs
    · exact (hinsert s hs).storable
  · intro s hs
    rcases hcases s hs with hs | hs
    · exact hss.names s hs
    · exact (hinsert s hs).names
  · intro s hs
    rcases hcases s hs with hs | hs
    · exact hss.covers s hs
    · exact covers_of_count hnodup (hinsert s hs).names (hcount s hs)
  · intro s hs
    rcases hcases s hs with hs | hs
    · exact hss.length s hs
    · exact (hinsert s hs).length
  · intro s hs
    rcases hcases s hs with hs | hs
    · exact hss.nonempty s hs
    · exact (hinsert s hs).nonempty

/-- The index between the changes of slices and those of blocks. -/
theorem Roomy.enter {c : Replacement T} {idx₁ idx₂ : PartitionIndex T} (hl : Timeline ss)
    (hr : Roomy [] ss idx) (h : Recut ss c.old c.new a b)
    (hinsert : ∀ s ∈ c.new, Insertable schema s)
    (hroom : (recut c.old c.new ss).length ≤ idx.partitioningBufferSize)
    (hremove : c.old.foldlM initiatePartitioningRemoval idx = .ok idx₁)
    (hadd : c.new.foldlM addPartitioning idx₁ = .ok idx₂) :
    Roomy c.old (recut c.old c.new ss) idx₂ := by
  obtain ⟨hr₁, hsize⟩ := hr.initiateAll c.old hremove
  rw [List.nil_append] at hr₁
  refine hr₁.addAll c.new (fun s hs => (hinsert s hs).storable) (h.ends.imp fun hlt => hlt.ne)
    (h.ends_ne hl) ?_ hadd
  rw [hsize]
  exact hroom

theorem Roomy.leave {T : Type} [LinearOrder T] [Timestamp T]
    {removed ss : List (TimeSlicedPartitioning T)} {idx : PartitionIndex T}
    (h : Roomy removed ss idx) : Roomy [] ss idx.completePartitioningRemovals :=
  ⟨⟨h.stores.entry, h.stores.stored⟩, h.good, h.live, h.used, h.own, h.nodes, h.fresh, h.room, rfl⟩

/-! ### The blocks of the slices -/

variable {stored blocks : BlockId → Option (Block T (AttributeData schema))}

/-- Every block that can be read and whose time is in one of the slices has an edge in that slice.
The search for blocks to bring up to date goes by the times of edges. -/
def Anchored (updated : List (TimeSlicedPartitioning T))
    (g : HistoricalGraph (PartitionIndex T) T schema) : Prop :=
  ∀ s ∈ updated, ∀ id block g' t, BlockManager.getBlock id g = .ok block g' →
    block.getPartitioningTimestamp = .ok t → s.startTime ≤ t → t < s.endTime →
    ∃ w, HasEdgeIn (block.neigs.edges w) s.startTime s.endTime

/-- What was stored has the edge. -/
theorem Anchored.atStored {Ok : PartitionIndex T → Prop} {parts : T → Option Partitioning}
    (hanswers : BlockManager.Answers Ok parts) {updated : List (TimeSlicedPartitioning T)}
    (hanch : Anchored updated g) (h : BlockManager.Held Ok parts Block.ComesBack stored g)
    (hroom : 1 ≤ g.bman.blockBufferSize) {id : BlockId} {master : Block T (AttributeData schema)}
    (hmaster : stored id = some master) {s : TimeSlicedPartitioning T} (hs : s ∈ updated)
    (htime : master.getPartitioningTimestamp = .ok t) (hstart : s.startTime ≤ t)
    (hstop : t < s.endTime) : ∃ w, HasEdgeIn (master.neigs.edges w) s.startTime s.endTime := by
  obtain ⟨block, g', hrun, hback, -, -⟩ :=
    BlockManager.getBlock_ok hanswers (fun _ _ hb => hb.id) h hroom hmaster
  have hends : ∀ v, ends (block.neigs.edges v) = ends (master.neigs.edges v) :=
    fun v => Block.ends_of_contents (hback.edges v)
  have htime' : block.getPartitioningTimestamp = .ok t := by
    rw [Block.getPartitioningTimestamp_congr (h.laid hmaster).1 hback.formed hends, htime]
  obtain ⟨w, hw⟩ := hanch s hs id block g' t hrun htime' hstart hstop
  refine ⟨w, ?_⟩
  rw [hasEdgeIn_iff_ends, ← hends, ← hasEdgeIn_iff_ends]
  exact hw

/-- The search for the blocks of a slice finds them. -/
theorem Anchored.met {Ok : PartitionIndex T → Prop} {parts : T → Option Partitioning}
    (hanswers : BlockManager.Answers Ok parts) {updated : List (TimeSlicedPartitioning T)}
    (hanch : Anchored updated g) (h : Files Ok parts stored blocks g)
    (hroom : 1 ≤ g.bman.blockBufferSize) :
    ∀ s ∈ updated, Met blocks g.iqIndex s.startTime s.endTime := by
  rintro s hs e he ⟨block, t, hblock, htime, hstart, hstop⟩
  obtain ⟨block', hblock', happart, -⟩ := h.filed e he
  rw [hblock, Option.some.injEq] at hblock'
  rw [← hblock'] at happart
  obtain ⟨master, -, -, hmaster, -, -, hends, -, -, -⟩ := happart.master
  have htime' : master.getPartitioningTimestamp = .ok t := by
    rw [Block.getPartitioningTimestamp_congr happart.formed (h.held.laid hmaster).1 hends, htime]
  obtain ⟨w, hw⟩ := hanch.atStored hanswers h.held hroom hmaster hs htime' hstart hstop
  rw [hasEdgeIn_iff_ends, hends, ← hasEdgeIn_iff_ends] at hw
  have hne : block.neigs.edges w ≠ [] := by
    obtain ⟨x, hx, -⟩ := hw
    exact List.ne_nil_of_mem hx
  obtain ⟨e', he', hid, hv⟩ := h.listed e he block hblock w hne
  refine ⟨e', he', hid, ?_⟩
  rw [edgesOf_eq (hid ▸ hblock : blocks e'.id = some block), hv]
  exact hw

/-- **A call that returns keeps every block**, unless the ids are used up: what was filed is filed
still, in the parts of the slices after the call. -/
theorem Replacement.files [WrittenInOrder T] {c : Replacement T} {rtree : RTree T}
    (hss : Slices schema ss) (hnodup : schema.names.Nodup) (hold : ∀ s ∈ c.old, s ∈ ss)
    (hne : c.NonEmpty) (hinsert : ∀ s ∈ c.new, Insertable schema s)
    (hsize : (PartitionIndex.recut c.old c.new ss).length ≤ g.partIndex.partitioningBufferSize)
    (hanch : Anchored c.updated g) (h : Files (Roomy [] ss) (partsOf ss) stored blocks g)
    (hroom : 1 ≤ g.bman.blockBufferSize)
    (hblocks : ∀ e ∈ g.iqIndex, ∀ block, blocks e.id = some block → block.ShortTexts ∧
      ∀ t, block.getPartitioningTimestamp = .ok t →
        partsOf (PartitionIndex.recut c.old c.new ss) t ≠ none)
    (hrun : c.run rtree g = .ok () g') :
    2 ^ 64 < g'.metaData.nextBlockId ∨
      ∃ stored', Files (Roomy [] (PartitionIndex.recut c.old c.new ss))
        (partsOf (PartitionIndex.recut c.old c.new ss)) stored' blocks g' ∧ Block.AddsOnly g g' := by
  obtain ⟨a, b, hcut, htiles, hends, hreplace⟩ := c.recut hss.timeline hold hne hrun
  have hss' := hss.after hnodup hcut hinsert hrun
  have hanswers := hss.governs.toAnswers
  have hsame : ∀ t, (∀ s ∈ c.updated, ¬ (s.startTime ≤ t ∧ t < s.endTime)) →
      partsOf ss t = partsOf (PartitionIndex.recut c.old c.new ss) t := by
    intro t hnone
    refine hcut.partsOf_eq hss.timeline hss'.timeline ?_
    rintro ⟨hlow, hhigh⟩
    obtain ⟨s, hs, hbetween⟩ := htiles.cover t hlow hhigh
    exact hnone s hs hbetween
  refine Files.replaceSlices (hcut.moves hss hss') h hroom hblocks ?_
    (fun idx₁ idx₂ hremove hadd =>
      h.held.index.enter hss.timeline hcut hinsert hsize hremove hadd)
    (fun idx hmid => hmid.leave) ?_ (hanch.met hanswers h hroom) hsame hreplace
  · -- A block without edges is in a slice that stays.
    intro id block hblock hnoedge
    obtain ⟨hformed, t, part, htime, hpart, hlaid⟩ := h.held.laid hblock
    refine ⟨hformed, t, part, htime, ?_, hlaid⟩
    rw [← hsame, hpart]
    rintro s hs ⟨hstart, hstop⟩
    obtain ⟨w, x, hx, -⟩ := hanch.atStored hanswers h.held hroom hblock hs htime hstart hstop
    rw [hnoedge w] at hx
    exact List.not_mem_nil hx
  · refine hends.imp_of_mem ?_
    rintro s s' hs hs' hlt t hstart hstop ⟨hstart', hstop'⟩
    have heq := htiles.disjoint s hs s' hs' t hstart hstop hstart' hstop'
    rw [heq] at hlt
    exact lt_irrefl _ hlt

end Calls

end PartitionIndex

end RailwayDB
