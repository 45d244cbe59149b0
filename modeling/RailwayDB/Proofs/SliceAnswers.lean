/-
A partition index that forgets nothing.

With room in the cache for every stored slice no lookup drops one, so every entry keeps
its node and every lookup of a time that ends no slice gives the slice the time is in.
That is what the blocks rely on: a block is split, read and queried by the slice its time
is in, whatever was looked up before.
-/
import RailwayDB.Proofs.FiledBlocks
import RailwayDB.Proofs.PartitionLookup

namespace RailwayDB

namespace PartitionIndex

open NetworkByteBuffer

variable {T : Type} [LinearOrder T] [Timestamp T] [BlockTime T]
  {removed ss : List (TimeSlicedPartitioning T)} {idx idx' : PartitionIndex T} {t : T}
  {s : TimeSlicedPartitioning T}

/-- The slices of the time line, none of which ends before zero. -/
structure Timeline (ss : List (TimeSlicedPartitioning T)) : Prop where
  tiles : Tiles TimeSlicedPartitioning.startTime TimeSlicedPartitioning.endTime {s | s ∈ ss}
    Timestamp.negInfinity Timestamp.infinity
  nonneg : ∀ s ∈ ss, BlockTime.zero ≤ s.endTime

/-- A time from zero on that is in a slice and ends none. -/
structure Inside (ss : List (TimeSlicedPartitioning T)) (t : T) (s : TimeSlicedPartitioning T) :
    Prop where
  mem : s ∈ ss
  start : s.startTime ≤ t
  stop : t < s.endTime
  nonneg : BlockTime.zero ≤ t
  inner : ∀ s' ∈ ss, s'.endTime ≠ t

theorem Timeline.eq_of_inside (hl : Timeline ss) (h : Inside ss t s) {s' : TimeSlicedPartitioning T}
    (hs' : s' ∈ ss) (h1 : s'.startTime ≤ t) (h2 : t < s'.endTime) : s' = s :=
  hl.tiles.disjoint s' hs' s h.mem t h1 h2 h.start h.stop

/-! ### Searching the store -/

section Seek

variable [WrittenInOrder T]

/-- A time in a slice leads to the slice. -/
theorem seekDB_of_inside (hl : Timeline ss) (hst : idx.Stores ss) (h : Inside ss t s) :
    ∃ value, idx.seekDB t = .ok (s.endTime, value) ∧
      TimeSlicedPartitioning.deserialize value .new = .ok s := by
  obtain ⟨c, hc, hck, -⟩ := hst.stored s h.mem
  have hkey : timeBytes t < c.1 := by
    rw [key_inj hck, timeBytes_lt_iff_lt h.nonneg (hl.nonneg s h.mem)]
    exact h.stop
  cases hlb : idx.db.lowerBound (timeBytes t) with
  | nil => exact absurd (SortedMap.lowerBound_eq_nil hlb c hc) (lt_asymm hkey)
  | cons e rest =>
      obtain ⟨he, hke, hleast⟩ := SortedMap.lowerBound_eq_cons hlb
      obtain ⟨s', hs', hek, hdec⟩ := hst.entry e he
      -- The entry found ends no later than the slice of the time, and after the time.
      have hafter : t < s'.endTime := by
        refine lt_of_le_of_ne (not_lt.mp ?_) fun heq => h.inner s' hs' heq.symm
        rw [← timeBytes_lt_iff_lt (hl.nonneg s' hs') h.nonneg, ← key_inj hek]
        exact not_lt.mpr hke
      have hbefore : s'.endTime ≤ s.endTime := by
        rcases hleast c hc hkey.le with heq | hlt
        · have hsame : timeBytes s'.endTime = timeBytes s.endTime := by
            rw [← key_inj hek, ← key_inj hck, heq]
          exact (timeBytes_injective hsame).le
        · rw [key_inj hek, key_inj hck,
            timeBytes_lt_iff_lt (hl.nonneg s' hs') (hl.nonneg s h.mem)] at hlt
          exact hlt.le
      have heq : s' = s := hl.tiles.eq_of_stop hs' h.mem hbefore
        (hl.tiles.stop_le_of_mem h.mem hs' h.start h.stop hafter)
      rw [heq] at hek hdec
      obtain ⟨sb, hget⟩ := getDouble_timeBytes s.endTime
      refine ⟨e.2, ?_, hdec⟩
      have hne : ¬ TimeEq s.endTime t := fun heq => h.inner s h.mem (le_antisymm heq.1 heq.2)
      unfold seekDB
      simp only [key_eq, Except.ok_bind, hlb, key_inj hek, hget, Timestamp.ofBits_toBits, if_neg hne,
        Except.pure_eq_ok]

/-! ### The cache -/

/-- The cache has room for all slices, each entry has a node of its own, and each node an entry.
The slices `removed` are on their way out. -/
structure Roomy (removed ss : List (TimeSlicedPartitioning T)) (idx : PartitionIndex T) : Prop where
  stores : idx.Stores ss
  good : CacheGood ss idx
  live : ∀ e ∈ idx.cache.entries, e.2.iter ∈ idx.lruList.map Prod.fst
  used : ∀ n ∈ idx.lruList.map Prod.fst, ∃ e ∈ idx.cache.entries, e.2.iter = n
  own : ∀ e ∈ idx.cache.entries, ∀ e' ∈ idx.cache.entries, e.2.iter = e'.2.iter → e = e'
  nodes : (idx.lruList.map Prod.fst).Nodup
  fresh : ∀ n ∈ idx.lruList.map Prod.fst, n < idx.nextNode
  room : ss.length ≤ idx.partitioningBufferSize
  removed : idx.removedPartitionings = removed

/-- There are no more nodes than slices. -/
theorem length_lruList_le {T : Type} [LinearOrder T] {ss : List (TimeSlicedPartitioning T)}
    {idx : PartitionIndex T} (hgood : CacheGood ss idx)
    (hused : ∀ n ∈ idx.lruList.map Prod.fst, ∃ e ∈ idx.cache.entries, e.2.iter = n)
    (hnodes : (idx.lruList.map Prod.fst).Nodup) : idx.lruList.length ≤ ss.length := by
  have hentries : (idx.lruList.map Prod.fst).length ≤
      (idx.cache.entries.map fun e => e.2.iter).length := by
    refine (hnodes.subperm ?_).length_le
    intro n hn
    obtain ⟨e, he, hiter⟩ := hused n hn
    exact List.mem_map.mpr ⟨e, he, hiter⟩
  have hslices : (idx.cache.entries.map fun e => e.2.partitioning).length ≤ ss.length := by
    refine (List.Nodup.subperm ?_ ?_).length_le
    · refine List.pairwise_map.mpr (idx.cache.sorted.imp_of_mem ?_)
      intro e e' he he' hlt heq
      rw [(hgood e he).2, (hgood e' he').2, heq] at hlt
      exact lt_irrefl _ hlt
    · intro p hp
      obtain ⟨e, he, heq⟩ := List.mem_map.mp hp
      rw [← heq]
      exact (hgood e he).1
  simp only [List.length_map] at hentries hslices
  exact hentries.trans hslices

theorem Roomy.of_reopen {T : Type} [LinearOrder T] [Timestamp T]
    {removed ss : List (TimeSlicedPartitioning T)} {idx : PartitionIndex T}
    (h : Roomy removed ss idx) {partitioningBufferSize : Nat}
    (hroom : ss.length ≤ partitioningBufferSize) :
    Roomy [] ss (PartitionIndex.reopen partitioningBufferSize idx.edgeSchema idx.db) := by
  refine ⟨⟨h.stores.entry, h.stores.stored⟩, ?_, ?_, ?_, ?_, List.nodup_nil, ?_, hroom, rfl⟩
  · exact fun e he => (List.not_mem_nil he).elim
  · exact fun e he => (List.not_mem_nil he).elim
  · exact fun n hn => (List.not_mem_nil hn).elim
  · exact fun e he => (List.not_mem_nil he).elim
  · exact fun n hn => (List.not_mem_nil hn).elim

/-- The index with a slice cached under a new node, in front of `l`. -/
def pushed (idx : PartitionIndex T) (key time : T) (p : TimeSlicedPartitioning T)
    (l : List (Nat × T)) : PartitionIndex T :=
  { idx with
    lruList := (idx.nextNode, time) :: l
    nextNode := idx.nextNode + 1
    cache := idx.cache.insert key ⟨p, idx.nextNode⟩ }

/-- A slice is cached under its end, and the node its entry had is no longer in the list. -/
theorem Roomy.pushed {T : Type} [LinearOrder T] [Timestamp T]
    {removed ss : List (TimeSlicedPartitioning T)} {idx : PartitionIndex T}
    {s : TimeSlicedPartitioning T} (h : Roomy removed ss idx) {key : T} (time : T) (hs : s ∈ ss)
    (hkey : key = s.endTime) {l : List (Nat × T)} (hsub : l.Sublist idx.lruList)
    (hl : ∀ n ∈ idx.lruList.map Prod.fst, n ∈ l.map Prod.fst ↔
      ∀ e ∈ idx.cache.entries, e.1 = key → e.2.iter ≠ n) :
    Roomy removed ss (idx.pushed key time s l) := by
  have hnodes : ∀ n ∈ l.map Prod.fst, n ∈ idx.lruList.map Prod.fst :=
    fun n hn => (hsub.map Prod.fst).subset hn
  have hmem : ∀ e, e ∈ (idx.pushed key time s l).cache.entries ↔
      e = (key, ⟨s, idx.nextNode⟩) ∨ e ∈ idx.cache.entries ∧ e.1 ≠ key :=
    fun e => SortedMap.mem_insert_iff
  have hnext : ∀ e ∈ idx.cache.entries, e.2.iter ≠ idx.nextNode :=
    fun e he => (h.fresh _ (h.live e he)).ne
  refine ⟨⟨h.stores.entry, h.stores.stored⟩, ?_, ?_, ?_, ?_, ?_, ?_, h.room, h.removed⟩
  · intro e he
    rcases (hmem e).mp he with rfl | ⟨he, -⟩
    · exact ⟨hs, hkey⟩
    · exact h.good e he
  · intro e he
    rcases (hmem e).mp he with rfl | ⟨he, hne⟩
    · exact List.mem_cons_self
    · refine List.mem_cons_of_mem _ ((hl _ (h.live e he)).mpr ?_)
      intro e' he' hkey' hiter
      exact hne (by rw [← h.own e' he' e he hiter, hkey'])
  · intro n hn
    rcases List.mem_cons.mp hn with heq | hn
    · exact ⟨_, (hmem _).mpr (Or.inl rfl), heq.symm⟩
    · obtain ⟨e, he, hiter⟩ := h.used n (hnodes n hn)
      refine ⟨e, (hmem e).mpr (Or.inr ⟨he, fun heq => ?_⟩), hiter⟩
      exact (hl n (hnodes n hn)).mp hn e he heq hiter
  · intro e he e' he' hiter
    rcases (hmem e).mp he with rfl | ⟨he, -⟩
    · rcases (hmem e').mp he' with rfl | ⟨he', -⟩
      · rfl
      · exact absurd hiter.symm (hnext e' he')
    · rcases (hmem e').mp he' with rfl | ⟨he', -⟩
      · exact absurd hiter (hnext e he)
      · exact h.own e he e' he' hiter
  · refine List.nodup_cons.mpr ⟨?_, (hsub.map Prod.fst).nodup h.nodes⟩
    intro hn
    exact lt_irrefl _ (h.fresh _ (hnodes _ hn))
  · intro n hn
    rcases List.mem_cons.mp hn with heq | hn
    · rw [heq]
      exact Nat.lt_succ_self _
    · exact Nat.lt_succ_of_lt (h.fresh n (hnodes n hn))

/-- Moving an entry to the front. -/
theorem Roomy.touch {T : Type} [LinearOrder T] [Timestamp T]
    {removed ss : List (TimeSlicedPartitioning T)} {idx : PartitionIndex T}
    (h : Roomy removed ss idx) {key : T} {p : PartitioningAndIter T}
    (hmem : (key, p) ∈ idx.cache.entries) (time : T) :
    ∃ idx', idx.touch key time p = .ok idx' ∧ Roomy removed ss idx' := by
  have hlive : p.iter ∈ idx.lruList.map Prod.fst := h.live (key, p) hmem
  unfold PartitionIndex.touch
  rw [if_neg (not_not_intro hlive)]
  by_cases hfront : some p.iter ≠ idx.lruList.head?.map Prod.fst
  · rw [if_pos hfront]
    unfold eraseNode
    rw [if_pos hlive]
    obtain ⟨hs, hkey⟩ := h.good (key, p) hmem
    refine ⟨_, rfl, h.pushed time hs hkey List.filter_sublist ?_⟩
    intro n hn
    simp only [List.mem_map, List.mem_filter, decide_eq_true_eq]
    refine ⟨?_, ?_⟩
    · rintro ⟨node, ⟨-, hne⟩, rfl⟩ e he heq hiter
      rw [SortedMap.eq_of_mem he hmem heq.le heq.ge] at hiter
      exact hne hiter.symm
    · intro hall
      obtain ⟨node, hnode, rfl⟩ := List.mem_map.mp hn
      exact ⟨node, ⟨hnode, (hall (key, p) hmem rfl).symm⟩, rfl⟩
  · rw [if_neg hfront]
    exact ⟨idx, rfl, h⟩

/-- A slice whose times miss the cache is not in it. -/
theorem notMem_of_miss {T : Type} [LinearOrder T] [Timestamp T] [BlockTime T]
    {ss : List (TimeSlicedPartitioning T)} {idx : PartitionIndex T} {t : T}
    {s : TimeSlicedPartitioning T} (hl : Timeline ss) (hgood : CacheGood ss idx) (h : Inside ss t s)
    (hmiss : idx.hit? t = none) : ∀ e ∈ idx.cache.entries, e.1 ≠ s.endTime := by
  intro c hc heq
  have htc : t ≤ c.1 := by
    rw [heq]
    exact h.stop.le
  unfold hit? at hmiss
  cases hlb : idx.cache.lowerBound t with
  | nil => exact absurd (SortedMap.lowerBound_eq_nil hlb c hc) (not_lt.mpr htc)
  | cons e rest =>
      obtain ⟨he, hte, hleast⟩ := SortedMap.lowerBound_eq_cons hlb
      obtain ⟨hs', hek⟩ := hgood e he
      have hafter : t < e.2.partitioning.endTime :=
        lt_of_le_of_ne (by rw [← hek]; exact hte) fun heq => h.inner _ hs' heq.symm
      have hbefore : e.2.partitioning.endTime ≤ s.endTime := by
        rw [← hek, ← heq]
        rcases hleast c hc htc with hce | hlt
        · rw [hce]
        · exact hlt.le
      have hsame := hl.tiles.eq_of_stop hs' h.mem hbefore
        (hl.tiles.stop_le_of_mem h.mem hs' h.start h.stop hafter)
      rw [hlb] at hmiss
      simp only [hsame, if_pos (⟨h.start, h.stop⟩ : s.startTime ≤ t ∧ t < s.endTime)] at hmiss
      cases hmiss

/-- **A lookup gives the slice of the time**, and the cache keeps its room. -/
theorem Roomy.lookup (hl : Timeline ss) (hr : Roomy removed ss idx) (h : Inside ss t s) :
    ∃ idx', idx.getTimeSlicedPartitioning t = .ok (s, idx') ∧ Roomy removed ss idx' := by
  rw [getTimeSlicedPartitioning_eq]
  cases hhit : idx.hit? t with
  | some e =>
      obtain ⟨he, h1, h2⟩ := hit?_eq_some hhit
      obtain ⟨idx', htouch, hr'⟩ := hr.touch he t
      have hsame := hl.eq_of_inside h (hr.good e he).1 h1 h2
      refine ⟨idx', ?_, hr'⟩
      simp only [htouch, Except.ok_map, hsame]
  | none =>
      obtain ⟨value, hseek, hdec⟩ := seekDB_of_inside hl hr.stores h
      have hnot := notMem_of_miss hl hr.good h hhit
      have hnone : idx.cache.find? s.endTime = none :=
        SortedMap.find?_eq_none.mpr fun e he => lt_or_gt_of_ne (hnot e he)
      have hread : TimeSlicedPartitioning.deserialize value (idx.target s.endTime) = .ok s := by
        unfold target
        rw [hnone]
        exact hdec
      have hcached : Roomy removed ss (idx.cached s.endTime s) := by
        refine hr.pushed s.endTime h.mem rfl (List.Sublist.refl _) ?_
        intro n hn
        exact ⟨fun _ e he heq => absurd heq (hnot e he), fun _ => hn⟩
      have hroom := (length_lruList_le hcached.good hcached.used hcached.nodes).trans hcached.room
      have hevict : (idx.cached s.endTime s).evict = idx.cached s.endTime s := by
        unfold evict
        rw [if_neg (not_lt.mpr hroom)]
      refine ⟨idx.cached s.endTime s, ?_, hcached⟩
      show idx.fetch t = _
      rw [fetch_eq hseek hread, hevict, find?_cached]

end Seek

/-! ### The partitioning of a time -/

/-- The partitioning in force at a time that ends no slice. -/
def partsOf (ss : List (TimeSlicedPartitioning T)) (t : T) : Option Partitioning :=
  if BlockTime.zero ≤ t ∧ ∀ s ∈ ss, s.endTime ≠ t then
    (ss.find? fun s => s.startTime ≤ t ∧ t < s.endTime).map TimeSlicedPartitioning.partitioning
  else none

theorem exists_inside {T : Type} [LinearOrder T] [BlockTime T]
    {ss : List (TimeSlicedPartitioning T)} {t : T} {part : Partitioning}
    (h : partsOf ss t = some part) :
    ∃ s, Inside ss t s ∧ s.partitioning = part := by
  unfold partsOf at h
  split_ifs at h with ht
  obtain ⟨s, hfind, hpart⟩ := Option.map_eq_some_iff.mp h
  have hin := List.find?_some hfind
  rw [decide_eq_true_eq] at hin
  exact ⟨s, ⟨List.mem_of_find?_eq_some hfind, hin.1, hin.2, ht.1, ht.2⟩, hpart⟩

theorem Timeline.partsOf_eq (hl : Timeline ss) (h : Inside ss t s) :
    partsOf ss t = some s.partitioning := by
  unfold partsOf
  rw [if_pos ⟨h.nonneg, h.inner⟩]
  cases hfind : ss.find? fun s => s.startTime ≤ t ∧ t < s.endTime with
  | none =>
      have hnot := List.find?_eq_none.mp hfind s h.mem
      rw [decide_eq_true_eq] at hnot
      exact absurd ⟨h.start, h.stop⟩ hnot
  | some s' =>
      have hin := List.find?_some hfind
      rw [decide_eq_true_eq] at hin
      rw [hl.eq_of_inside h (List.mem_of_find?_eq_some hfind) hin.1 hin.2]
      rfl

/-- Every time from zero on that is before infinity and ends no slice has a partitioning. -/
theorem Timeline.exists_part (hl : Timeline ss) (hneg : Timestamp.negInfinity ≤ t)
    (hzero : BlockTime.zero ≤ t) (hinf : t < Timestamp.infinity) (hinner : ∀ s ∈ ss, s.endTime ≠ t) :
    partsOf ss t ≠ none := by
  obtain ⟨s, hs, h1, h2⟩ := hl.tiles.cover t hneg hinf
  rw [hl.partsOf_eq ⟨hs, h1, h2, hzero, hinner⟩]
  exact Option.some_ne_none _

/-- **The slices of the index govern its blocks.** -/
theorem governs [WrittenInOrder T] {schema : Schema} (hl : Timeline ss)
    (hnames : ∀ s ∈ ss, ∀ attributes ∈ s.partitioning, schema.Has attributes)
    (hlength : ∀ s ∈ ss, s.partitioning.length ≤ 2 ^ 31) :
    Governs schema (Roomy [] ss) (partsOf ss) (fun t => partsOf ss t ≠ none) := by
  have hlookup : ∀ (idx : PartitionIndex T) t part, Roomy [] ss idx → partsOf ss t = some part →
      ∃ s idx', idx.getTimeSlicedPartitioning t = .ok (s, idx') ∧ Inside ss t s ∧
        s.partitioning = part ∧ Roomy [] ss idx' := by
    intro idx t part hr hpart
    obtain ⟨s, hin, hs⟩ := exists_inside hpart
    obtain ⟨idx', hrun, hr'⟩ := hr.lookup hl hin
    exact ⟨s, idx', hrun, hin, hs, hr'⟩
  refine ⟨⟨⟨?_, ?_⟩, ?_⟩, ?_, ?_, ?_⟩
  · intro idx t part hr hpart
    obtain ⟨s, idx', hrun, -, hs, hr'⟩ := hlookup idx t part hr hpart
    exact ⟨s, idx', hrun, hs, hr'⟩
  · intro idx t part hr hpart
    obtain ⟨s, idx', hrun, -, hs, hr'⟩ := hlookup idx t part hr hpart
    refine ⟨s, idx', ?_, hs, hr'⟩
    show idx.getTimeSlicedPartitioningForBlockDeserialization t = _
    unfold getTimeSlicedPartitioningForBlockDeserialization
    rw [hr.removed]
    exact hrun
  · intro idx t tpart idx' hr hsome hrun t' part' hstart hstop hpart'
    obtain ⟨part, hpart⟩ := Option.ne_none_iff_exists'.mp hsome
    obtain ⟨s, idx'', hrun', hin, -, -⟩ := hlookup idx t part hr hpart
    have hboth := hrun.symm.trans hrun'
    rw [Except.ok.injEq, Prod.mk.injEq] at hboth
    obtain ⟨s', hin', hs'⟩ := exists_inside hpart'
    rw [hboth.1] at hstart hstop ⊢
    rw [hl.eq_of_inside hin' hin.mem hstart hstop]
    exact hs'
  · intro idx t tpart idx' hr hsome hrun
    obtain ⟨part, hpart⟩ := Option.ne_none_iff_exists'.mp hsome
    obtain ⟨s, idx'', hrun', -, hs, -⟩ := hlookup idx t part hr hpart
    have hboth := hrun.symm.trans hrun'
    rw [Except.ok.injEq, Prod.mk.injEq] at hboth
    rw [hboth.1, hs]
    exact hpart
  · intro t part hpart
    obtain ⟨s, hin, rfl⟩ := exists_inside hpart
    exact hnames s hin.mem
  · intro t part hpart
    obtain ⟨s, hin, rfl⟩ := exists_inside hpart
    exact hlength s hin.mem

end PartitionIndex

end RailwayDB
