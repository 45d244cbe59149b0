/-
The cache of slices and its list.

The list of recent lookups and the cache belong to each other while every lookup finds
its slice either at the front of the list or not cached at all.  Two kinds of lookup
part them.  A slice that is cached and not at the front is moved there under the time
that was sought, so the list has a time that is no key.  And where a slice has been
removed, a lookup stops at the next one; when that is cached already, its end is put
into the list a second time.

A lookup that throws does so before it changes anything.
-/
import RailwayDB.Lib.LruList
import RailwayDB.Proofs.PartitionHistory

namespace RailwayDB.PartitionIndex

open NetworkByteBuffer

variable {T : Type} [Preorder T] [Timestamp T]

/-- The list has the keys of the cache, each once, each entry points at the node with its own key,
and there are no more nodes than there is room for. -/
structure LruOK (idx : PartitionIndex T) : Prop where
  once : (idx.lruList.map Prod.snd).Nodup
  keys : ∀ t, t ∈ idx.lruList.map Prod.snd ↔ t ∈ idx.cache.entries.map Prod.fst
  own : ∀ e ∈ idx.cache.entries, (e.2.iter, e.1) ∈ idx.lruList
  bound : idx.lruList.length ≤ idx.partitioningBufferSize

/-- The node that an eviction pops is that of the entry it drops. -/
def EvictsOwn (idx : PartitionIndex T) : Prop :=
  ∀ p ∈ idx.lruList.getLast?, ∃ entry, (p.2, entry) ∈ idx.cache.entries ∧ entry.iter = p.1

/-- No two nodes of the list have one number, and none has the next. -/
structure Numbered (idx : PartitionIndex T) : Prop where
  nodes : (idx.lruList.map Prod.fst).Nodup
  fresh : ∀ p ∈ idx.lruList, p.1 < idx.nextNode

theorem LruOK.evictsOwn {T : Type} [Preorder T] {idx : PartitionIndex T} (h : LruOK idx) :
    EvictsOwn idx := by
  intro p hp
  have hmem : p ∈ idx.lruList := List.mem_of_getLast? hp
  obtain ⟨e, he, hkey⟩ := List.mem_map.mp ((h.keys p.2).mp (List.mem_map_of_mem hmem))
  have heq := List.inj_on_of_nodup_map h.once (h.own e he) hmem hkey
  refine ⟨e.2, by rw [← hkey]; exact he, ?_⟩
  rw [← heq]

/-! ### Iterators -/

section Iterators

variable [DecidableEq T]

/-- The iterator of the entry under a key. -/
def iterIn (m : SortedMap T (PartitioningAndIter T)) (k : T) : Option Nat :=
  (m.entries.find? fun e => decide (e.1 = k)).map fun e => e.2.iter

theorem iterIn_eq_some {T : Type} [Preorder T] [DecidableEq T]
    {m : SortedMap T (PartitioningAndIter T)} {k : T} {n : Nat} :
    iterIn m k = some n ↔ ∃ p, (k, p) ∈ m.entries ∧ p.iter = n := by
  unfold iterIn
  rw [Option.map_eq_some_iff]
  refine ⟨?_, ?_⟩
  · rintro ⟨e, hfind, hiter⟩
    have hkey : e.1 = k := by simpa using List.find?_some hfind
    exact ⟨e.2, by rw [← hkey]; exact List.mem_of_find?_eq_some hfind, hiter⟩
  · rintro ⟨p, hmem, hiter⟩
    obtain ⟨e, hfind⟩ := Option.isSome_iff_exists.mp
      (List.find?_isSome (p := fun e => decide (e.1 = k)).mpr ⟨(k, p), hmem, by simp⟩)
    have hkey : e.1 = k := by simpa using List.find?_some hfind
    have heq : e = (k, p) := SortedMap.eq_of_mem (List.mem_of_find?_eq_some hfind) hmem
      (le_of_eq hkey) (le_of_eq hkey.symm)
    refine ⟨e, hfind, ?_⟩
    rw [heq]
    exact hiter

/-- For numbered nodes the invariant is that list and iterators belong to each other. -/
theorem lruOK_iff_points {T : Type} [Preorder T] [DecidableEq T]
    {idx : PartitionIndex T} (hn : Numbered idx) :
    LruOK idx ↔ Points idx.lruList idx.nextNode (iterIn idx.cache) ∧
      idx.lruList.length ≤ idx.partitioningBufferSize := by
  refine ⟨?_, ?_⟩
  · intro h
    refine ⟨⟨hn.nodes, hn.fresh, h.once, ?_⟩, h.bound⟩
    intro k n
    rw [iterIn_eq_some]
    refine ⟨?_, ?_⟩
    · rintro ⟨p, hp, hiter⟩
      rw [← hiter]
      exact h.own (k, p) hp
    · intro hmem
      obtain ⟨e, he, hkey⟩ := List.mem_map.mp ((h.keys k).mp (List.mem_map_of_mem hmem))
      have hkey' : e.1 = k := hkey
      have heq := List.inj_on_of_nodup_map h.once (h.own e he) hmem hkey'
      exact ⟨e.2, by rw [← hkey']; exact he, (Prod.mk.inj heq).1⟩
  · rintro ⟨hp, hbound⟩
    refine ⟨hp.once, ?_, ?_, hbound⟩
    · intro t
      rw [hp.mem_keys, Option.ne_none_iff_exists', List.mem_map]
      refine ⟨?_, ?_⟩
      · rintro ⟨n, hn⟩
        obtain ⟨p, hmem, -⟩ := iterIn_eq_some.mp hn
        exact ⟨(t, p), hmem, rfl⟩
      · rintro ⟨e, he, hkey⟩
        exact ⟨e.2.iter, iterIn_eq_some.mpr ⟨e.2, by rw [← hkey]; exact he, rfl⟩⟩
    · intro e he
      exact (hp.own e.1 e.2.iter).mp (iterIn_eq_some.mpr ⟨e.2, he, rfl⟩)

variable [DecidableLE T] [DecidableLT T] [@Std.Total T (· ≤ ·)]

theorem iterIn_insert {T : Type} [Preorder T] [DecidableEq T] [DecidableLT T]
    [@Std.Total T (· ≤ ·)] {m : SortedMap T (PartitioningAndIter T)} {k : T}
    (hnone : m.find? k = none) (v : PartitioningAndIter T) :
    iterIn (m.insert k v) = Function.update (iterIn m) k (some v.iter) := by
  have hapart := SortedMap.find?_eq_none.mp hnone
  funext k'
  refine Option.ext fun n => ?_
  rw [iterIn_eq_some]
  by_cases hk : k' = k
  · rw [hk, Function.update_self, Option.some.injEq]
    refine ⟨?_, ?_⟩
    · rintro ⟨p, hmem, hiter⟩
      rcases SortedMap.mem_insert.mp hmem with ⟨-, hlt | hlt⟩ | ⟨hval, -⟩
      · exact absurd hlt (lt_irrefl k)
      · exact absurd hlt (lt_irrefl k)
      · rw [← hiter, ← hval]
    · intro hiter
      exact ⟨v, SortedMap.mem_insert.mpr (Or.inr ⟨rfl, Or.inr ⟨rfl, hnone⟩⟩), hiter⟩
  · rw [Function.update_of_ne hk, iterIn_eq_some]
    refine exists_congr fun p => and_congr_left fun _ => ?_
    rw [SortedMap.mem_insert]
    refine ⟨?_, ?_⟩
    · rintro (⟨hmem, -⟩ | ⟨-, ⟨⟨v', hmem⟩, hle, hge⟩ | ⟨heq, -⟩⟩)
      · exact hmem
      · rcases hapart _ hmem with hlt | hlt
        · exact absurd hlt (not_lt_of_ge hle)
        · exact absurd hlt (not_lt_of_ge hge)
      · exact absurd heq hk
    · intro hmem
      exact Or.inl ⟨hmem, hapart _ hmem⟩

theorem iterIn_erase {T : Type} [Preorder T] [DecidableEq T] [DecidableLT T]
    [@Std.Total T (· ≤ ·)] {m : SortedMap T (PartitioningAndIter T)} {k t : T}
    {p : PartitioningAndIter T} (hmem : (k, p) ∈ m.entries) (heq : TimeEq k t) :
    iterIn (m.erase t) = Function.update (iterIn m) k none := by
  funext k'
  refine Option.ext fun n => ?_
  rw [iterIn_eq_some]
  by_cases hk : k' = k
  · rw [hk, Function.update_self]
    refine ⟨?_, fun h => nomatch h⟩
    rintro ⟨q, hq, -⟩
    rcases (SortedMap.mem_erase.mp hq).2 with hlt | hlt
    · exact absurd hlt (not_lt_of_ge heq.2)
    · exact absurd hlt (not_lt_of_ge heq.1)
  · rw [Function.update_of_ne hk, iterIn_eq_some]
    refine exists_congr fun q => and_congr_left fun _ => ?_
    rw [SortedMap.mem_erase]
    refine ⟨fun h => h.1, fun hq => ⟨hq, ?_⟩⟩
    apply SortedMap.lt_or_gt_of_not_equiv
    intro hequiv
    have hsame := SortedMap.eq_of_mem hq hmem (le_trans hequiv.1 heq.2) (le_trans heq.1 hequiv.2)
    exact hk (Prod.mk.inj hsame).1

end Iterators

/-! ### One call -/

section Calls

variable [DecidableLE T] [DecidableLT T]

/-- The calls that read or change the cache. -/
inductive CacheCall (T : Type) where
  | lookup (time : T)
  | remove (partitioning : TimeSlicedPartitioning T)
  | complete

namespace CacheCall

/-- The index after a call.  A lookup that throws leaves it as it was. -/
def run (idx : PartitionIndex T) : CacheCall T → Except Fault (PartitionIndex T)
  | lookup time =>
      match idx.getTimeSlicedPartitioning time with
      | .ok (_, idx) => .ok idx
      | .error fault => if fault.isException then .ok idx else .error fault
  | remove partitioning => idx.initiatePartitioningRemoval partitioning
  | complete => .ok idx.completePartitioningRemovals

/-- A lookup is at no end of a slice. -/
def Inner (ss : List (TimeSlicedPartitioning T)) : CacheCall T → Prop
  | lookup time => ∀ s ∈ ss, ¬ TimeEq s.endTime time
  | _ => True

/-- A lookup finds its slice at the front of the list, or not in the cache. -/
def Fine (idx : PartitionIndex T) : CacheCall T → Prop
  | lookup time =>
      match idx.hit? time with
      | some e => idx.lruList.head?.map Prod.fst = some e.2.iter
      | none => ∀ found ∈ (idx.seekDB time).toOption, idx.cache.find? found.1 = none
  | _ => True

variable {idx idx' : PartitionIndex T} {time : T}

theorem run_lookup_ok {s : TimeSlicedPartitioning T}
    (h : idx.getTimeSlicedPartitioning time = .ok (s, idx')) :
    (lookup time).run idx = .ok idx' := by
  unfold run
  simp only [h]

theorem run_lookup_error {fault : Fault}
    (h : idx.getTimeSlicedPartitioning time = .error fault) :
    (lookup time).run idx = if fault.isException then .ok idx else .error fault := by
  unfold run
  simp only [h]

theorem fine_hit {e : T × PartitioningAndIter T} (h : idx.hit? time = some e) :
    (lookup time).Fine idx ↔ idx.lruList.head?.map Prod.fst = some e.2.iter := by
  unfold Fine
  simp only [h]

theorem fine_miss (h : idx.hit? time = none) :
    (lookup time).Fine idx ↔
      ∀ found ∈ (idx.seekDB time).toOption, idx.cache.find? found.1 = none := by
  unfold Fine
  simp only [h]

instance decidableFine (idx : PartitionIndex T) : (c : CacheCall T) → Decidable (c.Fine idx)
  | lookup time =>
      match h : idx.hit? time with
      | some _ => decidable_of_iff _ (fine_hit h).symm
      | none => decidable_of_iff _ (fine_miss h).symm
  | remove _ => isTrue trivial
  | complete => isTrue trivial

end CacheCall

/-- What every call keeps, whatever it finds. -/
structure Kept (ss : List (TimeSlicedPartitioning T)) (idx : PartitionIndex T) : Prop where
  numbered : Numbered idx
  stored : ∀ e ∈ idx.db.entries, ∃ s ∈ ss, PartitionIndex.key s.endTime = .ok e.1 ∧
    TimeSlicedPartitioning.deserialize e.2 .new = .ok s
  cached : ∀ e ∈ idx.cache.entries, ∃ s ∈ ss, e.1 = s.endTime
  room : 1 ≤ idx.partitioningBufferSize

variable {ss : List (TimeSlicedPartitioning T)} {idx idx' : PartitionIndex T} {time : T}

/-- Away from the ends, the store has the slice `Seek` stops at, or the lookup throws. -/
theorem Kept.seekDB_cases {T : Type} [Preorder T] [Timestamp T] [DecidableLE T]
    {ss : List (TimeSlicedPartitioning T)} {idx : PartitionIndex T} {time : T} (h : Kept ss idx)
    (hinner : ∀ s ∈ ss, ¬ TimeEq s.endTime time) :
    (∃ s ∈ ss, ∃ value, idx.seekDB time = .ok (s.endTime, value) ∧
      TimeSlicedPartitioning.deserialize value .new = .ok s) ∨
    idx.seekDB time = .error .timeSlicedPartitionNotFound := by
  unfold seekDB
  rw [key_eq, Except.ok_bind]
  cases hl : idx.db.lowerBound (timeBytes time) with
  | nil => exact Or.inr rfl
  | cons e rest =>
      have hmem : e ∈ idx.db.entries := by
        have hin : e ∈ idx.db.lowerBound (timeBytes time) := by
          rw [hl]
          exact List.mem_cons_self
        exact List.dropWhile_subset _ hin
      obtain ⟨s, hs, hkey, hread⟩ := h.stored e hmem
      obtain ⟨sb, hbits⟩ := getDouble_timeBytes s.endTime
      refine Or.inl ⟨s, hs, e.2, ?_, hread⟩
      show ((ofBytes e.1).getDouble >>= _) = _
      rw [key_inj hkey, hbits, Except.ok_bind]
      simp only [Timestamp.ofBits_toBits]
      rw [if_neg (hinner s hs)]
      rfl

/-! ### What the list and the iterators go through -/

section Steps

variable [DecidableEq T] [@Std.Total T (· ≤ ·)]

theorem points_evict {T : Type} [Preorder T] [DecidableEq T] [DecidableLT T]
    [@Std.Total T (· ≤ ·)] {idx : PartitionIndex T}
    (h : Points idx.lruList idx.nextNode (iterIn idx.cache)) :
    Points idx.evict.lruList idx.evict.nextNode (iterIn idx.evict.cache) := by
  unfold evict
  split_ifs with hover
  · cases hl : idx.lruList.getLast? with
    | none => exact h
    | some node =>
        obtain ⟨p, hmem, -⟩ := iterIn_eq_some.mp
          ((h.own node.2 node.1).mpr (List.mem_of_getLast? hl))
        have hdrop := h.dropLast hl
        rw [← iterIn_erase hmem ⟨le_refl _, le_refl _⟩] at hdrop
        exact hdrop
  · exact h

theorem length_evict {T : Type} [Preorder T] [DecidableLT T] {idx : PartitionIndex T}
    (h : idx.lruList.length ≤ idx.partitioningBufferSize + 1) :
    idx.evict.lruList.length ≤ idx.evict.partitioningBufferSize := by
  unfold evict
  split_ifs with hover
  · cases hl : idx.lruList.getLast? with
    | none =>
        rw [List.getLast?_eq_none_iff] at hl
        simp [hl] at hover
    | some node =>
        show idx.lruList.dropLast.length ≤ idx.partitioningBufferSize
        rw [List.length_dropLast]
        omega
  · exact not_lt.mp hover

theorem evict_partitioningBufferSize {T : Type} [Preorder T] [DecidableLT T]
    (idx : PartitionIndex T) :
    idx.evict.partitioningBufferSize = idx.partitioningBufferSize := by
  unfold evict
  split_ifs with hover
  · cases hl : idx.lruList.getLast? with
    | none => rfl
    | some node => rfl
  · rfl

/-- No node of the list has a time that is not cached. -/
theorem LruOK.not_victim {T : Type} [Preorder T] [DecidableLT T] [@Std.Total T (· ≤ ·)]
    {idx : PartitionIndex T} (h : LruOK idx) (hroom : 1 ≤ idx.partitioningBufferSize) {e : T}
    (hnone : idx.cache.find? e = none) : ¬ idx.Victim e := by
  rintro ⟨hfull, hlast⟩
  cases hl : idx.lruList.getLast? with
  | none =>
      rw [List.getLast?_eq_none_iff] at hl
      rw [hl] at hfull
      exact hfull hroom
  | some node =>
      have hkey := (h.keys node.2).mp (List.mem_map_of_mem (List.mem_of_getLast? hl))
      obtain ⟨c, hc, hkc⟩ := List.mem_map.mp hkey
      have heq := hlast node hl
      rcases SortedMap.find?_eq_none.mp hnone c hc with hlt | hlt
      · rw [hkc] at hlt
        exact not_lt_of_ge heq.2 hlt
      · rw [hkc] at hlt
        exact not_lt_of_ge heq.1 hlt

/-- A slice that is not cached goes to the front, and the oldest one may go. -/
theorem Kept.fetched {T : Type} [Preorder T] [Timestamp T] [DecidableEq T] [DecidableLT T]
    [@Std.Total T (· ≤ ·)] {ss : List (TimeSlicedPartitioning T)} {idx : PartitionIndex T}
    (hk : Kept ss idx) (h : LruOK idx) {s : TimeSlicedPartitioning T}
    (hs : s ∈ ss) (hnone : idx.cache.find? s.endTime = none) :
    Kept ss (idx.cached s.endTime s).evict ∧ LruOK (idx.cached s.endTime s).evict := by
  have hpoints := ((lruOK_iff_points hk.numbered).mp h).1
  have hkey : iterIn idx.cache s.endTime = none := by
    rw [Option.eq_none_iff_forall_ne_some]
    intro n hn
    obtain ⟨p, hmem, -⟩ := iterIn_eq_some.mp hn
    rcases SortedMap.find?_eq_none.mp hnone _ hmem with hlt | hlt
    · exact lt_irrefl _ hlt
    · exact lt_irrefl _ hlt
  have hpush := hpoints.push hkey
  rw [← iterIn_insert hnone ⟨s, idx.nextNode⟩] at hpush
  have hevict : Points (idx.cached s.endTime s).evict.lruList _ _ := points_evict hpush
  have hlength : (idx.cached s.endTime s).evict.lruList.length ≤
      (idx.cached s.endTime s).evict.partitioningBufferSize :=
    length_evict (Nat.succ_le_succ h.bound)
  have hnum : Numbered (idx.cached s.endTime s).evict := ⟨hevict.nodes, hevict.fresh⟩
  refine ⟨⟨hnum, ?_, ?_, ?_⟩, (lruOK_iff_points hnum).mpr ⟨hevict, hlength⟩⟩
  · rw [evict_db]
    exact hk.stored
  · intro d hd
    rcases SortedMap.mem_insert.mp (mem_evict_cache hd) with
      ⟨hd, -⟩ | ⟨-, ⟨⟨v, hmem⟩, hle, hge⟩ | ⟨heq, -⟩⟩
    · exact hk.cached d hd
    · exact hk.cached (d.1, v) hmem
    · exact ⟨s, hs, heq⟩
  · rw [evict_partitioningBufferSize]
    exact hk.room

/-- A removal takes the entry and its own node. -/
theorem Kept.removed {T : Type} [Preorder T] [Timestamp T] [DecidableEq T] [DecidableLT T]
    [@Std.Total T (· ≤ ·)] {ss : List (TimeSlicedPartitioning T)} {idx : PartitionIndex T}
    (hk : Kept ss idx) (h : LruOK idx) (s : TimeSlicedPartitioning T) :
    ∃ idx', idx.initiatePartitioningRemoval s = .ok idx' ∧ Kept ss idx' ∧ LruOK idx' := by
  unfold initiatePartitioningRemoval
  rw [key_eq, Except.ok_bind]
  have hstored : ∀ e ∈ (idx.db.erase (timeBytes s.endTime)).entries, ∃ s ∈ ss,
      PartitionIndex.key s.endTime = .ok e.1 ∧
        TimeSlicedPartitioning.deserialize e.2 .new = .ok s :=
    fun e he => hk.stored e (SortedMap.mem_erase.mp he).1
  cases hfind : idx.cache.find? s.endTime with
  | none =>
      simp only [hfind]
      exact ⟨_, rfl, ⟨⟨hk.numbered.nodes, hk.numbered.fresh⟩, hstored, hk.cached, hk.room⟩,
        ⟨h.once, h.keys, h.own, h.bound⟩⟩
  | some p =>
      simp only [hfind]
      obtain ⟨k, hmem, hle, hge⟩ := SortedMap.find?_eq_some.mp hfind
      have hnode : p.iter ∈ idx.lruList.map Prod.fst := List.mem_map_of_mem (h.own (k, p) hmem)
      unfold eraseNode
      rw [if_pos hnode]
      refine ⟨_, rfl, ?_⟩
      have hpoints := ((lruOK_iff_points hk.numbered).mp h).1
      have herase := hpoints.erase (iterIn_eq_some.mpr ⟨p, hmem, rfl⟩)
      rw [← iterIn_erase hmem ⟨hge, hle⟩] at herase
      have hnum : Numbered { idx with
          removedPartitionings := idx.removedPartitionings ++ [s]
          db := idx.db.erase (timeBytes s.endTime)
          lruList := idx.lruList.filter fun node => node.1 ≠ p.iter
          cache := idx.cache.erase s.endTime } := ⟨herase.nodes, herase.fresh⟩
      refine ⟨⟨hnum, hstored, ?_, hk.room⟩, (lruOK_iff_points hnum).mpr ⟨herase, ?_⟩⟩
      · intro d hd
        exact hk.cached d (SortedMap.mem_erase.mp hd).1
      · exact le_trans (List.length_filter_le _ _) h.bound

/-- A call that is fine where it is taken keeps the invariant. -/
theorem Kept.run_fine (hk : Kept ss idx) (h : LruOK idx) {c : CacheCall T} (hinner : c.Inner ss)
    (hfine : c.Fine idx) : ∃ idx', c.run idx = .ok idx' ∧ Kept ss idx' ∧ LruOK idx' := by
  cases c with
  | lookup time =>
      have heq := getTimeSlicedPartitioning_eq idx time
      cases hhit : idx.hit? time with
      | some e =>
          have hfront := (CacheCall.fine_hit hhit).mp hfine
          have hlive : e.2.iter ∈ idx.lruList.map Prod.fst :=
            List.mem_map_of_mem (h.own e (hit?_eq_some hhit).1)
          refine ⟨idx, CacheCall.run_lookup_ok (s := e.2.partitioning) ?_, hk, h⟩
          simp only [heq, hhit, touch, if_neg (not_not_intro hlive),
            if_neg (not_not_intro hfront.symm)]
          rfl
      | none =>
          rw [hhit] at heq
          have hfresh := (CacheCall.fine_miss hhit).mp hfine
          rcases hk.seekDB_cases hinner with ⟨s, hs, value, hseek, hread⟩ | hseek
          · have hnone : idx.cache.find? s.endTime = none := by
              rw [hseek] at hfresh
              exact hfresh _ rfl
            have hread' : TimeSlicedPartitioning.deserialize value (idx.target s.endTime)
                = .ok s := by
              unfold target
              rw [hnone]
              exact hread
            refine ⟨(idx.cached s.endTime s).evict, CacheCall.run_lookup_ok (s := s) ?_,
              hk.fetched h hs hnone⟩
            rcases evict_cached idx s.endTime s with ⟨hv, -⟩ | ⟨-, hf⟩
            · exact absurd hv (h.not_victim hk.room hnone)
            · simp only [heq, fetch_eq hseek hread', hf]
          · refine ⟨idx, ?_, hk, h⟩
            have herror : idx.getTimeSlicedPartitioning time
                = .error .timeSlicedPartitionNotFound := by
              simp only [heq, fetch, hseek, Except.error_bind]
            rw [CacheCall.run_lookup_error herror]
            rfl
  | remove s => exact hk.removed h s
  | complete =>
      exact ⟨_, rfl, ⟨⟨hk.numbered.nodes, hk.numbered.fresh⟩, hk.stored, hk.cached, hk.room⟩,
        ⟨h.once, h.keys, h.own, h.bound⟩⟩

/-- The time that was sought is in the list after a hit behind the front, and is no key. -/
theorem Kept.not_lruOK_touch {T : Type} [Preorder T] [Timestamp T] [DecidableLE T] [DecidableLT T]
    [@Std.Total T (· ≤ ·)] {ss : List (TimeSlicedPartitioning T)} {idx idx' : PartitionIndex T}
    {time : T} (hk : Kept ss idx) {e : T × PartitioningAndIter T}
    (hmem : e ∈ idx.cache.entries) (hinner : ∀ s ∈ ss, ¬ TimeEq s.endTime time)
    (hback : idx.lruList.head?.map Prod.fst ≠ some e.2.iter)
    (htouch : idx.touch e.1 time e.2 = .ok idx') : ¬ LruOK idx' := by
  intro h'
  by_cases hlive : e.2.iter ∈ idx.lruList.map Prod.fst
  · have hcached : ∀ d ∈ idx'.cache.entries, ∃ s ∈ ss, d.1 = s.endTime := by
      obtain ⟨idx₂, htouch₂, -, hcache⟩ := touch_ok time hmem hlive
      rw [htouch, Except.ok.injEq] at htouch₂
      rw [htouch₂]
      intro d hd
      obtain ⟨c, hc, hkey, -⟩ := hcache d hd
      rw [hkey]
      exact hk.cached c hc
    have hlist : time ∈ idx'.lruList.map Prod.snd := by
      simp only [touch, if_neg (not_not_intro hlive), if_pos hback.symm, eraseNode, if_pos hlive]
        at htouch
      rw [← Except.ok.inj htouch]
      exact List.mem_cons_self
    obtain ⟨d, hd, hkey⟩ := List.mem_map.mp ((h'.keys time).mp hlist)
    obtain ⟨s, hs, hend⟩ := hcached d hd
    have heq : s.endTime = time := by rw [← hend, hkey]
    exact hinner s hs ⟨le_of_eq heq, le_of_eq heq.symm⟩
  · rw [touch_dangling hlive] at htouch
    simp at htouch

/-- The new node is in front and an old one that was not the oldest is behind it. -/
theorem lruList_evict_cached {T : Type} [Preorder T] [DecidableLT T] {idx : PartitionIndex T}
    {e : T} {p : TimeSlicedPartitioning T} (hv : ¬ idx.Victim e)
    {node : Nat × T} (hnode : node ∈ idx.lruList) (heq : TimeEq node.2 e) :
    ∃ l, (idx.cached e p).evict.lruList = (idx.nextNode, e) :: l ∧ node ∈ l := by
  by_cases hroom : idx.lruList.length < idx.partitioningBufferSize
  · refine ⟨idx.lruList, ?_, hnode⟩
    unfold evict
    rw [if_neg]
    · rfl
    · show ¬ idx.partitioningBufferSize < idx.lruList.length + 1
      omega
  · have hne : idx.lruList ≠ [] := List.ne_nil_of_mem hnode
    have hlast := List.getLast?_eq_some_getLast hne
    refine ⟨idx.lruList.dropLast, ?_, ?_⟩
    · unfold evict
      have hover : (idx.cached e p).partitioningBufferSize < (idx.cached e p).lruList.length := by
        show idx.partitioningBufferSize < idx.lruList.length + 1
        omega
      have hback : (idx.cached e p).lruList.getLast? = some (idx.lruList.getLast hne) := by
        show ((idx.nextNode, e) :: idx.lruList).getLast? = _
        rw [List.getLast?_cons, hlast]
        rfl
      rw [if_pos hover, hback]
      exact List.dropLast_cons_of_ne_nil hne
    · rw [← List.dropLast_concat_getLast hne, List.mem_append, List.mem_singleton] at hnode
      rcases hnode with hnode | hnode
      · exact hnode
      · rw [hnode] at heq
        refine absurd ⟨hroom, ?_⟩ hv
        rw [hlast]
        rintro _ ⟨⟩
        exact heq

/-- A slice that is cached already is in the list a second time. -/
theorem not_lruOK_cached {T : Type} [Preorder T] [DecidableLT T] [@Std.Total T (· ≤ ·)]
    {idx : PartitionIndex T} (h : LruOK idx) {e : T} (p : TimeSlicedPartitioning T)
    (hcached : idx.cache.find? e ≠ none) (hv : ¬ idx.Victim e) :
    ¬ LruOK (idx.cached e p).evict := by
  intro h'
  obtain ⟨entry, hfind⟩ := Option.ne_none_iff_exists'.mp hcached
  obtain ⟨k, hmem, hle, hge⟩ := SortedMap.find?_eq_some.mp hfind
  obtain ⟨l, hlist, hnode⟩ := lruList_evict_cached (p := p) hv (h.own (k, entry) hmem) ⟨hge, hle⟩
  have hk : k ∈ l.map Prod.snd := List.mem_map_of_mem hnode
  have honce := h'.once
  have hkeys := h'.keys
  rw [hlist, List.map_cons, List.nodup_cons] at honce
  rw [hlist, List.map_cons] at hkeys
  obtain ⟨d, hd, hde⟩ := List.mem_map.mp ((hkeys e).mp List.mem_cons_self)
  obtain ⟨c, hc, hck⟩ := List.mem_map.mp ((hkeys k).mp (List.mem_cons_of_mem _ hk))
  have hdc : d = c := by
    refine SortedMap.eq_of_mem (mem_evict_cache hd) (mem_evict_cache hc) ?_ ?_
    · rw [hde, hck]
      exact hle
    · rw [hde, hck]
      exact hge
  refine honce.1 ?_
  rw [← hde, hdc, hck]
  exact hk

/-- A call that is not fine breaks the list, if it comes to an end. -/
theorem Kept.run_not_fine {T : Type} [Preorder T] [Timestamp T] [DecidableLE T] [DecidableLT T]
    [@Std.Total T (· ≤ ·)] {ss : List (TimeSlicedPartitioning T)} {idx idx' : PartitionIndex T}
    (hk : Kept ss idx) (h : LruOK idx) {c : CacheCall T}
    (hinner : c.Inner ss) (hnot : ¬ c.Fine idx) (hrun : c.run idx = .ok idx') : ¬ LruOK idx' := by
  cases c with
  | lookup time =>
      have heq := getTimeSlicedPartitioning_eq idx time
      cases hhit : idx.hit? time with
      | some e =>
          rw [CacheCall.fine_hit hhit] at hnot
          obtain ⟨hmem, -, -⟩ := hit?_eq_some hhit
          obtain ⟨idx₂, htouch, -, -⟩ := touch_ok time hmem (List.mem_map_of_mem (h.own e hmem))
          have hget : idx.getTimeSlicedPartitioning time = .ok (e.2.partitioning, idx₂) := by
            simp only [heq, hhit, htouch]
            rfl
          rw [CacheCall.run_lookup_ok hget, Except.ok.injEq] at hrun
          rw [← hrun]
          exact hk.not_lruOK_touch hmem hinner hnot htouch
      | none =>
          rw [hhit] at heq
          rw [CacheCall.fine_miss hhit] at hnot
          push Not at hnot
          obtain ⟨found, hfound, hcached⟩ := hnot
          rcases hk.seekDB_cases hinner with ⟨s, hs, value, hseek, hread⟩ | hseek
          · rw [hseek] at hfound
            rw [← Option.some.inj hfound] at hcached
            obtain ⟨p, hread'⟩ : ∃ p, TimeSlicedPartitioning.deserialize value
                (idx.target s.endTime) = .ok p :=
              ⟨_, TimeSlicedPartitioning.deserialize_append hread _⟩
            rcases evict_cached idx s.endTime p with ⟨hv, -⟩ | ⟨hv, hf⟩
            · rw [CacheCall.run_lookup_error (heq.trans (fetch_victim hseek hread' hv))] at hrun
              simp [Fault.isException] at hrun
            · have hfetch : idx.fetch time = .ok (p, (idx.cached s.endTime p).evict) := by
                rw [fetch_eq hseek hread', hf]
              rw [CacheCall.run_lookup_ok (heq.trans hfetch), Except.ok.injEq] at hrun
              rw [← hrun]
              exact not_lruOK_cached h p hcached hv
          · rw [hseek] at hfound
            simp [Except.toOption] at hfound
  | remove s => exact absurd trivial hnot
  | complete => exact absurd trivial hnot

end Steps

end Calls

/-! ### Whole runs -/

section Runs

variable [DecidableLE T] [DecidableLT T] [DecidableEq T] [@Std.Total T (· ≤ ·)]

/-- From an empty cache, list and cache belong to each other after every call exactly when each
lookup of a cached slice finds it at the front of the list. -/
theorem lruOK_along_iff {ss : List (TimeSlicedPartitioning T)} {idx : PartitionIndex T}
    (hst : idx.Stores ss) (hroom : 1 ≤ idx.partitioningBufferSize) (hlist : idx.lruList = [])
    (hcache : idx.cache.entries = []) {calls : List (CacheCall T)}
    (hinner : ∀ c ∈ calls, c.Inner ss) :
    (∀ before after, calls = before ++ after →
      ∃ idx', before.foldlM CacheCall.run idx = .ok idx' ∧ LruOK idx' ∧ EvictsOwn idx') ↔
    ∀ before c after idx', calls = before ++ c :: after →
      before.foldlM CacheCall.run idx = .ok idx' → CacheCall.Fine idx' c := by
  have hstart : Kept ss idx ∧ LruOK idx := by
    refine ⟨⟨⟨by simp [hlist], by simp [hlist]⟩, hst.entry, by simp [hcache], hroom⟩, ?_⟩
    exact ⟨by simp [hlist], by simp [hlist, hcache], by simp [hcache], by simp [hlist]⟩
  refine Except.foldlM_along_iff (I := fun idx => Kept ss idx ∧ LruOK idx)
    (Q := fun idx => LruOK idx ∧ EvictsOwn idx) hstart ?_ ?_ ?_
  · rintro idx ⟨-, h⟩
    exact ⟨h, h.evictsOwn⟩
  · rintro idx c hc ⟨hk, h⟩
    refine ⟨?_, ?_⟩
    · rintro ⟨idx', hrun, h', -⟩
      by_contra hnot
      exact hk.run_not_fine h (hinner c hc) hnot hrun h'
    · intro hfine
      obtain ⟨idx', hrun, -, h'⟩ := hk.run_fine h (hinner c hc) hfine
      exact ⟨idx', hrun, h', h'.evictsOwn⟩
  · rintro idx idx' c hc ⟨hk, h⟩ hrun ⟨h', -⟩
    by_cases hfine : CacheCall.Fine idx c
    · obtain ⟨idx₂, hrun₂, hk', -⟩ := hk.run_fine h (hinner c hc) hfine
      rw [hrun, Except.ok.injEq] at hrun₂
      rw [hrun₂]
      exact ⟨hk', by rw [← hrun₂]; exact h'⟩
    · exact absurd h' (hk.run_not_fine h (hinner c hc) hfine hrun)

end Runs

/-- Lookups before five, a removal, and one after five. -/
def oneAfterTheOther : List (CacheCall Double) :=
  [.lookup (Double.ofFloat 1.0), .lookup (Double.ofFloat 2.0), .remove sliceBefore, .complete,
    .lookup (Double.ofFloat 7.0)]

theorem lruOK_along_iff_two_slices :
    TilesLine [sliceBefore, sliceAfter] ∧
    (∀ c ∈ oneAfterTheOther, c.Inner [sliceBefore, sliceAfter]) ∧
    ∀ before after, oneAfterTheOther = before ++ after →
      ∃ idx', before.foldlM CacheCall.run twoSlices = .ok idx' ∧ LruOK idx' ∧ EvictsOwn idx' := by
  have hinner : ∀ c ∈ oneAfterTheOther, c.Inner [sliceBefore, sliceAfter] := by
    intro c hc
    simp only [oneAfterTheOther, List.mem_cons, List.not_mem_nil, or_false] at hc
    rcases hc with rfl | rfl | rfl | rfl | rfl
    · show ∀ s ∈ [sliceBefore, sliceAfter], ¬ TimeEq s.endTime (Double.ofFloat 1.0)
      decide +kernel
    · show ∀ s ∈ [sliceBefore, sliceAfter], ¬ TimeEq s.endTime (Double.ofFloat 2.0)
      decide +kernel
    · trivial
    · trivial
    · show ∀ s ∈ [sliceBefore, sliceAfter], ¬ TimeEq s.endTime (Double.ofFloat 7.0)
      decide +kernel
  refine ⟨twoSlices_tiles, hinner, ?_⟩
  exact (lruOK_along_iff twoSlices_stores (by decide +kernel) (by decide +kernel)
    (by decide +kernel) hinner).mpr (Except.allowed_of_check (by decide +kernel))

/-- Back before five, the first slice is moved to the front under the time two. -/
theorem lookup_behind_front_lists_time :
    TilesLine [sliceBefore, sliceAfter] ∧ twoSlices.Stores [sliceBefore, sliceAfter] ∧
    ∃ idx', [CacheCall.lookup (Double.ofFloat 1.0), .lookup (Double.ofFloat 7.0),
      .lookup (Double.ofFloat 2.0)].foldlM CacheCall.run twoSlices = .ok idx' ∧ ¬ LruOK idx' := by
  refine ⟨twoSlices_tiles, twoSlices_stores, ?_⟩
  obtain ⟨idx', hrun, hseen⟩ := Except.of_toOption_map
    (x := [CacheCall.lookup (Double.ofFloat 1.0), .lookup (Double.ofFloat 7.0),
      .lookup (Double.ofFloat 2.0)].foldlM CacheCall.run twoSlices)
    (f := fun idx => (idx.lruList.map Prod.snd, idx.cache.entries.map Prod.fst))
    (b := ([Double.ofFloat 2.0, Timestamp.infinity], [Double.ofFloat 5.0, Timestamp.infinity]))
    (by decide +kernel)
  obtain ⟨hlist, hcache⟩ := Prod.mk.inj hseen
  refine ⟨idx', hrun, ?_⟩
  intro h
  have hkeys := h.keys (Double.ofFloat 2.0)
  rw [hlist, hcache] at hkeys
  exact absurd hkeys (by decide +kernel)

end RailwayDB.PartitionIndex
