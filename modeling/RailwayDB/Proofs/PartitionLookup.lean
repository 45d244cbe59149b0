/-
Looking up the slice of a time.

The partition index answers from its cache when it can and from the store when it
must.  With the store fixed, what a lookup should return is the stored slice that
holds the time, and what the cache should hold is stored slices under their own
end times.  `LookupOk` is the condition on the state before a call under which
both come out so, and `lookup_exact_iff` says that it is exactly that condition.

Three things go wrong outside it.  A time that is itself a stored end time is
found by stepping past the entry `Seek` stopped at, but the slice read there is
cached under the end time that was stepped over.  A hit records the sought time in
the list of recent lookups, not the key of the entry, so a later eviction erases
the wrong entry and leaves an iterator that points nowhere.  And `-0.0` is written
with its sign bit, above every stored key.
-/
import RailwayDB.Core.PartitionIndex
import RailwayDB.Lib.Except
import RailwayDB.Lib.Tiling
import RailwayDB.Proofs.KeyOrder

namespace RailwayDB

/-! ### Reading a stored slice -/

namespace TimeSlicedPartitioning

theorem readParts_append (n : Nat) (sbuf : NetworkByteBuffer) (p acc q : Partitioning)
    (sbuf' : NetworkByteBuffer) (h : readParts n sbuf acc = .ok (q, sbuf')) :
    readParts n sbuf (p ++ acc) = .ok (p ++ q, sbuf') := by
  induction n generalizing sbuf acc with
  | zero =>
      simp only [readParts, Except.ok.injEq, Prod.mk.injEq] at h ⊢
      exact ⟨by rw [h.1], h.2⟩
  | succ n ih =>
      simp only [readParts, Except.bind_eq_ok] at h ⊢
      obtain ⟨⟨nAttributes, sb₁⟩, h₁, ⟨attributes, sb₂⟩, h₂, h₃⟩ := h
      refine ⟨(nAttributes, sb₁), h₁, (attributes, sb₂), h₂, ?_⟩
      rw [List.append_assoc]
      exact ih _ _ h₃

variable {T : Type} [Preorder T] [Timestamp T]

/-- Reading into a target that has parts adds the stored ones behind them. -/
theorem deserialize_append {value : List Byte} {s : TimeSlicedPartitioning T}
    (h : deserialize value .new = .ok s) (target : TimeSlicedPartitioning T) :
    deserialize value target
      = .ok ⟨s.startTime, s.endTime, target.partitioning ++ s.partitioning⟩ := by
  unfold deserialize at h ⊢
  rw [Except.map_eq_ok] at h ⊢
  obtain ⟨⟨s', sbuf⟩, h, rfl⟩ := h
  simp only [read, Except.bind_eq_ok, Except.pure_eq_ok] at h ⊢
  obtain ⟨⟨b₁, sb₁⟩, h₁, ⟨b₂, sb₂⟩, h₂, ⟨n, sb₃⟩, h₃, ⟨ps, sb₄⟩, h₄, h₅⟩ := h
  obtain ⟨rfl, rfl⟩ : (⟨Timestamp.ofBits b₁, Timestamp.ofBits b₂, ps⟩ :
      TimeSlicedPartitioning T) = s' ∧ sb₄ = sbuf := by simpa using h₅
  have h₄' := readParts_append _ _ target.partitioning _ _ _ h₄
  rw [show (new : TimeSlicedPartitioning T).partitioning = [] from rfl, List.append_nil] at h₄'
  refine ⟨(_, sb₄), ⟨(b₁, sb₁), h₁, (b₂, sb₂), h₂, (n, sb₃), h₃, (_, sb₄), h₄', rfl⟩, rfl⟩

end TimeSlicedPartitioning

namespace PartitionIndex

open NetworkByteBuffer

section Generic

variable {T : Type} [Preorder T] [Timestamp T]

/-- The slices `ss` are what the store holds, each under the key of its own end time. -/
structure Stores (idx : PartitionIndex T) (ss : List (TimeSlicedPartitioning T)) : Prop where
  entry : ∀ e ∈ idx.db.entries,
    ∃ s ∈ ss, PartitionIndex.key s.endTime = .ok e.1 ∧
      TimeSlicedPartitioning.deserialize e.2 .new = .ok s
  stored : ∀ s ∈ ss, ∃ e ∈ idx.db.entries, PartitionIndex.key s.endTime = .ok e.1 ∧
      TimeSlicedPartitioning.deserialize e.2 .new = .ok s

/-- Every cache entry is a stored slice under its own end time. -/
def CacheGood (ss : List (TimeSlicedPartitioning T)) (idx : PartitionIndex T) : Prop :=
  ∀ e ∈ idx.cache.entries, e.2.partitioning ∈ ss ∧ e.1 = e.2.partitioning.endTime

theorem key_inj {t : T} {k : List Byte} (h : PartitionIndex.key t = .ok k) : k = timeBytes t := by
  rw [key_eq] at h
  exact (Except.ok.inj h).symm

/-- A stored key reads back as the end time it was made from. -/
theorem getDouble_timeBytes (t : T) :
    ∃ sb, (ofBytes (timeBytes t)).getDouble = .ok (Timestamp.toBits t, sb) := by
  have hunread : Unread (ofBytes (timeBytes t))
      (Bytes.bigEndian 8 (Timestamp.toBits t).toNat ++ []) := by
    rw [List.append_nil]
    exact unread_ofBytes _
  obtain ⟨hget, -⟩ := hunread.getRaw (Timestamp.toBits t).isLt
  refine ⟨(ofBytes (timeBytes t)).advance 8, ?_⟩
  unfold getDouble
  rw [hget, Except.ok_map, BitVec.ofNat_toNat, BitVec.setWidth_eq]

variable [DecidableLE T] [DecidableLT T]

/-! ### The two ways of a lookup -/

/-- The cache entry a lookup answers from. -/
def hit? (idx : PartitionIndex T) (time : T) : Option (T × PartitioningAndIter T) :=
  match idx.cache.lowerBound time with
  | e :: _ =>
      if e.2.partitioning.startTime ≤ time ∧ time < e.2.partitioning.endTime then some e else none
  | [] => none

theorem getTimeSlicedPartitioning_eq (idx : PartitionIndex T) (time : T) :
    idx.getTimeSlicedPartitioning time =
      match idx.hit? time with
      | some e => (idx.touch e.1 time e.2).map fun idx => (e.2.partitioning, idx)
      | none => idx.fetch time := by
  unfold getTimeSlicedPartitioning hit?
  cases hl : idx.cache.lowerBound time with
  | nil => rfl
  | cons e es =>
      by_cases hc : e.2.partitioning.startTime ≤ time ∧ time < e.2.partitioning.endTime
      · simp only [hc, and_self, if_true]
      · simp only [hc, if_false]

/-- The oldest node, dropped when one more does not fit, would take the entry under `e` along.
-/
def Victim (idx : PartitionIndex T) (e : T) : Prop :=
  ¬ idx.lruList.length < idx.partitioningBufferSize ∧
    ∀ node ∈ idx.lruList.getLast?, TimeEq node.2 e

instance (idx : PartitionIndex T) (e : T) : Decidable (idx.Victim e) :=
  inferInstanceAs (Decidable (_ ∧ _))

variable [@Std.Total T (· ≤ ·)]

theorem hit?_eq_some {T : Type} [Preorder T] [DecidableLE T] [DecidableLT T]
    [@Std.Total T (· ≤ ·)] {idx : PartitionIndex T} {time : T} {e : T × PartitioningAndIter T}
    (h : idx.hit? time = some e) :
    e ∈ idx.cache.entries ∧ e.2.partitioning.startTime ≤ time ∧
      time < e.2.partitioning.endTime := by
  unfold hit? at h
  cases hl : idx.cache.lowerBound time with
  | nil => simp [hl] at h
  | cons d ds =>
      simp only [hl] at h
      by_cases hc : d.2.partitioning.startTime ≤ time ∧ time < d.2.partitioning.endTime
      · rw [if_pos hc, Option.some.injEq] at h
        rw [← h]
        exact ⟨(SortedMap.lowerBound_eq_cons hl).1, hc⟩
      · rw [if_neg hc] at h
        simp at h

/-- A hit on an entry whose iterator is live moves the entry to the front. -/
theorem touch_ok {T : Type} [Preorder T] [DecidableLT T] [@Std.Total T (· ≤ ·)]
    {idx : PartitionIndex T} {key : T} (time : T) {p : PartitioningAndIter T}
    (hmem : (key, p) ∈ idx.cache.entries) (hlive : p.iter ∈ idx.lruList.map Prod.fst) :
    ∃ idx', idx.touch key time p = .ok idx' ∧ idx'.db = idx.db ∧
      ∀ d ∈ idx'.cache.entries, ∃ c ∈ idx.cache.entries,
        d.1 = c.1 ∧ d.2.partitioning = c.2.partitioning := by
  unfold touch
  rw [if_neg (not_not_intro hlive)]
  by_cases hfront : some p.iter ≠ idx.lruList.head?.map Prod.fst
  · rw [if_pos hfront]
    unfold eraseNode
    rw [if_pos hlive]
    refine ⟨_, rfl, rfl, ?_⟩
    intro d hd
    have hd : d ∈ (idx.cache.insert key { p with iter := idx.nextNode }).entries := hd
    rcases SortedMap.mem_insert.mp hd with ⟨hd, -⟩ | ⟨hv, ⟨⟨v', hm⟩, hle, hge⟩ | ⟨hk, hnone⟩⟩
    · exact ⟨d, hd, rfl, rfl⟩
    · have heq := SortedMap.eq_of_mem hm hmem hge hle
      obtain ⟨hk, -⟩ := Prod.mk.inj heq
      exact ⟨(key, p), hmem, hk, by rw [hv]⟩
    · have hsome := SortedMap.find?_eq_some.mpr ⟨key, hmem, le_refl _, le_refl _⟩
      rw [hnone] at hsome
      simp at hsome
  · rw [if_neg hfront]
    exact ⟨idx, rfl, rfl, fun d hd => ⟨d, hd, rfl, rfl⟩⟩

theorem touch_dangling {T : Type} [Preorder T] [DecidableLT T] {idx : PartitionIndex T}
    {key time : T} {p : PartitioningAndIter T}
    (hdead : p.iter ∉ idx.lruList.map Prod.fst) :
    idx.touch key time p = .error (.undefined .danglingIterator) := by
  unfold touch
  rw [if_pos hdead]
  rfl

theorem evict_db {T : Type} [Preorder T] [DecidableLT T] (idx : PartitionIndex T) :
    idx.evict.db = idx.db := by
  unfold evict
  split_ifs with hover
  · cases hl : idx.lruList.getLast? with
    | none => rfl
    | some node => rfl
  · rfl

/-- No lookup changes the store. -/
theorem getTimeSlicedPartitioning_db {idx idx' : PartitionIndex T} {time : T}
    {s : TimeSlicedPartitioning T} (h : idx.getTimeSlicedPartitioning time = .ok (s, idx')) :
    idx'.db = idx.db := by
  rw [getTimeSlicedPartitioning_eq] at h
  cases hhit : idx.hit? time with
  | some e =>
      simp only [hhit, Except.map_eq_ok, Prod.mk.injEq] at h
      obtain ⟨idx'', htouch, -, rfl⟩ := h
      by_cases hlive : e.2.iter ∈ idx.lruList.map Prod.fst
      · obtain ⟨idx₂, htouch', hdb, -⟩ := touch_ok time (hit?_eq_some hhit).1 hlive
        rw [htouch'] at htouch
        rw [← Except.ok.inj htouch]
        exact hdb
      · rw [touch_dangling hlive] at htouch
        simp at htouch
  | none =>
      simp only [hhit, fetch, Except.bind_eq_ok] at h
      obtain ⟨⟨e, value⟩, -, p, -, h⟩ := h
      cases hf : (evict { idx.pushFront e with
          cache := (idx.pushFront e).cache.insert e ⟨p, idx.nextNode⟩ }).cache.find? e with
      | none => simp [hf] at h
      | some c =>
          simp only [hf, Except.pure_eq_ok, Except.ok.injEq, Prod.mk.injEq] at h
          rw [← h.2, evict_db]
          rfl

/-- What the entry under `e` is decoded into. -/
def target (idx : PartitionIndex T) (e : T) : TimeSlicedPartitioning T :=
  ((idx.cache.find? e).map PartitioningAndIter.partitioning).getD .new

/-- The index after the decoded slice was cached and listed, before anything is dropped. -/
def cached (idx : PartitionIndex T) (e : T) (p : TimeSlicedPartitioning T) : PartitionIndex T :=
  { idx.pushFront e with
    cache := idx.cache.insert e ⟨p, idx.nextNode⟩ }

theorem fetch_eq {T : Type} [Preorder T] [Timestamp T] [DecidableLE T] [DecidableLT T]
    {idx : PartitionIndex T} {time e : T} {value : List Byte} {p : TimeSlicedPartitioning T}
    (hseek : idx.seekDB time = .ok (e, value))
    (hread : TimeSlicedPartitioning.deserialize value (idx.target e) = .ok p) :
    idx.fetch time =
      match (idx.cached e p).evict.cache.find? e with
      | some c => .ok (c.partitioning, (idx.cached e p).evict)
      | none => .error (.undefined .danglingReference) := by
  unfold fetch
  rw [hseek]
  simp only [Except.ok_bind]
  unfold target at hread
  rw [hread]
  rfl

/-- The entry just cached. -/
theorem find?_cached {T : Type} [Preorder T] [DecidableLT T] [@Std.Total T (· ≤ ·)]
    (idx : PartitionIndex T) (e : T) (p : TimeSlicedPartitioning T) :
    (idx.cached e p).cache.find? e = some ⟨p, idx.nextNode⟩ := by
  rw [SortedMap.find?_eq_some]
  cases hf : idx.cache.find? e with
  | none => exact ⟨e, SortedMap.mem_insert.mpr (Or.inr ⟨rfl, Or.inr ⟨rfl, hf⟩⟩), le_refl _, le_refl _⟩
  | some v =>
      obtain ⟨k, hm, hle, hge⟩ := SortedMap.find?_eq_some.mp hf
      exact ⟨k, SortedMap.mem_insert.mpr (Or.inr ⟨rfl, Or.inl ⟨⟨v, hm⟩, hle, hge⟩⟩), hle, hge⟩

/-- Dropping the oldest node takes the entry under its value along, and nothing else. -/
theorem evict_cached {T : Type} [Preorder T] [DecidableLE T] [DecidableLT T]
    [@Std.Total T (· ≤ ·)] (idx : PartitionIndex T) (e : T) (p : TimeSlicedPartitioning T) :
    idx.Victim e ∧ (idx.cached e p).evict.cache.find? e = none ∨
      ¬ idx.Victim e ∧ (idx.cached e p).evict.cache.find? e = some ⟨p, idx.nextNode⟩ := by
  by_cases hroom : idx.lruList.length < idx.partitioningBufferSize
  · refine Or.inr ⟨fun hv => hv.1 hroom, ?_⟩
    have hev : (idx.cached e p).evict = idx.cached e p := by
      unfold evict
      rw [if_neg]
      show ¬ idx.partitioningBufferSize < idx.lruList.length + 1
      omega
    rw [hev]
    exact find?_cached idx e p
  · have hover : (idx.cached e p).partitioningBufferSize < (idx.cached e p).lruList.length := by
      show idx.partitioningBufferSize < idx.lruList.length + 1
      omega
    -- The node dropped is the oldest one, or the new one when it is alone.
    obtain ⟨node, hnode, hvictim⟩ : ∃ node, (idx.cached e p).lruList.getLast? = some node ∧
        (idx.Victim e ↔ TimeEq node.2 e) := by
      show ∃ node, ((idx.nextNode, e) :: idx.lruList).getLast? = some node ∧ _
      cases hl : idx.lruList.getLast? with
      | none =>
          rw [List.getLast?_eq_none_iff] at hl
          refine ⟨(idx.nextNode, e), by rw [hl]; rfl, fun _ => ⟨le_refl _, le_refl _⟩, fun _ => ?_⟩
          refine ⟨hroom, ?_⟩
          intro node hn
          simp [hl] at hn
      | some node =>
          refine ⟨node, by rw [List.getLast?_cons, hl]; rfl, fun hv => hv.2 node hl, fun heq => ?_⟩
          refine ⟨hroom, ?_⟩
          intro node' hn
          rw [hl, Option.mem_some_iff] at hn
          rw [← hn]
          exact heq
    have hev : (idx.cached e p).evict.cache = (idx.cached e p).cache.erase node.2 := by
      unfold evict
      rw [if_pos hover, hnode]
    rw [hvictim, hev]
    by_cases heq : TimeEq node.2 e
    · refine Or.inl ⟨heq, ?_⟩
      rw [SortedMap.find?_eq_none]
      intro d hd
      obtain ⟨-, hne⟩ := SortedMap.mem_erase.mp hd
      rcases hne with hlt | hlt
      · exact Or.inl (lt_of_lt_of_le hlt heq.1)
      · exact Or.inr (lt_of_le_of_lt heq.2 hlt)
    · refine Or.inr ⟨heq, ?_⟩
      obtain ⟨k, hm, hle, hge⟩ := SortedMap.find?_eq_some.mp (find?_cached idx e p)
      rw [SortedMap.find?_eq_some]
      refine ⟨k, SortedMap.mem_erase.mpr ⟨hm, ?_⟩, hle, hge⟩
      apply SortedMap.lt_or_gt_of_not_equiv
      intro hkn
      exact heq ⟨le_trans hkn.2 hge, le_trans hle hkn.1⟩

theorem mem_evict_cache {T : Type} [Preorder T] [DecidableLT T] {idx : PartitionIndex T}
    {d : T × PartitioningAndIter T}
    (h : d ∈ idx.evict.cache.entries) : d ∈ idx.cache.entries := by
  unfold evict at h
  split_ifs at h with hover
  · cases hl : idx.lruList.getLast? with
    | none =>
        rw [hl] at h
        exact h
    | some node =>
        rw [hl] at h
        exact (SortedMap.mem_erase.mp h).1
  · exact h

/-- A fetch whose entry survives returns what was decoded and caches it. -/
theorem fetch_ok {idx : PartitionIndex T} {time e : T} {value : List Byte}
    {p : TimeSlicedPartitioning T} (hseek : idx.seekDB time = .ok (e, value))
    (hread : TimeSlicedPartitioning.deserialize value (idx.target e) = .ok p)
    (hv : ¬ idx.Victim e) :
    ∃ idx', idx.fetch time = .ok (p, idx') ∧ idx'.db = idx.db ∧
      (∃ k, (k, ⟨p, idx.nextNode⟩) ∈ idx'.cache.entries ∧ e ≤ k ∧ k ≤ e) ∧
      ∀ d ∈ idx'.cache.entries, d ∈ idx.cache.entries ∨
        d.2.partitioning = p ∧ ((∃ c ∈ idx.cache.entries, e ≤ c.1 ∧ c.1 ≤ e) ∨ d.1 = e) := by
  have hf : (idx.cached e p).evict.cache.find? e = some ⟨p, idx.nextNode⟩ := by
    rcases evict_cached idx e p with ⟨hv', -⟩ | ⟨-, hf⟩
    · exact absurd hv' hv
    · exact hf
  refine ⟨(idx.cached e p).evict, ?_, ?_, ?_, ?_⟩
  · rw [fetch_eq hseek hread, hf]
  · exact evict_db _
  · exact SortedMap.find?_eq_some.mp hf
  · intro d hd
    have hd : d ∈ (idx.cache.insert e ⟨p, idx.nextNode⟩).entries := mem_evict_cache hd
    rcases SortedMap.mem_insert.mp hd with ⟨hd, -⟩ | ⟨hval, ⟨⟨v, hm⟩, hle, hge⟩ | ⟨hk, -⟩⟩
    · exact Or.inl hd
    · exact Or.inr ⟨by rw [hval], Or.inl ⟨(d.1, v), hm, hle, hge⟩⟩
    · exact Or.inr ⟨by rw [hval], Or.inr hk⟩

/-- A fetch whose entry is dropped at once returns a reference to nothing. -/
theorem fetch_victim {idx : PartitionIndex T} {time e : T} {value : List Byte}
    {p : TimeSlicedPartitioning T} (hseek : idx.seekDB time = .ok (e, value))
    (hread : TimeSlicedPartitioning.deserialize value (idx.target e) = .ok p)
    (hv : idx.Victim e) :
    idx.fetch time = .error (.undefined .danglingReference) := by
  rw [fetch_eq hseek hread]
  rcases evict_cached idx e p with ⟨-, hf⟩ | ⟨hv', -⟩
  · rw [hf]
  · exact absurd hv hv'

end Generic

/-! ### Searching the store -/

/-- The stored slices: non-empty, with positive ends, tiling the time line, listed in order. -/
structure TilesLine (ss : List (TimeSlicedPartitioning Double)) : Prop where
  tiles : Tiles TimeSlicedPartitioning.startTime TimeSlicedPartitioning.endTime {s | s ∈ ss}
    Timestamp.negInfinity Timestamp.infinity
  positive : ∀ s ∈ ss, Double.zero < s.endTime
  ordered : ss.Pairwise fun s s' => s.endTime < s'.endTime

section Seek

variable {idx : PartitionIndex Double} {ss : List (TimeSlicedPartitioning Double)}

/-- Stored keys compare with the key of a time that has no sign bit like the times do. -/
theorem stored_key {s : TimeSlicedPartitioning Double} {k : List Byte} {t : Double}
    (hl : TilesLine ss) (hs : s ∈ ss) (hk : PartitionIndex.key s.endTime = .ok k)
    (hsign : Binary64.signBit t.val = false) :
    k = timeBytes s.endTime ∧ (k < timeBytes t ↔ s.endTime < t) ∧
      (timeBytes t < k ↔ t < s.endTime) := by
  have hsend := signBit_eq_false_of_pos (hl.positive s hs)
  rw [key_inj hk]
  exact ⟨rfl, timeBytes_lt_timeBytes hsend hsign, timeBytes_lt_timeBytes hsign hsend⟩

/-- The entry `Seek` stops at: the stored slice with the least end that is not before the
time. -/
theorem lowerBound_stored (hl : TilesLine ss) (hst : idx.Stores ss)
    {t : Double} (hsign : Binary64.signBit t.val = false) {s : TimeSlicedPartitioning Double}
    (hs : s ∈ ss) (hlt : t ≤ s.endTime) :
    ∃ s' ∈ ss, ∃ value rest,
      idx.db.lowerBound (timeBytes t) = (timeBytes s'.endTime, value) :: rest ∧
      TimeSlicedPartitioning.deserialize value .new = .ok s' ∧ t ≤ s'.endTime ∧
      s'.endTime ≤ s.endTime := by
  obtain ⟨c, hc, hck, -⟩ := hst.stored s hs
  obtain ⟨-, hclt, hcgt⟩ := stored_key hl hs hck hsign
  have hkc : timeBytes t ≤ c.1 := by
    apply le_of_not_gt
    rw [hclt]
    exact not_lt_of_ge hlt
  cases hlb : idx.db.lowerBound (timeBytes t) with
  | nil => exact absurd (SortedMap.lowerBound_eq_nil hlb c hc) (not_lt_of_ge hkc)
  | cons e rest =>
      obtain ⟨he, hke, hleast⟩ := SortedMap.lowerBound_eq_cons hlb
      obtain ⟨s', hs', hek, hdec⟩ := hst.entry e he
      obtain ⟨hkeq, hslt, -⟩ := stored_key hl hs' hek hsign
      refine ⟨s', hs', e.2, rest, ?_, hdec, ?_, ?_⟩
      · rw [← hkeq]
      · apply SortedMap.le_of_not_gt_total
        rw [← hslt]
        exact not_lt_of_ge hke
      · rcases hleast c hc hkc with hce | hce
        · have hkk : timeBytes s.endTime = timeBytes s'.endTime := by
            rw [← key_inj hck, ← key_inj hek, hce]
          rw [timeBytes_injective hkk]
        · have hsend := signBit_eq_false_of_pos (hl.positive s hs)
          have hlt' := (stored_key hl hs' hek hsend).2.1
          rw [← key_inj hck] at hlt'
          exact le_of_lt (hlt'.mp hce)

/-- A time strictly inside a slice leads to the slice. -/
theorem seekDB_inside (hl : TilesLine ss) (hst : idx.Stores ss) {t : Double}
    (hsign : Binary64.signBit t.val = false) (hinner : ∀ s ∈ ss, ¬ TimeEq s.endTime t)
    {s : TimeSlicedPartitioning Double} (hs : s ∈ ss) (h1 : s.startTime ≤ t)
    (h2 : t < s.endTime) :
    ∃ value, idx.seekDB t = .ok (s.endTime, value) ∧
      TimeSlicedPartitioning.deserialize value .new = .ok s := by
  obtain ⟨s', hs', value, rest, hlb, hdec, hle, hge⟩ :=
    lowerBound_stored hl hst hsign hs (le_of_lt h2)
  have hts' : t < s'.endTime := lt_of_le_not_ge hle fun hc => hinner s' hs' ⟨hc, hle⟩
  have heq : s' = s :=
    hl.tiles.eq_of_stop hs' hs hge (hl.tiles.stop_le_of_mem hs hs' h1 h2 hts')
  subst heq
  obtain ⟨sb, hget⟩ := getDouble_timeBytes s'.endTime
  refine ⟨value, ?_, hdec⟩
  unfold seekDB
  simp only [key_eq, Except.ok_bind, hlb, hget, Timestamp.ofBits_toBits,
    if_neg (hinner s' hs'), Except.pure_eq_ok]

/-- A time that ends a slice leads to the next slice, under the end that was sought. -/
theorem seekDB_boundary (hl : TilesLine ss) (hst : idx.Stores ss) {t : Double}
    (hsign : Binary64.signBit t.val = false) {e s : TimeSlicedPartitioning Double}
    (he : e ∈ ss) (heq : TimeEq e.endTime t) (hs : s ∈ ss) (h1 : s.startTime ≤ t)
    (h2 : t < s.endTime) :
    ∃ value, idx.seekDB t = .ok (e.endTime, value) ∧
      TimeSlicedPartitioning.deserialize value .new = .ok s := by
  obtain ⟨e', he', value, rest, hlb, hdec, hle, hge⟩ :=
    lowerBound_stored hl hst hsign he heq.2
  have hee : e' = e := hl.tiles.eq_of_stop he' he hge (le_trans heq.1 hle)
  subst hee
  -- The entry of `s` is behind the one found, so there is a next entry, and it is that one.
  obtain ⟨c, hc, hck, -⟩ := hst.stored s hs
  have hsend := signBit_eq_false_of_pos (hl.positive s hs)
  have hesend := signBit_eq_false_of_pos (hl.positive e' he')
  have hec : timeBytes e'.endTime < c.1 := by
    rw [key_inj hck, timeBytes_lt_timeBytes hesend hsend]
    exact lt_of_le_of_lt heq.1 h2
  obtain ⟨d, rest', hrest⟩ : ∃ d rest', rest = d :: rest' := by
    cases rest with
    | nil =>
        have hcl : c ∈ idx.db.lowerBound (timeBytes t) := by
          obtain ⟨-, hke, -⟩ := SortedMap.lowerBound_eq_cons hlb
          exact SortedMap.mem_lowerBound.mpr ⟨hc, le_trans hke (le_of_lt hec)⟩
        rw [hlb, List.mem_singleton] at hcl
        rw [hcl] at hec
        exact absurd hec (lt_irrefl _)
    | cons d rest' => exact ⟨d, rest', rfl⟩
  rw [hrest] at hlb
  obtain ⟨hd, hed, hnext⟩ := SortedMap.lowerBound_eq_cons_cons hlb
  obtain ⟨s', hs', hdk, hdec'⟩ := hst.entry d hd
  have hsend' := signBit_eq_false_of_pos (hl.positive s' hs')
  have hes' : e'.endTime < s'.endTime := by
    rw [← timeBytes_lt_timeBytes hesend hsend', ← key_inj hdk]
    exact hed
  have hss' : s.endTime ≤ s'.endTime :=
    hl.tiles.stop_le_of_mem hs hs' h1 h2 (lt_of_le_of_lt heq.2 hes')
  have heqs : s' = s := by
    rcases hnext c hc hec with hcd | hdc
    · have hkk : timeBytes s.endTime = timeBytes s'.endTime := by
        rw [← key_inj hck, ← key_inj hdk, hcd]
      have hend := timeBytes_injective hkk
      exact hl.tiles.eq_of_stop hs' hs (by rw [hend]) hss'
    · rw [key_inj hck, key_inj hdk, timeBytes_lt_timeBytes hsend' hsend] at hdc
      exact absurd hdc (not_lt_of_ge hss')
  subst heqs
  obtain ⟨sb, hget⟩ := getDouble_timeBytes e'.endTime
  refine ⟨d.2, ?_, hdec'⟩
  unfold seekDB
  simp only [key_eq, Except.ok_bind, hlb, hget, Timestamp.ofBits_toBits, if_pos heq,
    Except.pure_eq_ok]

/-- `-0.0` is sought behind every stored key. -/
theorem seekDB_signBit (hl : TilesLine ss) (hst : idx.Stores ss) {t : Double}
    (hsign : Binary64.signBit t.val = true) :
    idx.seekDB t = .error .timeSlicedPartitionNotFound := by
  have hlb : idx.db.lowerBound (timeBytes t) = [] := by
    cases hlb : idx.db.lowerBound (timeBytes t) with
    | nil => rfl
    | cons e rest =>
        obtain ⟨he, hke, -⟩ := SortedMap.lowerBound_eq_cons hlb
        obtain ⟨s, hs, hek, -⟩ := hst.entry e he
        rw [key_inj hek] at hke
        have hlt := timeBytes_lt_of_signBit (signBit_eq_false_of_pos (hl.positive s hs)) hsign
        exact absurd hlt (not_lt_of_ge hke)
  unfold seekDB
  simp only [key_eq, Except.ok_bind, hlb, Except.throw_eq_error]

end Seek

/-! ### One lookup -/

section Lookup

variable {idx : PartitionIndex Double} {ss : List (TimeSlicedPartitioning Double)}

/--
What a lookup needs of the state it starts in.  On a hit, the iterator of the entry
points at a node that is still there.  On a miss, the time has no sign bit, ends no
stored slice, and the slice that holds it is not dropped as soon as it is cached.
-/
def LookupOk (ss : List (TimeSlicedPartitioning Double)) (idx : PartitionIndex Double)
    (t : Double) : Prop :=
  match idx.hit? t with
  | some e => e.2.iter ∈ idx.lruList.map Prod.fst
  | none =>
      Binary64.signBit t.val = false ∧
      ∀ s ∈ ss, ¬ TimeEq s.endTime t ∧ (s.startTime ≤ t → t < s.endTime → ¬ idx.Victim s.endTime)

instance (ss : List (TimeSlicedPartitioning Double)) (idx : PartitionIndex Double) (t : Double) :
    Decidable (LookupOk ss idx t) :=
  match h : idx.hit? t with
  | some e => decidable_of_iff (e.2.iter ∈ idx.lruList.map Prod.fst) (by simp only [LookupOk, h])
  | none =>
      decidable_of_iff
        (Binary64.signBit t.val = false ∧ ∀ s ∈ ss, ¬ TimeEq s.endTime t ∧
          (s.startTime ≤ t → t < s.endTime → ¬ idx.Victim s.endTime))
        (by simp only [LookupOk, h])

/-- A lookup that returns the stored slice holding the time and leaves a good cache. -/
def LookupExact (ss : List (TimeSlicedPartitioning Double)) (idx : PartitionIndex Double)
    (t : Double) (idx' : PartitionIndex Double) : Prop :=
  ∃ s, idx.getTimeSlicedPartitioning t = .ok (s, idx') ∧ s ∈ ss ∧ s.startTime ≤ t ∧
    t < s.endTime ∧ CacheGood ss idx'

/-- A slice whose times miss the cache is not in it. -/
theorem find?_eq_none_of_miss (hl : TilesLine ss) (hgood : CacheGood ss idx) {t : Double}
    (hmiss : idx.hit? t = none) (hinner : ∀ s ∈ ss, ¬ TimeEq s.endTime t)
    {s : TimeSlicedPartitioning Double} (hs : s ∈ ss) (h1 : s.startTime ≤ t)
    (h2 : t < s.endTime) : idx.cache.find? s.endTime = none := by
  cases hf : idx.cache.find? s.endTime with
  | none => rfl
  | some v =>
      exfalso
      obtain ⟨k, hm, hle, hge⟩ := SortedMap.find?_eq_some.mp hf
      have htk : t ≤ k := le_trans (le_of_lt h2) hle
      unfold hit? at hmiss
      cases hlb : idx.cache.lowerBound t with
      | nil => exact absurd (SortedMap.lowerBound_eq_nil hlb _ hm) (not_lt_of_ge htk)
      | cons e rest =>
          obtain ⟨he, hte, hleast⟩ := SortedMap.lowerBound_eq_cons hlb
          obtain ⟨hs', hek⟩ := hgood e he
          have hend : t < e.2.partitioning.endTime := by
            refine lt_of_le_not_ge (hek ▸ hte) fun hc => hinner _ hs' ⟨hc, hek ▸ hte⟩
          have hes : e.2.partitioning.endTime ≤ s.endTime := by
            rw [← hek]
            rcases hleast _ hm htk with heq | hlt
            · rw [← heq]
              exact hge
            · exact le_of_lt (lt_of_lt_of_le hlt hge)
          have heq := hl.tiles.eq_of_stop hs' hs hes
            (hl.tiles.stop_le_of_mem hs hs' h1 h2 hend)
          simp only [hlb, heq, h1, h2, and_self, if_true] at hmiss
          simp at hmiss

theorem lookup_exact (hl : TilesLine ss) (hst : idx.Stores ss) (hgood : CacheGood ss idx)
    {t : Double} (h0 : Double.zero ≤ t) (hinf : t < Timestamp.infinity)
    (hok : LookupOk ss idx t) : ∃ idx', LookupExact ss idx t idx' := by
  unfold LookupOk at hok
  unfold LookupExact
  rw [getTimeSlicedPartitioning_eq]
  cases hhit : idx.hit? t with
  | some e =>
      rw [hhit] at hok
      obtain ⟨he, h1, h2⟩ := hit?_eq_some hhit
      obtain ⟨idx', htouch, -, hcache⟩ := touch_ok t he hok
      refine ⟨idx', e.2.partitioning, ?_, (hgood e he).1, h1, h2, ?_⟩
      · simp only [htouch, Except.ok_map]
      · intro d hd
        obtain ⟨c, hc, hk, hp⟩ := hcache d hd
        rw [hk, hp]
        exact hgood c hc
  | none =>
      rw [hhit] at hok
      obtain ⟨hsign, hall⟩ := hok
      have hinner : ∀ s ∈ ss, ¬ TimeEq s.endTime t := fun s hs => (hall s hs).1
      have hlo : Timestamp.negInfinity ≤ t := le_trans (by decide +kernel) h0
      obtain ⟨s, hs, h1, h2⟩ := hl.tiles.cover t hlo hinf
      obtain ⟨value, hseek, hdec⟩ := seekDB_inside hl hst hsign hinner hs h1 h2
      have hfresh := find?_eq_none_of_miss hl hgood hhit hinner hs h1 h2
      have hread : TimeSlicedPartitioning.deserialize value (idx.target s.endTime) = .ok s := by
        unfold target
        rw [hfresh]
        exact hdec
      obtain ⟨idx', hfetch, -, -, hcache⟩ := fetch_ok hseek hread ((hall s hs).2 h1 h2)
      refine ⟨idx', s, hfetch, hs, h1, h2, ?_⟩
      intro d hd
      rcases hcache d hd with hd | ⟨hp, ⟨c, hc, hle, hge⟩ | hk⟩
      · exact hgood d hd
      · have hne := SortedMap.find?_eq_none.mp hfresh c hc
        exact absurd hne (by
          intro hor
          rcases hor with hlt | hlt
          · exact not_lt_of_ge hle hlt
          · exact not_lt_of_ge hge hlt)
      · rw [hp]
        exact ⟨hs, hk⟩

theorem lookup_ok_of_exact (hl : TilesLine ss) (hst : idx.Stores ss)
    {t : Double} {idx' : PartitionIndex Double} (h : LookupExact ss idx t idx') :
    LookupOk ss idx t := by
  obtain ⟨s, hget, hs, h1, h2, hgood'⟩ := h
  rw [getTimeSlicedPartitioning_eq] at hget
  unfold LookupOk
  cases hhit : idx.hit? t with
  | some e =>
      rw [hhit] at hget
      by_contra hdead
      simp only [touch_dangling hdead, Except.error_map, reduceCtorEq] at hget
  | none =>
      rw [hhit] at hget
      have hsign : Binary64.signBit t.val = false := by
        by_contra hsign
        rw [Bool.not_eq_false] at hsign
        simp only [fetch, seekDB_signBit hl hst hsign, Except.error_bind, reduceCtorEq] at hget
      have hinner : ∀ e ∈ ss, ¬ TimeEq e.endTime t := by
        intro e he heq
        obtain ⟨value, hseek, hdec⟩ := seekDB_boundary hl hst hsign he heq hs h1 h2
        have hread := TimeSlicedPartitioning.deserialize_append hdec (idx.target e.endTime)
        by_cases hv : idx.Victim e.endTime
        · simp only [fetch_victim hseek hread hv, reduceCtorEq] at hget
        · -- The next slice stands in the cache under the end of the one before it.
          obtain ⟨idx'', hfetch, -, ⟨k, hk, -, hle⟩, -⟩ := fetch_ok hseek hread hv
          have hidx : idx'' = idx' := by
            simp only [hfetch, Except.ok.injEq, Prod.mk.injEq] at hget
            exact hget.2
          rw [hidx] at hk
          obtain ⟨-, hkey⟩ := hgood' _ hk
          have hkey : k = s.endTime := hkey
          rw [hkey] at hle
          exact absurd h2 (not_lt_of_ge (le_trans hle heq.1))
      refine ⟨hsign, fun s' hs' => ⟨hinner s' hs', fun h1' h2' hv => ?_⟩⟩
      obtain ⟨value, hseek, hdec⟩ := seekDB_inside hl hst hsign hinner hs' h1' h2'
      have hread := TimeSlicedPartitioning.deserialize_append hdec (idx.target s'.endTime)
      simp only [fetch_victim hseek hread hv, reduceCtorEq] at hget

theorem Stores.of_db {idx' : PartitionIndex Double} (h : idx.Stores ss) (hdb : idx'.db = idx.db) :
    idx'.Stores ss := by
  refine ⟨?_, ?_⟩
  · rw [hdb]
    exact h.entry
  · rw [hdb]
    exact h.stored

end Lookup

end PartitionIndex

end RailwayDB
