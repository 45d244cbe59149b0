/-
Replacing slices.

The store of the partition index has one entry for each slice, under the key of its
end.  A replacement takes the entries of the old slices out by their ends and puts those
of the new ones in, so as sets of intervals one part of the line is exchanged for
another; what the blocks are rewritten to does not touch the store.

The checks see to it that the new slices follow each other from the start of the old
ones to their end.  They do not ask whether a slice is empty.  An empty slice shares its
end with the one before it and takes its place in the store.
-/
import RailwayDB.Lib.Tiling
import RailwayDB.Proofs.Codec
import RailwayDB.Proofs.PartitionHistory
import RailwayDB.Proofs.StorageFrame

namespace RailwayDB

open NetworkByteBuffer

variable {T : Type} [Preorder T] [Timestamp T]

/-! ### The bytes of a slice -/

namespace TimeSlicedPartitioning

/-- The start and the end. -/
def bounds (s : TimeSlicedPartitioning T) : T × T := (s.startTime, s.endTime)

def partBytes (attributes : List Text) : List Byte :=
  Bytes.bigEndian 4 (BitVec.ofNat 32 attributes.length).toNat ++ attributes.flatMap textBytes

def bytes (s : TimeSlicedPartitioning T) : List Byte :=
  timeBytes s.startTime ++ timeBytes s.endTime
    ++ Bytes.bigEndian 4 (BitVec.ofNat 32 s.partitioning.length).toNat
    ++ s.partitioning.flatMap partBytes

theorem written_writePart {sbuf : NetworkByteBuffer} {old : List Byte} (h : Written old sbuf)
    (attributes : List Text) :
    WithinLimit (old ++ partBytes attributes).length (Written (old ++ partBytes attributes))
      (writePart sbuf attributes) := by
  unfold writePart partBytes
  rw [← List.append_assoc]
  refine (h.addUInt32 _).bind (by simp) ?_
  intro sbuf' h'
  exact Written.foldlM attributes (fun name _ {sb old} hsb => hsb.addSTLString name) h'

theorem written_write (s : TimeSlicedPartitioning T) :
    WithinLimit s.bytes.length (Written s.bytes) (write NetworkByteBuffer.new s) := by
  unfold write bytes
  refine (written_new.addDouble (Timestamp.toBits s.startTime)).bind (by simp [timeBytes]) ?_
  intro sbuf h
  refine (h.addDouble (Timestamp.toBits s.endTime)).bind (by simp [timeBytes]; omega) ?_
  intro sbuf' h'
  refine (h'.addUInt32 _).bind (by simp [timeBytes]; omega) ?_
  intro sbuf'' h''
  exact Written.foldlM s.partitioning (fun part _ {sb old} hsb => written_writePart hsb part) h''

theorem serialize_eq_ok {s : TimeSlicedPartitioning T} {data : List Byte}
    (h : s.serialize = .ok data) : data = s.bytes := by
  unfold serialize at h
  obtain ⟨sbuf, hwrite, hdata⟩ := Except.bind_eq_ok.mp h
  rw [Except.pure_eq_ok, Except.ok.injEq] at hdata
  rw [← hdata]
  exact ((written_write s).of_ok hwrite).contents

end TimeSlicedPartitioning

namespace PartitionIndex

/-- The bounds a stored slice begins with. -/
def readBounds (value : List Byte) : Except Fault (T × T) := do
  let (startTime, sbuf) ← (NetworkByteBuffer.ofBytes value).getDouble
  let (endTime, _) ← sbuf.getDouble
  return (Timestamp.ofBits startTime, Timestamp.ofBits endTime)

theorem readBounds_bytes (s : TimeSlicedPartitioning T) : readBounds s.bytes = .ok s.bounds := by
  have hbytes : s.bytes = timeBytes s.startTime ++ (timeBytes s.endTime
      ++ (Bytes.bigEndian 4 (BitVec.ofNat 32 s.partitioning.length).toNat
        ++ s.partitioning.flatMap TimeSlicedPartitioning.partBytes)) := by
    unfold TimeSlicedPartitioning.bytes
    rw [List.append_assoc, List.append_assoc]
  rw [hbytes]
  have hunread := unread_ofBytes (timeBytes s.startTime ++ (timeBytes s.endTime
    ++ (Bytes.bigEndian 4 (BitVec.ofNat 32 s.partitioning.length).toNat
      ++ s.partitioning.flatMap TimeSlicedPartitioning.partBytes)))
  obtain ⟨hstart, hrest⟩ := Reads.getDouble (Timestamp.toBits s.startTime) _ _ hunread
  obtain ⟨hend, -⟩ := Reads.getDouble (Timestamp.toBits s.endTime) _ _ hrest
  unfold readBounds
  simp only [hstart, Except.ok_bind, hend, Timestamp.ofBits_toBits]
  rfl

/-! ### The slices of the store -/

/-- The bounds of the stored slices. -/
def bounds (idx : PartitionIndex T) : Set (T × T) :=
  {p | ∃ entry ∈ idx.db.entries, readBounds entry.2 = .ok p}

/-- Every entry is a slice, under the key of its own end. -/
def Keyed (idx : PartitionIndex T) : Prop :=
  ∀ entry ∈ idx.db.entries, ∃ p : T × T,
    readBounds entry.2 = .ok p ∧ PartitionIndex.key p.2 = .ok entry.1

/-- The stored slices are not empty, no time is in two of them, every time is in one, and each is
found under its own end. -/
structure TilesTime (idx : PartitionIndex T) : Prop where
  keyed : Keyed idx
  tiles : Tiles Prod.fst Prod.snd idx.bounds Timestamp.negInfinity Timestamp.infinity

variable {idx idx' : PartitionIndex T} {s : TimeSlicedPartitioning T}

/-- The end of a slice tells its entry. -/
theorem Keyed.mem_iff (hk : Keyed idx) {entry : List Byte × List Byte}
    (hentry : entry ∈ idx.db.entries) {p : T × T} (hp : readBounds entry.2 = .ok p) (t : T) :
    entry.1 = timeBytes t ↔ p.2 = t := by
  obtain ⟨p', hp', hkey⟩ := hk entry hentry
  rw [hp, Except.ok.injEq] at hp'
  rw [key_inj hkey, ← hp']
  exact ⟨fun h => timeBytes_injective h, fun h => by rw [h]⟩

/-- A slice with an end of its own comes to the others. -/
theorem addPartitioning_bounds (hk : Keyed idx) (hadd : idx.addPartitioning s = .ok idx')
    (hnew : ∀ q ∈ idx.bounds, q.2 ≠ s.endTime) :
    Keyed idx' ∧ idx'.bounds = insert s.bounds idx.bounds := by
  unfold addPartitioning at hadd
  obtain ⟨key, hkey, hadd⟩ := Except.bind_eq_ok.mp hadd
  obtain ⟨data, hdata, hadd⟩ := Except.bind_eq_ok.mp hadd
  rw [Except.pure_eq_ok, Except.ok.injEq] at hadd
  have hkey := key_inj hkey
  have hdata := TimeSlicedPartitioning.serialize_eq_ok hdata
  have hmem : ∀ entry, entry ∈ idx'.db.entries ↔ entry = (key, data) ∨ entry ∈ idx.db.entries := by
    intro entry
    rw [← hadd, SortedMap.mem_insert_iff]
    refine or_congr_right ⟨fun h => h.1, fun h => ⟨h, ?_⟩⟩
    obtain ⟨p, hp, -⟩ := hk entry h
    rw [hkey, ne_eq, hk.mem_iff h hp]
    exact hnew p ⟨entry, h, hp⟩
  have hread : readBounds data = .ok s.bounds := by
    rw [hdata]
    exact readBounds_bytes s
  refine ⟨?_, ?_⟩
  · intro entry hentry
    rcases (hmem entry).mp hentry with rfl | hentry
    · exact ⟨s.bounds, hread, by rw [hkey]; exact key_eq _⟩
    · exact hk entry hentry
  · ext p
    rw [Set.mem_insert_iff]
    constructor
    · rintro ⟨entry, hentry, hp⟩
      rcases (hmem entry).mp hentry with rfl | hentry
      · rw [hread, Except.ok.injEq] at hp
        exact Or.inl hp.symm
      · exact Or.inr ⟨entry, hentry, hp⟩
    · rintro (rfl | ⟨entry, hentry, hp⟩)
      · exact ⟨(key, data), (hmem _).mpr (Or.inl rfl), hread⟩
      · exact ⟨entry, (hmem _).mpr (Or.inr hentry), hp⟩

section Decidable

variable [DecidableLE T] [DecidableLT T]

theorem initiatePartitioningRemoval_db {T : Type} [Preorder T] [Timestamp T] [DecidableLT T]
    {idx idx' : PartitionIndex T} {s : TimeSlicedPartitioning T}
    (hremove : idx.initiatePartitioningRemoval s = .ok idx') :
    idx'.db = idx.db.erase (timeBytes s.endTime) := by
  unfold initiatePartitioningRemoval at hremove
  rw [key_eq, Except.ok_bind] at hremove
  dsimp only at hremove
  split at hremove
  · rw [Except.pure_eq_ok, Except.ok.injEq] at hremove
    rw [← hremove]
  · obtain ⟨idx₁, herase, hremove⟩ := Except.bind_eq_ok.mp hremove
    rw [Except.pure_eq_ok, Except.ok.injEq] at hremove
    unfold eraseNode at herase
    split_ifs at herase with hlive
    rw [Except.ok.injEq] at herase
    rw [← hremove, ← herase]

/-- The slice that ends there goes. -/
theorem initiatePartitioningRemoval_bounds {T : Type} [Preorder T] [Timestamp T] [DecidableLT T]
    {idx idx' : PartitionIndex T} {s : TimeSlicedPartitioning T} (hk : Keyed idx)
    (hremove : idx.initiatePartitioningRemoval s = .ok idx') :
    Keyed idx' ∧ idx'.bounds = {q ∈ idx.bounds | q.2 ≠ s.endTime} := by
  have hmem : ∀ entry, entry ∈ idx'.db.entries ↔
      entry ∈ idx.db.entries ∧ entry.1 ≠ timeBytes s.endTime := by
    intro entry
    rw [initiatePartitioningRemoval_db hremove, SortedMap.mem_erase_iff]
  refine ⟨fun entry hentry => hk entry ((hmem entry).mp hentry).1, ?_⟩
  ext p
  constructor
  · rintro ⟨entry, hentry, hp⟩
    obtain ⟨hentry, hne⟩ := (hmem entry).mp hentry
    rw [ne_eq, hk.mem_iff hentry hp] at hne
    exact ⟨⟨entry, hentry, hp⟩, hne⟩
  · rintro ⟨⟨entry, hentry, hp⟩, hne⟩
    refine ⟨entry, (hmem entry).mpr ⟨hentry, ?_⟩, hp⟩
    rw [ne_eq, hk.mem_iff hentry hp]
    exact hne

/-! ### Many slices -/

theorem addPartitionings_bounds {T : Type} [Preorder T] [Timestamp T] {idx idx' : PartitionIndex T}
    (l : List (TimeSlicedPartitioning T)) (hk : Keyed idx)
    (hadd : l.foldlM addPartitioning idx = .ok idx')
    (hends : l.Pairwise fun s s' => s.endTime ≠ s'.endTime)
    (hnew : ∀ s ∈ l, ∀ q ∈ idx.bounds, q.2 ≠ s.endTime) :
    Keyed idx' ∧ idx'.bounds = idx.bounds ∪ {q | ∃ s ∈ l, s.bounds = q} := by
  induction l generalizing idx with
  | nil =>
      have heq : idx = idx' := Except.ok.inj hadd
      rw [← heq]
      refine ⟨hk, ?_⟩
      simp
  | cons s l ih =>
      rw [List.foldlM_cons] at hadd
      obtain ⟨idx₁, hfirst, hrest⟩ := Except.bind_eq_ok.mp hadd
      obtain ⟨hk₁, hbounds₁⟩ :=
        addPartitioning_bounds hk hfirst fun q hq => hnew s List.mem_cons_self q hq
      obtain ⟨hs, hends⟩ := List.pairwise_cons.mp hends
      have hnew₁ : ∀ s' ∈ l, ∀ q ∈ idx₁.bounds, q.2 ≠ s'.endTime := by
        intro s' hs' q hq
        rw [hbounds₁] at hq
        rcases hq with rfl | hq
        · exact hs s' hs'
        · exact hnew s' (List.mem_cons_of_mem _ hs') q hq
      obtain ⟨hk', hbounds'⟩ := ih hk₁ hrest hends hnew₁
      refine ⟨hk', ?_⟩
      rw [hbounds', hbounds₁]
      ext q
      simp only [Set.mem_union, Set.mem_insert_iff, Set.mem_ofPred_eq, List.mem_cons,
        exists_eq_or_imp]
      rw [eq_comm, or_assoc, or_left_comm]

theorem initiatePartitioningRemovals_bounds {T : Type} [Preorder T] [Timestamp T] [DecidableLT T]
    {idx idx' : PartitionIndex T} (l : List (TimeSlicedPartitioning T)) (hk : Keyed idx)
    (hremove : l.foldlM initiatePartitioningRemoval idx = .ok idx') :
    Keyed idx' ∧ idx'.bounds = {q ∈ idx.bounds | ∀ s ∈ l, q.2 ≠ s.endTime} := by
  induction l generalizing idx with
  | nil =>
      have heq : idx = idx' := Except.ok.inj hremove
      rw [← heq]
      refine ⟨hk, ?_⟩
      simp
  | cons s l ih =>
      rw [List.foldlM_cons] at hremove
      obtain ⟨idx₁, hfirst, hrest⟩ := Except.bind_eq_ok.mp hremove
      obtain ⟨hk₁, hbounds₁⟩ := initiatePartitioningRemoval_bounds hk hfirst
      obtain ⟨hk', hbounds'⟩ := ih hk₁ hrest
      refine ⟨hk', ?_⟩
      rw [hbounds', hbounds₁]
      ext q
      simp only [Set.mem_ofPred_eq, List.forall_mem_cons, and_assoc]

variable [@Std.Total T (· ≤ ·)]

/-- The tiling of the line after slices of it were exchanged for others that follow each other over
the same stretch. -/
theorem TilesTime.exchange {T : Type} [Preorder T] [Timestamp T] [DecidableLT T]
    [@Std.Total T (· ≤ ·)] {removed added : List (TimeSlicedPartitioning T)}
    {idx idx' idx₁ : PartitionIndex T} (h : TilesTime idx)
    (hstored : ∀ s ∈ removed, s.bounds ∈ idx.bounds)
    (hremove : removed.foldlM initiatePartitioningRemoval idx = .ok idx₁)
    (hadd : added.foldlM addPartitioning idx₁ = .ok idx') {a b : T}
    (hremoved : Tiles Prod.fst Prod.snd {q | ∃ s ∈ removed, s.bounds = q} a b)
    (hadded : Tiles Prod.fst Prod.snd {q | ∃ s ∈ added, s.bounds = q} a b)
    (hends : added.Pairwise fun s s' => s.endTime < s'.endTime)
    (ha : Timestamp.negInfinity ≤ a) (hb : b ≤ Timestamp.infinity) : TilesTime idx' := by
  have hsub : {q | ∃ s ∈ removed, s.bounds = q} ⊆ idx.bounds := by
    rintro q ⟨s, hs, rfl⟩
    exact hstored s hs
  obtain ⟨hk₁, hbounds₁⟩ := initiatePartitioningRemovals_bounds removed h.keyed hremove
  -- a slice that ends where a removed one does is the removed one
  have hleft : idx₁.bounds = idx.bounds \ {q | ∃ s ∈ removed, s.bounds = q} := by
    rw [hbounds₁]
    ext q
    refine and_congr_right fun hq => ⟨?_, ?_⟩
    · rintro hne ⟨s, hs, rfl⟩
      exact hne s hs rfl
    · intro hnot s hs heq
      refine hnot ⟨s, hs, h.tiles.eq_of_stop (hstored s hs) hq ?_ ?_⟩
      · exact le_of_eq heq.symm
      · exact le_of_eq heq
  have hnew : ∀ s ∈ added, ∀ q ∈ idx₁.bounds, q.2 ≠ s.endTime := by
    intro s hs q hq heq
    rw [hleft] at hq
    exact h.tiles.stop_apart hsub hremoved hadded hq ⟨s, hs, rfl⟩
      ⟨le_of_eq heq, le_of_eq heq.symm⟩
  obtain ⟨hk', hbounds'⟩ :=
    addPartitionings_bounds added hk₁ hadd (hends.imp fun hlt => ne_of_lt hlt) hnew
  refine ⟨hk', ?_⟩
  rw [hbounds', hleft]
  exact h.tiles.exchange hsub hremoved hadded ha hb

end Decidable

theorem TilesTime.of_db (h : TilesTime idx) (hdb : idx'.db = idx.db) : TilesTime idx' := by
  refine ⟨?_, ?_⟩
  · unfold Keyed
    rw [hdb]
    exact h.keyed
  · unfold bounds
    rw [hdb]
    exact h.tiles

/-- A new index has one slice, the whole line. -/
theorem tilesTime_new {partitioningBufferSize : Nat} {edgeSchema : Schema}
    (hnew : PartitionIndex.new partitioningBufferSize edgeSchema = .ok idx) : TilesTime idx := by
  have hadd : (reopen partitioningBufferSize edgeSchema .empty).addPartitioning
      { (TimeSlicedPartitioning.new : TimeSlicedPartitioning T) with
        partitioning := [edgeSchema.names.dedup] } = .ok idx := hnew
  have hnone : (reopen partitioningBufferSize edgeSchema .empty : PartitionIndex T).bounds = ∅ := by
    ext q
    simp [bounds, reopen, SortedMap.empty]
  obtain ⟨hk, hbounds⟩ := addPartitioning_bounds
    (fun entry hentry => absurd hentry (by simp [reopen, SortedMap.empty])) hadd
    (fun q hq => absurd hq (by simp [hnone]))
  refine ⟨hk, ?_⟩
  rw [hbounds, hnone, insert_empty_eq]
  exact Tiles.singleton (i := ((Timestamp.negInfinity, Timestamp.infinity) : T × T))
    Timestamp.negInfinity_lt_infinity

/-! ### Slices that follow each other -/

section Calls

variable [DecidableLE T] [DecidableLT T]

theorem contiguous_iff {T : Type} [Preorder T] [DecidableLE T]
    (l : List (TimeSlicedPartitioning T)) :
    contiguous l = true ↔ Contiguous Prod.fst Prod.snd (l.map TimeSlicedPartitioning.bounds) := by
  unfold Contiguous
  rw [List.isChain_map]
  induction l with
  | nil => simp [contiguous]
  | cons s l ih =>
      cases l with
      | nil => simp [contiguous]
      | cons s' rest =>
          rw [List.isChain_cons_cons, ← ih, contiguous, Bool.and_eq_true, decide_eq_true_eq]
          rfl

variable [@Std.Total T (· ≤ ·)]

theorem tiles_of_contiguous {T : Type} [Preorder T] [DecidableLE T] [@Std.Total T (· ≤ ·)]
    {l : List (TimeSlicedPartitioning T)} (hc : contiguous l = true)
    (hne : ∀ s ∈ l, s.startTime < s.endTime) {first last : TimeSlicedPartitioning T}
    (hfirst : l.head? = some first) (hlast : l.getLast? = some last) :
    Tiles Prod.fst Prod.snd {q | ∃ s ∈ l, s.bounds = q} first.startTime last.endTime ∧
      l.Pairwise fun s s' => s.endTime < s'.endTime := by
  have hchain := (contiguous_iff l).mp hc
  have hne' : ∀ q ∈ l.map TimeSlicedPartitioning.bounds, q.1 < q.2 := by
    intro q hq
    obtain ⟨s, hs, rfl⟩ := List.mem_map.mp hq
    exact hne s hs
  have hstops := hchain.pairwise_stop hne'
  rw [List.pairwise_map] at hstops
  refine ⟨?_, hstops⟩
  have hset : {q | ∃ s ∈ l, s.bounds = q} = {q | q ∈ l.map TimeSlicedPartitioning.bounds} := by
    ext q
    exact List.mem_map.symm
  rw [hset]
  exact hchain.tiles hne' (i := first.bounds) (j := last.bounds) (by rw [List.head?_map, hfirst]; rfl)
    (by rw [List.getLast?_map, hlast]; rfl)

/-! ### The calls -/

variable [DecidableEq T] [BlockTime T] {schema : Schema}
  {g g' : HistoricalGraph (PartitionIndex T) T schema}

theorem forSlices_ok {T : Type} [Preorder T] {schema : Schema}
    {g g' : HistoricalGraph (PartitionIndex T) T schema}
    {f : PartitionIndex T → TimeSlicedPartitioning T → Except Fault (PartitionIndex T)}
    (l : List (TimeSlicedPartitioning T))
    (h : (forSlices f l : Storage (PartitionIndex T) T schema Unit) g = .ok () g') :
    l.foldlM f g.partIndex = .ok g'.partIndex := by
  induction l generalizing g with
  | nil =>
      have heq : g = g' := (EStateM.Result.ok.inj h).2
      rw [heq]
      rfl
  | cons s l ih =>
      rw [List.foldlM_cons]
      unfold forSlices at h
      obtain ⟨_, g₁, hfirst, hrest⟩ := run_bind_eq_ok.mp h
      obtain ⟨idx, hf, rfl⟩ := Storage.onIndex_eq_ok.mp hfirst
      obtain ⟨idx', hf, heq⟩ := Except.map_eq_ok.mp hf
      rw [(Prod.mk.inj heq).2] at hf
      rw [hf, Except.ok_bind]
      exact ih hrest

theorem sameDb_frame : Storage.Frame (Storage.OfIndex (fun idx idx' => idx'.db = idx.db) :
    HistoricalGraph (PartitionIndex T) T schema → _ → Prop) := by
  refine Storage.frame_ofIndex (fun idx t s idx' h => getTimeSlicedPartitioning_db h) ?_
  intro idx t s idx' h
  replace h : idx.getTimeSlicedPartitioningForBlockDeserialization t = .ok (s, idx') := h
  unfold getTimeSlicedPartitioningForBlockDeserialization at h
  split at h
  · rw [Except.ok.injEq, Prod.mk.injEq] at h
    rw [h.2]
  · exact getTimeSlicedPartitioning_db h

/-- Only the two loops over slices write to the store of slices. -/
theorem replaceSlices_ok {rtree : RTree T} {removed added updated : List (TimeSlicedPartitioning T)}
    (h : (replaceSlices rtree removed added updated :
      Storage (PartitionIndex T) T schema Unit) g = .ok () g') :
    ∃ idx₁ idx₂, removed.foldlM initiatePartitioningRemoval g.partIndex = .ok idx₁ ∧
      added.foldlM addPartitioning idx₁ = .ok idx₂ ∧ g'.partIndex.db = idx₂.db := by
  unfold replaceSlices at h
  obtain ⟨_, g₁, hremove, h⟩ := run_bind_eq_ok.mp h
  obtain ⟨_, g₂, hadd, h⟩ := run_bind_eq_ok.mp h
  obtain ⟨_, g₃, hupdate, h⟩ := run_bind_eq_ok.mp h
  have hdb : g₃.partIndex.db = g₂.partIndex.db :=
    (sameDb_frame.updateSlices rtree updated g₂).of_ok hupdate
  refine ⟨g₁.partIndex, g₂.partIndex, forSlices_ok removed hremove, forSlices_ok added hadd, ?_⟩
  rw [← hdb, ← (EStateM.Result.ok.inj h).2]
  rfl

theorem checkReplacement_eq_none {T : Type} [Preorder T] [DecidableLE T] {schema : Schema}
    {old : TimeSlicedPartitioning T} {l : List (TimeSlicedPartitioning T)}
    (h : checkReplacement schema old l = none) :
    ∃ first last, l.head? = some first ∧ l.getLast? = some last ∧
      TimeEq old.startTime first.startTime ∧ TimeEq old.endTime last.endTime ∧
      contiguous l = true ∧
      ∀ s ∈ l, getPartitioningAttributeCount s.partitioning = schema.attributes.length := by
  unfold checkReplacement at h
  split at h
  · rename_i first last hfirst hlast
    split_ifs at h with hstart hend hchain hcover
    refine ⟨first, last, hfirst, hlast, hstart, hend, hchain, ?_⟩
    intro s hs
    by_contra hcount
    exact hcover ⟨s, hs, hcount⟩
  · cases h

theorem checkReplaced_eq_none {T : Type} [Preorder T] [DecidableLE T] {schema : Schema}
    {l : List (TimeSlicedPartitioning T)} {new : TimeSlicedPartitioning T}
    (h : checkReplaced schema l new = none) :
    ∃ first last, l.head? = some first ∧ l.getLast? = some last ∧
      TimeEq first.startTime new.startTime ∧ TimeEq last.endTime new.endTime ∧
      contiguous l = true ∧
      getPartitioningAttributeCount new.partitioning = schema.attributes.length := by
  unfold checkReplaced at h
  split at h
  · rename_i first last hfirst hlast
    split_ifs at h with hstart hend hchain hcover
    exact ⟨first, last, hfirst, hlast, hstart, hend, hchain, not_not.mp hcover⟩
  · cases h

theorem replaceTimeSlicedPartitioning_tiles {rtree : RTree T} {old : TimeSlicedPartitioning T}
    {l : List (TimeSlicedPartitioning T)} (h : TilesTime g.partIndex)
    (hstored : old.bounds ∈ g.partIndex.bounds) (hne : ∀ s ∈ l, s.startTime < s.endTime)
    (hrun : (replaceTimeSlicedPartitioning rtree old l :
      Storage (PartitionIndex T) T schema Unit) g = .ok () g') : TilesTime g'.partIndex := by
  unfold replaceTimeSlicedPartitioning at hrun
  cases hcheck : checkReplacement schema old l with
  | some description =>
      rw [hcheck] at hrun
      cases hrun
  | none =>
      rw [hcheck] at hrun
      obtain ⟨first, last, hfirst, hlast, hstart, hend, hchain, -⟩ :=
        checkReplacement_eq_none hcheck
      obtain ⟨idx₁, idx₂, hremove, hadd, hdb⟩ := replaceSlices_ok hrun
      have hall : ∀ s ∈ [old], s.bounds ∈ g.partIndex.bounds := by
        intro s hs
        rw [List.mem_singleton.mp hs]
        exact hstored
      obtain ⟨hremoved, -⟩ := tiles_of_contiguous (l := [old]) rfl
        (fun s hs => h.tiles.nonempty _ (hall s hs)) rfl rfl
      obtain ⟨hadded, hends⟩ := tiles_of_contiguous hchain hne hfirst hlast
      obtain ⟨hlo, hhi⟩ := h.tiles.within _ hstored
      exact (h.exchange hall hremove hadd hremoved
        (hadded.congr hstart.2 hstart.1 hend.2 hend.1) hends hlo hhi).of_db hdb

theorem replaceTimeSlicedPartitionings_tiles {rtree : RTree T}
    {l : List (TimeSlicedPartitioning T)} {new : TimeSlicedPartitioning T}
    (h : TilesTime g.partIndex) (hstored : ∀ s ∈ l, s.bounds ∈ g.partIndex.bounds)
    (hrun : (replaceTimeSlicedPartitionings rtree l new :
      Storage (PartitionIndex T) T schema Unit) g = .ok () g') : TilesTime g'.partIndex := by
  unfold replaceTimeSlicedPartitionings at hrun
  cases hcheck : checkReplaced schema l new with
  | some description =>
      rw [hcheck] at hrun
      cases hrun
  | none =>
      rw [hcheck] at hrun
      obtain ⟨first, last, hfirst, hlast, hstart, hend, hchain, -⟩ :=
        checkReplaced_eq_none hcheck
      obtain ⟨idx₁, idx₂, hremove, hadd, hdb⟩ := replaceSlices_ok hrun
      have hne : ∀ s ∈ l, s.startTime < s.endTime :=
        fun s hs => h.tiles.nonempty _ (hstored s hs)
      have hmem := List.mem_of_head? hfirst
      obtain ⟨hremoved, -⟩ := tiles_of_contiguous hchain hne hfirst hlast
      -- the new slice is as long as the old ones together
      have hnew : new.startTime < new.endTime := by
        refine lt_of_le_of_lt hstart.2 (lt_of_lt_of_le (hne first hmem) (le_trans ?_ hend.1))
        exact (hremoved.within first.bounds ⟨first, hmem, rfl⟩).2
      obtain ⟨hadded, hends⟩ := tiles_of_contiguous (l := [new]) rfl
        (fun s hs => by rw [List.mem_singleton.mp hs]; exact hnew) rfl rfl
      refine (h.exchange hstored hremove hadd hremoved
        (hadded.congr hstart.2 hstart.1 hend.2 hend.1) hends ?_ ?_).of_db hdb
      · exact (h.tiles.within _ (hstored first hmem)).1
      · exact (h.tiles.within _ (hstored last (List.mem_of_getLast? hlast))).2

/-! ### Any number of calls -/

/-- A call that replaces slices. -/
inductive Replacement (T : Type) where
  | one (toBeReplaced : TimeSlicedPartitioning T) (replacement : List (TimeSlicedPartitioning T))
  | many (toBeReplaced : List (TimeSlicedPartitioning T)) (replacement : TimeSlicedPartitioning T)

namespace Replacement

def run (rtree : RTree T) : Replacement T → Storage (PartitionIndex T) T schema Unit
  | one old new => replaceTimeSlicedPartitioning rtree old new
  | many old new => replaceTimeSlicedPartitionings rtree old new

/-- The slices to be replaced. -/
def old : Replacement T → List (TimeSlicedPartitioning T)
  | one old _ => [old]
  | many old _ => old

/-- No slice of a sequence that comes in is empty. -/
def NonEmpty : Replacement T → Prop
  | one _ new => ∀ s ∈ new, s.startTime < s.endTime
  | many _ _ => True

end Replacement

/-- The states that calls which return lead to, when each replaces stored slices and brings in no
empty one. -/
inductive Replaced (g₀ : HistoricalGraph (PartitionIndex T) T schema) :
    HistoricalGraph (PartitionIndex T) T schema → Prop where
  | start : Replaced g₀ g₀
  | call {g g' : HistoricalGraph (PartitionIndex T) T schema} {rtree : RTree T}
      {c : Replacement T} : Replaced g₀ g → (∀ s ∈ c.old, s.bounds ∈ g.partIndex.bounds) →
      c.NonEmpty → c.run rtree g = .ok () g' → Replaced g₀ g'

/-- Started on a new index, the slices tile the line after every call. -/
theorem replaced_tilesTime {g₀ : HistoricalGraph (PartitionIndex T) T schema}
    {partitioningBufferSize : Nat}
    (hnew : PartitionIndex.new partitioningBufferSize schema = .ok g₀.partIndex)
    (hrun : Replaced g₀ g) : TilesTime g.partIndex := by
  induction hrun with
  | start => exact tilesTime_new hnew
  | @call g g' rtree c _ hstored hne hcall ih =>
      cases c with
      | one old new =>
          exact replaceTimeSlicedPartitioning_tiles ih (hstored old List.mem_cons_self) hne hcall
      | many old new => exact replaceTimeSlicedPartitionings_tiles ih hstored hcall

end Calls

/-! ### Slices that meet at five -/

section Examples

/-- An R-tree that visits all it has. -/
def wholeTree : RTree Double where
  visit entries _ _ := entries
  mem_of_visit _ _ _ _ h := h
  visit_of_meets _ _ _ _ h _ _ := h

def oneAttribute : Schema := ⟨[⟨[97], .int64⟩]⟩

/-- The slice of a new index. -/
def wholeLine : TimeSlicedPartitioning Double :=
  ⟨Timestamp.negInfinity, Timestamp.infinity, [[[97]]]⟩

/-- A graph without blocks over a new index. -/
def newGraph (idx : PartitionIndex Double) :
    HistoricalGraph (PartitionIndex Double) Double oneAttribute :=
  { partIndex := idx
    bman := .new 10 .empty
    iqIndex := []
    fiqIndex := .empty
    metaData := .load none }

/-- The line cut at five. -/
def cut : Replacement Double := .one wholeLine [sliceBefore, sliceAfter]

/-- The line cut at five, with an empty slice in between. -/
def doubleCut : Replacement Double :=
  .one wholeLine [sliceBefore, ⟨Double.ofFloat 5.0, Double.ofFloat 5.0, [[[97]]]⟩, sliceAfter]

/-- What can be read off a store. -/
def readAll (db : SortedMap (List Byte) (List Byte)) : List (Option (Double × Double)) :=
  db.entries.map fun entry => (readBounds entry.2).toOption

theorem mem_bounds_of_readAll {idx : PartitionIndex Double} {p : Double × Double}
    (h : some p ∈ readAll idx.db) : p ∈ idx.bounds := by
  obtain ⟨entry, hentry, hread⟩ := List.mem_map.mp h
  exact ⟨entry, hentry, Except.of_toOption hread⟩

theorem exists_cut :
    ∃ idx, PartitionIndex.new 16384 oneAttribute = .ok idx ∧ wholeLine.bounds ∈ idx.bounds ∧
      ∃ g, cut.run wholeTree (newGraph idx) = .ok () g := by
  have heval : (PartitionIndex.new 16384 oneAttribute :
      Except Fault (PartitionIndex Double)).toOption.map (fun idx => (readAll idx.db,
        answer? (cut.run wholeTree (newGraph idx)))) = some ([some wholeLine.bounds], some ()) := by
    decide +kernel
  obtain ⟨idx, hnew, hvals⟩ := Except.of_toOption_map heval
  obtain ⟨hbefore, hrun⟩ := Prod.mk.inj hvals
  refine ⟨idx, hnew, mem_bounds_of_readAll ?_, of_answer? hrun⟩
  rw [hbefore]
  exact List.mem_cons_self

theorem doubleCut_bounds {idx : PartitionIndex Double}
    (hnew : PartitionIndex.new 16384 oneAttribute = .ok idx) :
    ∃ g, doubleCut.run wholeTree (newGraph idx) = .ok () g ∧
      (Double.ofFloat 5.0, Double.ofFloat 5.0) ∈ g.partIndex.bounds := by
  have heval : (PartitionIndex.new 16384 oneAttribute :
      Except Fault (PartitionIndex Double)).toOption.map (fun idx =>
        (answer? (doubleCut.run wholeTree (newGraph idx)),
          readAll (stateAfter (doubleCut.run wholeTree) (newGraph idx)).partIndex.db))
        = some (some (), [some (Double.ofFloat 5.0, Double.ofFloat 5.0), some sliceAfter.bounds]) := by
    decide +kernel
  obtain ⟨idx', hnew', hvals⟩ := Except.of_toOption_map heval
  rw [hnew, Except.ok.injEq] at hnew'
  obtain ⟨hrun, hafter⟩ := Prod.mk.inj hvals
  rw [← hnew'] at hrun hafter
  obtain ⟨g, hrun⟩ := of_answer? hrun
  unfold stateAfter at hafter
  rw [hrun] at hafter
  refine ⟨g, hrun, mem_bounds_of_readAll ?_⟩
  rw [hafter]
  exact List.mem_cons_self

theorem replaced_tilesTime_cut :
    ∃ idx, ∃ g : HistoricalGraph (PartitionIndex Double) Double oneAttribute,
      PartitionIndex.new 16384 oneAttribute = .ok idx ∧
      cut.run wholeTree (newGraph idx) = .ok () g ∧ TilesTime g.partIndex := by
  obtain ⟨idx, hnew, hstored, g, hrun⟩ := exists_cut
  refine ⟨idx, g, hnew, hrun, replaced_tilesTime
    (show PartitionIndex.new 16384 oneAttribute = .ok (newGraph idx).partIndex from hnew) ?_⟩
  refine Replaced.start.call ?_ ?_ hrun
  · intro s hs
    rw [List.mem_singleton.mp hs]
    exact hstored
  · show ∀ s ∈ [sliceBefore, sliceAfter], s.startTime < s.endTime
    decide +kernel

/-- The empty slice takes the place of the one before five. -/
theorem empty_slice_breaks_tiling :
    ∃ idx, ∃ g : HistoricalGraph (PartitionIndex Double) Double oneAttribute,
      PartitionIndex.new 16384 oneAttribute = .ok idx ∧ wholeLine.bounds ∈ idx.bounds ∧
      doubleCut.run wholeTree (newGraph idx) = .ok () g ∧ ¬ TilesTime g.partIndex := by
  obtain ⟨idx, hnew, hstored, -⟩ := exists_cut
  obtain ⟨g, hrun, hempty⟩ := doubleCut_bounds hnew
  refine ⟨idx, g, hnew, hstored, hrun, ?_⟩
  intro htiles
  exact lt_irrefl _ (htiles.tiles.nonempty _ hempty)

end Examples

end PartitionIndex

end RailwayDB
