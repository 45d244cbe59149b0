/-
A stored block comes back.

`serialize` either writes the bytes given by `Block.bytes` or, when they would pass
the limit of the buffer, throws.  `deserialize` of those bytes, with the
partitioning the block was split by, gives the block that `ComesBack` describes: the
lists in their order, one object for the two directions of an edge, and of the data
what the wire keeps.  That is all of the data unless a text has 2^32 bytes or more.

The two loops of the reader are in `Proofs/BlockCodec.lean`; here are the header,
the lookup of the partitioning, and the blocks that `partitionBlock` makes.
-/
import RailwayDB.Proofs.BlockCodec

namespace RailwayDB

open NetworkByteBuffer

variable {T : Type} {schema : Schema}

/-- The least of a set from which two elements were replaced by the smaller one. -/
theorem isLeast_of_min {α : Type} [LinearOrder α] {S S' : Set α} {a b m : α}
    (h : IsLeast ({min a b} ∪ S) m)
    (hS : ∀ t, t ∈ S' ↔ t = b ∨ t ∈ S) : IsLeast ({a} ∪ S') m := by
  refine ⟨?_, ?_⟩
  · rcases h.1 with hm | hm
    · rcases min_choice a b with hab | hab
      · exact Or.inl (hm.trans hab)
      · exact Or.inr ((hS m).mpr (Or.inl (hm.trans hab)))
    · exact Or.inr ((hS m).mpr (Or.inr hm))
  · rintro t (ht | ht)
    · rw [ht]
      exact le_trans (h.2 (Or.inl rfl)) (min_le_left a b)
    · rcases (hS t).mp ht with htb | ht
      · rw [htb]
        exact le_trans (h.2 (Or.inl rfl)) (min_le_right a b)
      · exact h.2 (Or.inr ht)

namespace Block

/-- What a list says of its edges. -/
def contents {D : Type} (l : List (NLEdge T D)) : List (VertexId × T × D) :=
  l.map fun e => (e.toVertex, e.time, e.data.val)

section Contents

variable [LinearOrder T]

/-- A block as the code builds one: every list in time order, no edge twice, the data of an edge
one object, and the bytes counted. -/
def Formed (block : Block T (AttributeData schema)) : Prop :=
  ∃ F seen, Built F seen block ∧ Listed fun v => ends (block.neigs.edges v)

/-- The block with another count of its bytes. -/
def counted (block : Block T (AttributeData schema)) (size : Nat) :
    Block T (AttributeData schema) :=
  { block with serializedSize := size }

/-- With the right count a block is formed when its lists are in order and each edge has one
object. -/
theorem exists_formed {block : Block T (AttributeData schema)} (hlists : ListsOK block.neigs)
    (hlisted : Listed fun v => ends (block.neigs.edges v))
    (hshared : ∀ v w, ∀ e ∈ block.neigs.edges v, ∀ e' ∈ block.neigs.edges w,
      e.triplet v = e'.triplet w → e.data = e'.data) : ∃ size, (block.counted size).Formed := by
  classical
  let F : EdgeTriplet T → SharedPtr (AttributeData schema) := fun t =>
    if h : ∃ v, ∃ e ∈ block.neigs.edges v, e.triplet v = t then h.choose_spec.choose.data
    else ⟨0, .empty schema⟩
  let seen := ((block.neigs.entries.flatMap fun x =>
    x.2.edges.map fun e => e.triplet x.1).dedup : List (EdgeTriplet T))
  refine ⟨8 + 12 * block.neigs.keys.length + 16 * edgeTotal block.neigs
    + (seen.map fun t => getSerializedSizeOf (F t).val).sum, F, seen,
    ⟨hlists, ?_, ?_, List.nodup_dedup _, rfl⟩, hlisted⟩
  · intro v e he
    have hex : ∃ w, ∃ e' ∈ block.neigs.edges w, e'.triplet w = e.triplet v := ⟨v, e, he, rfl⟩
    have hdata : F (e.triplet v) = hex.choose_spec.choose.data := dif_pos hex
    obtain ⟨he', htrip⟩ := hex.choose_spec.choose_spec
    rw [hdata]
    exact hshared v _ e he _ he' htrip.symm
  · intro t
    simp only [seen, List.mem_dedup, List.mem_flatMap, List.mem_map]
    refine ⟨?_, ?_⟩
    · intro hin
      obtain ⟨x, hx, e, he, htrip⟩ := hin
      refine ⟨x.1, e, ?_, htrip⟩
      show e ∈ block.neigs.edges x.1
      rw [NeighborListMap.edges_of_lookup (AList.mem_lookup_iff.mpr hx)]
      exact he
    · intro hin
      obtain ⟨v, e, he, htrip⟩ := hin
      have hlookup := hlists.lookup_eq (List.ne_nil_of_mem he)
      exact ⟨⟨v, ⟨v, block.neigs.edges v⟩⟩, AList.mem_lookup_iff.mp hlookup, e, he, htrip⟩

/-- What is left to check of a block whose lists are at hand. -/
theorem exists_formed_of_entries {block : Block T (AttributeData schema)}
    (hlists : ∀ x ∈ block.neigs.entries, x.2.headVertex = x.1 ∧ x.2.edges ≠ [])
    (hsorted : ∀ x ∈ block.neigs.entries,
      (ends x.2.edges).Pairwise (fun p q => p.2 ≤ q.2) ∧ (ends x.2.edges).Nodup)
    (hshared : ∀ x ∈ block.neigs.entries, ∀ e ∈ x.2.edges, ∀ y ∈ block.neigs.entries,
      ∀ e' ∈ y.2.edges, e.triplet x.1 = e'.triplet y.1 → e.data = e'.data) :
    ∃ size, (block.counted size).Formed := by
  refine exists_formed ?_ ⟨?_, ?_⟩ ?_
  · intro v nl hlookup
    exact hlists _ (AList.mem_lookup_iff.mp hlookup)
  · intro v
    rcases block.neigs.edges_cases v with ⟨x, hx, -, hedges⟩ | hnone
    · rw [hedges]
      exact (hsorted x hx).1
    · rw [hnone]
      exact List.Pairwise.nil
  · intro v
    rcases block.neigs.edges_cases v with ⟨x, hx, -, hedges⟩ | hnone
    · rw [hedges]
      exact (hsorted x hx).2
    · rw [hnone]
      exact List.nodup_nil
  · intro v w e he e' he'
    exact NeighborListMap.forall_edges (m := block.neigs)
      (P := fun w e' => e.triplet v = e'.triplet w → e.data = e'.data)
      (fun y hy e' he' => NeighborListMap.forall_edges (m := block.neigs)
        (P := fun v e => e.triplet v = e'.triplet y.1 → e.data = e'.data)
        (fun x hx e he => hshared x hx e he y hy e' he') v e he) w e' he'

theorem contents_of_built {T : Type} {F : EdgeTriplet T → SharedPtr (AttributeData schema)}
    {seen : List (EdgeTriplet T)} {block : Block T (AttributeData schema)} (h : Built F seen block)
    (v : VertexId) :
    contents (block.neigs.edges v)
      = (ends (block.neigs.edges v)).map fun p => (p.1, p.2, (F (.of v p.1 p.2)).val) := by
  unfold contents ends
  rw [List.map_map]
  refine List.map_congr_left ?_
  intro e he
  rw [h.data v e he]
  rfl

/-- Two blocks over the same lists whose data agrees edge by edge. -/
theorem contents_map {T : Type} {F F' : EdgeTriplet T → SharedPtr (AttributeData schema)}
    {seen seen' : List (EdgeTriplet T)} {block block' : Block T (AttributeData schema)}
    (h : Built F seen block) (h' : Built F' seen' block')
    (hends : ∀ v, ends (block'.neigs.edges v) = ends (block.neigs.edges v))
    {g : AttributeData schema → AttributeData schema} (hval : ∀ t ∈ seen', (F' t).val = g (F t).val)
    (v : VertexId) :
    contents (block'.neigs.edges v)
      = (contents (block.neigs.edges v)).map fun p => (p.1, p.2.1, g p.2.2) := by
  rw [contents_of_built h, contents_of_built h', hends, List.map_map]
  refine List.map_congr_left ?_
  intro p hp
  rw [← hends] at hp
  obtain ⟨e, he, hep⟩ := mem_ends.mp hp
  have hseen : EdgeTriplet.of v p.1 p.2 ∈ seen' := by
    rw [h'.mem_seen, ← hep]
    exact ⟨v, e, he, rfl⟩
  simp only [Function.comp_apply, hval _ hseen]

end Contents

section Header

variable [LinearOrder T] [Timestamp T]

/-! ### The header -/

def idsBytes (ids : List BlockId) : List Byte :=
  Bytes.bigEndian 4 (BitVec.ofNat 32 ids.length).toNat
    ++ ids.flatMap fun id => Bytes.bigEndian 8 (BitVec.ofFin id).toNat

theorem length_idsBytes (ids : List BlockId) : (idsBytes ids).length = 4 + 8 * ids.length := by
  unfold idsBytes
  rw [List.length_append, Bytes.length_bigEndian]
  induction ids with
  | nil => rfl
  | cons id ids ih =>
      simp only [List.flatMap_cons, List.length_append, List.length_cons,
        Bytes.length_bigEndian] at ih ⊢
      omega

theorem writeIds_ok {sb : NetworkByteBuffer} {old : List Byte} (h : Written old sb)
    (ids : List BlockId) :
    WithinLimit (old ++ idsBytes ids).length (Written (old ++ idsBytes ids)) (writeIds sb ids) := by
  unfold writeIds idsBytes
  rw [← List.append_assoc]
  refine (h.addUInt32 _).bind (by simp only [List.length_append]; omega) ?_
  intro sb₁ h₁
  refine h₁.foldlM ids ?_
  intro id _ sb old h
  exact h.addUInt64 (BitVec.ofFin id)

theorem readIds_ok (ids : List BlockId) :
    Reads (readIds ids.length)
      (ids.flatMap fun id => Bytes.bigEndian 8 (BitVec.ofFin id).toNat) ids := by
  induction ids with
  | nil => exact Reads.pure
  | cons id ids ih =>
      intro sb rest hu
      rw [List.flatMap_cons, List.append_assoc] at hu
      obtain ⟨hid, hu₁⟩ := Reads.getUInt64 (BitVec.ofFin id) sb _ hu
      obtain ⟨hids, hu₂⟩ := ih _ _ hu₁
      rw [advance_advance, ← List.length_append] at hids hu₂
      refine ⟨?_, hu₂⟩
      simp only [List.length_cons, readIds, hid, Except.ok_bind, hids, Except.pure_eq_ok,
        List.flatMap_cons]

/-- What stands before the lists. -/
def headerBytes (block : Block T (AttributeData schema)) (mn mx : T) : List Byte :=
  Bytes.bigEndian 8 (BitVec.ofFin block.id).toNat ++ idsBytes block.subBlocks
    ++ Bytes.bigEndian 8 (Timestamp.toBits mn).toNat
    ++ Bytes.bigEndian 8 (Timestamp.toBits mx).toNat
    ++ Bytes.bigEndian 4 (BitVec.ofInt 32 block.partition).toNat

/-- What is written of a block whose times span from `mn` to `mx`. -/
def bytes (block : Block T (AttributeData schema)) (mn mx : T) : List Byte :=
  block.headerBytes mn mx ++ (listsBytes block.partition [] block.neigs.entries).1

theorem length_bytes (block : Block T (AttributeData schema)) (mn mx : T) :
    (block.bytes mn mx).length = 32 + 8 * block.subBlocks.length
      + (listsBytes block.partition [] block.neigs.entries).1.length := by
  unfold bytes headerBytes
  simp only [List.length_append, Bytes.length_bigEndian, length_idsBytes]
  omega

variable [BlockTime T]

/-- The times a pass over the lists has seen. -/
def endTimes {D : Type} (block : Block T D) (f : List (NLEdge T D) → Option (NLEdge T D)) : Set T :=
  { t | ∃ v, ∃ e, f (block.neigs.edges v) = some e ∧ e.time = t }

section

omit [Timestamp T] [BlockTime T]

private theorem foldlM_updateMinMax {D : Type}
    (l : List (Sigma fun _ : VertexId => NeighborList T D)) (hl : ∀ e ∈ l, e.2.edges ≠ [])
    (acc : T × T) :
    ∃ r, l.foldlM (fun acc e => updateMinMax acc e.2) acc = (.ok r : Except Fault (T × T)) ∧
      IsLeast ({acc.1} ∪ { t | ∃ x ∈ l, ∃ e, x.2.edges.head? = some e ∧ e.time = t }) r.1 ∧
      IsGreatest ({acc.2} ∪ { t | ∃ x ∈ l, ∃ e, x.2.edges.getLast? = some e ∧ e.time = t }) r.2 := by
  induction l generalizing acc with
  | nil =>
      refine ⟨acc, rfl, ?_, ?_⟩
      · simp [isLeast_singleton]
      · simp [isGreatest_singleton]
  | cons x l ih =>
      have hne := hl x List.mem_cons_self
      have hold : x.2.edges.head? = some (x.2.edges.head hne) := List.head?_eq_some_head hne
      have hnew : x.2.edges.getLast? = some (x.2.edges.getLast hne) := List.getLast?_eq_some_getLast hne
      have hstep : updateMinMax acc x.2 = .ok (min acc.1 (x.2.edges.head hne).time,
          max acc.2 (x.2.edges.getLast hne).time) := by
        unfold updateMinMax NeighborList.getOldestEdge NeighborList.getNewestEdge
        rw [hold, hnew]
        simp only [Except.ok_bind, Except.pure_eq_ok, min_comm acc.1, min_def_lt, max_def_lt]
      obtain ⟨r, hr, hleast, hgreatest⟩ := ih (fun e he => hl e (List.mem_cons_of_mem _ he))
        (min acc.1 (x.2.edges.head hne).time, max acc.2 (x.2.edges.getLast hne).time)
      refine ⟨r, by rw [List.foldlM_cons, hstep, Except.ok_bind, hr], ?_, ?_⟩
      · refine isLeast_of_min hleast ?_
        intro t
        rw [eq_comm]
        simp only [Set.mem_ofPred_eq, List.mem_cons, exists_eq_or_imp, hold, Option.some.injEq,
          exists_eq_left']
      · have hset : ∀ t : T,
            t ∈ { t | ∃ y ∈ x :: l, ∃ e, y.2.edges.getLast? = some e ∧ e.time = t } ↔
              t = (x.2.edges.getLast hne).time ∨
                t ∈ { t | ∃ y ∈ l, ∃ e, y.2.edges.getLast? = some e ∧ e.time = t } := by
          intro t
          rw [eq_comm]
          simp only [Set.mem_ofPred_eq, List.mem_cons, exists_eq_or_imp, hnew, Option.some.injEq,
            exists_eq_left']
        exact isLeast_of_min (α := Tᵒᵈ) hgreatest hset

end

/-- The first and the last time of a block are those of its lists, in whatever order the lists
are gone through. -/
theorem findMinMaxTimestamps_ok {T : Type} [LinearOrder T] [BlockTime T] {D : Type}
    {block : Block T D} (h : ListsOK block.neigs) :
    ∃ mn mx, block.findMinMaxTimestamps = .ok (mn, mx) ∧
      IsLeast ({BlockTime.maxValue} ∪ block.endTimes List.head?) mn ∧
      IsGreatest ({BlockTime.zero} ∪ block.endTimes List.getLast?) mx := by
  have hne : ∀ e ∈ block.neigs.entries, e.2.edges ≠ [] := by
    intro e he
    exact (h _ _ (AList.mem_lookup_iff.mpr he)).2
  obtain ⟨r, hr, hleast, hgreatest⟩ :=
    foldlM_updateMinMax block.neigs.entries hne (BlockTime.maxValue, BlockTime.zero)
  have htimes : ∀ f : List (NLEdge T D) → Option (NLEdge T D), f [] = none →
      block.endTimes f = { t | ∃ x ∈ block.neigs.entries, ∃ e, f x.2.edges = some e ∧ e.time = t } := by
    intro f hf
    ext t
    refine ⟨?_, ?_⟩
    · rintro ⟨v, e, he, ht⟩
      have hv : block.neigs.edges v ≠ [] := by
        intro hnil
        rw [hnil, hf] at he
        cases he
      exact ⟨⟨v, ⟨v, block.neigs.edges v⟩⟩, AList.mem_lookup_iff.mp (h.lookup_eq hv), e, he, ht⟩
    · rintro ⟨x, hx, e, he, ht⟩
      refine ⟨x.1, e, ?_, ht⟩
      rwa [NeighborListMap.edges_of_lookup (AList.mem_lookup_iff.mpr hx)]
  rw [← htimes _ rfl] at hleast hgreatest
  exact ⟨r.1, r.2, hr, hleast, hgreatest⟩

/-- The times of a block are those of its lists. -/
theorem findMinMaxTimestamps_congr {T : Type} [LinearOrder T] [BlockTime T] {D D' : Type}
    {block : Block T D} {block' : Block T D'} (h : ListsOK block.neigs) (h' : ListsOK block'.neigs)
    (hends : ∀ v, ends (block'.neigs.edges v) = ends (block.neigs.edges v)) :
    block'.findMinMaxTimestamps = block.findMinMaxTimestamps := by
  have htime : ∀ {D : Type} (l : List (NLEdge T D)),
      (∀ t, (∃ e, l.head? = some e ∧ e.time = t) ↔ (ends l).head?.map Prod.snd = some t) ∧
      (∀ t, (∃ e, l.getLast? = some e ∧ e.time = t) ↔ (ends l).getLast?.map Prod.snd = some t) := by
    intro D l
    unfold ends
    refine ⟨?_, ?_⟩
    · intro t
      rw [List.head?_map, Option.map_map, Option.map_eq_some_iff]
      rfl
    · intro t
      rw [List.getLast?_map, Option.map_map, Option.map_eq_some_iff]
      rfl
  obtain ⟨mn, mx, hok, hleast, hgreatest⟩ := findMinMaxTimestamps_ok h
  obtain ⟨mn', mx', hok', hleast', hgreatest'⟩ := findMinMaxTimestamps_ok h'
  have hold : block'.endTimes List.head? = block.endTimes List.head? := by
    ext t
    unfold endTimes
    simp only [Set.mem_ofPred_eq, (htime _).1, hends]
  have hnew : block'.endTimes List.getLast? = block.endTimes List.getLast? := by
    ext t
    unfold endTimes
    simp only [Set.mem_ofPred_eq, (htime _).2, hends]
  rw [hold] at hleast'
  rw [hnew] at hgreatest'
  rw [hok, hok', hleast.unique hleast', hgreatest.unique hgreatest']

/-- **A block is written, or refused because it does not fit.** -/
theorem serialize_ok {block : Block T (AttributeData schema)} {mn mx : T}
    (htimes : block.findMinMaxTimestamps = .ok (mn, mx))
    (htyped : block.partition ≠ -1 → ∀ v, ∀ e ∈ block.neigs.edges v, e.data.val.Typed)
    (hmaster : block.partition = -1 → block.subBlocks ≠ []) {sb : NetworkByteBuffer}
    {old : List Byte} (h : Written old sb) :
    WithinLimit (old ++ block.bytes mn mx).length (Written (old ++ block.bytes mn mx))
      (block.serialize sb) := by
  have htyped' : block.partition ≠ -1 →
      ∀ x ∈ block.neigs.entries, ∀ e ∈ x.2.edges, e.data.val.Typed := by
    intro hp x hx e he
    refine htyped hp x.1 e ?_
    rwa [NeighborListMap.edges_of_lookup (AList.mem_lookup_iff.mpr hx)]
  have hassert : ¬ (block.partition = -1 ∧ block.subBlocks = []) :=
    fun hbad => hmaster hbad.1 hbad.2
  unfold serialize bytes headerBytes
  rw [htimes, Except.ok_bind]
  simp only [← List.append_assoc, if_neg hassert]
  refine (h.addUInt64 _).bind (by simp only [List.length_append]; omega) ?_
  intro sb₁ h₁
  refine (writeIds_ok h₁ _).bind (by simp only [List.length_append]; omega) ?_
  intro sb₂ h₂
  refine (h₂.addDouble _).bind (by simp only [List.length_append]; omega) ?_
  intro sb₃ h₃
  refine (h₃.addDouble _).bind (by simp only [List.length_append]; omega) ?_
  intro sb₄ h₄
  refine (h₄.addInt32 _).bind (by simp only [List.length_append]; omega) ?_
  intro sb₅ h₅
  refine (writeLists_ok [] htyped' h₅).map ?_
  intro r hr
  exact hr

/-- The block before its lists are read. -/
def blank (block : Block T (AttributeData schema)) : Block T (AttributeData schema) :=
  { Block.new with id := block.id, subBlocks := block.subBlocks, partition := block.partition }

theorem readHeader_ok {block : Block T (AttributeData schema)} {mn mx : T}
    (hids : block.subBlocks.length < 2 ^ 32)
    (hpart : (BitVec.ofInt 32 block.partition).toInt = block.partition) :
    Reads (readHeader Block.new) (block.headerBytes mn mx)
      (block.blank, BlockTime.midpoint mn mx) := by
  intro sb rest hu
  unfold headerBytes idsBytes at hu ⊢
  simp only [List.append_assoc] at hu
  obtain ⟨hid, hu₁⟩ := Reads.getUInt64 (BitVec.ofFin block.id) sb _ hu
  obtain ⟨hcount, hu₂⟩ := Reads.getUInt32 (BitVec.ofNat 32 block.subBlocks.length) _ _ hu₁
  obtain ⟨hread, hu₃⟩ := readIds_ok block.subBlocks _ _ hu₂
  obtain ⟨hmn, hu₄⟩ := Reads.getDouble (Timestamp.toBits mn) _ _ hu₃
  obtain ⟨hmx, hu₅⟩ := Reads.getDouble (Timestamp.toBits mx) _ _ hu₄
  obtain ⟨hp, hu₆⟩ := Reads.getInt32 (BitVec.ofInt 32 block.partition) _ _ hu₅
  have hn : (BitVec.ofNat 32 block.subBlocks.length).toNat = block.subBlocks.length := by
    rw [BitVec.toNat_ofNat, Nat.mod_eq_of_lt hids]
  simp only [advance_advance, ← List.length_append] at hu₆
  simp only [Bytes.length_bigEndian] at hid hcount hread hmn hmx hp
  refine ⟨?_, by simpa only [List.append_assoc] using hu₆⟩
  unfold readHeader
  simp only [hid, hcount, Except.ok_bind, hn, hread, hmn, hmx, hp, Except.pure_eq_ok,
    Timestamp.ofBits_toBits, hpart]
  simp only [advance_advance, List.length_append, Bytes.length_bigEndian, blank, Block.new,
    List.nil_append, Nat.add_assoc]

/-! ### The whole block -/

/-- What the reader needs to know of a block: a master has no data and lists its sub-blocks, the
data of a sub-block is over the attributes of its part, as the schema types them. -/
def Laid (part : Partitioning) (block : Block T (AttributeData schema)) : Prop :=
  (block.partition = -1 ∧ block.subBlocks ≠ [] ∧
      ∀ v, ∀ e ∈ block.neigs.edges v, e.data.val = .empty schema) ∨
    ∃ i : Nat, i < 2 ^ 31 ∧ block.partition = i ∧ ∃ attributes, part[i]? = some attributes ∧
      ∃ target, AttributeData.ofNames schema attributes = .ok target ∧
        ∀ v, ∀ e ∈ block.neigs.edges v, e.data.val.Typed ∧ target.keys = e.data.val.keys

/-- What comes back of a block. -/
structure ComesBack (block block' : Block T (AttributeData schema)) : Prop where
  formed : block'.Formed
  id : block'.id = block.id
  subBlocks : block'.subBlocks = block.subBlocks
  partition : block'.partition = block.partition
  edges : ∀ v, contents (block'.neigs.edges v)
    = (contents (block.neigs.edges v)).map fun p => (p.1, p.2.1, p.2.2.wire)

theorem partOf_ok {T : Type} {part : Partitioning} {block : Block T (AttributeData schema)}
    (hlaid : block.Laid part) :
    ∃ attributes, partOf part block.partition = .ok attributes ∧
      (BitVec.ofInt 32 block.partition).toInt = block.partition ∧
      (block.partition ≠ -1 → ∃ target, AttributeData.ofNames schema attributes = .ok target ∧
        ∀ v, ∀ e ∈ block.neigs.edges v, e.data.val.Typed ∧ target.keys = e.data.val.keys) := by
  rcases hlaid with ⟨hmaster, -, -⟩ | ⟨i, hi, hpart, attributes, hget, htarget⟩
  · rw [hmaster]
    exact ⟨[], rfl, by decide, fun hne => absurd rfl hne⟩
  · refine ⟨attributes, ?_, ?_, fun _ => htarget⟩
    · unfold partOf
      rw [hpart, if_neg (by omega), if_neg (by omega), Int.toNat_natCast, hget]
    · rw [hpart, BitVec.toInt_ofInt, Int.bmod_eq_of_le (by omega) (by omega)]

/-- When the reader is done the block is the one that was written. -/
theorem comesBack_of_readState {T : Type} [LinearOrder T]
    {F : EdgeTriplet T → SharedPtr (AttributeData schema)} {seen : List (EdgeTriplet T)}
    {part : Partitioning} {block block' : Block T (AttributeData schema)} {read : Shared T schema}
    (hbuilt : Built F seen block) (hlisted : Listed fun v => ends (block.neigs.edges v))
    (hlaid : block.Laid part)
    (hstate : ReadState block.partition (fun t => (F t).val.wire)
      (fun v => ends (block.neigs.edges v))
      (remaining ([] : List (Sigma fun _ : VertexId => NeighborList T (AttributeData schema))))
      block' read) (hid : block'.id = block.id) (hsub : block'.subBlocks = block.subBlocks)
    (hpart : block'.partition = block.partition) : ComesBack block block' := by
  have hdone : ∃ F' seen', Built F' seen' block' ∧
      (∀ v, ends (block'.neigs.edges v) = ends (block.neigs.edges v)) ∧
      ∀ t ∈ seen', (F' t).val = (F t).val.wire := by
    unfold ReadState at hstate
    split at hstate
    next hmaster =>
      obtain ⟨-, seen', hbuild⟩ := hstate
      refine ⟨_, seen', hbuild.toBuilt, hbuild.edges_eq, ?_⟩
      intro t ht
      obtain ⟨v, e', he', htrip⟩ := (hbuild.mem_seen t).mp ht
      have hmem : (e'.toVertex, e'.time) ∈ ends (block.neigs.edges v) := by
        rw [← hbuild.edges_eq v]
        exact mem_ends.mpr ⟨e', he', rfl⟩
      obtain ⟨e, he, hends⟩ := mem_ends.mp hmem
      have hF : F t = e.data := by
        rw [hbuilt.data v e he, ← htrip]
        unfold NLEdge.triplet
        rw [Prod.mk.injEq] at hends
        rw [hends.1, hends.2]
      rcases hlaid with ⟨-, -, hempty⟩ | ⟨i, -, hi, -⟩
      · rw [hF, hempty v e he]
        rfl
      · omega
    next =>
      obtain ⟨F', seen', hbuild, hrem⟩ := hstate
      refine ⟨F', seen', hbuild.toBuilt, hbuild.edges_eq, ?_⟩
      intro t ht
      rw [← hrem.keys, ← lookup_ne_none] at ht
      obtain ⟨p, hp⟩ := Option.ne_none_iff_exists'.mp ht
      obtain ⟨hpF, hval⟩ := hrem.data t p hp
      rw [← hpF, hval]
  obtain ⟨F', seen', hbuilt', hends, hval⟩ := hdone
  refine ⟨⟨F', seen', hbuilt', ?_⟩, hid, hsub, hpart, contents_map hbuilt hbuilt' hends hval⟩
  simpa only [hends] using hlisted

/-- A buffer over stored bytes has been written to its end. -/
theorem icursor_ofBytes (bs : List Byte) (n : Nat) :
    ((ofBytes bs).advance n).icursor = ((ofBytes bs).advance n).size := rfl

/-- **What was written comes back**, by the partitioning it was split by. -/
theorem deserialize_ok {P : Type} [SliceIndex P T] {block : Block T (AttributeData schema)}
    {mn mx : T} {part : Partitioning} (hformed : block.Formed) (hlaid : block.Laid part)
    (hfit : (block.bytes mn mx).length ≤ 2 ^ 32) {idx idx' : P} {tpart : TimeSlicedPartitioning T}
    (hlookup : SliceIndex.getTimeSlicedPartitioningForBlockDeserialization idx
      (BlockTime.midpoint mn mx) = .ok (tpart, idx'))
    (hpart : tpart.partitioning = part) :
    ∃ block', deserialize (ofBytes (block.bytes mn mx)) idx
        = .ok ((block', (ofBytes (block.bytes mn mx)).advance (block.bytes mn mx).length), idx') ∧
      ComesBack block block' := by
  obtain ⟨F, seen, hbuilt, hlisted⟩ := hformed
  obtain ⟨attributes, hattributes, hint, htarget⟩ := partOf_ok hlaid
  have hids : block.subBlocks.length < 2 ^ 32 := by
    rw [length_bytes] at hfit
    omega
  have hlists : (listsBytes block.partition [] block.neigs.entries).1.length ≤ 2 ^ 32 := by
    unfold bytes at hfit
    rw [List.length_append] at hfit
    omega
  obtain ⟨hheader, hu⟩ := readHeader_ok hids hint (ofBytes (block.bytes mn mx)) _
    (unread_ofBytes (block.bytes mn mx))
  have hread : ∀ x ∈ block.neigs.entries, ∀ e ∈ x.2.edges,
      Readable block.partition attributes (fun t => (F t).val.wire) x.1 e := by
    intro x hx e he hne
    have hmem : e ∈ block.neigs.edges x.1 := by
      rwa [NeighborListMap.edges_of_lookup (AList.mem_lookup_iff.mpr hx)]
    obtain ⟨target, htok, hall⟩ := htarget hne
    refine ⟨(hall _ e hmem).1, ?_, target, htok, (hall _ e hmem).2⟩
    rw [hbuilt.data _ e hmem]
  have hstate : ReadState block.partition (fun t => (F t).val.wire)
      (fun v => ends (block.neigs.edges v)) (remaining block.neigs.entries) block.blank [] := by
    have hrest : remaining block.neigs.entries = fun v => ends (block.neigs.edges v) :=
      funext (remaining_entries block.neigs)
    rw [hrest]
    unfold ReadState
    split
    · have hnew := Building.new (fun v => ends (block.neigs.edges v))
        (fun _ => (⟨0, .empty schema⟩ : SharedPtr (AttributeData schema))) block.partition
      exact ⟨rfl, [], ⟨⟨hnew.lists, hnew.data, hnew.mem_seen, hnew.nodup, hnew.size⟩, hnew.come⟩⟩
    · obtain ⟨F', seen', hnew, hrem⟩ := Sharing.new (fun t => (F t).val.wire)
        (fun v => ends (block.neigs.edges v)) block.partition
      exact ⟨F', seen', ⟨⟨hnew.lists, hnew.data, hnew.mem_seen, hnew.nodup, hnew.size⟩, hnew.come⟩,
        hrem⟩
  have hsmall : ((ofBytes (block.bytes mn mx)).advance (block.headerBytes mn mx).length).size
      < 2 ^ 64 := by
    show (block.bytes mn mx).length < 2 ^ 64
    omega
  have hfuel : block.neigs.entries.length
      ≤ ((ofBytes (block.bytes mn mx)).advance (block.headerBytes mn mx).length).getNRemainingBytes := by
    rw [getNRemainingBytes_eq hu (icursor_ofBytes _ _) hsmall]
    exact length_listsBytes_ge _ _ _
  obtain ⟨block', read', hok, hstate', hid, hp, hsub⟩ := readLists_ok hlisted
    block.neigs.nodupKeys hread (length_edges_lt hlists)
    (show block.blank.partition = block.partition from rfl) hstate (icursor_ofBytes _ _) hsmall hu hfuel
  have hback := comesBack_of_readState hbuilt hlisted hlaid hstate' hid hsub hp
  refine ⟨block', ?_, hback⟩
  have hassert : ¬ (block'.partition = -1 ∧ block'.subBlocks = []) := by
    rw [hback.partition, hback.subBlocks]
    rcases hlaid with ⟨-, hne, -⟩ | ⟨i, -, hi, -⟩
    · exact fun hbad => hne hbad.2
    · rw [hi]
      omega
  have hbody : readBody block.blank
      ((ofBytes (block.bytes mn mx)).advance (block.headerBytes mn mx).length) part
      = .ok (block', (ofBytes (block.bytes mn mx)).advance (block.bytes mn mx).length) := by
    have hblank : partOf part block.blank.partition = .ok attributes := hattributes
    unfold readBody
    rw [hblank, Except.ok_bind, hok, Except.ok_bind, advance_advance, ← List.length_append,
      List.map_nil, ← bytes]
    simp only [if_neg hassert]
    rfl
  unfold deserialize
  rw [hheader, Except.ok_bind]
  simp only [hlookup, Except.ok_bind, hpart, hbody]
  rfl

/-- What is written of a block. -/
def encoding (block : Block T (AttributeData schema)) : List Byte :=
  match block.findMinMaxTimestamps with
  | .ok times => block.bytes times.1 times.2
  | .error _ => []

theorem encoding_of_times {block : Block T (AttributeData schema)} {mn mx : T}
    (htimes : block.findMinMaxTimestamps = .ok (mn, mx)) : block.encoding = block.bytes mn mx := by
  unfold encoding
  rw [htimes]

/-- A formed block takes 32 bytes, eight for each sub-block, and those of its lists. -/
theorem length_encoding {block : Block T (AttributeData schema)} (h : block.Formed) :
    block.encoding.length = 32 + 8 * block.subBlocks.length
      + (listsBytes block.partition [] block.neigs.entries).1.length := by
  obtain ⟨F, seen, hbuilt, -⟩ := h
  obtain ⟨mn, mx, htimes, -⟩ := findMinMaxTimestamps_ok hbuilt.lists
  rw [encoding_of_times htimes, length_bytes]

theorem Laid.typed {T : Type} {part : Partitioning} {block : Block T (AttributeData schema)}
    (h : block.Laid part) (hne : block.partition ≠ -1) :
    ∀ v, ∀ e ∈ block.neigs.edges v, e.data.val.Typed := by
  intro v e he
  rcases h with ⟨hmaster, -⟩ | ⟨_, _, _, _, _, _, _, hall⟩
  · exact absurd hmaster hne
  · exact (hall v e he).1

theorem Laid.subBlocks_ne_nil {T : Type} {part : Partitioning}
    {block : Block T (AttributeData schema)} (h : block.Laid part)
    (hmaster : block.partition = -1) : block.subBlocks ≠ [] := by
  rcases h with ⟨-, hne, -⟩ | ⟨i, -, hi, -⟩
  · exact hne
  · omega

/-- A block laid out by some partitioning is written, or refused because it does not fit. -/
theorem serialize_encoding {part : Partitioning} {block : Block T (AttributeData schema)}
    (hformed : block.Formed) (hlaid : block.Laid part) :
    WithinLimit block.encoding.length (Written block.encoding)
      (block.serialize NetworkByteBuffer.new) := by
  obtain ⟨F, seen, hbuilt, -⟩ := hformed
  obtain ⟨mn, mx, htimes, -⟩ := findMinMaxTimestamps_ok hbuilt.lists
  rw [encoding_of_times htimes]
  exact serialize_ok htimes hlaid.typed hlaid.subBlocks_ne_nil written_new

/-- The bytes of a block give it back, by the partitioning of its time. -/
theorem deserialize_encoding {P : Type} [SliceIndex P T] {part : Partitioning}
    {block : Block T (AttributeData schema)} (hformed : block.Formed) (hlaid : block.Laid part)
    (hfit : block.encoding.length ≤ 2 ^ 32) {t : T}
    (htime : block.getPartitioningTimestamp = .ok t) {idx idx' : P}
    {tpart : TimeSlicedPartitioning T}
    (hlookup : SliceIndex.getTimeSlicedPartitioningForBlockDeserialization idx t
      = .ok (tpart, idx')) (hpart : tpart.partitioning = part) :
    ∃ block', deserialize (ofBytes block.encoding) idx
        = .ok ((block', (ofBytes block.encoding).advance block.encoding.length), idx') ∧
      ComesBack block block' := by
  obtain ⟨F, seen, hbuilt, hlisted⟩ := hformed
  obtain ⟨mn, mx, htimes, -⟩ := findMinMaxTimestamps_ok hbuilt.lists
  have hmid : BlockTime.midpoint mn mx = t := by
    unfold getPartitioningTimestamp at htime
    rw [htimes, Except.ok_map, Except.ok.injEq] at htime
    exact htime
  rw [encoding_of_times htimes] at hfit ⊢
  rw [← hmid] at hlookup
  exact deserialize_ok ⟨F, seen, hbuilt, hlisted⟩ hlaid hfit hlookup hpart

end Header

end Block

end RailwayDB
