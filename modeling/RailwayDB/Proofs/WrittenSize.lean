/-
The running size of a block and the bytes it is written as.

A block counts the data of an edge when it has not seen the other direction in the list
of the other end.  Writing decides the same by a set of undirected edges.  For a block
that only `addEdge` has filled, in time order and with one data object for the two
directions of an edge, both count each edge once, so the count misses only what does
not depend on the edges: 24 bytes of header and eight for each sub-block id.

The bytes go out when they fit: the buffer refuses to grow over 2^32 bytes, and a
master block without sub-blocks fails an assertion at the end.
-/
import RailwayDB.Proofs.BlockSize
import RailwayDB.Proofs.BlockRoundTrip

namespace RailwayDB

open NetworkByteBuffer

variable {T : Type} {schema : Schema}

/-! ### The edge of a triplet -/

/-- The edge a triplet stands for. -/
def EdgeTriplet.undirected (t : EdgeTriplet T) : Sym2 VertexId × T := (s(t.lowId, t.highId), t.tm)

theorem EdgeTriplet.undirected_of (a b : VertexId) (tm : T) :
    (EdgeTriplet.of a b tm).undirected = (s(a, b), tm) := by
  unfold EdgeTriplet.undirected EdgeTriplet.of
  rcases le_total a b with hab | hab
  · rw [min_eq_left hab, max_eq_right hab]
  · rw [min_eq_right hab, max_eq_left hab, Sym2.eq_swap]

theorem NLEdge.undirected_triplet [LinearOrder T] {D : Type} (e : NLEdge T D) (v : VertexId) :
    (e.triplet v).undirected = (e.directed v).undirected := EdgeTriplet.undirected_of _ _ _

theorem NLEdge.triplet_eq_of_undirected {D : Type} {e e' : NLEdge T D} {v v' : VertexId}
    (h : (e.triplet v).undirected = (e'.triplet v').undirected) :
    e.triplet v = e'.triplet v' := by
  unfold NLEdge.triplet at h ⊢
  rw [EdgeTriplet.undirected_of, EdgeTriplet.undirected_of, Prod.mk.injEq, Sym2.eq_iff] at h
  rw [EdgeTriplet.of_eq_of]
  exact ⟨h.2, h.1⟩

namespace Block

variable [LinearOrder T] [Timestamp T]

/-! ### The bytes of the lists, counted -/

section Lengths

variable {partition : Int} {v : VertexId} (val : EdgeTriplet T → Nat)

theorem mem_nowWritten {T : Type} [LinearOrder T] (hp : partition ≠ -1)
    {written : List (EdgeTriplet T)} {t u : EdgeTriplet T} :
    u ∈ nowWritten partition written t ↔ u ∈ written ∨ t = u := by
  unfold nowWritten
  split_ifs with h
  · have hmem := h.resolve_left hp
    refine ⟨Or.inl, ?_⟩
    rintro (hu | hu)
    · exact hu
    · rw [← hu]
      exact hmem
  · rw [List.mem_cons, or_comm, eq_comm]

/-- The data that goes out is that of the triplets that are written then and were not before. -/
theorem length_dataBytes {T : Type} [LinearOrder T] (val : EdgeTriplet T → Nat)
    (written : List (EdgeTriplet T)) {t : EdgeTriplet T} {data : AttributeData schema}
    (hval : partition ≠ -1 → data.bytes.length = val t) :
    (dataBytes partition written t data).length + ∑ u ∈ written.toFinset, val u
      = ∑ u ∈ (nowWritten partition written t).toFinset, val u := by
  unfold dataBytes nowWritten
  split_ifs with h
  · simp
  · rw [not_or] at h
    rw [List.toFinset_cons, Finset.sum_insert (by simpa using h.2), hval h.1]

theorem mem_edgesBytes_snd (hp : partition ≠ -1) (written : List (EdgeTriplet T))
    (l : List (NLEdge T (AttributeData schema))) {t : EdgeTriplet T} :
    t ∈ (edgesBytes partition v written l).2 ↔ t ∈ written ∨ ∃ e ∈ l, e.triplet v = t := by
  induction l generalizing written with
  | nil => simp [edgesBytes]
  | cons e l ih => simp [edgesBytes, ih, mem_nowWritten hp, or_assoc]

theorem length_edgesBytes (written : List (EdgeTriplet T))
    (l : List (NLEdge T (AttributeData schema)))
    (hval : partition ≠ -1 → ∀ e ∈ l, e.data.val.bytes.length = val (e.triplet v)) :
    (edgesBytes partition v written l).1.length + ∑ t ∈ written.toFinset, val t
      = 16 * l.length + ∑ t ∈ (edgesBytes partition v written l).2.toFinset, val t := by
  induction l generalizing written with
  | nil => simp [edgesBytes]
  | cons e l ih =>
      have hrest := ih (nowWritten partition written (e.triplet v))
        fun hp x hx => hval hp x (List.mem_cons_of_mem e hx)
      have hdata := length_dataBytes val written
        fun hp : partition ≠ -1 => hval hp e List.mem_cons_self
      simp only [edgesBytes, edgeBytes, List.length_append, Bytes.length_bigEndian,
        List.length_cons]
      omega

theorem mem_listsBytes_snd (hp : partition ≠ -1) (written : List (EdgeTriplet T))
    (l : List (Sigma fun _ : VertexId => NeighborList T (AttributeData schema)))
    {t : EdgeTriplet T} :
    t ∈ (listsBytes partition written l).2 ↔
      t ∈ written ∨ ∃ x ∈ l, ∃ e ∈ x.2.edges, e.triplet x.1 = t := by
  induction l generalizing written with
  | nil => simp [listsBytes]
  | cons x l ih =>
      simp only [listsBytes, ih, mem_edgesBytes_snd hp, List.exists_mem_cons_iff, or_assoc]

/-- Twelve bytes for a list, sixteen for an edge of a list, and the data of each triplet once. -/
theorem length_listsBytes (written : List (EdgeTriplet T))
    (l : List (Sigma fun _ : VertexId => NeighborList T (AttributeData schema)))
    (hval : partition ≠ -1 → ∀ x ∈ l, ∀ e ∈ x.2.edges,
      e.data.val.bytes.length = val (e.triplet x.1)) :
    (listsBytes partition written l).1.length + ∑ t ∈ written.toFinset, val t
      = 12 * l.length + 16 * (l.map fun x => x.2.edges.length).sum
        + ∑ t ∈ (listsBytes partition written l).2.toFinset, val t := by
  induction l generalizing written with
  | nil => simp [listsBytes]
  | cons x l ih =>
      have hrest := ih (edgesBytes partition x.1 written x.2.edges).2
        fun hp y hy => hval hp y (List.mem_cons_of_mem x hy)
      have hedges := length_edgesBytes val written x.2.edges
        fun hp e he => hval hp x List.mem_cons_self e he
      simp only [listsBytes, List.length_append, Bytes.length_bigEndian, List.length_cons,
        List.map_cons, List.sum_cons]
      omega

end Lengths

theorem edgesBytes_snd_master (v : VertexId) (written : List (EdgeTriplet T))
    (l : List (NLEdge T (AttributeData schema))) : (edgesBytes (-1) v written l).2 = written := by
  induction l generalizing written with
  | nil => rfl
  | cons e l ih => simp [edgesBytes, ih, nowWritten]

theorem listsBytes_snd_master (written : List (EdgeTriplet T))
    (l : List (Sigma fun _ : VertexId => NeighborList T (AttributeData schema))) :
    (listsBytes (-1) written l).2 = written := by
  induction l generalizing written with
  | nil => rfl
  | cons x l ih => simp [listsBytes, ih, edgesBytes_snd_master]

/-! ### Both counts -/

section Tidy

variable {block : Block T (AttributeData schema)} {partition : Int}
  {l : List (Sigma fun _ : VertexId => NeighborList T (AttributeData schema))}

theorem mem_edges_of_perm {T : Type} {block : Block T (AttributeData schema)}
    {l : List (Sigma fun _ : VertexId => NeighborList T (AttributeData schema))}
    (hperm : l.Perm block.neigs.entries)
    {x : Sigma fun _ : VertexId => NeighborList T (AttributeData schema)} (hx : x ∈ l)
    {e : NLEdge T (AttributeData schema)} (he : e ∈ x.2.edges) : e ∈ block.neigs.edges x.1 := by
  have hentry : x ∈ block.neigs.entries := hperm.mem_iff.mp hx
  rw [NeighborListMap.edges_of_lookup (AList.mem_lookup_iff.mpr hentry)]
  exact he

theorem exists_entry_of_perm {T : Type} {block : Block T (AttributeData schema)}
    {l : List (Sigma fun _ : VertexId => NeighborList T (AttributeData schema))}
    (hperm : l.Perm block.neigs.entries) {v : VertexId} {e : NLEdge T (AttributeData schema)}
    (he : e ∈ block.neigs.edges v) :
    ∃ x ∈ l, x.1 = v ∧ e ∈ x.2.edges := by
  cases hl : block.neigs.lookup v with
  | none =>
      rw [NeighborListMap.edges_of_notMem (AList.lookup_eq_none.mp hl)] at he
      simp at he
  | some nl =>
      rw [NeighborListMap.edges_of_lookup hl] at he
      exact ⟨⟨v, nl⟩, hperm.mem_iff.mpr (AList.mem_lookup_iff.mp hl), rfl, he⟩

/-- The triplets that are written stand for the edges of the block. -/
theorem sum_written (hperm : l.Perm block.neigs.entries) (hp : partition ≠ -1)
    (f : Sym2 VertexId × T → Nat) :
    ∑ t ∈ (listsBytes partition [] l).2.toFinset, f t.undirected
      = ∑ u ∈ block.undirectedEdges, f u := by
  have hmem : ∀ t, t ∈ (listsBytes partition [] l).2.toFinset ↔
      ∃ v, ∃ e ∈ block.neigs.edges v, e.triplet v = t := by
    intro t
    rw [List.mem_toFinset, mem_listsBytes_snd hp]
    refine ⟨?_, ?_⟩
    · rintro (ht | ⟨x, hx, e, he, ht⟩)
      · simp at ht
      · exact ⟨x.1, e, mem_edges_of_perm hperm hx he, ht⟩
    · rintro ⟨v, e, he, ht⟩
      obtain ⟨x, hx, hv, he⟩ := exists_entry_of_perm hperm he
      exact Or.inr ⟨x, hx, e, he, by rw [hv]; exact ht⟩
  have himage : block.undirectedEdges
      = (listsBytes partition [] l).2.toFinset.image EdgeTriplet.undirected := by
    ext u
    rw [mem_undirectedEdges, Finset.mem_image]
    refine ⟨?_, ?_⟩
    · rintro ⟨v, e, he, hu⟩
      exact ⟨e.triplet v, (hmem _).mpr ⟨v, e, he, rfl⟩, by rw [e.undirected_triplet]; exact hu⟩
    · rintro ⟨t, ht, hu⟩
      obtain ⟨v, e, he, rfl⟩ := (hmem t).mp ht
      exact ⟨v, e, he, by rw [← e.undirected_triplet]; exact hu⟩
  rw [himage, Finset.sum_image]
  intro t ht t' ht' heq
  obtain ⟨v, e, -, rfl⟩ := (hmem t).mp ht
  obtain ⟨v', e', -, rfl⟩ := (hmem t').mp ht'
  exact NLEdge.triplet_eq_of_undirected heq

/-- The lists take what a count from scratch gives, but for the eight bytes of the id. -/
theorem Tidy.length_listsBytes (hb : Tidy block) (hperm : l.Perm block.neigs.entries)
    (hshort : ∀ v, ∀ e ∈ block.neigs.edges v, e.data.val.Short)
    (hmaster : partition = -1 →
      ∀ v, ∀ e ∈ block.neigs.edges v, getSerializedSizeOf e.data.val = 0) :
    8 + (listsBytes partition [] l).1.length = block.measuredSize := by
  have hlength := Block.length_listsBytes (fun t => block.edgeDataSize t.undirected) [] l (by
      intro (_ : partition ≠ -1) x hx e he
      have hmem := mem_edges_of_perm hperm hx he
      rw [AttributeData.length_bytes (hshort x.1 e hmem), e.undirected_triplet,
        hb.edgeDataSize_eq hmem])
  have hsum : ∑ t ∈ (listsBytes partition [] l).2.toFinset, block.edgeDataSize t.undirected
      = ∑ u ∈ block.undirectedEdges, block.edgeDataSize u := by
    by_cases hp : partition = -1
    · rw [hp, listsBytes_snd_master]
      refine (Finset.sum_eq_zero ?_).symm
      intro u hu
      obtain ⟨v, e, he, rfl⟩ := mem_undirectedEdges.mp hu
      rw [hb.edgeDataSize_eq he]
      exact hmaster hp v e he
    · exact sum_written hperm hp _
  have hkeys : block.neigs.keys.length = l.length := by
    rw [hperm.length_eq]
    exact List.length_map _
  have htotal : edgeTotal block.neigs = (l.map fun x => x.2.edges.length).sum :=
    ((hperm.map _).sum_eq).symm
  unfold measuredSize
  rw [hkeys, htotal, ← hsum]
  simp only [List.toFinset_nil, Finset.sum_empty, Nat.add_zero] at hlength
  omega

end Tidy

/-! ### Blocks that `addEdge` has filled -/

/-- Edges that are added one after the other, each to the list of its head. -/
def addCalls {D : Type} (edges : List (VertexId × NLEdge T D)) : List (FillCall T D) :=
  edges.map fun x => .addEdge x.1 x.2.toVertex x.2.time x.2.data

theorem addCalls_tidy {T : Type} [LinearOrder T] {D : Type} [SerializedSize D]
    {edges : List (VertexId × NLEdge T D)} (hcalls : PermittedRun (addCalls edges))
    {block : Block T D} (hbuilt : Block.new.fillAll (addCalls edges) = .ok block) :
    Tidy block ∧ block.serializedSize = block.measuredSize := by
  have hrun := Except.foldlM_along
    (P := fun block : Block T D => Tidy block ∧ block.serializedSize = block.measuredSize)
    (A := fun block call => block.Permits call ∧ call ∈ addCalls edges) (l := addCalls edges) (by
      rintro block call ⟨hb, hsize⟩ ⟨hcall, hmem⟩
      obtain ⟨block', hfill, hb', hiff⟩ := hb.fill hcall
      obtain ⟨x, -, rfl⟩ := List.mem_map.mp hmem
      exact ⟨block', hfill, hb', (hiff hsize).mpr trivial⟩) ⟨Tidy.new, rfl⟩ (by
      intro before call after block heq hbefore
      refine ⟨hcalls before call after block heq hbefore, ?_⟩
      rw [heq]
      exact List.mem_append_right before List.mem_cons_self) (List.append_nil _).symm
  obtain ⟨block', hbuilt', hgood⟩ := hrun
  have heq : block = block' := Except.ok.inj (hbuilt.symm.trans hbuilt')
  rw [heq]
  exact hgood

variable [BlockTime T]

/-- A master block without sub-blocks fails the assertion after everything is written. -/
theorem serialize_master_ne_ok {block : Block T (AttributeData schema)}
    (hmaster : block.partition = -1) (hnone : block.subBlocks = []) {sb sb' : NetworkByteBuffer} :
    block.serialize sb ≠ .ok sb' := by
  intro h
  simp only [serialize, Except.bind_eq_ok] at h
  obtain ⟨_, -, _, -, _, -, _, -, _, -, _, -, _, -, h⟩ := h
  simp only [hmaster, hnone, and_self, if_true] at h
  cases h

/-- A filled block with an id, a partition and sub-blocks of its own, and its heads in some order. -/
def stamped (block : Block T (AttributeData schema)) (id : BlockId) (partition : Int)
    (subBlocks : List BlockId) (neigs : NeighborListMap T (AttributeData schema)) :
    Block T (AttributeData schema) :=
  { block with id := id, partition := partition, subBlocks := subBlocks, neigs := neigs }

/-- The bytes of a stamped block that is not too large. -/
theorem Tidy.length_bytes_stamped {T : Type} [LinearOrder T] [Timestamp T]
    {block : Block T (AttributeData schema)} (hb : Tidy block)
    (hsize : block.serializedSize = block.measuredSize) {partition : Int}
    (hpart : partition = -1 → ∀ v, ∀ e ∈ block.neigs.edges v, e.data.val = .empty schema)
    {neigs : NeighborListMap T (AttributeData schema)}
    (hperm : neigs.entries.Perm block.neigs.entries) (hfit : block.serializedSize ≤ 2 ^ 32)
    (id : BlockId) (subBlocks : List BlockId) (mn mx : T) :
    ((block.stamped id partition subBlocks neigs).bytes mn mx).length
      = block.serializedSize + 24 + 8 * subBlocks.length := by
  have hshort : ∀ v, ∀ e ∈ block.neigs.edges v, e.data.val.Short := by
    intro v e he
    refine AttributeData.short_of_size ?_
    rw [← hb.edgeDataSize_eq he]
    have hmem : (e.directed v).undirected ∈ block.undirectedEdges :=
      mem_undirectedEdges.mpr ⟨v, e, he, rfl⟩
    have hle := Finset.single_le_sum (f := block.edgeDataSize) (fun _ _ => Nat.zero_le _) hmem
    rw [hsize] at hfit
    unfold measuredSize at hfit
    omega
  have hlists := hb.length_listsBytes hperm hshort (by
    intro (hp : partition = -1) v e he
    rw [hpart hp v e he]
    rfl)
  rw [length_bytes]
  show 32 + 8 * subBlocks.length + (listsBytes partition [] neigs.entries).1.length = _
  omega

/-- **What a block is written as is its running size, 24 bytes and eight for each sub-block**, for
every order of the heads, exactly when that fits the buffer and a master has sub-blocks. -/
theorem serialize_appends_iff {edges : List (VertexId × NLEdge T (AttributeData schema))}
    (hcalls : PermittedRun (addCalls edges)) {block : Block T (AttributeData schema)}
    (hbuilt : Block.new.fillAll (addCalls edges) = .ok block)
    (htyped : ∀ v, ∀ e ∈ block.neigs.edges v, e.data.val.Typed) {id : BlockId} {partition : Int}
    (hpart : 0 ≤ partition ∨
      partition = -1 ∧ ∀ v, ∀ e ∈ block.neigs.edges v, e.data.val = .empty schema)
    {subBlocks : List BlockId} {neigs : NeighborListMap T (AttributeData schema)}
    (hperm : neigs.entries.Perm block.neigs.entries) {sb : NetworkByteBuffer} {old : List Byte}
    (hsb : Written old sb) :
    (∃ sb' new, (block.stamped id partition subBlocks neigs).serialize sb = .ok sb' ∧
      Written (old ++ new) sb' ∧
      new.length = block.getSerializedSize + 24 + 8 * subBlocks.length) ↔
    old.length + (block.getSerializedSize + 24 + 8 * subBlocks.length) ≤ 2 ^ 32 ∧
      (partition = -1 → subBlocks ≠ []) := by
  obtain ⟨hb, hsize⟩ := addCalls_tidy hcalls hbuilt
  have hlookup : ∀ v, neigs.lookup v = block.neigs.lookup v := fun v => AList.perm_lookup hperm
  have hlists : ListsOK (block.stamped id partition subBlocks neigs).neigs := by
    intro v nl hl
    have hl : neigs.lookup v = some nl := hl
    rw [hlookup] at hl
    exact hb.lists v nl hl
  have htyped' : ∀ v, ∀ e ∈ (block.stamped id partition subBlocks neigs).neigs.edges v,
      e.data.val.Typed := by
    intro v e he
    have he : e ∈ neigs.edges v := he
    unfold NeighborListMap.edges at he
    rw [hlookup] at he
    exact htyped v e he
  obtain ⟨mn, mx, htimes, -⟩ := findMinMaxTimestamps_ok hlists
  have hserialize : (partition = -1 → subBlocks ≠ []) → _ := fun hmaster =>
    serialize_ok htimes (fun _ => htyped') hmaster hsb
  refine ⟨?_, ?_⟩
  · rintro ⟨sb', new, hok, hwritten, hlength⟩
    have hmaster : partition = -1 → subBlocks ≠ [] :=
      fun hp hnone => serialize_master_ne_ok hp hnone hok
    have hbytes := ((hserialize hmaster).of_ok hok).contents
    rw [hwritten.contents, List.append_cancel_left_eq] at hbytes
    refine ⟨?_, hmaster⟩
    by_contra hover
    have hfull := (hserialize hmaster).2 (by
      rw [List.length_append, ← hbytes, hlength]
      omega)
    rw [hok] at hfull
    cases hfull
  · rintro ⟨hfit, hmaster⟩
    have hpart' : partition = -1 → ∀ v, ∀ e ∈ block.neigs.edges v, e.data.val = .empty schema := by
      intro hp
      rcases hpart with hge | ⟨-, hempty⟩
      · omega
      · exact hempty
    have hsmall : block.serializedSize ≤ 2 ^ 32 := by
      unfold getSerializedSize at hfit
      omega
    have hlength := hb.length_bytes_stamped hsize hpart' hperm hsmall id subBlocks mn mx
    obtain ⟨sb', hok, hwritten⟩ := (hserialize hmaster).1 (by
      rw [List.length_append, hlength]
      exact hfit)
    exact ⟨sb', _, hok, hwritten, hlength⟩

/-! ### One edge -/

section Example

/-- The edge between 1 and 2 from either end, with a text of three bytes. -/
def wordEdges : List (VertexId × NLEdge Time (AttributeData ⟨[⟨[116], .string⟩]⟩)) :=
  [(1, ⟨2, Time.ofFloat 1.0, wordData⟩), (2, ⟨1, Time.ofFloat 1.0, wordData⟩)]

theorem serialize_appends_wordEdges :
    PermittedRun (addCalls wordEdges) ∧
      ∃ block, Block.new.fillAll (addCalls wordEdges) = .ok block ∧
      ∃ sb' new, (block.stamped 3 0 [] block.neigs).serialize NetworkByteBuffer.new = .ok sb' ∧
        Written ([] ++ new) sb' ∧ new.length = block.getSerializedSize + 24 + 8 * 0 := by
  have hcalls : PermittedRun (addCalls wordEdges) := Except.allowed_of_check (by decide +kernel)
  have heval : (Block.new.fillAll (addCalls wordEdges)).toOption.map (fun block =>
      (block.serializedSize, decide (∀ x ∈ block.neigs.entries, ∀ e ∈ x.2.edges, e.data.val.Typed)))
      = some (71, true) := by
    decide +kernel
  obtain ⟨block, hbuilt, hseen⟩ := Except.of_toOption_map heval
  obtain ⟨hsize, htyped⟩ := Prod.mk.inj hseen
  refine ⟨hcalls, block, hbuilt, ?_⟩
  refine (serialize_appends_iff hcalls hbuilt ?_ (Or.inl (le_refl 0)) (List.Perm.refl _)
    written_new).mpr ⟨?_, by omega⟩
  · intro v e he
    obtain ⟨x, hx, -, he⟩ := exists_entry_of_perm (List.Perm.refl _) he
    exact of_decide_eq_true htyped x hx e he
  · unfold getSerializedSize
    rw [hsize]
    decide

/-- The edge as a master has it. -/
def bareEdges : List (VertexId × NLEdge Time (AttributeData ⟨[⟨[116], .string⟩]⟩)) :=
  [(1, ⟨2, Time.ofFloat 1.0, ⟨0, .empty _⟩⟩)]

/-- Without sub-blocks the master is not written. -/
theorem serialize_master_fails :
    PermittedRun (addCalls bareEdges) ∧
      ∃ block, Block.new.fillAll (addCalls bareEdges) = .ok block ∧
      (∀ v, ∀ e ∈ block.neigs.edges v, e.data.val = .empty _) ∧
      (block.stamped 3 (-1) [] block.neigs).serialize NetworkByteBuffer.new
        = .error (.assertFailed .masterSubBlocks) := by
  have hcalls : PermittedRun (addCalls bareEdges) := Except.allowed_of_check (by decide +kernel)
  have heval : (Block.new.fillAll (addCalls bareEdges)).toOption.map (fun block =>
      (decide (∀ x ∈ block.neigs.entries, ∀ e ∈ x.2.edges, e.data.val = .empty _),
        decide ((block.stamped 3 (-1) [] block.neigs).serialize NetworkByteBuffer.new
          = .error (.assertFailed .masterSubBlocks)))) = some (true, true) := by
    decide +kernel
  obtain ⟨block, hbuilt, hseen⟩ := Except.of_toOption_map heval
  obtain ⟨hempty, hfails⟩ := Prod.mk.inj hseen
  refine ⟨hcalls, block, hbuilt, ?_, of_decide_eq_true hfails⟩
  intro v e he
  obtain ⟨x, hx, -, he⟩ := exists_entry_of_perm (List.Perm.refl _) he
  exact of_decide_eq_true hempty x hx e he

end Example

end Block

end RailwayDB
