/-
Blocks on the wire.

A block is written list by list; the data of an edge goes with the direction that
is written first, and a master block has none.  The bytes are given here as a
function of the lists in the order in which they are written, with the edges whose
data has gone out as the one thing that is carried along.  The reader carries the
same edges along, with the objects it made for them, and so takes the same
decisions: `readLists_ok` is the induction over the lists, `readEdges_ok` the one
over the edges of a list.
-/
import RailwayDB.Proofs.AttributeData
import RailwayDB.Proofs.BlockShape
import RailwayDB.Proofs.KeyOrder

namespace RailwayDB

open NetworkByteBuffer

variable {T : Type} {schema : Schema}

namespace AttributeData

/-- What comes back of the data of an edge. -/
def wire (data : AttributeData schema) : AttributeData schema :=
  ⟨data.fields.map fun f => (f.1, f.2.wire), by
    rw [List.map_map]
    exact data.nodup⟩

@[simp] theorem keys_wire (data : AttributeData schema) : data.wire.keys = data.keys := by
  unfold keys wire
  rw [List.map_map]
  rfl

theorem wire_eq_self {data : AttributeData schema} : data.wire = data ↔ data.Short := by
  refine ⟨?_, ?_⟩
  · intro h f hf
    have hfields : data.fields.map (fun f => (f.1, f.2.wire)) = data.fields.map id := by
      rw [List.map_id]
      exact congrArg AttributeData.fields h
    have hfield := List.map_inj_left.mp hfields f hf
    exact Value.wire_eq_self.mp (congrArg Prod.snd hfield)
  · intro h
    apply ext
    show data.fields.map (fun f => (f.1, f.2.wire)) = data.fields
    have hid : data.fields.map (fun f => (f.1, f.2.wire)) = data.fields.map id := by
      refine List.map_congr_left ?_
      intro f hf
      rw [Value.wire_eq_self.mpr (h f hf)]
      rfl
    rw [hid, List.map_id]

/-- Into a target with the same indices in the same order goes what the wire kept. -/
theorem reads_wire {data target : AttributeData schema} (htyped : data.Typed)
    (hkeys : target.keys = data.keys) :
    Reads (fun sb => read sb target) data.bytes data.wire := by
  have hread := read_ok htyped hkeys
  have hres : target.assignAll (data.fields.map fun f => (f.1, f.2.wire)) = data.wire := by
    apply ext
    refine fields_assignAll ?_
    rw [List.map_map, hkeys]
    rfl
  rwa [hres] at hread

end AttributeData

/-! ### The objects a loop has made -/

/-- Each edge seen has an object, the one in the block, with the data it should have. -/
structure Remembers (val : EdgeTriplet T → AttributeData schema)
    (F : EdgeTriplet T → SharedPtr (AttributeData schema)) (seen : List (EdgeTriplet T))
    (read : Block.Shared T schema) [DecidableEq T] : Prop where
  keys : read.map Prod.fst = seen
  data : ∀ t p, read.lookup t = some p → p = F t ∧ p.val = val t

section Sharing

variable [LinearOrder T]

theorem lookup_ne_none {read : Block.Shared T schema} {t : EdgeTriplet T} :
    read.lookup t ≠ none ↔ t ∈ read.map Prod.fst := by
  induction read with
  | nil => simp
  | cons p read ih =>
      obtain ⟨t', q⟩ := p
      rw [List.lookup_cons]
      by_cases ht : t = t'
      · simp [ht]
      · have hbeq : (t == t') = false := by simpa using ht
        rw [hbeq]
        simp only [List.map_cons, List.mem_cons, ht, false_or]
        exact ih

/-- A block on the way to `goal` with the objects made for it so far. -/
def Sharing (val : EdgeTriplet T → AttributeData schema)
    (goal rest : VertexId → List (VertexId × T)) (block : Block T (AttributeData schema))
    (read : Block.Shared T schema) : Prop :=
  ∃ F seen, Building goal rest F seen block ∧ Remembers val F seen read

namespace Sharing

variable {val : EdgeTriplet T → AttributeData schema} {goal rest : VertexId → List (VertexId × T)}
  {block : Block T (AttributeData schema)} {read : Block.Shared T schema} {v w : VertexId} {tm : T}
  {l : List (VertexId × T)}

theorem new (val : EdgeTriplet T → AttributeData schema)
    (goal : VertexId → List (VertexId × T)) (partition : Int) :
    Sharing val goal goal { (Block.new : Block T (AttributeData schema)) with
      partition := partition } [] := by
  refine ⟨fun t => ⟨0, val t⟩, [], Building.new goal _ partition, rfl, ?_⟩
  intro t p hp
  simp at hp

/-- An edge whose other direction came before shares its object. -/
theorem next_old (hgoal : Listed goal)
    (h : Sharing val goal (Function.update rest v ((w, tm) :: l)) block read)
    {sdata : SharedPtr (AttributeData schema)}
    (hread : read.lookup (EdgeTriplet.of v w tm) = some sdata) :
    ∃ block', block.addEdge v w tm sdata = .ok block' ∧
      Sharing val goal (Function.update rest v l) block' read ∧
      block'.id = block.id ∧ block'.partition = block.partition ∧
      block'.subBlocks = block.subBlocks := by
  obtain ⟨F, seen, hbuild, hrem⟩ := h
  obtain ⟨hF, -⟩ := hrem.data _ _ hread
  obtain ⟨block', hok, hbuild', hframe⟩ := hbuild.next hgoal
  have hseen : EdgeTriplet.of v w tm ∈ seen := by
    rw [← hrem.keys, ← lookup_ne_none, hread]
    simp
  rw [if_pos hseen] at hbuild'
  rw [hF]
  exact ⟨block', hok, ⟨F, seen, hbuild', hrem⟩, hframe⟩

/-- An edge that comes first gets a new object. -/
theorem next_new (hgoal : Listed goal)
    (h : Sharing val goal (Function.update rest v ((w, tm) :: l)) block read)
    (hread : read.lookup (EdgeTriplet.of v w tm) = none) (addr : Nat) :
    ∃ block', block.addEdge v w tm ⟨addr, val (EdgeTriplet.of v w tm)⟩ = .ok block' ∧
      Sharing val goal (Function.update rest v l) block'
        ((EdgeTriplet.of v w tm, ⟨addr, val (EdgeTriplet.of v w tm)⟩) :: read) ∧
      block'.id = block.id ∧ block'.partition = block.partition ∧
      block'.subBlocks = block.subBlocks := by
  obtain ⟨F, seen, hbuild, hrem⟩ := h
  have hseen : EdgeTriplet.of v w tm ∉ seen := by
    rw [← hrem.keys, ← lookup_ne_none, hread]
    simp
  have hsame : ∀ t ∈ seen, Function.update F (EdgeTriplet.of v w tm)
      ⟨addr, val (EdgeTriplet.of v w tm)⟩ t = F t := by
    intro t ht
    rw [Function.update_of_ne]
    rintro rfl
    exact hseen ht
  obtain ⟨block', hok, hbuild', hframe⟩ := (hbuild.congr hsame).next hgoal
  rw [if_neg hseen] at hbuild'
  rw [Function.update_self] at hok
  refine ⟨block', hok, ⟨_, _, hbuild', ?_, ?_⟩, hframe⟩
  · rw [List.map_cons, hrem.keys]
  · intro t p hp
    rw [List.lookup_cons] at hp
    by_cases ht : t = EdgeTriplet.of v w tm
    · rw [ht] at hp ⊢
      simp only [beq_self_eq_true, Option.some.injEq] at hp
      rw [Function.update_self, ← hp]
      exact ⟨rfl, rfl⟩
    · have hbeq : (t == EdgeTriplet.of v w tm) = false := by simpa using ht
      rw [hbeq] at hp
      rw [Function.update_of_ne ht]
      exact hrem.data t p hp

end Sharing

end Sharing

namespace Block

section Bytes

variable [LinearOrder T] [Timestamp T]

/-! ### The bytes of the lists -/

/-- The data of an edge, unless it has gone out or there is none. -/
def dataBytes (partition : Int) (written : List (EdgeTriplet T)) (t : EdgeTriplet T)
    (data : AttributeData schema) : List Byte :=
  if partition = -1 ∨ t ∈ written then [] else data.bytes

/-- The edges whose data has gone out. -/
def nowWritten (partition : Int) (written : List (EdgeTriplet T)) (t : EdgeTriplet T) :
    List (EdgeTriplet T) :=
  if partition = -1 ∨ t ∈ written then written else t :: written

def edgeBytes (partition : Int) (v : VertexId) (written : List (EdgeTriplet T))
    (e : NLEdge T (AttributeData schema)) : List Byte :=
  Bytes.bigEndian 8 (BitVec.ofFin e.toVertex).toNat
    ++ Bytes.bigEndian 8 (Timestamp.toBits e.time).toNat
    ++ dataBytes partition written (e.triplet v) e.data.val

/-- The edges of a list, and the edges whose data has gone out with them. -/
def edgesBytes (partition : Int) (v : VertexId) :
    List (EdgeTriplet T) → List (NLEdge T (AttributeData schema)) →
      List Byte × List (EdgeTriplet T)
  | written, [] => ([], written)
  | written, e :: l =>
      let r := edgesBytes partition v (nowWritten partition written (e.triplet v)) l
      (edgeBytes partition v written e ++ r.1, r.2)

/-- The lists, one after the other. -/
def listsBytes (partition : Int) :
    List (EdgeTriplet T) → List (Sigma fun _ : VertexId => NeighborList T (AttributeData schema)) →
      List Byte × List (EdgeTriplet T)
  | written, [] => ([], written)
  | written, e :: l =>
      let r := edgesBytes partition e.1 written e.2.edges
      let r' := listsBytes partition r.2 l
      (Bytes.bigEndian 8 (BitVec.ofFin e.1).toNat
        ++ Bytes.bigEndian 4 (BitVec.ofNat 32 e.2.edges.length).toNat ++ r.1 ++ r'.1, r'.2)

theorem length_edgesBytes_ge (partition : Int) (v : VertexId) (written : List (EdgeTriplet T))
    (l : List (NLEdge T (AttributeData schema))) :
    l.length ≤ (edgesBytes partition v written l).1.length := by
  induction l generalizing written with
  | nil => simp
  | cons e l ih =>
      have hrest := ih (nowWritten partition written (e.triplet v))
      simp only [edgesBytes, edgeBytes, List.length_append, Bytes.length_bigEndian,
        List.length_cons]
      omega

theorem length_listsBytes_ge (partition : Int) (written : List (EdgeTriplet T))
    (l : List (Sigma fun _ : VertexId => NeighborList T (AttributeData schema))) :
    l.length ≤ (listsBytes partition written l).1.length := by
  induction l generalizing written with
  | nil => simp
  | cons e l ih =>
      have hrest := ih (edgesBytes partition e.1 written e.2.edges).2
      simp only [listsBytes, List.length_append, Bytes.length_bigEndian, List.length_cons]
      omega

/-- A list that fits has fewer edges than its count can hold. -/
theorem length_edges_lt {partition : Int} {written : List (EdgeTriplet T)}
    {l : List (Sigma fun _ : VertexId => NeighborList T (AttributeData schema))}
    (hfit : (listsBytes partition written l).1.length ≤ 2 ^ 32) :
    ∀ e ∈ l, e.2.edges.length < 2 ^ 32 := by
  induction l generalizing written with
  | nil => simp
  | cons e l ih =>
      have hge := length_edgesBytes_ge partition e.1 written e.2.edges
      simp only [listsBytes, List.length_append, Bytes.length_bigEndian] at hfit
      intro e' he'
      rcases List.mem_cons.mp he' with heq | he'
      · rw [heq]
        omega
      · have hrest : (listsBytes partition (edgesBytes partition e.1 written e.2.edges).2 l).1.length
            ≤ 2 ^ 32 := by omega
        exact ih hrest e' he'

/-! ### Writing them -/

theorem writeData_ok {T : Type} [LinearOrder T] {partition : Int} {written : List (EdgeTriplet T)}
    {t : EdgeTriplet T} {data : AttributeData schema} (htyped : partition ≠ -1 → data.Typed)
    {sb : NetworkByteBuffer} {old : List Byte} (h : Written old sb) :
    WithinLimit (old ++ dataBytes partition written t data).length
      (fun r => Written (old ++ dataBytes partition written t data) r.1 ∧
        r.2 = nowWritten partition written t)
      (writeData partition sb written t data) := by
  have hold : old.length ≤ 2 ^ 32 := by
    rw [← h.contents, length_contents h.growable]
    exact le_trans h.growable.cursor h.growable.limit
  unfold writeData dataBytes nowWritten
  by_cases hmaster : partition = -1
  · simp only [hmaster, true_or, if_true, List.append_nil]
    exact WithinLimit.ok hold ⟨h, rfl⟩
  · by_cases ht : t ∈ written
    · simp only [hmaster, ht, or_true, if_true, if_false, List.append_nil]
      exact WithinLimit.ok hold ⟨h, rfl⟩
    · simp only [hmaster, ht, or_self, if_false]
      refine (AttributeData.write_ok (htyped hmaster) h).map ?_
      intro sb' hsb'
      exact ⟨hsb', rfl⟩

theorem writeEdge_ok {partition : Int} {v : VertexId} {written : List (EdgeTriplet T)}
    {e : NLEdge T (AttributeData schema)} (htyped : partition ≠ -1 → e.data.val.Typed)
    {sb : NetworkByteBuffer} {old : List Byte} (h : Written old sb) :
    WithinLimit (old ++ edgeBytes partition v written e).length
      (fun r => Written (old ++ edgeBytes partition v written e) r.1 ∧
        r.2 = nowWritten partition written (e.triplet v))
      (writeEdge partition v (sb, written) e) := by
  unfold writeEdge edgeBytes
  rw [← List.append_assoc, ← List.append_assoc]
  refine (h.addUInt64 (BitVec.ofFin e.toVertex)).bind (by simp only [List.length_append]; omega) ?_
  intro sb₁ h₁
  refine (h₁.addDouble (Timestamp.toBits e.time)).bind (by simp only [List.length_append]; omega) ?_
  intro sb₂ h₂
  exact writeData_ok htyped h₂

theorem writeEdges_ok {partition : Int} {v : VertexId}
    {l : List (NLEdge T (AttributeData schema))}
    (htyped : partition ≠ -1 → ∀ e ∈ l, e.data.val.Typed)
    {written : List (EdgeTriplet T)} {sb : NetworkByteBuffer} {old : List Byte}
    (h : Written old sb) :
    WithinLimit (old ++ (edgesBytes partition v written l).1).length
      (fun r => Written (old ++ (edgesBytes partition v written l).1) r.1 ∧
        r.2 = (edgesBytes partition v written l).2)
      (l.foldlM (writeEdge partition v) (sb, written)) := by
  induction l generalizing written sb old with
  | nil =>
      simp only [edgesBytes, List.append_nil]
      refine WithinLimit.ok ?_ ⟨h, rfl⟩
      rw [← h.contents, length_contents h.growable]
      exact le_trans h.growable.cursor h.growable.limit
  | cons e l ih =>
      rw [List.foldlM_cons]
      simp only [edgesBytes]
      rw [← List.append_assoc]
      refine (writeEdge_ok (fun hp => htyped hp e List.mem_cons_self) h).bind
        (by simp only [List.length_append]; omega) ?_
      rintro ⟨sb', written'⟩ ⟨hsb', hwritten'⟩
      simp only at hwritten'
      subst hwritten'
      exact ih (fun hp e' he' => htyped hp e' (List.mem_cons_of_mem _ he')) hsb'

theorem writeLists_ok {partition : Int}
    {l : List (Sigma fun _ : VertexId => NeighborList T (AttributeData schema))}
    (written : List (EdgeTriplet T))
    (htyped : partition ≠ -1 → ∀ x ∈ l, ∀ e ∈ x.2.edges, e.data.val.Typed)
    {sb : NetworkByteBuffer} {old : List Byte} (h : Written old sb) :
    WithinLimit (old ++ (listsBytes partition written l).1).length
      (fun r => Written (old ++ (listsBytes partition written l).1) r.1)
      (l.foldlM (fun acc e => writeList partition acc e.1 e.2.edges) (sb, written)) := by
  induction l generalizing written sb old with
  | nil =>
      simp only [listsBytes, List.append_nil]
      refine WithinLimit.ok ?_ h
      rw [← h.contents, length_contents h.growable]
      exact le_trans h.growable.cursor h.growable.limit
  | cons x l ih =>
      rw [List.foldlM_cons]
      simp only [listsBytes]
      have hlist : WithinLimit (old ++ Bytes.bigEndian 8 (BitVec.ofFin x.1).toNat
          ++ Bytes.bigEndian 4 (BitVec.ofNat 32 x.2.edges.length).toNat
          ++ (edgesBytes partition x.1 written x.2.edges).1).length
          (fun r => Written (old ++ Bytes.bigEndian 8 (BitVec.ofFin x.1).toNat
            ++ Bytes.bigEndian 4 (BitVec.ofNat 32 x.2.edges.length).toNat
            ++ (edgesBytes partition x.1 written x.2.edges).1) r.1 ∧
            r.2 = (edgesBytes partition x.1 written x.2.edges).2)
          (writeList partition (sb, written) x.1 x.2.edges) := by
        unfold writeList
        refine (h.addUInt64 (BitVec.ofFin x.1)).bind (by simp only [List.length_append]; omega) ?_
        intro sb₁ h₁
        refine (h₁.addUInt32 (BitVec.ofNat 32 x.2.edges.length)).bind
          (by simp only [List.length_append]; omega) ?_
        intro sb₂ h₂
        exact writeEdges_ok (fun hp => htyped hp x List.mem_cons_self) h₂
      refine hlist.bind (by simp only [List.length_append]; omega) ?_
      rintro ⟨sb', written'⟩ ⟨hsb', hwritten'⟩
      simp only at hwritten'
      subst hwritten'
      have hrest := ih (edgesBytes partition x.1 written x.2.edges).2
        (fun hp x' hx' => htyped hp x' (List.mem_cons_of_mem _ hx')) hsb'
      simp only [List.append_assoc] at hrest ⊢
      exact hrest

/-! ### Reading them -/

/-- Where a reader is: the data of a master block is one empty object, a sub-block shares. -/
def ReadState (partition : Int) (val : EdgeTriplet T → AttributeData schema)
    (goal rest : VertexId → List (VertexId × T)) (block : Block T (AttributeData schema))
    (read : Shared T schema) : Prop :=
  if partition = -1 then
    read = [] ∧ ∃ seen, Building goal rest (fun _ => ⟨0, .empty schema⟩) seen block
  else Sharing val goal rest block read

/-- What the data of an edge has to do with what the reader makes of it. -/
def Readable (partition : Int) (attributes : List Text)
    (val : EdgeTriplet T → AttributeData schema) (v : VertexId)
    (e : NLEdge T (AttributeData schema)) : Prop :=
  partition ≠ -1 → e.data.val.Typed ∧ e.data.val.wire = val (e.triplet v) ∧
    ∃ target, AttributeData.ofNames schema attributes = .ok target ∧
      target.keys = e.data.val.keys

variable {partition : Int} {attributes : List Text} {val : EdgeTriplet T → AttributeData schema}
  {goal rest : VertexId → List (VertexId × T)} {v : VertexId}
  {block : Block T (AttributeData schema)} {read : Shared T schema}
  {sb : NetworkByteBuffer} {more : List Byte}

/-- The decision where an edge's data comes from is the writer's. -/
theorem readData_ok {T : Type} [LinearOrder T] {val : EdgeTriplet T → AttributeData schema}
    {goal rest : VertexId → List (VertexId × T)} {block : Block T (AttributeData schema)}
    {read : Shared T schema} (hgoal : Listed goal) {e : NLEdge T (AttributeData schema)}
    {l : List (VertexId × T)} (hread : Readable partition attributes val v e)
    (hstate : ReadState partition val goal
      (Function.update rest v ((e.toVertex, e.time) :: l)) block read)
    (hu : Unread sb (dataBytes partition (read.map Prod.fst) (e.triplet v) e.data.val ++ more)) :
    ∃ sdata read' block', readData partition attributes sb read (e.triplet v)
        = .ok (sdata, sb.advance
            (dataBytes partition (read.map Prod.fst) (e.triplet v) e.data.val).length, read') ∧
      Unread (sb.advance
        (dataBytes partition (read.map Prod.fst) (e.triplet v) e.data.val).length) more ∧
      block.addEdge v e.toVertex e.time sdata = .ok block' ∧
      ReadState partition val goal (Function.update rest v l) block' read' ∧
      read'.map Prod.fst = nowWritten partition (read.map Prod.fst) (e.triplet v) ∧
      block'.id = block.id ∧ block'.partition = block.partition ∧
      block'.subBlocks = block.subBlocks := by
  unfold ReadState at *
  unfold dataBytes at hu ⊢
  unfold nowWritten readData
  by_cases hmaster : partition = -1
  · simp only [hmaster, true_or, if_true, List.nil_append, List.length_nil, advance_zero]
      at hu hstate ⊢
    obtain ⟨hnil, seen, hbuild⟩ := hstate
    obtain ⟨block', hok, hbuild', hframe⟩ := hbuild.next hgoal
    exact ⟨_, read, block', rfl, hu, hok, ⟨hnil, _, hbuild'⟩, rfl, hframe⟩
  · obtain ⟨htyped, hwire, target, htarget, hkeys⟩ := hread hmaster
    simp only [hmaster, false_or, if_false] at hu hstate ⊢
    cases hlookup : read.lookup (e.triplet v) with
    | some sdata =>
        have hmem : e.triplet v ∈ read.map Prod.fst := by
          rw [← lookup_ne_none, hlookup]
          simp
        simp only [hmem, if_true, List.nil_append, List.length_nil, advance_zero] at hu ⊢
        obtain ⟨block', hok, hshare, hframe⟩ := hstate.next_old hgoal hlookup
        exact ⟨sdata, read, block', rfl, hu, hok, hshare, rfl, hframe⟩
    | none =>
        have hmem : e.triplet v ∉ read.map Prod.fst := by
          rw [← lookup_ne_none, hlookup]
          simp
        simp only [hmem, if_false] at hu ⊢
        obtain ⟨hok, hrest⟩ := AttributeData.reads_wire htyped hkeys sb more hu
        obtain ⟨block', hadd, hshare, hframe⟩ := hstate.next_new hgoal hlookup read.length
        refine ⟨⟨read.length, val (e.triplet v)⟩, _, block', ?_, hrest, hadd, hshare, rfl, hframe⟩
        simp only [htarget, Except.ok_bind, hok, hwire]
        rfl

theorem readEdge_ok (hgoal : Listed goal) {e : NLEdge T (AttributeData schema)}
    {l : List (VertexId × T)} (hread : Readable partition attributes val v e)
    (hpart : block.partition = partition)
    (hstate : ReadState partition val goal
      (Function.update rest v ((e.toVertex, e.time) :: l)) block read)
    (hu : Unread sb (edgeBytes partition v (read.map Prod.fst) e ++ more)) :
    ∃ block' read', readEdge attributes v block sb read
        = .ok (block', sb.advance (edgeBytes partition v (read.map Prod.fst) e).length, read') ∧
      Unread (sb.advance (edgeBytes partition v (read.map Prod.fst) e).length) more ∧
      ReadState partition val goal (Function.update rest v l) block' read' ∧
      read'.map Prod.fst = nowWritten partition (read.map Prod.fst) (e.triplet v) ∧
      block'.id = block.id ∧ block'.partition = block.partition ∧
      block'.subBlocks = block.subBlocks := by
  unfold edgeBytes at hu ⊢
  rw [List.append_assoc, List.append_assoc] at hu
  obtain ⟨hto, hu₁⟩ := Reads.getUInt64 (BitVec.ofFin e.toVertex) sb _ hu
  obtain ⟨htm, hu₂⟩ := Reads.getDouble (Timestamp.toBits e.time) _ _ hu₁
  obtain ⟨sdata, read', block', hdata, hu₃, hadd, hstate', hkeys, hframe⟩ :=
    readData_ok hgoal hread hstate hu₂
  rw [advance_advance, ← List.length_append] at htm hdata hu₃
  rw [advance_advance, ← List.length_append] at hdata hu₃
  refine ⟨block', read', ?_, hu₃, hstate', hkeys, hframe⟩
  unfold readEdge
  simp only [hto, htm, Except.ok_bind, Timestamp.ofBits_toBits, hpart]
  unfold NLEdge.triplet at hdata
  simp only [hdata, Except.ok_bind, hadd, Except.pure_eq_ok]
  rfl

theorem readEdges_ok (hgoal : Listed goal) {l : List (NLEdge T (AttributeData schema))}
    (hread : ∀ e ∈ l, Readable partition attributes val v e)
    (hpart : block.partition = partition)
    (hstate : ReadState partition val goal (Function.update rest v (ends l)) block read)
    (hu : Unread sb ((edgesBytes partition v (read.map Prod.fst) l).1 ++ more)) :
    ∃ block' read', readEdges attributes v l.length block sb read
        = .ok (block', sb.advance (edgesBytes partition v (read.map Prod.fst) l).1.length, read') ∧
      Unread (sb.advance (edgesBytes partition v (read.map Prod.fst) l).1.length) more ∧
      ReadState partition val goal (Function.update rest v []) block' read' ∧
      read'.map Prod.fst = (edgesBytes partition v (read.map Prod.fst) l).2 ∧
      block'.id = block.id ∧ block'.partition = block.partition ∧
      block'.subBlocks = block.subBlocks := by
  induction l generalizing block read sb with
  | nil => exact ⟨block, read, rfl, hu, hstate, rfl, rfl, rfl, rfl⟩
  | cons e l ih =>
      simp only [edgesBytes] at hu ⊢
      rw [List.append_assoc] at hu
      obtain ⟨block₁, read₁, hok₁, hu₁, hstate₁, hkeys₁, hid₁, hpart₁, hsub₁⟩ :=
        readEdge_ok hgoal (hread e List.mem_cons_self) hpart hstate hu
      rw [← hkeys₁] at hu₁
      obtain ⟨block₂, read₂, hok₂, hu₂, hstate₂, hkeys₂, hid₂, hpart₂, hsub₂⟩ :=
        ih (fun e' he' => hread e' (List.mem_cons_of_mem _ he')) (hpart₁.trans hpart) hstate₁ hu₁
      rw [hkeys₁, advance_advance, ← List.length_append] at hok₂ hu₂
      refine ⟨block₂, read₂, ?_, hu₂, hstate₂, by rw [hkeys₂, hkeys₁], hid₂.trans hid₁,
        hpart₂.trans hpart₁, hsub₂.trans hsub₁⟩
      simp only [List.length_cons, readEdges, hok₁, Except.ok_bind]
      exact hok₂

/-- A buffer over bytes read from the store has as many to give as are behind its read cursor. -/
theorem getNRemainingBytes_eq (hu : Unread sb more) (hwhole : sb.icursor = sb.size)
    (hsmall : sb.size < 2 ^ 64) : sb.getNRemainingBytes = more.length := by
  have hcur := hu.cursor
  have hlen := congrArg List.length hu.bytes
  rw [List.length_drop] at hlen
  unfold getNRemainingBytes
  rw [hwhole, ← hlen]
  unfold size at *
  omega

theorem readLists_ok (hgoal : Listed goal)
    {l : List (Sigma fun _ : VertexId => NeighborList T (AttributeData schema))}
    (hnodup : l.NodupKeys)
    (hread : ∀ x ∈ l, ∀ e ∈ x.2.edges, Readable partition attributes val x.1 e)
    (hlen : ∀ x ∈ l, x.2.edges.length < 2 ^ 32) (hpart : block.partition = partition)
    (hstate : ReadState partition val goal (remaining l) block read)
    (hwhole : sb.icursor = sb.size) (hsmall : sb.size < 2 ^ 64)
    (hu : Unread sb (listsBytes partition (read.map Prod.fst) l).1)
    {fuel : Nat} (hfuel : l.length ≤ fuel) :
    ∃ block' read', readLists attributes fuel block sb read
        = .ok (block', sb.advance (listsBytes partition (read.map Prod.fst) l).1.length) ∧
      ReadState partition val goal
        (remaining ([] : List (Sigma fun _ : VertexId => NeighborList T (AttributeData schema))))
        block' read' ∧
      block'.id = block.id ∧ block'.partition = block.partition ∧
      block'.subBlocks = block.subBlocks := by
  induction l generalizing block read sb fuel with
  | nil =>
      have hrem := getNRemainingBytes_eq hu hwhole hsmall
      refine ⟨block, read, ?_, hstate, rfl, rfl, rfl⟩
      unfold readLists
      rw [if_pos (by rw [hrem]; rfl)]
      rfl
  | cons x l ih =>
      obtain ⟨fuel, rfl⟩ : ∃ n, fuel = n + 1 := ⟨fuel - 1, by rw [List.length_cons] at hfuel; omega⟩
      rw [List.nodupKeys_cons] at hnodup
      obtain ⟨hx, hnodup⟩ := hnodup
      have hrem := getNRemainingBytes_eq hu hwhole hsmall
      simp only [listsBytes] at hu hrem ⊢
      rw [List.append_assoc, List.append_assoc] at hu
      obtain ⟨hhead, hu₁⟩ := Reads.getUInt64 (BitVec.ofFin x.1) sb _ hu
      obtain ⟨hcount, hu₂⟩ := Reads.getUInt32 (BitVec.ofNat 32 x.2.edges.length) _ _ hu₁
      have hn : (BitVec.ofNat 32 x.2.edges.length).toNat = x.2.edges.length := by
        rw [BitVec.toNat_ofNat, Nat.mod_eq_of_lt (hlen x List.mem_cons_self)]
      rw [remaining_cons] at hstate
      obtain ⟨block₁, read₁, hok₁, hu₃, hstate₁, hkeys₁, hid₁, hpart₁, hsub₁⟩ :=
        readEdges_ok hgoal (hread x List.mem_cons_self) hpart hstate hu₂
      rw [update_remaining_nil hx] at hstate₁
      rw [← hkeys₁] at hu₃
      obtain ⟨block₂, read₂, hok₂, hstate₂, hid₂, hpart₂, hsub₂⟩ :=
        ih hnodup (fun x' hx' => hread x' (List.mem_cons_of_mem _ hx'))
          (fun x' hx' => hlen x' (List.mem_cons_of_mem _ hx')) (hpart₁.trans hpart) hstate₁
          (by exact hwhole) (by exact hsmall) hu₃ (by simpa using hfuel)
      refine ⟨block₂, read₂, ?_, hstate₂, hid₂.trans hid₁, hpart₂.trans hpart₁, hsub₂.trans hsub₁⟩
      have hne : sb.getNRemainingBytes ≠ 0 := by
        rw [hrem]
        simp only [List.length_append, Bytes.length_bigEndian]
        omega
      rw [hkeys₁] at hok₂
      unfold readLists
      rw [if_neg hne]
      simp only [Bytes.length_bigEndian] at hhead hcount hok₁ hok₂
      simp only [hhead, hcount, Except.ok_bind, hn, hok₁, hok₂]
      simp only [advance_advance, List.length_append, Bytes.length_bigEndian]

end Bytes

end Block

end RailwayDB
