/-
Splitting a block by attributes.

The master block and the sub-blocks are made by the same walk over the edges of the
block: `forEdges_ok` is its induction, with the lists still to come as what the
invariant is about.  A sub-block has the lists of the block and of the data of each
edge the attributes of its part.

The codec meets the partitioning at the end of the file: what `partitionBlock` makes
has the shape the reader needs.
-/
import RailwayDB.Proofs.BlockRoundTrip

namespace RailwayDB

open NetworkByteBuffer

variable {T : Type} {schema : Schema}

/-- Names the schema has. -/
def Schema.Has (schema : Schema) (attributes : List Text) : Prop :=
  ∀ name ∈ attributes, name ∈ schema.names

namespace AttributeData

/-- A value for each attribute of the schema, of its type. -/
structure Full (data : AttributeData schema) : Prop where
  typed : data.Typed
  mem_keys : ∀ i, i ∈ data.keys ↔ i < schema.attributes.length

theorem getIndex_ok {name : Text} (h : name ∈ schema.names) :
    schema.getIndex name = .ok (schema.names.idxOf name) := by
  unfold Schema.getIndex
  rw [if_pos h]

theorem idxOf_lt {name : Text} (h : name ∈ schema.names) :
    schema.names.idxOf name < schema.attributes.length := by
  have hlt := List.idxOf_lt_length_of_mem h
  unfold Schema.names at hlt ⊢
  rwa [List.length_map] at hlt

/-- The indices of a data object made for some names. -/
def Over (attributes : List Text) (data : AttributeData schema) : Prop :=
  ∀ i, i ∈ data.keys ↔ ∃ name ∈ attributes, schema.names.idxOf name = i

theorem emplaceName_ok (data : AttributeData schema) {name : Text} (h : name ∈ schema.names) :
    ∃ type, data.emplaceName name
      = .ok (data.emplace (schema.names.idxOf name) (Value.ofType type)) := by
  obtain ⟨type, htype⟩ : ∃ type, typeOf schema (schema.names.idxOf name) = .ok type := by
    have hlt := idxOf_lt h
    unfold typeOf Schema.typeAt
    rw [List.getElem?_eq_getElem hlt]
    exact ⟨_, rfl⟩
  refine ⟨type, ?_⟩
  unfold emplaceName
  rw [getIndex_ok h, Except.ok_bind, htype]
  rfl

theorem ofNames_ok {attributes : List Text} (h : schema.Has attributes) :
    ∃ target, ofNames schema attributes = .ok target ∧ target.Over attributes := by
  have hfold : ∀ (l : List Text) (data : AttributeData schema), schema.Has l →
      ∃ target, l.foldlM emplaceName data = .ok target ∧
        ∀ i, i ∈ target.keys ↔ i ∈ data.keys ∨ ∃ name ∈ l, schema.names.idxOf name = i := by
    intro l
    induction l with
    | nil =>
        intro data _
        exact ⟨data, rfl, by simp⟩
    | cons name l ih =>
        intro data hl
        obtain ⟨type, htype⟩ := emplaceName_ok data (hl name List.mem_cons_self)
        obtain ⟨target, hok, hkeys⟩ :=
          ih (data.emplace (schema.names.idxOf name) (Value.ofType type))
            fun n hn => hl n (List.mem_cons_of_mem _ hn)
        refine ⟨target, by rw [List.foldlM_cons, htype, Except.ok_bind, hok], ?_⟩
        intro i
        rw [hkeys, keys_emplace]
        by_cases hmem : schema.names.idxOf name ∈ data.keys
        · rw [if_pos hmem]
          refine ⟨?_, ?_⟩
          · rintro (hi | ⟨n, hn, hi⟩)
            · exact Or.inl hi
            · exact Or.inr ⟨n, List.mem_cons_of_mem _ hn, hi⟩
          · rintro (hi | ⟨n, hn, hi⟩)
            · exact Or.inl hi
            · rcases List.mem_cons.mp hn with hname | hn
              · rw [hname] at hi
                exact Or.inl (hi ▸ hmem)
              · exact Or.inr ⟨n, hn, hi⟩
        · rw [if_neg hmem, List.mem_append, List.mem_singleton]
          simp only [List.mem_cons, exists_eq_or_imp]
          rw [or_assoc, eq_comm]
  obtain ⟨target, hok, hkeys⟩ := hfold attributes (empty schema) h
  refine ⟨target, hok, ?_⟩
  intro i
  rw [hkeys]
  simp [empty, keys]

/-- What a part keeps of the data of an edge. -/
theorem select_ok {source : AttributeData schema} {attributes : List Text}
    (h : schema.Has attributes) (hfull : source.Full) :
    ∃ target sdata, ofNames schema attributes = .ok target ∧ source.select attributes = .ok sdata ∧
      sdata.keys = target.keys ∧ sdata.Over attributes ∧
      ∀ i ∈ sdata.keys, sdata.find? i = source.find? i := by
  have hfold : ∀ (l done : List Text) (data : AttributeData schema), schema.Has l →
      (∀ name ∈ l, schema.names.idxOf name ∈ data.keys) →
      (∀ name ∈ done, data.find? (schema.names.idxOf name)
        = source.find? (schema.names.idxOf name)) →
      ∃ sdata, l.foldlM source.copyAttribute data = .ok sdata ∧ sdata.keys = data.keys ∧
        ∀ name ∈ done ++ l, sdata.find? (schema.names.idxOf name)
          = source.find? (schema.names.idxOf name) := by
    intro l
    induction l with
    | nil =>
        intro done data _ _ hdone
        exact ⟨data, rfl, rfl, by simpa using hdone⟩
    | cons name l ih =>
        intro done data hl hkeys hdone
        have hname := hl name List.mem_cons_self
        obtain ⟨value, hvalue⟩ : ∃ value, source.find? (schema.names.idxOf name) = some value := by
          refine Option.ne_none_iff_exists'.mp ?_
          rw [Ne, find?_eq_none, not_not]
          exact (hfull.mem_keys _).mpr (idxOf_lt hname)
        have hstep : source.copyAttribute data name
            = .ok (data.setAttribute (schema.names.idxOf name) value) := by
          unfold copyAttribute getAttribute
          rw [getIndex_ok hname, Except.ok_bind, hvalue]
          rfl
        have hset := keys_setAttribute (hkeys name List.mem_cons_self) value
        obtain ⟨sdata, hok, hk, hall⟩ := ih (done ++ [name])
          (data.setAttribute (schema.names.idxOf name) value)
          (fun n hn => hl n (List.mem_cons_of_mem _ hn))
          (fun n hn => by
            rw [hset]
            exact hkeys n (List.mem_cons_of_mem _ hn))
          (by
            intro n hn
            rw [find?_setAttribute]
            split_ifs with heq
            · rw [heq, hvalue]
            · rcases List.mem_append.mp hn with hn | hn
              · exact hdone n hn
              · rw [List.mem_singleton.mp hn] at heq
                exact absurd rfl heq)
        refine ⟨sdata, by rw [List.foldlM_cons, hstep, Except.ok_bind, hok], hk.trans hset, ?_⟩
        simpa using hall
  obtain ⟨target, htarget, hover⟩ := ofNames_ok h
  obtain ⟨sdata, hok, hkeys, hall⟩ := hfold attributes [] target h
    (fun name hname => (hover _).mpr ⟨name, hname, rfl⟩) (by simp)
  have hover' : sdata.Over attributes := by
    intro i
    rw [hkeys, hover]
  refine ⟨target, sdata, htarget, ?_, hkeys, hover', ?_⟩
  · unfold select
    rw [htarget, Except.ok_bind, hok]
  · intro i hi
    obtain ⟨name, hname, hidx⟩ := (hover' i).mp hi
    rw [← hidx]
    exact hall name (by simpa using hname)

/-- Values taken from typed data are typed. -/
theorem Typed.of_find? {source sdata : AttributeData schema} (h : source.Typed)
    (hfind : ∀ i ∈ sdata.keys, sdata.find? i = source.find? i) : sdata.Typed := by
  intro f hf
  have hi : f.1 ∈ sdata.keys := List.mem_map_of_mem hf
  have hsource : source.find? f.1 = some f.2 := by
    rw [← hfind _ hi, find?_eq_some]
    exact hf
  exact h _ (find?_eq_some.mp hsource)

theorem Short.of_find? {source sdata : AttributeData schema} (h : source.Short)
    (hfind : ∀ i ∈ sdata.keys, sdata.find? i = source.find? i) : sdata.Short := by
  intro f hf
  have hi : f.1 ∈ sdata.keys := List.mem_map_of_mem hf
  have hsource : source.find? f.1 = some f.2 := by
    rw [← hfind _ hi, find?_eq_some]
    exact hf
  exact h _ (find?_eq_some.mp hsource)

end AttributeData

namespace Block

section Walk

variable [LinearOrder T]

/-! ### The walk over the edges -/

/-- The edges in the order they come: head, edge, and the position of the edge in its list. -/
def walk (block : Block T (AttributeData schema)) :
    List (VertexId × NLEdge T (AttributeData schema) × Nat) :=
  block.neigs.entries.flatMap fun x => x.2.edges.zipIdx.map fun e => (x.1, e)

/-- Two loops, one in the other, are one loop over all of the edges. -/
theorem foldlM_walk {T : Type} {M : Type → Type} [Monad M] [LawfulMonad M] {β : Type}
    (f : β → VertexId → NLEdge T (AttributeData schema) × Nat → M β)
    (block : Block T (AttributeData schema)) (acc : β) :
    block.neigs.entries.foldlM
        (fun acc x => x.2.edges.zipIdx.foldlM (fun acc e => f acc x.1 e) acc) acc
      = block.walk.foldlM (fun acc p => f acc p.1 p.2) acc := by
  unfold walk
  induction block.neigs.entries generalizing acc with
  | nil => rfl
  | cons x l ih =>
      rw [List.foldlM_cons, List.flatMap_cons, List.foldlM_append, List.foldlM_map]
      simp only [ih]

/-- What a rest of the walk has still to come of each list. -/
def toCome (l : List (VertexId × NLEdge T (AttributeData schema) × Nat)) (v : VertexId) :
    List (VertexId × T) :=
  l.filterMap fun p => if p.1 = v then some (p.2.1.toVertex, p.2.1.time) else none

theorem toCome_cons {T : Type} (v : VertexId) (e : NLEdge T (AttributeData schema)) (k : Nat)
    (l : List (VertexId × NLEdge T (AttributeData schema) × Nat)) :
    toCome ((v, e, k) :: l)
      = Function.update (toCome l) v ((e.toVertex, e.time) :: toCome l v) := by
  funext w
  unfold toCome
  by_cases hw : w = v
  · rw [hw, Function.update_self]
    simp only [List.filterMap_cons, if_true]
  · have hvw : ¬ v = w := fun h => hw h.symm
    rw [Function.update_of_ne hw]
    simp only [List.filterMap_cons, if_neg hvw]

theorem toCome_zipIdx {T : Type} (w v : VertexId) (l : List (NLEdge T (AttributeData schema)))
    (n : Nat) :
    toCome ((l.zipIdx n).map fun e => (w, e)) v = if w = v then ends l else [] := by
  induction l generalizing n with
  | nil => simp [toCome]
  | cons e l ih =>
      rw [List.zipIdx_cons, List.map_cons, toCome_cons]
      by_cases hw : w = v
      · rw [← hw, Function.update_self, if_pos rfl]
        have hrest := ih (n + 1)
        rw [if_pos hw, ← hw] at hrest
        rw [hrest]
        rfl
      · rw [Function.update_of_ne fun h => hw h.symm, ih, if_neg hw, if_neg hw]

theorem toCome_walk {T : Type} (block : Block T (AttributeData schema)) :
    toCome block.walk = fun v => ends (block.neigs.edges v) := by
  have hlists : ∀ l : List (Sigma fun _ : VertexId => NeighborList T (AttributeData schema)),
      l.NodupKeys →
      toCome (l.flatMap fun x => x.2.edges.zipIdx.map fun e => (x.1, e)) = remaining l := by
    intro l hl
    induction l with
    | nil => rfl
    | cons x l ih =>
        obtain ⟨hx, hl⟩ := List.nodupKeys_cons.mp hl
        funext v
        rw [List.flatMap_cons, remaining_cons, ← ih hl]
        unfold toCome
        rw [List.filterMap_append]
        have hlist := toCome_zipIdx x.1 v x.2.edges 0
        unfold toCome at hlist
        rw [hlist]
        by_cases hv : x.1 = v
        · rw [if_pos hv, ← hv, Function.update_self]
          have hnone := congrFun (ih hl) x.1
          rw [remaining_of_notMem hx] at hnone
          unfold toCome at hnone
          rw [hnone, List.append_nil]
        · rw [if_neg hv, List.nil_append, Function.update_of_ne fun h => hv h.symm]
  unfold walk
  rw [hlists _ block.neigs.nodupKeys]
  exact funext (remaining_entries block.neigs)

theorem getElem?_of_mem_walk {T : Type} {block : Block T (AttributeData schema)} {v : VertexId}
    {e : NLEdge T (AttributeData schema)} {k : Nat} (h : (v, e, k) ∈ block.walk) :
    (block.neigs.edges v)[k]? = some e := by
  obtain ⟨x, hx, hmem⟩ := List.mem_flatMap.mp h
  obtain ⟨p, hp, heq⟩ := List.mem_map.mp hmem
  obtain ⟨hv, hpe⟩ := Prod.mk.inj heq
  rw [← hv, NeighborListMap.edges_of_lookup (AList.mem_lookup_iff.mpr hx)]
  rw [hpe] at hp
  exact List.mem_zipIdx_iff_getElem?.mp hp

/-- **What holds of the edges to come holds at the end when none are left.** -/
theorem forEdges_ok {T : Type} {β : Type} (block : Block T (AttributeData schema))
    {f : β → VertexId → NLEdge T (AttributeData schema) × Nat → Except Fault β}
    {R : (VertexId → List (VertexId × T)) → β → Prop}
    (hstep : ∀ v e k rest l acc, (block.neigs.edges v)[k]? = some e →
      R (Function.update rest v ((e.toVertex, e.time) :: l)) acc →
      ∃ acc', f acc v (e, k) = .ok acc' ∧ R (Function.update rest v l) acc') (acc : β)
    (hR : R (fun v => ends (block.neigs.edges v)) acc) :
    ∃ acc', block.forEdges f acc = .ok acc' ∧ R (fun _ => []) acc' := by
  have hrun := Except.foldlM_ok (f := fun acc p => f acc p.1 p.2)
    (P := fun l acc => (∀ p ∈ l, p ∈ block.walk) ∧ R (toCome l) acc) (by
      rintro ⟨v, e, k⟩ l acc ⟨hmem, hR⟩
      rw [toCome_cons] at hR
      obtain ⟨acc', hok, hR'⟩ := hstep v e k _ _ acc
        (getElem?_of_mem_walk (hmem _ List.mem_cons_self)) hR
      rw [Function.update_eq_self] at hR'
      exact ⟨acc', hok, fun p hp => hmem p (List.mem_cons_of_mem _ hp), hR'⟩)
    block.walk acc ⟨fun _ hp => hp, by rwa [toCome_walk]⟩
  obtain ⟨acc', hok, -, hR'⟩ := hrun
  refine ⟨acc', ?_, hR'⟩
  unfold forEdges
  rw [foldlM_walk f, hok]

/-! ### The blocks of a partitioning -/

/-- What a part keeps of the data of an edge. -/
def picked (attributes : List Text) (data : AttributeData schema) : AttributeData schema :=
  (data.select attributes).toOption.getD (.empty schema)

/-- A block over the lists of another, with `g` of the data. -/
structure Derived (g : AttributeData schema → AttributeData schema) (partition : Int)
    (block block' : Block T (AttributeData schema)) : Prop where
  formed : block'.Formed
  partition : block'.partition = partition
  subBlocks : block'.subBlocks = []
  edges : ∀ v, contents (block'.neigs.edges v)
    = (contents (block.neigs.edges v)).map fun p => (p.1, p.2.1, g p.2.2)

theorem ends_of_contents {T : Type} {D D' : Type} {g : D → D'} {l : List (NLEdge T D)}
    {l' : List (NLEdge T D')} (h : contents l' = (contents l).map fun p => (p.1, p.2.1, g p.2.2)) :
    ends l' = ends l := by
  have hends : ∀ {D : Type} (l : List (NLEdge T D)),
      ends l = (contents l).map fun p => (p.1, p.2.1) := by
    intro D l
    unfold ends contents
    rw [List.map_map]
    rfl
  rw [hends, hends, h, List.map_map]
  rfl

theorem masterBlock_ok {block : Block T (AttributeData schema)} (h : block.Formed) :
    ∃ master, block.masterBlock = .ok master ∧
      Derived (fun _ => .empty schema) (-1) block master := by
  obtain ⟨F, seen, hbuilt, hlisted⟩ := h
  obtain ⟨master, hok, ⟨seen', hbuild⟩, hpart, hsub⟩ := forEdges_ok block
    (f := fun acc headVertex edge => acc.addEdge headVertex edge.1.toVertex edge.1.time
      (⟨0, .empty schema⟩ : SharedPtr (AttributeData schema)))
    (R := fun rest acc => (∃ seen, Building (fun v => ends (block.neigs.edges v)) rest
      (fun _ => ⟨0, .empty schema⟩) seen acc) ∧ acc.partition = -1 ∧ acc.subBlocks = [])
    (by
      rintro v e k rest l acc - ⟨⟨seen, hbuild⟩, hpart, hsub⟩
      obtain ⟨acc', hok, hbuild', -, hpart', hsub'⟩ := hbuild.next hlisted
      exact ⟨acc', hok, ⟨_, hbuild'⟩, hpart'.trans hpart, hsub'.trans hsub⟩)
    { Block.new with partition := -1 }
    ⟨⟨[], Building.new _ _ (-1)⟩, rfl, rfl⟩
  have hends : ∀ v, ends (master.neigs.edges v) = ends (block.neigs.edges v) := by
    intro v
    rw [← hbuild.come v, List.append_nil]
  refine ⟨master, hok, ⟨_, seen', hbuild.toBuilt, ?_⟩, hpart, hsub, ?_⟩
  · simpa only [hends] using hlisted
  · exact contents_map (g := fun _ => .empty schema) hbuilt hbuild.toBuilt hends fun _ _ => rfl

/-- The attributes the edges of a block have. -/
def FullData (block : Block T (AttributeData schema)) : Prop :=
  ∀ v, ∀ e ∈ block.neigs.edges v, e.data.val.Full

theorem select_eq_picked {attributes : List Text} (hnames : schema.Has attributes)
    {data : AttributeData schema} (hfull : data.Full) :
    data.select attributes = .ok (picked attributes data) := by
  obtain ⟨target, sdata, -, hselect, -⟩ := AttributeData.select_ok hnames hfull
  unfold picked
  rw [hselect]
  rfl

theorem addPart_ok {attributes : List Text} (val : EdgeTriplet T → AttributeData schema)
    {goal rest : VertexId → List (VertexId × T)} (hgoal : Listed goal)
    {acc : Block T (AttributeData schema) × Shared T schema} {v : VertexId}
    {e : NLEdge T (AttributeData schema)} {l : List (VertexId × T)} (k : Nat)
    (hselect : e.data.val.select attributes = .ok (val (e.triplet v)))
    (h : Sharing val goal (Function.update rest v ((e.toVertex, e.time) :: l)) acc.1 acc.2) :
    ∃ acc', addPart attributes acc v (e, k) = .ok acc' ∧
      Sharing val goal (Function.update rest v l) acc'.1 acc'.2 ∧
      acc'.1.partition = acc.1.partition ∧ acc'.1.subBlocks = acc.1.subBlocks := by
  unfold addPart share
  unfold NLEdge.triplet at hselect
  cases hlookup : acc.2.lookup (EdgeTriplet.of v e.toVertex e.time) with
  | some sdata =>
      obtain ⟨block', hok, hshare, -, hpart, hsub⟩ := h.next_old hgoal hlookup
      refine ⟨(block', acc.2), ?_, hshare, hpart, hsub⟩
      simp only [hlookup, Except.ok_bind, hok, Except.pure_eq_ok]
  | none =>
      obtain ⟨block', hok, hshare, -, hpart, hsub⟩ := h.next_new hgoal hlookup acc.2.length
      refine ⟨(block', _), ?_, hshare, hpart, hsub⟩
      simp only [hlookup, hselect, Except.ok_map, Except.ok_bind, hok, Except.pure_eq_ok]

theorem subBlock_ok {block : Block T (AttributeData schema)} (h : block.Formed)
    (hfull : block.FullData) (i : Nat) {attributes : List Text} (hnames : schema.Has attributes) :
    ∃ sub, block.subBlock i attributes = .ok sub ∧
      Derived (picked attributes) (BitVec.ofNat 32 i).toInt block sub := by
  obtain ⟨F, seen, hbuilt, hlisted⟩ := h
  obtain ⟨acc, hok, ⟨F', seen', hbuild, hrem⟩, hpart, hsub⟩ := forEdges_ok block
    (f := addPart attributes)
    (R := fun rest acc => Sharing (fun t => picked attributes (F t).val)
      (fun v => ends (block.neigs.edges v)) rest acc.1 acc.2 ∧
      acc.1.partition = (BitVec.ofNat 32 i).toInt ∧ acc.1.subBlocks = [])
    (by
      rintro v e k rest l acc hget ⟨hshare, hpart, hsub⟩
      have hmem := List.mem_of_getElem? hget
      have hselect : e.data.val.select attributes = .ok (picked attributes (F (e.triplet v)).val) := by
        rw [← hbuilt.data v e hmem]
        exact select_eq_picked hnames (hfull v e hmem)
      obtain ⟨acc', hok, hshare', hpart', hsub'⟩ :=
        addPart_ok (fun t => picked attributes (F t).val) hlisted k hselect hshare
      exact ⟨acc', hok, hshare', hpart'.trans hpart, hsub'.trans hsub⟩)
    ({ Block.new with partition := (BitVec.ofNat 32 i).toInt }, [])
    ⟨Sharing.new _ _ _, rfl, rfl⟩
  have hends : ∀ v, ends (acc.1.neigs.edges v) = ends (block.neigs.edges v) := by
    intro v
    rw [← hbuild.come v, List.append_nil]
  refine ⟨acc.1, ?_, ⟨F', seen', hbuild.toBuilt, ?_⟩, hpart, hsub, ?_⟩
  · unfold subBlock
    rw [hok]
    rfl
  · simpa only [hends] using hlisted
  · refine contents_map hbuilt hbuild.toBuilt hends ?_
    intro t ht
    rw [← hrem.keys, ← lookup_ne_none] at ht
    obtain ⟨p, hp⟩ := Option.ne_none_iff_exists'.mp ht
    obtain ⟨hpF, hval⟩ := hrem.data t p hp
    rw [← hpF, hval]

/-- The blocks of a partitioning: the master, and a sub-block for each part in order. -/
structure Split (part : Partitioning) (block first : Block T (AttributeData schema))
    (rest : List (Block T (AttributeData schema))) : Prop where
  master : Derived (fun _ => .empty schema) (-1) block first
  subs : List.Forall₂ (fun p sub => Derived (picked p.1) (BitVec.ofNat 32 p.2).toInt block sub)
    part.zipIdx rest

theorem Split.sub_of_getElem? {part : Partitioning} {block first sub : Block T (AttributeData schema)}
    {rest : List (Block T (AttributeData schema))} (h : Split part block first rest) {i : Nat}
    (hget : rest[i]? = some sub) :
    ∃ attributes, part[i]? = some attributes ∧
      Derived (picked attributes) (BitVec.ofNat 32 i).toInt block sub := by
  obtain ⟨hlen, hall⟩ := List.forall₂_iff_get.mp h.subs
  obtain ⟨hi, hsub⟩ := List.getElem?_eq_some_iff.mp hget
  have hi' : i < part.length := by
    rw [List.length_zipIdx] at hlen
    omega
  have hderived := hall i (by rwa [List.length_zipIdx]) hi
  simp only [List.get_eq_getElem, List.getElem_zipIdx, Nat.zero_add, hsub] at hderived
  exact ⟨part[i], List.getElem?_eq_getElem hi', hderived⟩

/-- **Every block splits by every partitioning over its schema.** -/
theorem partitionWith_ok {block : Block T (AttributeData schema)} (h : block.Formed)
    (hfull : block.FullData) {part : Partitioning}
    (hnames : ∀ attributes ∈ part, schema.Has attributes) :
    ∃ master subs, block.partitionWith part = .ok (master :: subs) ∧
      Split part block master subs := by
  obtain ⟨master, hmaster, hderived⟩ := masterBlock_ok h
  obtain ⟨subs, hsubs, hall⟩ := Except.mapM_forall₂ (f := fun p => block.subBlock p.2 p.1)
    (R := fun p sub => Derived (picked p.1) (BitVec.ofNat 32 p.2).toInt block sub) part.zipIdx (by
      intro p hp
      have hmem : p.1 ∈ part := List.fst_mem_of_mem_zipIdx hp
      exact subBlock_ok h hfull p.2 (hnames _ hmem))
  refine ⟨master, subs, ?_, hderived, hall⟩
  unfold partitionWith
  rw [hmaster, Except.ok_bind, hsubs]
  rfl

end Walk

section Stored

variable [LinearOrder T]

/-! ### From the partitioning to the store -/

theorem mem_of_contents {T : Type} {D D' : Type} {g : D → D'} {l : List (NLEdge T D)}
    {l' : List (NLEdge T D')} (h : contents l' = (contents l).map fun p => (p.1, p.2.1, g p.2.2))
    {e' : NLEdge T D'} (he' : e' ∈ l') :
    ∃ e ∈ l, e'.toVertex = e.toVertex ∧ e'.time = e.time ∧ e'.data.val = g e.data.val := by
  have hmem : (e'.toVertex, e'.time, e'.data.val) ∈ contents l' := List.mem_map_of_mem he'
  rw [h] at hmem
  obtain ⟨p, hp, heq⟩ := List.mem_map.mp hmem
  obtain ⟨e, he, hep⟩ := List.mem_map.mp hp
  rw [← hep] at heq
  simp only [Prod.mk.injEq] at heq
  exact ⟨e, he, heq.1.symm, heq.2.1.symm, heq.2.2.symm⟩

/-- The same lists in another order of the hash map. -/
theorem edges_perm {T : Type} {D : Type} {m m' : NeighborListMap T D}
    (h : m'.entries.Perm m.entries) (v : VertexId) : m'.edges v = m.edges v := by
  unfold NeighborListMap.edges
  rw [AList.perm_lookup h]

theorem Formed.perm {block block' : Block T (AttributeData schema)} (h : block.Formed)
    (hperm : block'.neigs.entries.Perm block.neigs.entries)
    (hsize : block'.serializedSize = block.serializedSize) : block'.Formed := by
  obtain ⟨F, seen, hbuilt, hlisted⟩ := h
  have hedges := edges_perm hperm
  refine ⟨F, seen, ⟨?_, ?_, ?_, hbuilt.nodup, ?_⟩, by simpa only [hedges] using hlisted⟩
  · intro w nl hw
    rw [AList.perm_lookup hperm] at hw
    exact hbuilt.lists w nl hw
  · intro v e he
    rw [hedges] at he
    exact hbuilt.data v e he
  · intro t
    rw [hbuilt.mem_seen]
    simp only [hedges]
  · have hkeys : block'.neigs.keys.length = block.neigs.keys.length := by
      unfold AList.keys List.keys
      rw [List.length_map, List.length_map, hperm.length_eq]
    have htotal : edgeTotal block'.neigs = edgeTotal block.neigs := by
      unfold edgeTotal
      exact (hperm.map _).sum_eq
    rw [hsize, hbuilt.size, hkeys, htotal]

/-- A block of a partitioning on its way to the store: `addBlock` gives it an id, a master its
sub-blocks, and the order of the hash map is whatever it is. -/
structure StoredAs (made stored : Block T (AttributeData schema)) : Prop where
  partition : stored.partition = made.partition
  size : stored.serializedSize = made.serializedSize
  entries : stored.neigs.entries.Perm made.neigs.entries

theorem Derived.stored {g : AttributeData schema → AttributeData schema} {i : Int}
    {block made stored : Block T (AttributeData schema)} (h : Derived g i block made)
    (hstored : StoredAs made stored) :
    stored.Formed ∧ stored.partition = i ∧ ∀ v, contents (stored.neigs.edges v)
      = (contents (block.neigs.edges v)).map fun p => (p.1, p.2.1, g p.2.2) := by
  refine ⟨h.formed.perm hstored.entries hstored.size, hstored.partition.trans h.partition, ?_⟩
  intro v
  rw [edges_perm hstored.entries, h.edges]

/-- A master block with sub-blocks is as the reader needs it. -/
theorem Derived.laid_master {part : Partitioning} {block made stored : Block T (AttributeData schema)}
    (h : Derived (fun _ => .empty schema) (-1) block made) (hstored : StoredAs made stored)
    (hids : stored.subBlocks ≠ []) : stored.Laid part := by
  obtain ⟨-, hpart, hedges⟩ := h.stored hstored
  refine Or.inl ⟨hpart, hids, ?_⟩
  intro v e he
  obtain ⟨-, -, -, -, hval⟩ := mem_of_contents (g := fun _ => .empty schema) (hedges v) he
  exact hval

/-- So is a sub-block. -/
theorem Derived.laid_sub {part : Partitioning} {block made stored : Block T (AttributeData schema)}
    {attributes : List Text} {i : Nat} (hfull : block.FullData) (hnames : schema.Has attributes)
    (hi : i < 2 ^ 31) (hget : part[i]? = some attributes)
    (h : Derived (picked attributes) (BitVec.ofNat 32 i).toInt block made)
    (hstored : StoredAs made stored) : stored.Laid part := by
  obtain ⟨-, hpart, hedges⟩ := h.stored hstored
  obtain ⟨target, htarget, -⟩ := AttributeData.ofNames_ok hnames
  have hint : (BitVec.ofNat 32 i).toInt = i := by
    rw [BitVec.toInt_eq_toNat_of_lt]
    · rw [BitVec.toNat_ofNat, Nat.mod_eq_of_lt (by omega)]
    · rw [BitVec.toNat_ofNat, Nat.mod_eq_of_lt (by omega)]
      omega
  refine Or.inr ⟨i, hi, hpart.trans hint, attributes, hget, target, htarget, ?_⟩
  intro v e he
  obtain ⟨e₀, he₀, -, -, hval⟩ := mem_of_contents (hedges v) he
  obtain ⟨target', sdata, htarget', hselect, hkeys, -, hfind⟩ :=
    AttributeData.select_ok hnames (hfull v e₀ he₀)
  have hpicked : picked attributes e₀.data.val = sdata := by
    unfold picked
    rw [hselect]
    rfl
  rw [htarget, Except.ok.injEq] at htarget'
  rw [hval, hpicked, htarget', hkeys]
  exact ⟨(hfull v e₀ he₀).typed.of_find? hfind, rfl⟩

/-- Two blocks of which no caller can tell one from the other: hash maps have no order, and an
address says no more than that two edges have the same object. -/
structure Same (block block' : Block T (AttributeData schema)) : Prop where
  id : block'.id = block.id
  subBlocks : block'.subBlocks = block.subBlocks
  partition : block'.partition = block.partition
  size : block'.getSerializedSize = block.getSerializedSize
  heads : ∀ v, v ∈ block'.neigs ↔ v ∈ block.neigs
  edges : ∀ v, contents (block'.neigs.edges v) = contents (block.neigs.edges v)
  shared : ∀ v w, ∀ e ∈ block'.neigs.edges v, ∀ e' ∈ block'.neigs.edges w,
    e.triplet v = e'.triplet w → e.data = e'.data

/-- When no text is too long nothing is lost. -/
theorem ComesBack.same {block block' : Block T (AttributeData schema)} (h : ComesBack block block')
    (hformed : block.Formed) (hshort : ∀ v, ∀ e ∈ block.neigs.edges v, e.data.val.Short) :
    Same block block' := by
  obtain ⟨F, seen, hbuilt, -⟩ := hformed
  obtain ⟨F', seen', hbuilt', -⟩ := h.formed
  have hends : ∀ v, ends (block'.neigs.edges v) = ends (block.neigs.edges v) :=
    fun v => ends_of_contents (h.edges v)
  have hedges : ∀ v, contents (block'.neigs.edges v) = contents (block.neigs.edges v) := by
    intro v
    rw [h.edges v]
    have hid : ∀ p ∈ contents (block.neigs.edges v), (p.1, p.2.1, p.2.2.wire) = p := by
      intro p hp
      obtain ⟨e, he, hep⟩ := List.mem_map.mp hp
      rw [← hep, AttributeData.wire_eq_self.mpr (hshort v e he)]
    rw [List.map_congr_left hid, List.map_id']
  refine ⟨h.id, h.subBlocks, h.partition, ?_, ?_, hedges, ?_⟩
  · refine (hbuilt.size_eq hbuilt' (fun v => (hends v).symm) ?_).symm
    intro t ht
    obtain ⟨v, e, he, htrip⟩ := (hbuilt.mem_seen t).mp ht
    have hmem : (e.toVertex, e.time, e.data.val) ∈ contents (block'.neigs.edges v) := by
      rw [hedges]
      exact List.mem_map_of_mem he
    obtain ⟨e', he', heq⟩ := List.mem_map.mp hmem
    simp only [Prod.mk.injEq] at heq
    have htrip' : e'.triplet v = t := by
      rw [← htrip]
      unfold NLEdge.triplet
      rw [heq.1, heq.2.1]
    rw [← htrip, ← hbuilt.data v e he, htrip, ← htrip', ← hbuilt'.data v e' he', heq.2.2]
  · intro v
    rw [hbuilt.lists.mem_iff, hbuilt'.lists.mem_iff]
    rw [Ne, Ne, ← ends_eq_nil, hends, ends_eq_nil]
  · intro v w e he e' he' htrip
    rw [hbuilt'.data v e he, hbuilt'.data w e' he', htrip]

end Stored

section RoundTrip

variable [LinearOrder T] [Timestamp T] [BlockTime T] {P : Type} [SliceIndex P T]

/-- Writing the block and reading it again: it is refused when its bytes do not fit a buffer, and
comes back the same when they do. -/
def RoundTrips (idx idx' : P) (stored : Block T (AttributeData schema)) : Prop :=
  (stored.encoding.length ≤ 2 ^ 32 →
    ∃ sbuf stored' rest, stored.serialize .new = .ok sbuf ∧
      deserialize (ofBytes sbuf.contents) idx = .ok ((stored', rest), idx') ∧
      rest.getNRemainingBytes = 0 ∧ Same stored stored') ∧
  (2 ^ 32 < stored.encoding.length →
    stored.serialize .new = .error (.runtimeError "Buffer exceeds maximum size"))

/-- A block that is laid out as the reader needs it goes through the store. -/
theorem roundTrips_of_laid {part : Partitioning} {stored : Block T (AttributeData schema)}
    (hformed : stored.Formed) (hlaid : stored.Laid part)
    (hshort : ∀ v, ∀ e ∈ stored.neigs.edges v, e.data.val.Short) {idx idx' : P} {t : T}
    (htime : stored.getPartitioningTimestamp = .ok t) {tpart : TimeSlicedPartitioning T}
    (hlookup : SliceIndex.getTimeSlicedPartitioningForBlockDeserialization idx t
      = .ok (tpart, idx')) (hpart : tpart.partitioning = part) :
    RoundTrips idx idx' stored := by
  obtain ⟨hok, hfull⟩ := serialize_encoding hformed hlaid
  refine ⟨?_, hfull⟩
  intro hfit
  obtain ⟨sbuf, hsbuf, hwritten⟩ := hok hfit
  obtain ⟨stored', hread, hback⟩ := deserialize_encoding hformed hlaid hfit htime hlookup hpart
  refine ⟨sbuf, stored', _, hsbuf, by rw [hwritten.contents]; exact hread, ?_,
    hback.same hformed hshort⟩
  have hsmall : stored.encoding.length < 2 ^ 64 := by omega
  unfold getNRemainingBytes advance ofBytes
  simp only [Nat.zero_add]
  omega

theorem roundTrips_of_formed {block : Block T (AttributeData schema)} (hformed : block.Formed)
    (hfull : block.FullData) (hshort : ∀ v, ∀ e ∈ block.neigs.edges v, e.data.val.Short)
    {t : T} (htime : block.getPartitioningTimestamp = .ok t)
    {idx idx' : P} {tpart : TimeSlicedPartitioning T}
    (hlookup : SliceIndex.getTimeSlicedPartitioning idx t = .ok (tpart, idx'))
    (hnames : ∀ attributes ∈ tpart.partitioning, schema.Has attributes)
    {idx₁ idx₂ : P} {tpart' : TimeSlicedPartitioning T}
    (hread : SliceIndex.getTimeSlicedPartitioningForBlockDeserialization idx₁ t
      = .ok (tpart', idx₂)) (hsame : tpart'.partitioning = tpart.partitioning) :
    ∃ blocks, block.partitionBlock idx = .ok (blocks, idx') ∧
      ∀ k made stored, blocks[k]? = some made → k ≤ 2 ^ 31 → StoredAs made stored →
        (k = 0 → stored.subBlocks ≠ []) → RoundTrips idx₁ idx₂ stored := by
  obtain ⟨master, subs, hblocks, hsplit⟩ := partitionWith_ok hformed hfull hnames
  refine ⟨master :: subs, ?_, ?_⟩
  · unfold partitionBlock
    simp only [htime, Except.ok_bind, hlookup, hblocks, Except.pure_eq_ok]
  · intro k made stored hget hk hstored hids
    have hmade : ∃ g, (∃ i, Derived g i block made) ∧ stored.Laid tpart.partitioning ∧
        ∀ v, ∀ e ∈ block.neigs.edges v, (g e.data.val).Short := by
      cases k with
      | zero =>
          rw [List.getElem?_cons_zero, Option.some.injEq] at hget
          rw [← hget] at hstored ⊢
          refine ⟨_, ⟨_, hsplit.master⟩, hsplit.master.laid_master hstored (hids rfl), ?_⟩
          intro v e _ f hf
          simp [AttributeData.empty] at hf
      | succ i =>
          rw [List.getElem?_cons_succ] at hget
          obtain ⟨attributes, hattributes, hderived⟩ := hsplit.sub_of_getElem? hget
          have hhas := hnames _ (List.mem_of_getElem? hattributes)
          refine ⟨_, ⟨_, hderived⟩,
            hderived.laid_sub hfull hhas (by omega) hattributes hstored, ?_⟩
          intro v e he
          obtain ⟨target, sdata, -, hselect, -, -, hfind⟩ :=
            AttributeData.select_ok hhas (hfull v e he)
          rw [select_eq_picked hhas (hfull v e he), Except.ok.injEq] at hselect
          rw [hselect]
          exact (hshort v e he).of_find? hfind
    obtain ⟨g, ⟨i, hderived⟩, hlaid, hg⟩ := hmade
    obtain ⟨hformed', -, hedges⟩ := hderived.stored hstored
    refine roundTrips_of_laid hformed' hlaid ?_ ?_ hread hsame
    · intro v e he
      obtain ⟨e₀, he₀, -, -, hval⟩ := mem_of_contents (hedges v) he
      rw [hval]
      exact hg v e₀ he₀
    · rw [← htime]
      obtain ⟨F, seen, hbuilt, -⟩ := hformed
      obtain ⟨F', seen', hbuilt', -⟩ := hformed'
      unfold getPartitioningTimestamp
      rw [findMinMaxTimestamps_congr hbuilt.lists hbuilt'.lists fun v => ends_of_contents (hedges v)]

/-- **Blocks go through the store unchanged**, whatever has become of the count of their bytes. -/
theorem deserialize_serialize {block : Block T (AttributeData schema)}
    (hformed : ∃ size, (block.counted size).Formed)
    (hfull : block.FullData) (hshort : ∀ v, ∀ e ∈ block.neigs.edges v, e.data.val.Short)
    {t : T} (htime : block.getPartitioningTimestamp = .ok t)
    {idx idx' : P} {tpart : TimeSlicedPartitioning T}
    (hlookup : SliceIndex.getTimeSlicedPartitioning idx t = .ok (tpart, idx'))
    (hnames : ∀ attributes ∈ tpart.partitioning, schema.Has attributes)
    {idx₁ idx₂ : P} {tpart' : TimeSlicedPartitioning T}
    (hread : SliceIndex.getTimeSlicedPartitioningForBlockDeserialization idx₁ t
      = .ok (tpart', idx₂)) (hsame : tpart'.partitioning = tpart.partitioning) :
    ∃ blocks, block.partitionBlock idx = .ok (blocks, idx') ∧
      ∀ k made stored, blocks[k]? = some made → k ≤ 2 ^ 31 → StoredAs made stored →
        (k = 0 → stored.subBlocks ≠ []) → RoundTrips idx₁ idx₂ stored := by
  obtain ⟨size, hcounted⟩ := hformed
  -- Splitting a block does not read the count.
  have hblocks := roundTrips_of_formed hcounted hfull hshort htime hlookup hnames hread hsame
  exact hblocks

end RoundTrip

section OneEdge

/-! ### An edge with two texts -/

def textSchema : Schema := ⟨[⟨[97], .string⟩, ⟨[98], .string⟩]⟩

def texts (a b : Text) : AttributeData textSchema :=
  ⟨[(0, .string a), (1, .string b)], by simp⟩

theorem short_texts {a b : Text} :
    (texts a b).Short ↔ a.length < 2 ^ 32 ∧ b.length < 2 ^ 32 := by
  refine ⟨?_, ?_⟩
  · intro hshort
    exact ⟨hshort (0, .string a) List.mem_cons_self,
      hshort (1, .string b) (List.mem_cons_of_mem _ List.mem_cons_self)⟩
  · rintro ⟨ha, hb⟩ f hf
    simp only [texts, List.mem_cons, List.not_mem_nil, or_false] at hf
    rcases hf with hf | hf
    · rw [hf]
      exact ha
    · rw [hf]
      exact hb

theorem full_texts (a b : Text) : (texts a b).Full := by
  refine ⟨?_, ?_⟩
  · intro f hf
    simp only [texts, List.mem_cons, List.not_mem_nil, or_false] at hf
    rcases hf with rfl | rfl
    · rfl
    · rfl
  · intro i
    show i ∈ [0, 1] ↔ i < 2
    rw [List.mem_cons, List.mem_singleton]
    omega

/-- One second. -/
def atOne : Time := Time.ofFloat 1.0

/-- The edge from 1 to 2 at one second, in the direction of 1. -/
def oneEdge (a b : Text) : Block Time (AttributeData textSchema) :=
  { (Block.new : Block Time (AttributeData textSchema)) with
    neigs := (∅ : NeighborListMap Time (AttributeData textSchema)).insert 1
      ⟨1, [⟨2, atOne, ⟨0, texts a b⟩⟩]⟩
    serializedSize := 8 + getSerializedSizeOf (texts a b) + 12 + 16 }

theorem edges_oneEdge (a b : Text) (v : VertexId) :
    (oneEdge a b).neigs.edges v = if v = 1 then [⟨2, atOne, ⟨0, texts a b⟩⟩] else [] := by
  unfold oneEdge NeighborListMap.edges
  split_ifs with hv
  · rw [hv, AList.lookup_insert]
    rfl
  · rw [AList.lookup_insert_ne hv]
    rfl

theorem formed_oneEdge (a b : Text) : (oneEdge a b).Formed := by
  have hlisted : Listed fun v => ends ((oneEdge a b).neigs.edges v) := by
    refine ⟨?_, ?_⟩
    · intro v
      simp only [edges_oneEdge]
      split_ifs
      · simp [ends]
      · simp
    · intro v
      simp only [edges_oneEdge]
      split_ifs
      · simp [ends]
      · simp
  refine ⟨fun _ => ⟨0, texts a b⟩, [EdgeTriplet.of 1 2 atOne], ⟨?_, ?_, ?_, by simp, ?_⟩, hlisted⟩
  · exact ListsOK.empty.insert (by simp)
  · intro v e he
    rw [edges_oneEdge] at he
    split_ifs at he
    · rw [List.mem_singleton.mp he]
    · simp at he
  · intro t
    rw [List.mem_singleton]
    refine ⟨?_, ?_⟩
    · intro ht
      refine ⟨1, ⟨2, atOne, ⟨0, texts a b⟩⟩, ?_, ht.symm⟩
      rw [edges_oneEdge, if_pos rfl]
      exact List.mem_singleton_self _
    · rintro ⟨v, e, he, ht⟩
      rw [edges_oneEdge] at he
      split_ifs at he with hv
      · rw [← ht, List.mem_singleton.mp he, hv]
        rfl
      · simp at he
  · show 8 + getSerializedSizeOf (texts a b) + 12 + 16
      = 8 + 12 * 1 + 16 * 1 + (getSerializedSizeOf (texts a b) + 0)
    omega

theorem fullData_oneEdge (a b : Text) : (oneEdge a b).FullData := by
  intro v e he
  rw [edges_oneEdge] at he
  split_ifs at he
  · rw [List.mem_singleton.mp he]
    exact full_texts a b
  · simp at he

theorem findMinMaxTimestamps_oneEdge (a b : Text) :
    (oneEdge a b).findMinMaxTimestamps = .ok (atOne, atOne) := by
  have hmin : atOne < BlockTime.maxValue := by decide +kernel
  have hmax : BlockTime.zero < atOne := by decide +kernel
  show updateMinMax (BlockTime.maxValue, BlockTime.zero)
    ⟨1, [⟨2, atOne, ⟨0, texts a b⟩⟩]⟩ >>= pure = _
  unfold updateMinMax NeighborList.getOldestEdge NeighborList.getNewestEdge
  simp [hmin, hmax]

theorem getPartitioningTimestamp_oneEdge (a b : Text) :
    (oneEdge a b).getPartitioningTimestamp = .ok atOne := by
  have hmid : BlockTime.midpoint atOne atOne = atOne := by decide +kernel
  unfold getPartitioningTimestamp
  rw [findMinMaxTimestamps_oneEdge, Except.ok_map, hmid]

/-- A new index: all of time is one slice, and its one part has both attributes. -/
@[irreducible] def oneSlice : PartitionIndex Time :=
  match PartitionIndex.new 1 textSchema with
  | .ok idx => idx
  | .error _ => PartitionIndex.reopen 1 textSchema .empty

/-- Both lookups of an index that has no slice on its way out. -/
theorem lookup_of_eval {idx : PartitionIndex Time} {t : Time} {part : Partitioning}
    (heval : (idx.getTimeSlicedPartitioning t).toOption.map (fun r => r.1.partitioning) = some part)
    (hremoved : idx.removedPartitionings = []) :
    ∃ tpart idx', SliceIndex.getTimeSlicedPartitioning idx t = .ok (tpart, idx') ∧
      SliceIndex.getTimeSlicedPartitioningForBlockDeserialization idx t = .ok (tpart, idx') ∧
      tpart.partitioning = part := by
  obtain ⟨⟨tpart, idx'⟩, hok, hpart⟩ := Except.of_toOption_map heval
  refine ⟨tpart, idx', hok, ?_, hpart⟩
  show idx.getTimeSlicedPartitioningForBlockDeserialization t = _
  unfold PartitionIndex.getTimeSlicedPartitioningForBlockDeserialization
  rw [hremoved]
  exact hok

/-- Both lookups give the one slice. -/
theorem lookup_oneSlice :
    ∃ tpart idx, SliceIndex.getTimeSlicedPartitioning oneSlice atOne = .ok (tpart, idx) ∧
      SliceIndex.getTimeSlicedPartitioningForBlockDeserialization oneSlice atOne
        = .ok (tpart, idx) ∧ tpart.partitioning = [[[97], [98]]] :=
  lookup_of_eval (by decide +kernel) (by decide +kernel)

theorem has_textSchema : ∀ attributes ∈ ([[[97], [98]]] : Partitioning),
    textSchema.Has attributes := by
  intro attributes h
  rw [List.mem_singleton.mp h]
  unfold Schema.Has
  decide

/-- Its master block. -/
def oneMaster : Block Time (AttributeData textSchema) :=
  { (Block.new : Block Time (AttributeData textSchema)) with
    serializedSize := 36
    neigs := (∅ : NeighborListMap Time (AttributeData textSchema)).insert 1
      ⟨1, [⟨2, atOne, ⟨0, .empty textSchema⟩⟩]⟩ }

theorem partitionWith_oneEdge (a b : Text) : (oneEdge a b).partitionWith [[[97], [98]]]
    = .ok [oneMaster, { oneEdge a b with partition := 0 }] := rfl

/-- Two texts of half the limit do not fit one block. -/
theorem serialize_oneEdge_full {a b : Text} (ha : a.length = 2 ^ 31) (hb : b.length = 2 ^ 31) :
    ({ oneEdge a b with partition := 0 } : Block Time (AttributeData textSchema)).serialize .new
      = .error (.runtimeError "Buffer exceeds maximum size") := by
  have htimes : ({ oneEdge a b with partition := 0 } : Block Time
      (AttributeData textSchema)).findMinMaxTimestamps = .ok (atOne, atOne) :=
    findMinMaxTimestamps_oneEdge a b
  have htyped : ∀ v, ∀ e ∈ (oneEdge a b).neigs.edges v, e.data.val.Typed :=
    fun v e he => (fullData_oneEdge a b v e he).typed
  refine (serialize_ok htimes (fun _ => htyped) (fun h => by simp at h) written_new).2 ?_
  have hdata : (texts a b).bytes.length = 4 + 2 ^ 31 + (4 + 2 ^ 31) := by
    show ((textBytes a ++ (textBytes b ++ []))).length = _
    rw [List.append_nil, List.length_append, length_textBytes, length_textBytes, ha, hb,
      Nat.mod_eq_of_lt (by omega)]
  have hlists : (listsBytes 0 []
      [⟨1, ⟨1, [⟨2, atOne, ⟨0, texts a b⟩⟩]⟩⟩]).1.length = 12 + 16 + (texts a b).bytes.length := by
    simp [listsBytes, edgesBytes, edgeBytes, dataBytes]
    omega
  have hentries : (oneEdge a b).neigs.entries = [⟨1, ⟨1, [⟨2, atOne, ⟨0, texts a b⟩⟩]⟩⟩] := rfl
  rw [List.nil_append]
  unfold bytes
  rw [List.length_append]
  simp only [hentries]
  rw [hlists, hdata]
  omega

theorem partitionBlock_oneEdge (a b : Text) :
    ∃ idx, (oneEdge a b).partitionBlock oneSlice
      = .ok ([oneMaster, { oneEdge a b with partition := 0 }], idx) := by
  obtain ⟨tpart, idx, hlookup, -, hpart⟩ := lookup_oneSlice
  refine ⟨idx, ?_⟩
  unfold partitionBlock
  simp only [getPartitioningTimestamp_oneEdge, Except.ok_bind, hlookup, hpart,
    partitionWith_oneEdge, Except.pure_eq_ok]

/-- The sub-block with two texts of 2^31 bytes is refused by the buffer it is written to. -/
theorem serialize_refuses_long_texts :
    (oneEdge (List.replicate (2 ^ 31) 120) (List.replicate (2 ^ 31) 121)).Formed ∧
      (oneEdge (List.replicate (2 ^ 31) 120) (List.replicate (2 ^ 31) 121)).FullData ∧
      ∃ idx master sub, (oneEdge (List.replicate (2 ^ 31) 120)
          (List.replicate (2 ^ 31) 121)).partitionBlock oneSlice = .ok ([master, sub], idx) ∧
        sub.serialize .new = .error (.runtimeError "Buffer exceeds maximum size") := by
  obtain ⟨idx, hok⟩ :=
    partitionBlock_oneEdge (List.replicate (2 ^ 31) 120) (List.replicate (2 ^ 31) 121)
  exact ⟨formed_oneEdge _ _, fullData_oneEdge _ _, idx, oneMaster, _, hok,
    serialize_oneEdge_full List.length_replicate List.length_replicate⟩

end OneEdge

section TwoHeads

/-! ### Three edges over two heads, in two parts -/

def atHalf : Time := Time.ofFloat 0.5

def atOneAndHalf : Time := Time.ofFloat 1.5

/-- The edge between 1 and 2 in both directions and one more of 1, with no count of the bytes. -/
def twoHeads : Block Time (AttributeData textSchema) :=
  { (Block.new : Block Time (AttributeData textSchema)) with
    neigs := ((∅ : NeighborListMap Time (AttributeData textSchema)).insert 1
      ⟨1, [⟨2, atHalf, ⟨0, texts [120] [121, 122]⟩⟩, ⟨3, atOneAndHalf, ⟨1, texts [] [119]⟩⟩]⟩).insert
      2 ⟨2, [⟨1, atHalf, ⟨0, texts [120] [121, 122]⟩⟩]⟩ }

theorem entries_twoHeads : twoHeads.neigs.entries =
    [⟨2, ⟨2, [⟨1, atHalf, ⟨0, texts [120] [121, 122]⟩⟩]⟩⟩,
      ⟨1, ⟨1, [⟨2, atHalf, ⟨0, texts [120] [121, 122]⟩⟩,
        ⟨3, atOneAndHalf, ⟨1, texts [] [119]⟩⟩]⟩⟩] := rfl

theorem edges_twoHeads_of_ne {v : VertexId} (h1 : v ≠ 1) (h2 : v ≠ 2) :
    twoHeads.neigs.edges v = [] := by
  unfold twoHeads
  rw [NeighborListMap.edges_insert, if_neg h2, NeighborListMap.edges_insert, if_neg h1]
  rfl

theorem formed_twoHeads : ∃ size, (twoHeads.counted size).Formed := by
  refine exists_formed_of_entries ?_ ?_ ?_
  · decide +kernel
  · decide +kernel
  · decide +kernel

theorem data_twoHeads {P : AttributeData textSchema → Prop} (hfirst : P (texts [120] [121, 122]))
    (hsecond : P (texts [] [119])) : ∀ v, ∀ e ∈ twoHeads.neigs.edges v, P e.data.val := by
  refine NeighborListMap.forall_edges (P := fun _ e => P e.data.val) ?_
  rw [entries_twoHeads]
  intro x hx e he
  simp only [List.mem_cons, List.not_mem_nil, or_false] at hx
  rcases hx with rfl | rfl
  · rw [List.mem_singleton.mp he]
    exact hfirst
  · simp only [List.mem_cons, List.not_mem_nil, or_false] at he
    rcases he with rfl | rfl
    · exact hfirst
    · exact hsecond

theorem fullData_twoHeads : twoHeads.FullData :=
  data_twoHeads (full_texts _ _) (full_texts _ _)

theorem short_twoHeads : ∀ v, ∀ e ∈ twoHeads.neigs.edges v, e.data.val.Short :=
  data_twoHeads (short_texts.mpr ⟨by decide, by decide⟩) (short_texts.mpr ⟨by decide, by decide⟩)

theorem getPartitioningTimestamp_twoHeads : twoHeads.getPartitioningTimestamp = .ok atOne := by
  have heval : twoHeads.getPartitioningTimestamp.toOption = some atOne := by decide +kernel
  exact Except.of_toOption heval

/-- The index after each attribute got a part of its own. -/
@[irreducible] def splitSlice : PartitionIndex Time :=
  match (do
    let idx ← oneSlice.initiatePartitioningRemoval
      ⟨Timestamp.negInfinity, Timestamp.infinity, [[[97], [98]]]⟩
    let idx ← idx.addPartitioning ⟨Timestamp.negInfinity, Timestamp.infinity, [[[97]], [[98]]]⟩
    return idx.completePartitioningRemovals) with
  | .ok idx => idx
  | .error _ => oneSlice

theorem lookup_splitSlice :
    ∃ tpart idx, SliceIndex.getTimeSlicedPartitioning splitSlice atOne = .ok (tpart, idx) ∧
      SliceIndex.getTimeSlicedPartitioningForBlockDeserialization splitSlice atOne
        = .ok (tpart, idx) ∧ tpart.partitioning = [[[97]], [[98]]] :=
  lookup_of_eval (by decide +kernel) (by decide +kernel)

theorem has_splitSlice : ∀ attributes ∈ ([[[97]], [[98]]] : Partitioning),
    textSchema.Has attributes := by
  unfold Schema.Has
  decide

/-- The master and both sub-blocks go through the store. -/
theorem deserialize_serialize_twoHeads :
    ∃ idx blocks, twoHeads.partitionBlock splitSlice = .ok (blocks, idx) ∧
      ∀ k made stored, blocks[k]? = some made → k ≤ 2 ^ 31 → StoredAs made stored →
        (k = 0 → stored.subBlocks ≠ []) → RoundTrips splitSlice idx stored := by
  obtain ⟨tpart, idx, hlookup, hread, hpart⟩ := lookup_splitSlice
  exact ⟨idx, deserialize_serialize formed_twoHeads fullData_twoHeads short_twoHeads
    getPartitioningTimestamp_twoHeads hlookup (by rw [hpart]; exact has_splitSlice) hread rfl⟩

/-- A master and two sub-blocks, with all the lists in each. -/
example : ((twoHeads.partitionBlock splitSlice).toOption.map fun r =>
    r.1.map fun b => (b.neigs.keys.length, edgeTotal b.neigs))
      = some [(2, 3), (2, 3), (2, 3)] := by decide +kernel

end TwoHeads

end Block

end RailwayDB
