/-
No edge that was added is lost.

An edge goes to the window, from the window to the expiration map, and from there to a
block.  At any time the edges of a vertex are those filed for it, then those in the map,
then those in the window, in the order they were added.  A call that returned kept it
so; the ids of blocks have 64 bits, and once they are used up nothing is said.
-/
import RailwayDB.Proofs.EdgeTimes
import RailwayDB.Proofs.FiledBlocks

namespace RailwayDB

/-! ### What the expiration map writes -/

namespace ExpirationMap

variable {T S D : Type} [LinearOrder T] [LinearOrder S] [Score S] [TimeScore T S] [SerializedSize D]
  {m m' : ExpirationMap T S D} {es : List (GraphEdge T D)} {block : Block T D}

/-- A block that was written has no empty list. -/
theorem lists_of_writeBlock (ω : Oracle S) (hm : Sound es m) (hsize : m.size ≠ 0)
    (h : m.writeBlock ω = .ok (block, m')) : ListsOK block.neigs := by
  by_cases husable : Usable m.conf
  · obtain ⟨block', m₁, n, hblock, hcut, -⟩ := cutBlock_ok ω hm husable fun _ => hsize
    obtain ⟨m'', hwrite, -⟩ := writeBlock_of_cut ω hm hblock hcut
    rw [hwrite, Except.ok.injEq, Prod.mk.injEq] at h
    rw [← h.1]
    exact hcut.taken.lists
  · rw [writeBlock_unusable ω husable] at h
    cases h

theorem lists_of_addEdge (ω : Oracle S) (hm : Sound es m) {e : GraphEdge T D}
    (hes : History (es ++ [e])) (h : m.addEdge ω e.toUEdge e.data = .ok (some block, m')) :
    ListsOK block.neigs := by
  obtain ⟨m₁, m₂, hpush₁, hpush₂, -, hsound, -⟩ := pushes_ok ω hm hes
  unfold addEdge GraphEdge.toUEdge at h
  simp only [hpush₁, hpush₂, Except.ok_bind] at h
  split_ifs at h with hfull
  · obtain ⟨r, hwrite, hr⟩ := Except.map_eq_ok.mp h
    obtain ⟨hblock, -⟩ := Prod.mk.inj hr
    rw [Option.some.injEq] at hblock
    rw [← hblock]
    exact lists_of_writeBlock ω hsound (show m₂.size + 2 ≠ 0 by omega) hwrite
  · cases h

end ExpirationMap

/-! ### The next id -/

namespace Storage

variable {P T : Type} {schema : Schema} [LinearOrder T] [Timestamp T] [BlockTime T] [SliceIndex P T]
  {α : Type} {g g' : HistoricalGraph P T schema}

/-- The meta data is the same. -/
def SameMeta (g g' : HistoricalGraph P T schema) : Prop := g'.metaData = g.metaData

instance : IsPreorder (HistoricalGraph P T schema) SameMeta where
  refl _ := rfl
  trans _ _ _ h h' := Eq.trans h' h

theorem sameMeta_onIndex {T : Type} (f : P → Except Fault (α × P)) :
    Keeps SameMeta (onIndex f : Storage P T schema α) :=
  Keeps.get.bind fun _ => (keeps_ofResult _).bind fun _ =>
    Keeps.bind (Keeps.modify fun _ => rfl) fun _ => Keeps.pure _

theorem sameMeta_modifyBlocks {T : Type} (f : BlockManager T schema → BlockManager T schema) :
    Keeps SameMeta (modifyBlocks f : Storage P T schema Unit) := Keeps.modify fun _ => rfl

theorem sameMeta_fetch (id : BlockId) :
    Keeps SameMeta (BlockManager.fetch id : Storage P T schema Unit) := by
  unfold BlockManager.fetch
  refine (keeps_ofResult _).bind fun key => Keeps.get.bind fun g => ?_
  cases g.bman.db.find? key with
  | none => exact Keeps.throw _
  | some value =>
      exact (sameMeta_modifyBlocks _).bind fun _ => (sameMeta_onIndex _).bind fun _ =>
        sameMeta_modifyBlocks _

theorem sameMeta_getBlock (id : BlockId) :
    Keeps SameMeta (BlockManager.getBlock id : Storage P T schema _) := by
  unfold BlockManager.getBlock
  refine Keeps.get.bind fun g => ?_
  cases g.bman.cache.lookup id with
  | some entry =>
      refine Keeps.bind ?_ fun _ => Keeps.get.bind fun _ => keeps_ofResult _
      exact Keeps.get.bind fun _ => (keeps_ofResult _).bind fun _ => sameMeta_modifyBlocks _
  | none => exact (sameMeta_fetch id).bind fun _ => Keeps.get.bind fun _ => keeps_ofResult _

theorem sameMeta_put {P : Type} (block : Block T (AttributeData schema)) :
    Keeps SameMeta (BlockManager.put block : Storage P T schema Unit) :=
  (keeps_ofResult _).bind fun _ => (keeps_ofResult _).bind fun _ => sameMeta_modifyBlocks _

theorem Step.nextBlockId_le (h : Step g g') :
    g.metaData.nextBlockId ≤ g'.metaData.nextBlockId := by
  have hsame : ∀ {x : Storage P T schema Unit}, Keeps SameMeta x →
      g.metaData.nextBlockId ≤ (stateAfter x g).metaData.nextBlockId := by
    intro x hx
    rw [show (stateAfter x g).metaData = g.metaData from hx.stateAfter g]
  cases h with
  | getBlock id =>
      rw [show (stateAfter (BlockManager.getBlock id) g).metaData = g.metaData from
        (sameMeta_getBlock id).stateAfter g]
  | addBlock block =>
      have hnext : Ends (BlockManager.addBlock block) g
          (fun _ g' => g'.metaData.nextBlockId = g.metaData.nextBlockId + 1)
          (fun _ g' => g'.metaData.nextBlockId = g.metaData.nextBlockId + 1) :=
        (BlockManager.ends_addBlock g block).mono (fun _ _ hadd => hadd.1) fun _ _ hadd => hadd.1
      rw [hnext.stateAfter]
      exact Nat.le_succ _
  | updateBlock block =>
      refine hsame ((sameMeta_getBlock block.id).bind fun _ => ?_)
      exact (sameMeta_modifyBlocks _).bind fun _ => sameMeta_put block
  | removeBlock id =>
      refine hsame ((keeps_ofResult _).bind fun _ => (sameMeta_modifyBlocks _).bind fun _ => ?_)
      exact Keeps.get.bind fun _ => (keeps_ofResult _).bind fun _ => sameMeta_modifyBlocks _
  | partIndex partIndex => exact le_refl _
  | indexes iqIndex fiqIndex => exact le_refl _
  | schemaStats stats => exact le_refl _

/-- No call gives ids back. -/
theorem nextBlockId_le (h : Steps g g') : g.metaData.nextBlockId ≤ g'.metaData.nextBlockId := by
  induction h with
  | refl => exact le_refl _
  | tail _ hstep ih => exact ih.trans hstep.nextBlockId_le

end Storage

namespace InteractionGraph

open InMemoryGraph (Held)
open ExpirationMap (written Usable)

variable {P T S : Type} [LinearOrder T] [LinearOrder S] [Score S] [TimeScore T S] [Timestamp T]
  [BlockTime T] [SliceIndex P T] {vertexSchema edgeSchema : Schema} {α : Type}

/-! ### Ids that are used up -/

/-- More ids were given than there are. -/
def Spent (g : InteractionGraph P T S vertexSchema edgeSchema) : Prop :=
  2 ^ 64 < g.hisg.metaData.nextBlockId

variable {g : InteractionGraph P T S vertexSchema edgeSchema}

theorem Spent.passes {S : Type} [LinearOrder S] {g : InteractionGraph P T S vertexSchema edgeSchema}
    (h : Spent g) {g' : InteractionGraph P T S vertexSchema edgeSchema} (hpasses : Passes g g') :
    Spent g' :=
  lt_of_lt_of_le h (Storage.nextBlockId_le hpasses)

theorem Spent.ends {S : Type} [LinearOrder S] {g : InteractionGraph P T S vertexSchema edgeSchema}
    (h : Spent g) {x : Session P T S vertexSchema edgeSchema α} (hx : Keeps Passes x) :
    Ends x g (fun _ g' => Spent g') (fun _ _ => True) :=
  (hx g).mono (fun _ _ hpasses => h.passes hpasses) fun _ _ _ => trivial

/-! ### The edges of a history -/

/-- Edges as `addEdge` accepts them, and slices for their blocks. -/
structure Sources (Asked : T → Prop) (es : List (GraphEdge T (AttributeData edgeSchema))) : Prop
    where
  history : History es
  full : ∀ e ∈ es, e.data.val.Full
  positive : ∀ e ∈ es, BlockTime.zero < e.time
  sliced : Block.Sliced Asked (es.map GraphEdge.time)

/-- The edges of a vertex are those filed for it, then those in memory. -/
structure Kept (Ok : P → Prop) (parts : T → Option Partitioning)
    (es : List (GraphEdge T (AttributeData edgeSchema)))
    (stored blocks : BlockId → Option (Block T (AttributeData edgeSchema)))
    (expired window : List (GraphEdge T (AttributeData edgeSchema)))
    (g : InteractionGraph P T S vertexSchema edgeSchema) : Prop where
  files : Files Ok parts stored blocks g.hisg
  room : 1 ≤ g.hisg.bman.blockBufferSize
  held : Held expired window g.memg
  known : ∀ e ∈ expired ++ window, e ∈ es
  edges : ∀ w, edgesFor blocks g.hisg.iqIndex w ++ g.memg.pending w = incident w es
  cut : ∀ e ∈ g.hisg.iqIndex, ∀ block, blocks e.id = some block → block.CutFrom es

/-- No edge is lost, unless the ids are used up. -/
def Conserves (Ok : P → Prop) (parts : T → Option Partitioning)
    (es : List (GraphEdge T (AttributeData edgeSchema)))
    (g : InteractionGraph P T S vertexSchema edgeSchema) : Prop :=
  Spent g ∨ ∃ stored blocks expired window, Kept Ok parts es stored blocks expired window g

variable {Ok : P → Prop} {parts : T → Option Partitioning} {Asked : T → Prop}
  {es : List (GraphEdge T (AttributeData edgeSchema))}
  {stored blocks : BlockId → Option (Block T (AttributeData edgeSchema))}
  {expired window expired' window' : List (GraphEdge T (AttributeData edgeSchema))}
  {memg memg' : InMemoryGraph T S (AttributeData edgeSchema)}
  {block : Block T (AttributeData edgeSchema)}

/-- What the vertices, the counts, the file and the addresses are does not matter. -/
theorem Conserves.of_same {P : Type} {g : InteractionGraph P T S vertexSchema edgeSchema}
    {Ok : P → Prop} (h : Conserves Ok parts es g)
    {g' : InteractionGraph P T S vertexSchema edgeSchema} (hmemg : g'.memg = g.memg)
    (hindex : g'.hisg.partIndex = g.hisg.partIndex) (hbman : g'.hisg.bman = g.hisg.bman)
    (hiq : g'.hisg.iqIndex = g.hisg.iqIndex) (hfiq : g'.hisg.fiqIndex = g.hisg.fiqIndex)
    (hnext : g'.hisg.metaData.nextBlockId = g.hisg.metaData.nextBlockId) :
    Conserves Ok parts es g' := by
  rcases h with hspent | ⟨stored, blocks, expired, window, h⟩
  · refine Or.inl ?_
    rw [Spent, hnext]
    exact hspent
  · refine Or.inr ⟨stored, blocks, expired, window, ⟨⟨?_, ?_, ?_, ?_, ?_⟩, ?_, ?_, ?_, ?_, ?_⟩,
      ?_, ?_, ?_, ?_, ?_⟩
    · rw [hindex]
      exact h.files.held.index
    · rw [hbman]
      exact h.files.held.tidy
    · rw [hbman]
      exact h.files.held.absent
    · rw [hbman]
      exact h.files.held.present
    · rw [hbman]
      exact h.files.held.cached
    · rw [Block.FreshIds, hnext]
      exact h.files.fresh
    · rw [hiq, hfiq]
      exact h.files.catalog
    · rw [hiq]
      exact h.files.filed
    · rw [hiq]
      exact h.files.families
    · rw [hiq]
      exact h.files.listed
    · rw [hbman]
      exact h.room
    · rw [hmemg]
      exact h.held
    · exact h.known
    · rw [hmemg, hiq]
      exact h.edges
    · rw [hiq]
      exact h.cut

/-- The lists of a block that is the front of what is in memory. -/
theorem Kept.cutFrom {P : Type} {g : InteractionGraph P T S vertexSchema edgeSchema} {Ok : P → Prop}
    (h : Kept Ok parts es stored blocks expired window g) (hes : History es)
    (hlists : ListsOK block.neigs)
    (hfront : ∀ w, ∃ back, block.neigs.edges w ++ back = g.memg.pending w) : block.CutFrom es := by
  have hmem : ∀ w, ∀ x ∈ block.neigs.edges w, x ∈ g.memg.pending w := by
    intro w x hx
    obtain ⟨back, hback⟩ := hfront w
    rw [← hback]
    exact List.mem_append_left _ hx
  refine ⟨hlists, ?_, ?_⟩
  · intro w x hx
    rw [← h.edges]
    exact List.mem_append_right _ (hmem w x hx)
  · intro w
    obtain ⟨back, hback⟩ := hfront w
    have hsorted := hes.incident_increasing w
    rw [← h.edges, ← hback] at hsorted
    exact (List.pairwise_append.mp (List.pairwise_append.mp hsorted).2.1).1

/-- The edges in memory come after the lists of their vertices. -/
theorem Kept.later {P : Type} {g : InteractionGraph P T S vertexSchema edgeSchema} {Ok : P → Prop}
    (h : Kept Ok parts es stored blocks expired window g) (hes : History es) {e : IntervalData T}
    (he : e ∈ g.hisg.iqIndex) {x : NLEdge T (AttributeData edgeSchema)}
    (hx : x ∈ g.memg.pending e.vertex) : e.intervalEnd < x.time := by
  obtain ⟨newest, hnewest, hend⟩ := (h.files.filed.edges he).2.2.2
  have hfiled : newest ∈ edgesFor blocks g.hisg.iqIndex e.vertex :=
    List.mem_flatMap.mpr ⟨e, mem_entriesFor.mpr ⟨he, rfl⟩, hnewest⟩
  have hsorted := hes.incident_increasing e.vertex
  rw [← h.edges] at hsorted
  rw [← hend]
  exact (List.pairwise_append.mp hsorted).2.2 newest hfiled x hx

/-! ### Handing a block over -/

/-- **The front of what is in memory is handed over.**  `memg` is the memory meanwhile, `memg'` the
memory without the block. -/
theorem conserves_handOver (hgoverns : Governs edgeSchema Ok parts Asked)
    (hes : Sources Asked es) (h : Kept Ok parts es stored blocks expired window g)
    {block : Option (Block T (AttributeData edgeSchema))}
    (hlists : ∀ b ∈ block, ListsOK b.neigs) (hheld : Held expired' window' memg')
    (hedges : expired' ++ window' = expired ++ window)
    (hfront : ∀ w, written block.toList w ++ memg'.pending w = g.memg.pending w) :
    Ends (handOver block) { g with memg := memg }
      (fun _ g' => g'.memg = memg ∧ Conserves Ok parts es { g' with memg := memg' })
      (fun _ _ => True) := by
  have hknown : ∀ e ∈ expired' ++ window', e ∈ es := by
    rw [hedges]
    exact h.known
  cases block with
  | none =>
      refine ⟨rfl, Or.inr ⟨stored, blocks, expired', window', h.files, h.room, hheld, hknown, ?_, h.cut⟩⟩
      intro w
      rw [← h.edges, ← hfront]
      rfl
  | some block =>
      have hsplit : ∀ w, block.neigs.edges w ++ memg'.pending w = g.memg.pending w := by
        intro w
        rw [← hfront w]
        simp [written]
      have hcut := h.cutFrom hes.history (hlists block rfl) fun w => ⟨_, hsplit w⟩
      show Ends (onHistory (HistoricalGraph.addBlock block)) { g with memg := memg } _ _
      unfold Ends onHistory
      cases hrun : HistoricalGraph.addBlock block g.hisg with
      | error e hisg => trivial
      | ok a hisg =>
          refine ⟨rfl, ?_⟩
          have hlater : ∀ e ∈ g.hisg.iqIndex, ∀ x ∈ block.neigs.edges e.vertex,
              e.intervalEnd < x.time := by
            intro e he x hx
            refine h.later hes.history he ?_
            rw [← hsplit]
            exact List.mem_append_left _ hx
          have hnonneg : ∀ w, ∀ x ∈ block.neigs.edges w, BlockTime.zero ≤ x.time := by
            intro w x hx
            obtain ⟨e, he, hat⟩ := mem_incident.mp (hcut.mem w x hx)
            rw [(GraphEdge.at?_time hat).1]
            exact (hes.positive e he).le
          by_cases hids : hisg.metaData.nextBlockId ≤ 2 ^ 64
          · obtain ⟨stored', blocks', hfiles, hstores⟩ := h.files.store hgoverns hes.history hes.full
              hcut hlater hnonneg (fun _ => hcut.asked hes.positive hes.sliced) hrun hids
            refine Or.inr ⟨stored', blocks', expired', window', hfiles, ?_, hheld, hknown, ?_, ?_⟩
            · show 1 ≤ hisg.bman.blockBufferSize
              rw [hstores.blockBufferSize]
              exact h.room
            · intro w
              show edgesFor blocks' hisg.iqIndex w ++ memg'.pending w = _
              rw [hstores.filed, List.append_assoc, hsplit, h.edges]
            · intro e he b hb
              rcases hstores.blocks e he b hb with ⟨he, hb⟩ | ⟨size, rfl⟩
              · exact h.cut e he b hb
              · exact hcut.counted size
          · exact Or.inl (not_le.mp hids)

/-! ### One edge leaves the window -/

theorem conserves_expire (hgoverns : Governs edgeSchema Ok parts Asked) (hes : Sources Asked es)
    (ω : Oracle S) (h : Conserves Ok parts es g) :
    Ends (expire ω) g (fun _ g' => Conserves Ok parts es g') (fun _ _ => True) := by
  rcases h with hspent | ⟨stored, blocks, expired, window, h⟩
  · exact (hspent.ends (passes_frame.expire ω)).mono (fun _ _ => Or.inl) fun _ _ _ => trivial
  · unfold expire
    rw [Ends, get_bind]
    cases window with
    | nil =>
        have hnone : g.memg.vfifo.getOldestEdge = .error (.undefined .outOfRange) := by
          unfold EdgeFIFO.getOldestEdge
          rw [h.held.fifo]
          rfl
        rw [ofResult_bind_error hnone]
        trivial
    | cons e window =>
        have holdest : g.memg.vfifo.getOldestEdge = .ok e.toUEdge := by
          unfold EdgeFIFO.getOldestEdge
          rw [h.held.fifo]
          rfl
        obtain ⟨lists, hremove, hlists, hedges⟩ := InMemoryGraph.removeEdge_ok h.held
        rw [ofResult_bind_ok holdest, get_bind, ofResult_bind_ok hremove]
        dsimp only
        rw [modifyMemory_bind]
        have hmoved : History (expired ++ [e] ++ window) := by
          rw [List.append_assoc]
          exact h.held.history
        obtain ⟨block, m', hadd, hm', -, hwritten⟩ | ⟨-, hfault⟩ :=
          ExpirationMap.addEdge_ok ω h.held.sound hmoved.left
        · rw [ofResult_bind_ok hadd]
          dsimp only
          rw [modifyMemory_bind]
          have hheld : Held (expired ++ [e]) window { g.memg with
              neigLists := lists, expm := m', vfifo := g.memg.vfifo.popOldestEdge } := by
            refine ⟨hmoved, hm', hlists, hedges, ?_⟩
            show g.memg.vfifo.edges.tail = _
            rw [h.held.fifo]
            rfl
          have hsplit : ∀ w, written block.toList w ++ InMemoryGraph.pending { g.memg with
              neigLists := lists, expm := m', vfifo := g.memg.vfifo.popOldestEdge } w
                = g.memg.pending w := by
            intro w
            show written block.toList w ++ (m'.neigLists.edges w ++ lists.edges w)
              = g.memg.expm.neigLists.edges w ++ g.memg.neigLists.edges w
            rw [← List.append_assoc, hwritten, hedges, h.held.edges, List.append_assoc,
              ← incident_singleton, ← incident_append]
            rfl
          have hblock : ∀ b ∈ block, ListsOK b.neigs := by
            intro b hb
            rw [hb] at hadd
            exact ExpirationMap.lists_of_addEdge ω h.held.sound hmoved.left hadd
          refine Ends.bind (conserves_handOver (g := g) hgoverns hes h hblock hheld (by simp) hsplit) ?_
          rintro - g' ⟨hmemg, hdone⟩
          show Conserves Ok parts es { g' with memg := { g'.memg with
            vfifo := g'.memg.vfifo.popOldestEdge } }
          rw [hmemg]
          exact hdone
        · rw [ofResult_bind_error hfault]
          trivial

/-- The loop returns when its condition is false, if ever. -/
theorem conserves_expireWhile (hgoverns : Governs edgeSchema Ok parts Asked) (hes : Sources Asked es)
    (more : EdgeFIFO T → Bool) (ω : Nat → Oracle S) (fuel : Nat) (h : Conserves Ok parts es g) :
    Ends (expireWhile more ω fuel) g
      (fun _ g' => Conserves Ok parts es g' ∧ more g'.memg.vfifo = false) (fun _ _ => True) := by
  induction fuel generalizing g with
  | zero =>
      unfold expireWhile
      rw [Ends, get_bind]
      split_ifs with hmore
      · trivial
      · exact ⟨h, Bool.eq_false_iff.mpr hmore⟩
  | succ fuel ih =>
      unfold expireWhile
      rw [Ends, get_bind]
      split_ifs with hmore
      · exact (conserves_expire hgoverns hes (ω fuel) h).bind fun _ g' h' => ih h'
      · exact ⟨h, Bool.eq_false_iff.mpr hmore⟩

/-- A block of the map is handed over. -/
theorem conserves_written (hgoverns : Governs edgeSchema Ok parts Asked) (hes : Sources Asked es)
    (h : Kept Ok parts es stored blocks expired window g) {ω : Oracle S}
    {expm : ExpirationMap T S (AttributeData edgeSchema)}
    (hwrite : g.memg.expm.writeBlock ω = .ok (block, expm)) (hsize : g.memg.expm.size ≠ 0) :
    Ends (handOver (some block)) { g with memg := { g.memg with expm := expm } }
      (fun _ g' => Conserves Ok parts es g') (fun _ _ => True) := by
  have hlists := ExpirationMap.lists_of_writeBlock ω h.held.sound hsize hwrite
  by_cases husable : Usable g.memg.expm.conf
  · obtain ⟨block', expm', hwrite', hsound, -, hsplits, -⟩ :=
      ExpirationMap.writeBlock_ok ω h.held.sound husable fun _ => hsize
    rw [hwrite', Except.ok.injEq, Prod.mk.injEq] at hwrite
    obtain ⟨rfl, rfl⟩ := hwrite
    have hheld : Held expired window { g.memg with expm := expm' } :=
      ⟨h.held.history, hsound, h.held.lists, h.held.edges, h.held.fifo⟩
    have hfront : ∀ w, written (some block').toList w
        ++ InMemoryGraph.pending { g.memg with expm := expm' } w = g.memg.pending w := by
      intro w
      show written [block'] w ++ (expm'.neigLists.edges w ++ g.memg.neigLists.edges w)
        = g.memg.expm.neigLists.edges w ++ g.memg.neigLists.edges w
      rw [← hsplits w, written_cons, ← List.append_assoc]
      simp [written]
    refine (conserves_handOver hgoverns hes h ?_ hheld rfl hfront).mono ?_ fun _ _ _ => trivial
    · intro b hb
      rw [Option.mem_some_iff.mp hb] at hlists
      exact hlists
    · rintro - g' ⟨hmemg, hdone⟩
      rw [← hmemg] at hdone
      exact hdone
  · rw [ExpirationMap.writeBlock_unusable ω husable] at hwrite
    cases hwrite

/-- Blocks are written until the map is empty. -/
theorem conserves_writeBlocks (hgoverns : Governs edgeSchema Ok parts Asked) (hes : Sources Asked es)
    (ω : Nat → Oracle S) (fuel : Nat) (h : Conserves Ok parts es g) :
    Ends (writeBlocks ω fuel) g
      (fun _ g' => Conserves Ok parts es g' ∧ g'.memg.vfifo = g.memg.vfifo ∧
        g'.memg.expm.size = 0) (fun _ _ => True) := by
  induction fuel generalizing g with
  | zero =>
      unfold writeBlocks
      rw [Ends, get_bind]
      split_ifs with hsize
      · trivial
      · exact ⟨h, rfl, Nat.eq_zero_of_not_pos hsize⟩
  | succ fuel ih =>
      unfold writeBlocks
      rw [Ends, get_bind]
      split_ifs with hsize
      · rw [get_bind]
        cases hwrite : g.memg.expm.writeBlock (ω fuel) with
        | error fault =>
            rw [ofResult_bind_error rfl]
            trivial
        | ok r =>
            rw [ofResult_bind_ok rfl]
            dsimp only
            rw [modifyMemory_bind]
            have hmemory := (ends_handOver { g with memg := { g.memg with expm := r.2 } } r.1).mono
              (fun _ _ hdone => hdone.1) fun _ _ hdone => hdone.1
            have hwritten : Ends (handOver (some r.1)) { g with memg := { g.memg with expm := r.2 } }
                (fun _ g' => Conserves Ok parts es g') (fun _ _ => True) := by
              rcases h with hspent | ⟨stored, blocks, expired, window, h⟩
              · have hspent' : Spent { g with memg := { g.memg with expm := r.2 } } := hspent
                exact (hspent'.ends (passes_frame.handOver _)).mono (fun _ _ => Or.inl)
                  fun _ _ _ => trivial
              · exact conserves_written hgoverns hes h hwrite (Nat.pos_iff_ne_zero.mp hsize)
            have hdone := (hmemory.and hwritten).mono (fun _ _ hdone => hdone) fun _ _ _ => trivial
            refine hdone.bind ?_
            rintro - g' ⟨hmemg, hdone⟩
            refine (ih hdone).mono ?_ fun _ _ _ => trivial
            rintro - g'' ⟨hdone', hfifo, hempty⟩
            rw [hmemg] at hfifo
            exact ⟨hdone', hfifo, hempty⟩
      · exact ⟨h, rfl, Nat.eq_zero_of_not_pos hsize⟩

/-! ### Calls -/

/-- Nothing is in memory. -/
structure Settled (memg : InMemoryGraph T S (AttributeData edgeSchema)) : Prop where
  window : memg.vfifo.edges = []
  map : memg.expm.size = 0

theorem Settled.pending {T : Type} [LinearOrder T] [TimeScore T S]
    {expired window : List (GraphEdge T (AttributeData edgeSchema))}
    {memg : InMemoryGraph T S (AttributeData edgeSchema)} (h : Settled memg)
    (hheld : Held expired window memg) (w : VertexId) :
    memg.pending w = [] := by
  have hwindow : window = [] := by
    have hfifo := hheld.fifo
    rw [h.window] at hfifo
    exact List.map_eq_nil_iff.mp hfifo.symm
  have hmap : memg.expm.neigLists.edges w = [] := by
    have htotal := hheld.sound.size
    rw [h.map] at htotal
    exact edges_eq_nil_of_edgeTotal htotal.symm w
  unfold InMemoryGraph.pending
  rw [hmap, hheld.edges, hwindow]
  rfl

/-- Once nothing is in memory all edges are filed. -/
theorem Kept.settled {P : Type} {g : InteractionGraph P T S vertexSchema edgeSchema} {Ok : P → Prop}
    (h : Kept Ok parts es stored blocks expired window g) (hmemg : Settled g.memg) (w : VertexId) :
    edgesFor blocks g.hisg.iqIndex w = incident w es := by
  rw [← h.edges, hmemg.pending h.held, List.append_nil]

theorem conserves_flush (hgoverns : Governs edgeSchema Ok parts Asked) (hes : Sources Asked es)
    (ω ω' : Nat → Oracle S) (fuel : Nat) (h : Conserves Ok parts es g) :
    Ends (flush ω ω' fuel) g
      (fun _ g' => Conserves Ok parts es g' ∧ Settled g'.memg ∧
        g'.file = some g'.hisg.metaData.store) (fun _ _ => True) := by
  unfold flush
  rw [Ends, get_bind]
  refine (conserves_expireWhile hgoverns hes _ ω _ h).bind ?_
  rintro - g₁ ⟨h₁, hempty⟩
  refine Ends.bind (conserves_writeBlocks hgoverns hes ω' fuel h₁) ?_
  rintro - g₂ ⟨h₂, hfifo, hsize⟩
  have hwindow : g₂.memg.vfifo.edges = [] := by
    rw [hfifo]
    simpa [EdgeFIFO.isEmpty] using hempty
  exact Ends.modify ⟨h₂.of_same rfl rfl rfl rfl rfl rfl, ⟨hwindow, hsize⟩, rfl⟩

theorem conserves_onVertices {P : Type} {g : InteractionGraph P T S vertexSchema edgeSchema}
    {Ok : P → Prop} (x : VertexManager.Vertices vertexSchema α) (h : Conserves Ok parts es g) :
    Ends (onVertices x) g (fun _ g' => Conserves Ok parts es g' ∧ g'.nextAddr = g.nextAddr)
      (fun _ g' => Conserves Ok parts es g' ∧ g'.nextAddr = g.nextAddr) := by
  unfold Ends onVertices
  cases hx : x g.vman with
  | ok a vman => exact ⟨h.of_same rfl rfl rfl rfl rfl rfl, rfl⟩
  | error e vman => exact ⟨h.of_same rfl rfl rfl rfl rfl rfl, rfl⟩

theorem conserves_countSizes {P T S : Type} [LinearOrder T] [LinearOrder S] [Score S]
    [TimeScore T S] [Timestamp T] [BlockTime T] {vertexSchema edgeSchema : Schema} {Ok : P → Prop}
    {parts : T → Option Partitioning} {es : List (GraphEdge T (AttributeData edgeSchema))}
    {g : InteractionGraph P T S vertexSchema edgeSchema} (fields : List (Nat × Value))
    (h : Conserves Ok parts es g) :
    Ends (countSizes fields) g (fun _ g' => Conserves Ok parts es g') (fun _ _ => True) := by
  induction fields generalizing g with
  | nil => exact h
  | cons f fields ih =>
      unfold countSizes
      cases hsize : AttributeData.getFieldSize edgeSchema f with
      | error e =>
          rw [Ends, ofResult_bind_error rfl]
          trivial
      | ok size =>
          rw [Ends, ofResult_bind_ok rfl]
          refine Ends.bind (Ends.modify (Q := fun _ g' => Conserves Ok parts es g') ?_)
            fun _ g' h' => ih h'
          exact h.of_same rfl rfl rfl rfl rfl rfl

variable {v u : VertexId} {time : T} {data : SharedPtr (AttributeData edgeSchema)}

/-- An edge later than all others enters the window. -/
theorem Conserves.enter {P : Type} {g : InteractionGraph P T S vertexSchema edgeSchema}
    {Ok : P → Prop} (h : Conserves Ok parts es g) (hes : History (es ++ [⟨v, u, time, data⟩])) :
    Conserves Ok parts (es ++ [⟨v, u, time, data⟩])
      { g with memg := g.memg.enter v u time data } := by
  rcases h with hspent | ⟨stored, blocks, expired, window, h⟩
  · exact Or.inl hspent
  · have hmoved : History (expired ++ (window ++ [⟨v, u, time, data⟩])) := by
      rw [← List.append_assoc]
      refine ⟨List.pairwise_append.mpr ⟨h.held.history.increasing, List.pairwise_singleton _ _, ?_⟩, ?_⟩
      · intro e he e' he'
        exact (List.pairwise_append.mp hes.increasing).2.2 e (h.known e he) e' he'
      · intro e he
        refine hes.distinct e ?_
        rcases List.mem_append.mp he with he | he
        · exact List.mem_append_left _ (h.known e he)
        · exact List.mem_append_right _ he
    refine Or.inr ⟨stored, blocks, expired, window ++ [⟨v, u, time, data⟩], h.files, h.room,
      InMemoryGraph.enter_held h.held hmoved, ?_, ?_, ?_⟩
    · intro e he
      rw [← List.append_assoc] at he
      rcases List.mem_append.mp he with he | he
      · exact List.mem_append_left _ (h.known e he)
      · exact List.mem_append_right _ he
    · intro w
      show _ ++ (g.memg.enter v u time data).pending w = _
      rw [h.held.pending_enter hmoved, ← List.append_assoc, h.edges, incident_append,
        incident_singleton]
    · exact fun e he b hb => (h.cut e he b hb).mono _

theorem conserves_insertEdge (hgoverns : Governs edgeSchema Ok parts Asked)
    (ω : Nat → Oracle S) (edgeData : List Value) (h : Conserves Ok parts es g)
    (hes : Sources Asked
      (es ++ [⟨v, u, time, ⟨g.nextAddr, collect (.new edgeSchema) 0 edgeData⟩⟩])) :
    Ends (insertEdge ω v u time edgeData) g (fun _ g' => Conserves Ok parts
      (es ++ [⟨v, u, time, ⟨g.nextAddr, collect (.new edgeSchema) 0 edgeData⟩⟩]) g')
      (fun _ _ => True) := by
  unfold insertEdge getVertexData
  refine Ends.bind ((conserves_onVertices _ h).mono (fun _ _ h' => h') fun _ _ _ => trivial) ?_
  rintro - g₁ ⟨h₁, haddr₁⟩
  refine Ends.bind ((conserves_onVertices _ h₁).mono (fun _ _ h' => h') fun _ _ _ => trivial) ?_
  rintro - g₂ ⟨h₂, haddr₂⟩
  split_ifs with hlength
  · exact Ends.throw trivial
  · rw [Ends, get_bind]
    refine Ends.bind (Ends.modify (Q := fun _ g' => Conserves Ok parts es g') ?_) ?_
    · exact h₂.of_same rfl rfl rfl rfl rfl rfl
    · intro _ g₃ h₃
      unfold remember
      rw [Ends, modifyMemory_bind, get_bind]
      have haddr : g₂.nextAddr = g.nextAddr := haddr₂.trans haddr₁
      rw [haddr]
      refine Ends.bind ((conserves_expireWhile hgoverns hes _ ω _ (h₃.enter hes.history)).mono
        (fun _ _ h' => h'.1) fun _ _ _ => trivial) ?_
      exact fun _ g' h' => conserves_countSizes _ h'

end InteractionGraph

end RailwayDB
