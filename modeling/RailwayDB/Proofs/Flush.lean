/-
When a flush comes to an end.

Every write of the smart layout takes an edge out of the map, so its flush ends after
as many writes as there are edges.  A plain layout does the same as long as every edge
fits a block of its own.  An edge that does not fit is in no plain block, so it never
leaves the map, and the flush goes on writing empty blocks.
-/
import RailwayDB.Core.AttributeData
import RailwayDB.Proofs.ExpirationRun

namespace RailwayDB

namespace ExpirationMap

variable {T S D : Type} [LinearOrder T] [LinearOrder S] [Score S] [TimeScore T S] [SerializedSize D]

/-- Every write of the flush leaves fewer edges, and the flush ends with none. -/
structure FlushEnds (m : ExpirationMap T S D) : Prop where
  decreases : ∀ ω turns blocks m', m.flushTurns ω turns = .ok (blocks, m') → m'.size ≠ 0 →
    ∀ ω', ∃ block m'', m'.writeBlock ω' = .ok (block, m'') ∧ m''.size < m'.size
  ends : ∃ fuel, ∀ ω, ∃ blocks m', m.flush ω fuel = .ok (blocks, m') ∧ m'.size = 0

variable {es : List (GraphEdge T D)} {m m' : ExpirationMap T S D}

/-! ### Layouts that make progress -/

/-- The smart layout, or a map whose edges all fit. -/
def Progresses (m : ExpirationMap T S D) : Prop :=
  if m.conf.layoutMode = .smart then m.conf.initialCandidateCount ≠ 0 else Fits m

section

omit [LinearOrder T] [Score S] [TimeScore T S]

theorem Splits.fits {block : Block T D} (hsplit : Splits m block m') (hconf : m'.conf = m.conf)
    (h : Fits m) : Fits m' := by
  intro w e he
  rw [hconf]
  refine h w e ?_
  rw [← hsplit w]
  exact List.mem_append_right _ he

end

/-- One write that makes progress, and leaves a map that does. -/
theorem writeBlock_progress (ω : Oracle S) (hm : Sound es m) (hp : Progresses m)
    (hsize : m.size ≠ 0) :
    ∃ block m', m.writeBlock ω = .ok (block, m') ∧ m'.size < m.size ∧ Sound es m' ∧
      Progresses m' := by
  unfold Progresses at hp ⊢
  have husable : Usable m.conf := by
    unfold Usable
    split_ifs with hmode
    · rw [if_pos hmode] at hp
      exact hp
    · rw [if_neg hmode] at hp
      obtain ⟨w, hw⟩ := hm.exists_edges hsize
      obtain ⟨e, he⟩ := List.exists_mem_of_ne_nil _ hw
      have hfit := hp w e he
      omega
  obtain ⟨block, m', hwrite, hsound, hconf, hsplit, hshrinks, -⟩ :=
    writeBlock_ok ω hm husable fun _ => hsize
  refine ⟨block, m', hwrite, hshrinks hsize ?_, hsound, ?_⟩
  · by_cases hmode : m.conf.layoutMode = .smart
    · exact Or.inl hmode
    · rw [if_neg hmode] at hp
      exact Or.inr hp
  · rw [hconf]
    split_ifs with hmode
    · rw [if_pos hmode] at hp
      exact hp
    · rw [if_neg hmode] at hp
      exact hsplit.fits hconf hp

/-- After any number of turns the map still makes progress, and each turn took an edge out. -/
theorem flushTurns_progress (ω : Nat → Oracle S) (turns : Nat) (hm : Sound es m)
    (hp : Progresses m) :
    ∃ blocks m', m.flushTurns ω turns = .ok (blocks, m') ∧ Sound es m' ∧ Progresses m' ∧
      (m'.size ≠ 0 → m'.size + turns ≤ m.size) := by
  induction turns generalizing m with
  | zero => exact ⟨[], m, rfl, hm, hp, fun _ => le_refl _⟩
  | succ turns ih =>
      unfold flushTurns
      by_cases hsize : m.size = 0
      · rw [if_pos hsize]
        exact ⟨[], m, rfl, hm, hp, fun hne => absurd hsize hne⟩
      · obtain ⟨block, m₁, hwrite, hlt, hm₁, hp₁⟩ := writeBlock_progress (ω turns) hm hp hsize
        obtain ⟨blocks, m', hturns, hm', hp', hcount⟩ := ih hm₁ hp₁
        refine ⟨block :: blocks, m', ?_, hm', hp', ?_⟩
        · rw [if_neg hsize, hwrite, Except.ok_bind]
          simp only [hturns, Except.ok_bind]
          rfl
        · intro hne
          have hcount' := hcount hne
          omega

/-- As many writes as there are edges are enough. -/
theorem flush_progress (ω : Nat → Oracle S) (hm : Sound es m) (hp : Progresses m) :
    ∃ blocks m', m.flush ω m.size = .ok (blocks, m') ∧ m'.size = 0 := by
  obtain ⟨blocks, m', hturns, hm', -, hcount⟩ := flushTurns_progress ω m.size hm hp
  have hzero : m'.size = 0 := by
    by_contra hne
    have hcount' := hcount hne
    omega
  refine ⟨blocks, m', ?_, hzero⟩
  unfold flush
  rw [hturns, Except.ok_bind, if_pos hzero]
  rfl

/-! ### An edge that does not fit -/

theorem Sound.fits_of_size (hm : Sound es m) (hsize : m.size = 0) : Fits m := by
  intro w e he
  rw [hm.size] at hsize
  rw [edges_eq_nil_of_edgeTotal hsize w] at he
  simp at he

/-- A plain flush that emptied the map had only edges that fit. -/
theorem fits_of_flushTurns (ω : Nat → Oracle S) (turns : Nat) (hm : Sound es m)
    (hmode : m.conf.layoutMode ≠ .smart) {blocks : List (Block T D)}
    (hturns : m.flushTurns ω turns = .ok (blocks, m')) (hzero : m'.size = 0) : Fits m := by
  induction turns generalizing m blocks with
  | zero =>
      have heq := Except.ok.inj hturns
      rw [Prod.mk.injEq] at heq
      rw [← heq.2] at hzero
      exact hm.fits_of_size hzero
  | succ turns ih =>
      unfold flushTurns at hturns
      split_ifs at hturns with hsize
      · exact hm.fits_of_size hsize
      · obtain ⟨⟨block, m₁⟩, hwrite, hrest⟩ := Except.bind_eq_ok.mp hturns
        obtain ⟨⟨blocks', m₂⟩, hturns', hret⟩ := Except.bind_eq_ok.mp hrest
        have hm₂ : m₂ = m' := (Prod.mk.inj (Except.ok.inj hret)).2
        rw [hm₂] at hturns'
        have husable : Usable m.conf := by
          by_contra hc
          rw [writeBlock_unusable (ω turns) hc] at hwrite
          simp at hwrite
        obtain ⟨block', m₁', hwrite', hm₁, hconf, hsplit, -, hfits⟩ :=
          writeBlock_ok (ω turns) hm husable fun _ => hsize
        rw [hwrite', Except.ok.injEq, Prod.mk.injEq] at hwrite
        obtain ⟨rfl, rfl⟩ := hwrite
        have hrest' := ih hm₁ (by rw [hconf]; exact hmode) hturns'
        intro w e he
        rw [← hsplit w, List.mem_append] at he
        rcases he with hin | hin
        · exact hfits hmode w e hin
        · rw [← hconf]
          exact hrest' w e hin

theorem fits_of_flush (ω : Nat → Oracle S) (fuel : Nat) (hm : Sound es m)
    (hmode : m.conf.layoutMode ≠ .smart) {blocks : List (Block T D)}
    (hflush : m.flush ω fuel = .ok (blocks, m')) : Fits m := by
  unfold flush at hflush
  obtain ⟨r, hturns, hend⟩ := Except.bind_eq_ok.mp hflush
  split_ifs at hend with hzero
  exact fits_of_flushTurns ω fuel hm hmode hturns hzero

/-- For every map that can be reached by adding edges: each write of its flush decreases its size
and the flush ends, exactly when the layout is the smart one or each edge held fits a block of its
own. -/
theorem flush_ends_iff {conf : Conf} {calls : List (GraphEdge T D × Oracle S)}
    {m : ExpirationMap T S D}
    (hcount : conf.layoutMode = .smart → conf.initialCandidateCount ≠ 0)
    (hes : History (calls.map Prod.fst)) (hm : (new conf).addEdges calls = .ok m) :
    FlushEnds m ↔ conf.layoutMode = .smart ∨
      ∀ w, ∀ e ∈ m.neigLists.edges w, 36 + getSerializedSizeOf e.data.val ≤ conf.blockSize := by
  obtain ⟨hsound, hconf⟩ := (reached_addEdges hes hm).sound
  have hconf' : m.conf = conf := hconf
  rw [← hconf'] at hcount ⊢
  refine ⟨?_, ?_⟩
  · intro hends
    by_cases hmode : m.conf.layoutMode = .smart
    · exact Or.inl hmode
    · obtain ⟨fuel, hflush⟩ := hends.ends
      obtain ⟨blocks, m', hok, -⟩ := hflush fun _ => Oracle.plain
      exact Or.inr (fits_of_flush _ fuel hsound hmode hok)
  · intro hcase
    have hp : Progresses m := by
      unfold Progresses
      split_ifs with hmode
      · exact hcount hmode
      · exact hcase.resolve_left hmode
    refine ⟨?_, m.size, ?_⟩
    · intro ω turns blocks m' hturns hsize ω'
      obtain ⟨blocks', m₁, hturns', hm₁, hp₁, -⟩ := flushTurns_progress ω turns hsound hp
      rw [hturns, Except.ok.injEq, Prod.mk.injEq] at hturns'
      rw [hturns'.2] at hsize ⊢
      obtain ⟨block, m'', hwrite, hlt, -⟩ := writeBlock_progress ω' hm₁ hp₁ hsize
      exact ⟨block, m'', hwrite, hlt⟩
    · intro ω
      exact flush_progress ω hsound hp

/-! ### Two maps with one edge -/

section Examples

/-- One text attribute. -/
def textSchema : Schema := ⟨[⟨[116], .string⟩]⟩

/-- An edge from 1 to 2 at time 1 whose data is a text of so many bytes. -/
def textEdge (bytes : Nat) : GraphEdge Time (AttributeData textSchema) :=
  ⟨1, 2, Time.ofFloat 1.0, ⟨0, (AttributeData.new textSchema).assign 0
    (.string (List.replicate bytes 0))⟩⟩

/-- The edge between two vertices at a time, whose data is the text of so many bytes. -/
def wordEdge (u v : VertexId) (tm : Float) (bytes : Nat) :
    GraphEdge Time (AttributeData textSchema) :=
  ⟨u, v, Time.ofFloat tm, ⟨bytes, (AttributeData.new textSchema).assign 0
    (.string (List.replicate bytes 0))⟩⟩

/-- Blocks of 64 bytes, filled with the oldest edges. -/
def oldConf : Conf := { Conf.default with layoutMode := .old, blockSize := 64 }

theorem textEdge_history (bytes : Nat) :
    History ([(textEdge bytes, (Oracle.plain : Oracle ℚ))].map Prod.fst) := by
  refine ⟨List.pairwise_singleton _ _, ?_⟩
  intro e he
  rw [List.mem_singleton.mp he]
  simp [textEdge]

/-- A smart map with one edge flushes, although the text is too long for a block. -/
theorem flush_ends_smart :
    ∃ m : ExpirationMap Time ℚ (AttributeData textSchema),
      (new { oldConf with layoutMode := .smart }).addEdges [(textEdge 100, Oracle.plain)] = .ok m ∧
      m.size = 2 ∧ FlushEnds m := by
  have heval : ((new { oldConf with layoutMode := .smart } : ExpirationMap Time ℚ
      (AttributeData textSchema)).addEdges [(textEdge 100, Oracle.plain)]).toOption.map
        ExpirationMap.size = some 2 := by
    decide +kernel
  obtain ⟨m, hm, hsize⟩ := Except.of_toOption_map heval
  refine ⟨m, hm, hsize, ?_⟩
  exact (flush_ends_iff (fun _ => by decide) (textEdge_history 100) hm).mpr (Or.inl rfl)

/-- An old-layout map with that edge writes empty blocks for ever. -/
theorem flush_never_ends_old :
    ∃ m : ExpirationMap Time ℚ (AttributeData textSchema),
      (new oldConf).addEdges [(textEdge 100, Oracle.plain)] = .ok m ∧ ¬ FlushEnds m := by
  have heval : ((new oldConf : ExpirationMap Time ℚ (AttributeData textSchema)).addEdges
      [(textEdge 100, Oracle.plain)]).toOption.map (fun m => m.neigLists.edges 1)
        = some [⟨2, Time.ofFloat 1.0, (textEdge 100).data⟩] := by
    decide +kernel
  obtain ⟨m, hm, hedges⟩ := Except.of_toOption_map heval
  refine ⟨m, hm, ?_⟩
  intro hends
  obtain ⟨hsound, hconf⟩ := (reached_addEdges (textEdge_history 100) hm).sound
  obtain ⟨fuel, hflush⟩ := hends.ends
  obtain ⟨blocks, m', hok, -⟩ := hflush fun _ => Oracle.plain
  have hfits := fits_of_flush _ fuel hsound (by rw [hconf]; decide) hok
  have hfit := hfits 1 _ (by rw [hedges]; exact List.mem_cons_self)
  rw [hconf] at hfit
  revert hfit
  decide +kernel

end Examples

end ExpirationMap

end RailwayDB
