/-
The states an expiration map can be in.

A map is reached by adding edges, later and later ones, and by writing blocks: `flush`
calls `writeBlock` as long as there is an edge, and `addEdge` calls it when the map is
full.  The map in the middle of `addEdge`, when the edge is in and no block is written
yet, counts too, since blocks are formed there.  What each call does is left to its
oracle.
-/
import RailwayDB.Proofs.ExpirationMap

namespace RailwayDB

/-- The oracle that draws zero and keeps every order. -/
def Oracle.plain {S : Type} [LinearOrder S] [Score S] : Oracle S where
  rand _ _ _ := Score.ofNat 0
  order _ _ l := l
  order_perm _ _ l := List.Perm.refl l

namespace ExpirationMap

variable {T S D : Type} [LinearOrder T] [LinearOrder S] [Score S] [TimeScore T S]

theorem Sound.new (conf : Conf) : Sound [] (new conf : ExpirationMap T S D) := by
  refine ⟨⟨⟨History.nil, ?_⟩, ListsOK.empty⟩, ?_, rfl, ?_⟩
  · intro w
    exact List.suffix_refl _
  · intro w
    exact ⟨fun _ => rfl, fun _ => rfl⟩
  · intro w s hs
    have hnone : (ExpirationMap.new conf : ExpirationMap T S D).scoreQueue.index.lookup w = none := rfl
    rw [hnone] at hs
    simp at hs

variable [SerializedSize D]

/-- The map after the edges were added one after another, each call with its own oracle. -/
def addEdges (m : ExpirationMap T S D) (calls : List (GraphEdge T D × Oracle S)) :
    Except Fault (ExpirationMap T S D) :=
  calls.foldlM (fun m call => (m.addEdge call.2 call.1.toUEdge call.1.data).map Prod.snd) m

/-- The maps that adding the edges `es` and writing blocks can lead to, with those in the middle of
`addEdge`. -/
inductive Reached (conf : Conf) : List (GraphEdge T D) → ExpirationMap T S D → Prop where
  | new : Reached conf [] (new conf)
  | addEdge {es : List (GraphEdge T D)} {m m' : ExpirationMap T S D} {e : GraphEdge T D}
      {ω : Oracle S} {block : Option (Block T D)} :
      Reached conf es m → History (es ++ [e]) →
      m.addEdge ω e.toUEdge e.data = .ok (block, m') → Reached conf (es ++ [e]) m'
  | pushed {es : List (GraphEdge T D)} {m m₁ m₂ : ExpirationMap T S D} {e : GraphEdge T D}
      {ω : Oracle S} :
      Reached conf es m → History (es ++ [e]) →
      m.push ω 4 e.firstVertex ⟨e.secondVertex, e.time, e.data⟩ = .ok m₁ →
      m₁.push ω 5 e.secondVertex ⟨e.firstVertex, e.time, e.data⟩ = .ok m₂ →
      Reached conf (es ++ [e]) { m₂ with size := m₂.size + 2 }
  | writeBlock {es : List (GraphEdge T D)} {m m' : ExpirationMap T S D} {ω : Oracle S}
      {block : Block T D} :
      Reached conf es m → m.writeBlock ω = .ok (block, m') → Reached conf es m'

/-- Edges that are added one after another. -/
theorem Reached.addEdges {conf : Conf} {es : List (GraphEdge T D)} {m m' : ExpirationMap T S D}
    {calls : List (GraphEdge T D × Oracle S)} (hm : Reached conf es m)
    (hes : History (es ++ calls.map Prod.fst)) (hrun : m.addEdges calls = .ok m') :
    Reached conf (es ++ calls.map Prod.fst) m' := by
  induction calls generalizing es m with
  | nil =>
      have heq : m = m' := Except.ok.inj hrun
      rw [← heq, List.map_nil, List.append_nil]
      exact hm
  | cons call calls ih =>
      have hassoc : es ++ (call :: calls).map Prod.fst
          = es ++ [call.1] ++ calls.map Prod.fst := by
        rw [List.map_cons, List.append_assoc]
        rfl
      rw [hassoc] at hes ⊢
      unfold ExpirationMap.addEdges at hrun
      rw [List.foldlM_cons] at hrun
      obtain ⟨m₁, hcall, hrest⟩ := Except.bind_eq_ok.mp hrun
      obtain ⟨⟨block, m₂⟩, hadd, hr⟩ := Except.map_eq_ok.mp hcall
      have hr : m₂ = m₁ := hr
      rw [hr] at hadd
      exact ih (hm.addEdge hes.left hadd) hes hrest

/-- Edges added to a new map. -/
theorem reached_addEdges {conf : Conf} {m : ExpirationMap T S D}
    {calls : List (GraphEdge T D × Oracle S)} (hes : History (calls.map Prod.fst))
    (hrun : (new conf).addEdges calls = .ok m) : Reached conf (calls.map Prod.fst) m := by
  have hreached := Reached.new.addEdges (T := T) (D := D) (show History ([] ++ _) from hes) hrun
  exact hreached

/-- A call of `writeBlock` that returns leaves a sound map. -/
theorem writeBlock_sound {es : List (GraphEdge T D)} {m m' : ExpirationMap T S D} {ω : Oracle S}
    {block : Block T D} (hm : Sound es m) (hwrite : m.writeBlock ω = .ok (block, m')) :
    Sound es m' ∧ m'.conf = m.conf := by
  have husable : Usable m.conf := by
    by_contra hc
    rw [writeBlock_unusable ω hc] at hwrite
    simp at hwrite
  have hsize : m.conf.layoutMode = .smart → m.size ≠ 0 := by
    intro hmode hz
    rw [writeBlock_empty ω hm hmode hz] at hwrite
    simp at hwrite
  obtain ⟨block', m₁, hwrite', hm₁, hconf, -⟩ := writeBlock_ok ω hm husable hsize
  rw [hwrite', Except.ok.injEq, Prod.mk.injEq] at hwrite
  rw [← hwrite.2]
  exact ⟨hm₁, hconf⟩

/-- Every map that can be reached is sound. -/
theorem Reached.sound {conf : Conf} {es : List (GraphEdge T D)} {m : ExpirationMap T S D}
    (hm : Reached conf es m) : Sound es m ∧ m.conf = conf := by
  induction hm with
  | new => exact ⟨Sound.new conf, rfl⟩
  | @addEdge es m m' e ω block _ hes hadd ih =>
      obtain ⟨hm, hconf⟩ := ih
      obtain ⟨block', m₁, hadd', hm₁, hconf', -⟩ | ⟨-, hfault⟩ := addEdge_ok ω hm hes
      · rw [hadd', Except.ok.injEq, Prod.mk.injEq] at hadd
        rw [← hadd.2]
        exact ⟨hm₁, hconf'.trans hconf⟩
      · rw [hfault] at hadd
        simp at hadd
  | @pushed es m m₁ m₂ e ω _ hes hpush₁ hpush₂ ih =>
      obtain ⟨hm, hconf⟩ := ih
      obtain ⟨m₁', m₂', hok₁, hok₂, hconf', hm', -⟩ := pushes_ok ω hm hes
      rw [hpush₁, Except.ok.injEq] at hok₁
      rw [← hok₁, hpush₂, Except.ok.injEq] at hok₂
      rw [← hok₂] at hconf' hm'
      exact ⟨hm', hconf'.trans hconf⟩
  | writeBlock _ hwrite ih =>
      obtain ⟨hm, hconf⟩ := ih
      obtain ⟨hm', hconf'⟩ := writeBlock_sound hm hwrite
      exact ⟨hm', hconf'.trans hconf⟩

end ExpirationMap

end RailwayDB
