/-
Calls on a state that may throw.

A call that throws leaves the state as it was at that point.  `Ends` says what
holds when a call returns and what holds when it throws; the rules follow the way
calls are put together.  `Keeps` is the case where one relation holds between the
state before and the state after either way, for a relation that is reflexive and
transitive; its rules need no state.
-/
import Mathlib.Order.Lattice
import Mathlib.Order.Defs.Unbundled
import Mathlib.Logic.Basic

namespace RailwayDB

variable {ε σ α β ι : Type}

theorem run_bind_ok {x : EStateM ε σ α} {f : α → EStateM ε σ β} {s s' : σ} {a : α}
    (h : x s = .ok a s') : (x >>= f) s = f a s' := by
  show EStateM.bind x f s = _
  unfold EStateM.bind
  rw [h]

theorem run_bind_error {x : EStateM ε σ α} {f : α → EStateM ε σ β} {s s' : σ} {e : ε}
    (h : x s = .error e s') : (x >>= f) s = .error e s' := by
  show EStateM.bind x f s = _
  unfold EStateM.bind
  rw [h]

theorem run_bind_congr {x y : EStateM ε σ α} {s : σ} (h : x s = y s) (f : α → EStateM ε σ β) :
    (x >>= f) s = (y >>= f) s := by
  show EStateM.bind x f s = EStateM.bind y f s
  unfold EStateM.bind
  rw [h]

theorem throw_ne_ok {e : ε} {s s' : σ} {a : α} : (throw e : EStateM ε σ α) s ≠ .ok a s' := by
  intro h
  have herror : EStateM.Result.error e s = .ok a s' := h
  cases herror

/-- Two calls in a row return when both do. -/
theorem run_bind_eq_ok {x : EStateM ε σ α} {f : α → EStateM ε σ β} {s s' : σ} {b : β} :
    (x >>= f) s = .ok b s' ↔ ∃ a s₁, x s = .ok a s₁ ∧ f a s₁ = .ok b s' := by
  cases hx : x s with
  | ok a s₁ =>
      rw [run_bind_ok hx]
      refine ⟨fun h => ⟨a, s₁, rfl, h⟩, ?_⟩
      rintro ⟨a', s₂, heq, h⟩
      rw [EStateM.Result.ok.injEq] at heq
      rw [heq.1, heq.2]
      exact h
  | error e s₁ =>
      rw [run_bind_error hx]
      simp

/-- A chain throws when a part of it does. -/
theorem run_bind_eq_error {x : EStateM ε σ α} {f : α → EStateM ε σ β} {s s' : σ} {e : ε} :
    (x >>= f) s = .error e s' ↔
      x s = .error e s' ∨ ∃ a s₁, x s = .ok a s₁ ∧ f a s₁ = .error e s' := by
  cases hx : x s with
  | ok a s₁ =>
      rw [run_bind_ok hx]
      refine ⟨fun h => Or.inr ⟨a, s₁, rfl, h⟩, ?_⟩
      rintro (h | ⟨a', s₂, h, hf⟩)
      · cases h
      · obtain ⟨ha, hs⟩ := EStateM.Result.ok.inj h
        rw [ha, hs]
        exact hf
  | error e₁ s₁ =>
      rw [run_bind_error hx]
      simp

/-- What the call gave, if it returned. -/
def answer? : EStateM.Result ε σ α → Option α
  | .ok a _ => some a
  | .error _ _ => none

theorem of_answer? {x : EStateM.Result ε σ α} {a : α} (h : answer? x = some a) :
    ∃ s, x = .ok a s := by
  cases x with
  | ok b s =>
      rw [answer?, Option.some.injEq] at h
      exact ⟨s, by rw [h]⟩
  | error e s => cases h

/-- What the call threw, if it did not return. -/
def fault? : EStateM.Result ε σ α → Option ε
  | .ok _ _ => none
  | .error e _ => some e

/-- The state a call ends in, whether it returned or threw. -/
def stateAfter (x : EStateM ε σ α) (s : σ) : σ :=
  match x s with
  | .ok _ s' => s'
  | .error _ s' => s'

/-- Started in `s`, the call returns as `Q` allows or throws as `E` allows. -/
def Ends (x : EStateM ε σ α) (s : σ) (Q : α → σ → Prop) (E : ε → σ → Prop) : Prop :=
  match x s with
  | .ok a s' => Q a s'
  | .error e s' => E e s'

theorem eq_of_answer? {x : EStateM ε σ α} {s : σ} {a : α} (h : answer? (x s) = some a) :
    x s = .ok a (stateAfter x s) := by
  obtain ⟨s', hrun⟩ := of_answer? h
  unfold stateAfter
  rw [hrun]

theorem eq_of_fault? {x : EStateM ε σ α} {s : σ} {e : ε} (h : fault? (x s) = some e) :
    x s = .error e (stateAfter x s) := by
  unfold stateAfter
  cases hx : x s with
  | ok a s' =>
      rw [hx] at h
      cases h
  | error e' s' =>
      rw [hx, fault?, Option.some.injEq] at h
      rw [h]

namespace Ends

variable {x : EStateM ε σ α} {f : α → EStateM ε σ β} {s : σ} {Q Q' : α → σ → Prop}
  {E E' : ε → σ → Prop} {R : β → σ → Prop}

theorem pure {a : α} (h : Q a s) : Ends (pure a) s Q E := h

theorem throw {e : ε} (h : E e s) : Ends (throw e) s Q E := h

theorem get {Q : σ → σ → Prop} (h : Q s s) : Ends (get : EStateM ε σ σ) s Q E := h

theorem modify {g : σ → σ} {Q : Unit → σ → Prop} (h : Q () (g s)) :
    Ends (modify g : EStateM ε σ Unit) s Q E := h

theorem mono (h : Ends x s Q E) (hQ : ∀ a s', Q a s' → Q' a s') (hE : ∀ e s', E e s' → E' e s') :
    Ends x s Q' E' := by
  unfold Ends at *
  cases hx : x s with
  | ok a s' =>
      rw [hx] at h
      exact hQ a s' h
  | error e s' =>
      rw [hx] at h
      exact hE e s' h

theorem bind (h : Ends x s Q E) (hf : ∀ a s', Q a s' → Ends (f a) s' R E) :
    Ends (x >>= f) s R E := by
  unfold Ends at *
  show match EStateM.bind x f s with
    | .ok a s' => R a s'
    | .error e s' => E e s'
  unfold EStateM.bind
  cases hx : x s with
  | ok a s' =>
      rw [hx] at h
      exact hf a s' h
  | error e s' =>
      rw [hx] at h
      exact h

theorem and (h : Ends x s Q E) (h' : Ends x s Q' E') :
    Ends x s (fun a s' => Q a s' ∧ Q' a s') (fun e s' => E e s' ∧ E' e s') := by
  unfold Ends at *
  cases hx : x s with
  | ok a s' =>
      rw [hx] at h h'
      exact ⟨h, h'⟩
  | error e s' =>
      rw [hx] at h h'
      exact ⟨h, h'⟩

/-- What is known of a call that returned. -/
theorem of_ok (h : Ends x s Q E) {a : α} {s' : σ} (hx : x s = .ok a s') : Q a s' := by
  unfold Ends at h
  rw [hx] at h
  exact h

theorem of_error (h : Ends x s Q E) {e : ε} {s' : σ} (hx : x s = .error e s') : E e s' := by
  unfold Ends at h
  rw [hx] at h
  exact h

/-- What holds either way holds of the state after the call. -/
theorem stateAfter {Q : σ → Prop} (h : Ends x s (fun _ s' => Q s') (fun _ s' => Q s')) :
    Q (stateAfter x s) := by
  unfold Ends at h
  unfold RailwayDB.stateAfter
  cases hx : x s with
  | ok a s' =>
      rw [hx] at h
      exact h
  | error e s' =>
      rw [hx] at h
      exact h

/-- A call that cannot throw returns. -/
theorem returns (h : Ends x s Q fun _ _ => False) : ∃ a s', x s = .ok a s' ∧ Q a s' := by
  unfold Ends at h
  cases hx : x s with
  | ok a s' =>
      rw [hx] at h
      exact ⟨a, s', rfl, h⟩
  | error e s' =>
      rw [hx] at h
      exact h.elim

/-- A loop over a list; `I` says what holds with a given rest still to come. -/
theorem foldlM {h : α → ι → EStateM ε σ α} {I : List ι → α → σ → Prop}
    (hstep : ∀ i l a s, I (i :: l) a s → Ends (h a i) s (I l) E) (l : List ι) {a : α}
    (hI : I l a s) : Ends (l.foldlM h a) s (I []) E := by
  induction l generalizing a s with
  | nil => exact hI
  | cons i l ih =>
      rw [List.foldlM_cons]
      exact (hstep i l a s hI).bind fun a' s' h' => ih h'

/-- A counted loop; `I` says what holds after a given number of turns. -/
theorem foldlM_range {h : α → Nat → EStateM ε σ α} {I : Nat → α → σ → Prop} {n : Nat}
    (hstep : ∀ i a s, i < n → I i a s → Ends (h a i) s (I (i + 1)) E) {a : α} (hI : I 0 a s) :
    Ends ((List.range n).foldlM h a) s (I n) E := by
  induction n with
  | zero => exact hI
  | succ n ih =>
      rw [List.range_succ, List.foldlM_append]
      refine (ih fun i a s hi => hstep i a s (by omega)).bind fun a' s' h' => ?_
      rw [List.foldlM_cons]
      exact (hstep n a' s' (by omega) h').bind fun _ _ hlast => hlast

/-- A call that returns. -/
theorem of_run {a : α} {s' : σ} (hx : x s = .ok a s') (h : Q a s') : Ends x s Q E := by
  unfold Ends
  rw [hx]
  exact h

end Ends

/-- Whether it returns or throws, the call ends in a state that `R` relates to the one it started
in. -/
def Keeps (R : σ → σ → Prop) (x : EStateM ε σ α) : Prop :=
  ∀ s, Ends x s (fun _ s' => R s s') (fun _ s' => R s s')

namespace Keeps

variable {R : σ → σ → Prop}

theorem modify {g : σ → σ} (h : ∀ s, R s (g s)) : Keeps R (modify g : EStateM ε σ Unit) := h

theorem pure [Std.Refl R] (a : α) : Keeps R (pure a : EStateM ε σ α) := fun s => refl_of R s

theorem throw [Std.Refl R] (e : ε) : Keeps R (throw e : EStateM ε σ α) := fun s => refl_of R s

theorem get [Std.Refl R] : Keeps R (get : EStateM ε σ σ) := fun s => refl_of R s

theorem stateAfter {x : EStateM ε σ α} (h : Keeps R x) (s : σ) : R s (stateAfter x s) :=
  (h s).stateAfter

theorem of_stateAfter {x : EStateM ε σ α} (h : ∀ s, R s (RailwayDB.stateAfter x s)) :
    Keeps R x := by
  intro s
  have hafter := h s
  unfold RailwayDB.stateAfter at hafter
  unfold Ends
  cases hx : x s with
  | ok a s' =>
      rw [hx] at hafter
      exact hafter
  | error e s' =>
      rw [hx] at hafter
      exact hafter

theorem ite {c : Prop} [Decidable c] {x y : EStateM ε σ α} (hx : Keeps R x) (hy : Keeps R y) :
    Keeps R (if c then x else y) := by
  split
  · exact hx
  · exact hy

theorem bind [IsTrans σ R] {x : EStateM ε σ α} {f : α → EStateM ε σ β} (hx : Keeps R x)
    (hf : ∀ a, Keeps R (f a)) : Keeps R (x >>= f) := by
  intro s
  have hboth : Ends x s (fun _ s' => R s s') (fun _ s' => R s s') := hx s
  refine hboth.bind ?_
  intro a s' h
  exact (hf a s').mono (fun _ _ h' => trans_of R h h') (fun _ _ h' => trans_of R h h')

theorem foldlM [IsPreorder σ R] {step : α → ι → EStateM ε σ α} (h : ∀ a i, Keeps R (step a i))
    (l : List ι) (a : α) : Keeps R (l.foldlM step a) := by
  induction l generalizing a with
  | nil => exact pure a
  | cons i l ih =>
      rw [List.foldlM_cons]
      exact (h a i).bind ih

end Keeps

end RailwayDB
