/-
Computations that may fail.

The equations that run such a computation step by step, and the one rule by which
a result is traced back: a sequence returned because each of its parts did.  A fold
returns when an invariant on the rest of its list makes each step return.
-/
import Mathlib.Data.List.Forall2
import Mathlib.Logic.Basic

namespace Except

universe u v

variable {ε : Type v} {α β : Type u}

@[simp] theorem pure_eq_ok (a : α) : (pure a : Except ε α) = .ok a := rfl

@[simp] theorem throw_eq_error (e : ε) : (throw e : Except ε α) = .error e := rfl

@[simp] theorem ok_bind (a : α) (f : α → Except ε β) : (Except.ok a >>= f) = f a := rfl

@[simp] theorem error_bind (e : ε) (f : α → Except ε β) : (Except.error e >>= f) = .error e := rfl

@[simp] theorem ok_map (f : α → β) (a : α) : (Except.ok a : Except ε α).map f = .ok (f a) := rfl

@[simp] theorem error_map (f : α → β) (e : ε) :
    (Except.error e : Except ε α).map f = .error e := rfl

theorem bind_eq_ok {x : Except ε α} {f : α → Except ε β} {b : β} :
    (x >>= f) = .ok b ↔ ∃ a, x = .ok a ∧ f a = .ok b := by
  cases x with
  | error e => simp
  | ok a => simp

theorem map_eq_ok {x : Except ε α} {f : α → β} {b : β} :
    x.map f = .ok b ↔ ∃ a, x = .ok a ∧ f a = b := by
  cases x with
  | error e => simp
  | ok a => simp

/-- What is seen of a result shows that there is one. -/
theorem of_toOption {x : Except ε α} {a : α} (h : x.toOption = some a) : x = .ok a := by
  cases x with
  | error e => simp [Except.toOption] at h
  | ok b => simpa [Except.toOption] using h

theorem of_toOption_map {x : Except ε α} {f : α → β} {b : β} (h : x.toOption.map f = some b) :
    ∃ a, x = .ok a ∧ f a = b := by
  cases x with
  | error e => simp [Except.toOption] at h
  | ok a => exact ⟨a, rfl, by simpa [Except.toOption] using h⟩

/-- A fold returns when each step does; `P` says what holds with a given rest still to come. -/
theorem foldlM_ok {ι : Type*} {f : α → ι → Except ε α} {P : List ι → α → Prop}
    (step : ∀ i l a, P (i :: l) a → ∃ b, f a i = .ok b ∧ P l b) (l : List ι) (a : α)
    (h : P l a) : ∃ b, l.foldlM f a = .ok b ∧ P [] b := by
  induction l generalizing a with
  | nil => exact ⟨a, rfl, h⟩
  | cons i l ih =>
      obtain ⟨b, hb, hP⟩ := step i l a h
      obtain ⟨c, hc, hQ⟩ := ih b hP
      refine ⟨c, ?_, hQ⟩
      rw [List.foldlM_cons, hb, ok_bind]
      exact hc

/-- Every step of a fold is allowed where it is taken: the first one, and then the others. -/
theorem allowed_cons {ι : Type*} {f : α → ι → Except ε α} {A : α → ι → Prop} {i : ι}
    {l : List ι} {a : α} :
    (∀ before j after a', i :: l = before ++ j :: after → before.foldlM f a = .ok a' →
        A a' j) ↔
      A a i ∧ ∀ b, f a i = .ok b → ∀ before j after a', l = before ++ j :: after →
        before.foldlM f b = .ok a' → A a' j := by
  refine ⟨?_, ?_⟩
  · intro hall
    refine ⟨hall [] i l a rfl rfl, ?_⟩
    intro b hb before j after a' heq hrun
    refine hall (i :: before) j after a' (by rw [heq]; rfl) ?_
    rw [List.foldlM_cons, hb]
    exact hrun
  · intro hall before j after a' heq hrun
    obtain ⟨hfirst, hrest⟩ := hall
    cases before with
    | nil =>
        obtain ⟨hij, -⟩ := List.cons.inj heq
        rw [← hij, ← Except.ok.inj hrun]
        exact hfirst
    | cons i' before =>
        obtain ⟨hii, htail⟩ := List.cons.inj heq
        rw [← hii, List.foldlM_cons] at hrun
        obtain ⟨b, hb, hrun⟩ := bind_eq_ok.mp hrun
        exact hrest b hb before j after a' htail hrun

/-- The test for it, step by step. -/
def allowedCheck {ι : Type*} (f : α → ι → Except ε α) (allowed : α → ι → Bool) : α → List ι → Bool
  | _, [] => true
  | a, i :: l =>
      allowed a i && match f a i with
        | .ok b => allowedCheck f allowed b l
        | .error _ => true

theorem allowed_of_check {ι : Type*} {f : α → ι → Except ε α} {A : α → ι → Prop}
    [∀ a i, Decidable (A a i)] {l : List ι} {a : α}
    (hcheck : allowedCheck f (fun a i => decide (A a i)) a l = true) :
    ∀ before i after a', l = before ++ i :: after → before.foldlM f a = .ok a' →
      A a' i := by
  induction l generalizing a with
  | nil =>
      intro before i after a' heq
      exact absurd heq (by simp)
  | cons i l ih =>
      unfold allowedCheck at hcheck
      rw [Bool.and_eq_true] at hcheck
      obtain ⟨hfirst, hrest⟩ := hcheck
      refine allowed_cons.mpr ⟨of_decide_eq_true hfirst, ?_⟩
      intro b hb
      rw [hb] at hrest
      exact ih hrest

/-- A fold whose steps are allowed where they are taken keeps what one allowed step keeps, up to
any point. -/
theorem foldlM_along {ι : Type*} {f : α → ι → Except ε α} {P : α → Prop} {A : α → ι → Prop}
    (step : ∀ a i, P a → A a i → ∃ b, f a i = .ok b ∧ P b) {l : List ι} {a : α} (h : P a)
    (hallowed : ∀ before i after a', l = before ++ i :: after → before.foldlM f a = .ok a' →
      A a' i) {before after : List ι} (hsplit : l = before ++ after) :
    ∃ b, before.foldlM f a = .ok b ∧ P b := by
  induction before generalizing l a with
  | nil => exact ⟨a, rfl, h⟩
  | cons i before ih =>
      rw [hsplit, List.cons_append] at hallowed
      obtain ⟨hfirst, hrest⟩ := allowed_cons.mp hallowed
      obtain ⟨b, hb, hP⟩ := step a i h hfirst
      obtain ⟨c, hc, hQ⟩ := ih hP (hrest b hb) rfl
      refine ⟨c, ?_, hQ⟩
      rw [List.foldlM_cons, hb]
      exact hc

/-- A fold comes to good states all along exactly when its steps are allowed where they are taken,
if that is so for one step. -/
theorem foldlM_along_iff {ι : Type*} {f : α → ι → Except ε α} {I Q : α → Prop}
    {A : α → ι → Prop} {l : List ι} {a : α} (hstart : I a) (hgood : ∀ a, I a → Q a)
    (step : ∀ a, ∀ i ∈ l, I a → ((∃ b, f a i = .ok b ∧ Q b) ↔ A a i))
    (keep : ∀ a b, ∀ i ∈ l, I a → f a i = .ok b → Q b → I b) :
    (∀ before after, l = before ++ after → ∃ b, before.foldlM f a = .ok b ∧ Q b) ↔
      ∀ before i after a', l = before ++ i :: after → before.foldlM f a = .ok a' → A a' i := by
  induction l generalizing a with
  | nil =>
      refine ⟨fun _ before i after a' heq => absurd heq (by simp), ?_⟩
      intro _ before after heq
      obtain ⟨hbefore, -⟩ := List.append_eq_nil_iff.mp heq.symm
      rw [hbefore]
      exact ⟨a, rfl, hgood a hstart⟩
  | cons i l ih =>
      have ih' : ∀ b, I b → _ := fun b hb => ih hb
        (fun a j hj => step a j (List.mem_cons_of_mem i hj))
        fun a b j hj => keep a b j (List.mem_cons_of_mem i hj)
      rw [allowed_cons, ← step a i List.mem_cons_self hstart]
      refine ⟨?_, ?_⟩
      · intro hall
        obtain ⟨b, hb, hQ⟩ := hall [i] l rfl
        rw [List.foldlM_cons] at hb
        obtain ⟨b', hstep, hrest⟩ := bind_eq_ok.mp hb
        rw [← Except.ok.inj hrest] at hQ
        refine ⟨⟨b', hstep, hQ⟩, ?_⟩
        intro c hc
        rw [hstep, Except.ok.injEq] at hc
        rw [← hc]
        refine (ih' b' (keep a b' i List.mem_cons_self hstart hstep hQ)).mp ?_
        intro before after heq
        obtain ⟨d, hd, hQd⟩ := hall (i :: before) after (by rw [heq]; rfl)
        rw [List.foldlM_cons, hstep] at hd
        exact ⟨d, hd, hQd⟩
      · rintro ⟨⟨b, hstep, hQ⟩, hrest⟩ before after heq
        cases before with
        | nil => exact ⟨a, rfl, hgood a hstart⟩
        | cons i' before =>
            obtain ⟨hi, htail⟩ := List.cons.inj heq
            obtain ⟨d, hd, hQd⟩ := (ih' b (keep a b i List.mem_cons_self hstart hstep hQ)).mpr
              (hrest b hstep) before after htail
            refine ⟨d, ?_, hQd⟩
            rw [← hi, List.foldlM_cons, hstep]
            exact hd

/-- What every step of a fold that returned keeps; `P` says what holds with a given rest to come. -/
theorem foldlM_inv {ι : Type*} {f : α → ι → Except ε α} {P : List ι → α → Prop}
    (step : ∀ i l a b, P (i :: l) a → f a i = .ok b → P l b) {l : List ι} {a b : α}
    (hstart : P l a) (hfold : l.foldlM f a = .ok b) : P [] b := by
  induction l generalizing a with
  | nil =>
      rw [← Except.ok.inj hfold]
      exact hstart
  | cons i l ih =>
      rw [List.foldlM_cons] at hfold
      obtain ⟨c, hc, hrest⟩ := bind_eq_ok.mp hfold
      exact ih (step i l a c hstart hc) hrest

/-- What each step of a fold over a range keeps, the fold keeps. -/
theorem foldlM_range'_ok {f : α → Nat → Except ε α} {P : Nat → α → Prop} {j k : Nat}
    (step : ∀ i a b, j ≤ i → i < j + k → P i a → f a i = .ok b → P (i + 1) b) {a b : α}
    (hstart : P j a) (hfold : (List.range' j k).foldlM f a = .ok b) : P (j + k) b := by
  induction k generalizing j a with
  | zero =>
      rw [← Except.ok.inj hfold]
      exact hstart
  | succ k ih =>
      rw [List.range'_succ, List.foldlM_cons] at hfold
      obtain ⟨a', hstep, hrest⟩ := bind_eq_ok.mp hfold
      have hnext := step j a a' (Nat.le_refl _) (by omega) hstart hstep
      rw [show j + (k + 1) = j + 1 + k by omega]
      refine ih ?_ hnext hrest
      intro i a b hi hlt
      exact step i a b (by omega) (by omega)

/-- The same for a fold over the range from its end. -/
theorem foldlM_range'_reverse_ok {f : α → Nat → Except ε α} {P : Nat → α → Prop} {j k : Nat}
    (step : ∀ i a b, j ≤ i → i < j + k → P (i + 1) a → f a i = .ok b → P i b) {a b : α}
    (hstart : P (j + k) a) (hfold : (List.range' j k).reverse.foldlM f a = .ok b) : P j b := by
  induction k generalizing a with
  | zero =>
      rw [← Except.ok.inj hfold]
      exact hstart
  | succ k ih =>
      rw [List.range'_concat, List.reverse_concat, List.foldlM_cons, Nat.one_mul] at hfold
      obtain ⟨a', hstep, hrest⟩ := bind_eq_ok.mp hfold
      refine ih ?_ (step (j + k) a a' (by omega) (by omega) hstart hstep) hrest
      intro i a b hi hlt
      exact step i a b hi (by omega)

/-- A loop that collects results, with what each result has to do with its index. -/
theorem mapM_forall₂ {ι : Type*} {f : ι → Except ε α} {R : ι → α → Prop} (l : List ι)
    (h : ∀ i ∈ l, ∃ a, f i = .ok a ∧ R i a) :
    ∃ as, l.mapM f = .ok as ∧ List.Forall₂ R l as := by
  induction l with
  | nil => exact ⟨[], rfl, .nil⟩
  | cons i l ih =>
      obtain ⟨a, ha, hR⟩ := h i List.mem_cons_self
      obtain ⟨as, has, hall⟩ := ih fun j hj => h j (List.mem_cons_of_mem _ hj)
      exact ⟨a :: as, by rw [List.mapM_cons, ha, ok_bind, has, ok_bind, pure_eq_ok], .cons hR hall⟩

/-- A map over a list returns when each element does, and keeps the length. -/
theorem mapM_ok {ι : Type*} {f : ι → Except ε α} {P : α → Prop} (l : List ι)
    (h : ∀ i ∈ l, ∃ a, f i = .ok a ∧ P a) :
    ∃ as, l.mapM f = .ok as ∧ as.length = l.length ∧ ∀ a ∈ as, P a := by
  obtain ⟨as, has, hall⟩ := mapM_forall₂ (R := fun _ a => P a) l h
  refine ⟨as, has, hall.length_eq.symm, ?_⟩
  intro a ha
  obtain ⟨i, hi, rfl⟩ := List.mem_iff_getElem.mp ha
  exact hall.get (by rw [hall.length_eq]; exact hi) hi

/-- A loop in which every turn returns a known value. -/
theorem mapM_eq_ok {ι : Type*} {f : ι → Except ε α} {g : ι → α} (l : List ι)
    (h : ∀ i ∈ l, f i = .ok (g i)) : l.mapM f = .ok (l.map g) := by
  induction l with
  | nil => rfl
  | cons i l ih =>
      rw [List.mapM_cons, h i List.mem_cons_self, ok_bind,
        ih fun j hj => h j (List.mem_cons_of_mem _ hj)]
      rfl

/-- The results of a list of calls. -/
theorem mem_of_mapM {ι : Type*} {f : ι → Except ε α} {l : List ι} {as : List α}
    (h : l.mapM f = .ok as) (a : α) : a ∈ as ↔ ∃ i ∈ l, f i = .ok a := by
  induction l generalizing as with
  | nil =>
      rw [List.mapM_nil, pure_eq_ok, Except.ok.injEq] at h
      simp [← h]
  | cons i l ih =>
      rw [List.mapM_cons] at h
      obtain ⟨b, hb, h⟩ := bind_eq_ok.mp h
      obtain ⟨bs, hbs, h⟩ := bind_eq_ok.mp h
      rw [pure_eq_ok, Except.ok.injEq] at h
      rw [← h, List.mem_cons, List.exists_mem_cons_iff, ih hbs, hb, Except.ok.injEq, eq_comm]

/-- The loop returned because each turn did. -/
theorem ok_of_mapM {ι : Type*} {f : ι → Except ε α} {l : List ι} {as : List α}
    (h : l.mapM f = .ok as) {i : ι} (hi : i ∈ l) : ∃ a, f i = .ok a := by
  induction l generalizing as with
  | nil => simp at hi
  | cons j l ih =>
      rw [List.mapM_cons] at h
      obtain ⟨b, hb, h⟩ := bind_eq_ok.mp h
      obtain ⟨bs, hbs, -⟩ := bind_eq_ok.mp h
      rcases List.mem_cons.mp hi with hij | hi
      · rw [hij]
        exact ⟨b, hb⟩
      · exact ih hbs hi

theorem length_of_mapM {ι : Type*} {f : ι → Except ε α} {l : List ι} {as : List α}
    (h : l.mapM f = .ok as) : as.length = l.length := by
  induction l generalizing as with
  | nil =>
      rw [List.mapM_nil, pure_eq_ok, Except.ok.injEq] at h
      rw [← h]
      rfl
  | cons i l ih =>
      rw [List.mapM_cons] at h
      obtain ⟨b, -, h⟩ := bind_eq_ok.mp h
      obtain ⟨bs, hbs, h⟩ := bind_eq_ok.mp h
      rw [← Except.ok.inj h, List.length_cons, List.length_cons, ih hbs]

/-- A fold in which every step returns a known value, seen through `φ`. -/
theorem foldlM_eq_ok {ι σ : Type*} {f : α → ι → Except ε α} (φ : σ → α) {g : σ → ι → σ}
    (l : List ι) (h : ∀ s, ∀ i ∈ l, f (φ s) i = .ok (φ (g s i))) (s : σ) :
    l.foldlM f (φ s) = .ok (φ (l.foldl g s)) := by
  induction l generalizing s with
  | nil => rfl
  | cons i l ih =>
      rw [List.foldlM_cons, h s i List.mem_cons_self, ok_bind, List.foldl_cons]
      exact ih (fun s j hj => h s j (List.mem_cons_of_mem _ hj)) (g s i)

end Except
