/-
Greedy choice, round by round.

Each round takes the first candidate of the highest score, until nothing is left to
do.  Two such loops take the same candidates in the same order exactly when, in every
round one of them reaches, they agree on whether to stop and on what to take.
-/
import Mathlib.Algebra.Order.Field.Rat
import Mathlib.Data.List.Perm.Subperm
import Mathlib.Data.List.Nodup
import Mathlib.Data.List.Range
import Mathlib.Tactic.NormNum

namespace Greedy

variable {ι : Type*}

/-! ### The best of a list -/

/-- One candidate against the best so far. -/
def better (score : ι → ℚ) (best : Option ι × ℚ) (i : ι) : Option ι × ℚ :=
  if best.2 < score i then (some i, score i) else best

/-- The first candidate of the highest score. -/
def bestOf (score : ι → ℚ) (l : List ι) : Option ι := (l.foldl (better score) (none, -1)).1

/-- What it means to be it. -/
def Leads (score : ι → ℚ) (l : List ι) (i : ι) : Prop :=
  ∃ before after, l = before ++ i :: after ∧ (∀ j ∈ before, score j < score i) ∧
    ∀ j ∈ after, score j ≤ score i

theorem Leads.mem {score : ι → ℚ} {l : List ι} {i : ι} (h : Leads score l i) : i ∈ l := by
  obtain ⟨before, after, hl, -⟩ := h
  rw [hl]
  simp

theorem Leads.le {score : ι → ℚ} {l : List ι} {i : ι} (h : Leads score l i) {j : ι} (hj : j ∈ l) :
    score j ≤ score i := by
  obtain ⟨before, after, hl, hbefore, hafter⟩ := h
  rw [hl] at hj
  rcases List.mem_append.mp hj with hmem | hmem
  · exact (hbefore j hmem).le
  · rcases List.mem_cons.mp hmem with heq | hmem
    · rw [heq]
    · exact hafter j hmem

theorem Leads.unique {score : ι → ℚ} {l : List ι} {i j : ι} (hi : Leads score l i)
    (hj : Leads score l j) : i = j := by
  obtain ⟨before, after, hl, hbefore, hafter⟩ := hi
  obtain ⟨before', after', hl', hbefore', hafter'⟩ := hj
  rw [hl] at hl'
  rcases List.append_eq_append_iff.mp hl' with ⟨m, hb, ha⟩ | ⟨m, hb, ha⟩
  · cases m with
    | nil =>
        simp only [List.nil_append, List.cons.injEq] at ha
        exact ha.1
    | cons k m =>
        simp only [List.cons_append, List.cons.injEq] at ha
        have hlt : score i < score j := hbefore' i (by rw [hb, ← ha.1]; simp)
        have hle : score j ≤ score i := hafter j (by rw [ha.2]; simp)
        exact absurd hlt (not_lt_of_ge hle)
  · cases m with
    | nil =>
        simp only [List.nil_append, List.cons.injEq] at ha
        exact ha.1.symm
    | cons k m =>
        simp only [List.cons_append, List.cons.injEq] at ha
        have hlt : score j < score i := hbefore j (by rw [hb, ← ha.1]; simp)
        have hle : score i ≤ score j := hafter' i (by rw [ha.2]; simp)
        exact absurd hlt (not_lt_of_ge hle)

/-- Going through a list leaves its leader. -/
theorem foldl_better {score : ι → ℚ} (l : List ι) (h : ∀ j ∈ l, 0 ≤ score j) (hl : l ≠ []) :
    ∃ i, l.foldl (better score) (none, -1) = (some i, score i) ∧ Leads score l i := by
  induction l using List.reverseRecOn with
  | nil => exact absurd rfl hl
  | append_singleton l k ih =>
      rw [List.foldl_append, List.foldl_cons, List.foldl_nil]
      by_cases hnil : l = []
      · have hk : (-1 : ℚ) < score k := lt_of_lt_of_le (by norm_num) (h k (by simp))
        refine ⟨k, ?_, [], [], by simp [hnil], by simp, by simp⟩
        simp [hnil, better, hk]
      · obtain ⟨i, hfold, before, after, hsplit, hbefore, hafter⟩ :=
          ih (fun j hj => h j (List.mem_append_left _ hj)) hnil
        rw [hfold, better]
        by_cases hlt : score i < score k
        · refine ⟨k, if_pos hlt, l, [], rfl, ?_, by simp⟩
          intro j hj
          rw [hsplit] at hj
          rcases List.mem_append.mp hj with hmem | hmem
          · exact (hbefore j hmem).trans hlt
          · rcases List.mem_cons.mp hmem with heq | hmem
            · rw [heq]
              exact hlt
            · exact (hafter j hmem).trans_lt hlt
        · refine ⟨i, if_neg hlt, before, after ++ [k], by simp [hsplit], hbefore, ?_⟩
          intro j hj
          rcases List.mem_append.mp hj with hmem | hmem
          · exact hafter j hmem
          · rw [List.mem_singleton.mp hmem]
            exact not_lt.mp hlt

theorem bestOf_eq_some_iff {score : ι → ℚ} {l : List ι} (h : ∀ j ∈ l, 0 ≤ score j) {i : ι} :
    bestOf score l = some i ↔ Leads score l i := by
  by_cases hnil : l = []
  · constructor
    · intro hbest
      simp [hnil, bestOf] at hbest
    · intro hleads
      have hmem := hleads.mem
      simp [hnil] at hmem
  · obtain ⟨k, hfold, hleads⟩ := foldl_better l h hnil
    rw [bestOf, hfold, Option.some.injEq]
    constructor
    · intro heq
      rw [← heq]
      exact hleads
    · intro hi
      exact hleads.unique hi

theorem leads_congr {score score' : ι → ℚ} {l : List ι} {i : ι} (h : ∀ j ∈ l, score j = score' j) :
    Leads score l i ↔ Leads score' l i := by
  refine exists₂_congr fun before after => and_congr_right ?_
  rintro rfl
  have hi := h i (by simp)
  refine and_congr (forall₂_congr fun j hj => ?_) (forall₂_congr fun j hj => ?_)
  · rw [hi, h j (List.mem_append_left _ hj)]
  · rw [hi, h j (List.mem_append_right _ (List.mem_cons_of_mem _ hj))]

/-- The scale of the scores does not matter. -/
theorem leads_mul_iff {score : ι → ℚ} {l : List ι} {i : ι} {c : ℚ} (hc : 0 < c) :
    Leads (fun j => score j * c) l i ↔ Leads score l i := by
  simp only [Leads, mul_lt_mul_iff_left₀ hc, mul_le_mul_iff_left₀ hc]

/-! ### The loop -/

section Loop

/-- What the loop takes, after what it has taken. -/
def run (pick : List ι → Option ι) (done : List ι → Prop) [DecidablePred done] :
    Nat → List ι → Option (List ι)
  | fuel, used =>
      if done used then some []
      else
        match fuel with
        | 0 => none
        | fuel + 1 =>
            match pick used with
            | none => none
            | some i => (run pick done fuel (used ++ [i])).map fun rest => i :: rest

/-- The rounds the loop goes through. -/
inductive Reached (pick : List ι → Option ι) (done : List ι → Prop) (start : List ι) :
    List ι → Prop
  | start : Reached pick done start start
  | round {used : List ι} {i : ι} : Reached pick done start used → ¬ done used →
      pick used = some i → Reached pick done start (used ++ [i])

/-- The two loops do the same in a round. -/
def Agree (pick : List ι → Option ι) (done : List ι → Prop) (pick' : List ι → Option ι)
    (done' : List ι → Prop) (used : List ι) : Prop :=
  (done' used ↔ done used) ∧ (¬ done used → pick' used = pick used)

variable {pick pick' : List ι → Option ι} {done done' : List ι → Prop}

theorem Reached.trans {a b c : List ι} (hab : Reached pick done a b) (hbc : Reached pick done b c) :
    Reached pick done a c := by
  induction hbc with
  | start => exact hab
  | round _ hnot hpick ih => exact .round ih hnot hpick

/-- A round is the first one or comes after the second. -/
theorem Reached.cases_start {used later : List ι} (h : Reached pick done used later) :
    later = used ∨ ∃ i, ¬ done used ∧ pick used = some i ∧
      Reached pick done (used ++ [i]) later := by
  induction h with
  | start => exact .inl rfl
  | round hreached hnot hpick ih =>
      rcases ih with heq | ⟨i, hnot', hi, hrest⟩
      · rw [heq] at hnot hpick ⊢
        exact .inr ⟨_, hnot, hpick, .start⟩
      · exact .inr ⟨i, hnot', hi, .round hrest hnot hpick⟩

variable [DecidablePred done] [DecidablePred done']

theorem run_of_done {used : List ι} (h : done used) (fuel : Nat) :
    run pick done fuel used = some [] := by
  cases fuel <;> simp [run, h]

theorem run_of_pick {used : List ι} (h : ¬ done used) {i : ι} (hi : pick used = some i)
    (fuel : Nat) :
    run pick done (fuel + 1) used
      = (run pick done fuel (used ++ [i])).map fun rest => i :: rest := by
  rw [run, if_neg h, hi]

/-- What a loop that ends took first. -/
theorem of_run_eq {used l : List ι} {fuel : Nat} (h : run pick done fuel used = some l) :
    (done used ∧ l = []) ∨ ∃ fuel' i rest, fuel = fuel' + 1 ∧ ¬ done used ∧ pick used = some i ∧
      l = i :: rest ∧ run pick done fuel' (used ++ [i]) = some rest := by
  by_cases hd : done used
  · rw [run_of_done hd, Option.some.injEq] at h
    exact .inl ⟨hd, h.symm⟩
  · cases fuel with
    | zero => simp [run, hd] at h
    | succ fuel =>
        cases hi : pick used with
        | none => simp [run, hd, hi] at h
        | some i =>
            rw [run_of_pick hd hi, Option.map_eq_some_iff] at h
            obtain ⟨rest, hrest, hl⟩ := h
            exact .inr ⟨fuel, i, rest, rfl, hd, rfl, hl.symm, hrest⟩

theorem run_congr (fuel : Nat) (used : List ι)
    (h : ∀ later, Reached pick done used later → Agree pick done pick' done' later) :
    run pick' done' fuel used = run pick done fuel used := by
  induction fuel generalizing used with
  | zero =>
      obtain ⟨hdone, -⟩ := h used .start
      simp [run, hdone]
  | succ fuel ih =>
      obtain ⟨hdone, hpick⟩ := h used .start
      by_cases hd : done used
      · rw [run_of_done hd, run_of_done (hdone.mpr hd)]
      · have hd' : ¬ done' used := fun hd' => hd (hdone.mp hd')
        cases hi : pick used with
        | none => simp [run, hd, hd', hpick hd, hi]
        | some i =>
            have hnext : Reached pick done used (used ++ [i]) := .round .start hd hi
            rw [run_of_pick hd hi, run_of_pick hd' ((hpick hd).trans hi),
              ih (used ++ [i]) fun later hlater => h later (hnext.trans hlater)]

/-- Loops that take the same in the same order agree in every round. -/
theorem agree_of_run_eq {fuel fuel' : Nat} {used l : List ι}
    (hrun : run pick done fuel used = some l) (hrun' : run pick' done' fuel' used = some l)
    {later : List ι} (hlater : Reached pick done used later) :
    Agree pick done pick' done' later := by
  induction l generalizing fuel fuel' used with
  | nil =>
      rcases of_run_eq hrun with ⟨hd, -⟩ | ⟨_, _, _, -, -, -, hl, -⟩
      · rcases of_run_eq hrun' with ⟨hd', -⟩ | ⟨_, _, _, -, -, -, hl, -⟩
        · rcases hlater.cases_start with heq | ⟨_, hnot, -⟩
          · rw [heq]
            exact ⟨iff_of_true hd' hd, fun hnot => absurd hd hnot⟩
          · exact absurd hd hnot
        · simp at hl
      · simp at hl
  | cons i l ih =>
      rcases of_run_eq hrun with ⟨-, hl⟩ | ⟨_, j, rest, -, hd, hi, hl, hrest⟩
      · simp at hl
      rcases of_run_eq hrun' with ⟨-, hl'⟩ | ⟨_, j', rest', -, hd', hi', hl', hrest'⟩
      · simp at hl'
      simp only [List.cons.injEq] at hl hl'
      obtain ⟨rfl, rfl⟩ := hl
      obtain ⟨rfl, rfl⟩ := hl'
      rcases hlater.cases_start with heq | ⟨k, -, hk, hreached⟩
      · rw [heq]
        exact ⟨iff_of_false hd' hd, fun _ => hi'.trans hi.symm⟩
      · rw [hi, Option.some.injEq] at hk
        rw [← hk] at hreached
        exact ih hrest hrest' hreached

/-- A loop that ends has reached the end. -/
theorem done_of_run {used l : List ι} {fuel : Nat} (h : run pick done fuel used = some l) :
    done (used ++ l) := by
  induction l generalizing fuel used with
  | nil =>
      rcases of_run_eq h with ⟨hd, -⟩ | ⟨_, _, _, -, -, -, hl, -⟩
      · rwa [List.append_nil]
      · simp at hl
  | cons i l ih =>
      rcases of_run_eq h with ⟨-, hl⟩ | ⟨_, j, rest, -, -, -, hl, hrest⟩
      · simp at hl
      · simp only [List.cons.injEq] at hl
        rw [← hl.1, ← hl.2] at hrest
        rw [List.append_cons]
        exact ih hrest

/-- What was taken in a round, and that the loop was not done before it. -/
theorem pick_of_run {used before after : List ι} {i : ι} {fuel : Nat}
    (h : run pick done fuel used = some (before ++ i :: after)) :
    ¬ done (used ++ before) ∧ pick (used ++ before) = some i := by
  induction before generalizing fuel used with
  | nil =>
      rcases of_run_eq h with ⟨-, hl⟩ | ⟨_, j, rest, -, hd, hj, hl, -⟩
      · simp at hl
      · simp only [List.nil_append, List.cons.injEq] at hl
        rw [List.append_nil, hl.1]
        exact ⟨hd, hj⟩
  | cons k before ih =>
      rcases of_run_eq h with ⟨-, hl⟩ | ⟨_, j, rest, -, -, -, hl, hrest⟩
      · simp at hl
      · simp only [List.cons_append, List.cons.injEq] at hl
        rw [← hl.1, ← hl.2] at hrest
        rw [List.append_cons]
        exact ih hrest

/-- A loop that never takes a candidate twice takes each at most once. -/
theorem nodup_of_run (hpick : ∀ used i, pick used = some i → i ∉ used) {l : List ι} {fuel : Nat}
    (h : run pick done fuel [] = some l) : l.Nodup := by
  rw [List.nodup_iff_sublist]
  intro i hsub
  have hpair : ([i] ++ [i]).Sublist l := hsub
  obtain ⟨before, later, hl, hbefore, hlater⟩ := List.append_sublist_iff.mp hpair
  obtain ⟨early, late, hsplit⟩ := List.append_of_mem (List.singleton_sublist.mp hlater)
  rw [hsplit, ← List.append_assoc] at hl
  rw [hl] at h
  refine hpick _ i (pick_of_run h).2 ?_
  simp [List.singleton_sublist.mp hbefore]

/-- Whether a loop that may stop sooner gets as far: exactly when no round would make it stop
sooner. -/
theorem done_iff_of_run (hsub : ∀ used, done used → done' used) {fuel : Nat} {used l : List ι}
    (h : run pick done' fuel used = some l) :
    done (used ++ l) ↔ ∀ later, Reached pick done used later → done' later → done later := by
  constructor
  · intro hend
    have hsame : run pick done fuel used = some l := by
      induction l generalizing fuel used with
      | nil =>
          rw [List.append_nil] at hend
          exact run_of_done hend fuel
      | cons i l ih =>
          rcases of_run_eq h with ⟨-, hl⟩ | ⟨fuel', j, rest, hfuel, hd, hj, hl, hrest⟩
          · simp at hl
          · simp only [List.cons.injEq] at hl
            rw [← hl.1, ← hl.2] at hrest
            rw [← hl.1] at hj
            rw [List.append_cons] at hend
            rw [hfuel, run_of_pick (fun hdone => hd (hsub used hdone)) hj, ih hrest hend]
            rfl
    intro later hlater hstop
    exact (agree_of_run_eq hsame h hlater).1.mp hstop
  · intro hnone
    have hagree : ∀ later, Reached pick done used later → Agree pick done pick done' later :=
      fun later hlater => ⟨⟨hnone later hlater, hsub later⟩, fun _ => rfl⟩
    have hsame := run_congr fuel used hagree
    rw [h] at hsame
    exact done_of_run hsame.symm

end Loop

/-- With a turn for each candidate the loop ends. -/
theorem exists_run {pick : List Nat → Option Nat} {done : List Nat → Prop} [DecidablePred done]
    {n : Nat} (hpick : ∀ used, ¬ done used → ∃ i, pick used = some i ∧ i < n ∧ i ∉ used)
    (fuel : Nat) (used : List Nat) (hnodup : used.Nodup) (hlt : ∀ i ∈ used, i < n)
    (hfuel : n < fuel + used.length) : ∃ l, run pick done fuel used = some l := by
  induction fuel generalizing used with
  | zero =>
      have hsub : used ⊆ List.range n := fun i hi => List.mem_range.mpr (hlt i hi)
      have hle := (hnodup.subperm hsub).length_le
      rw [List.length_range] at hle
      omega
  | succ fuel ih =>
      by_cases hd : done used
      · exact ⟨[], run_of_done hd _⟩
      · obtain ⟨i, hi, hin, hnew⟩ := hpick used hd
        obtain ⟨l, hl⟩ := ih (used ++ [i])
          (List.nodup_append.mpr ⟨hnodup, List.nodup_singleton i, by
            intro a ha b hb
            rw [List.mem_singleton.mp hb]
            intro heq
            rw [heq] at ha
            exact hnew ha⟩)
          (by
            intro j hj
            rcases List.mem_append.mp hj with hmem | hmem
            · exact hlt j hmem
            · rw [List.mem_singleton.mp hmem]
              exact hin)
          (by
            rw [List.length_append, List.length_singleton]
            omega)
        exact ⟨i :: l, by rw [run_of_pick hd hi, hl]; rfl⟩

end Greedy
