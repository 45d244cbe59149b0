/-
The running statistics are those of the whole sample.

`Tracks` is what the accumulators hold after the values pushed since the last clear: the
mean and the sum of the squared deviations, in the new accumulators only from the
first value and from the second on.  A push keeps it by the two recurrences of the
sample statistics.  The counter alone is bounded: at 2^31 values without a clear it
overflows.
-/
import RailwayDB.Core.RunningStat
import RailwayDB.Lib.SampleStatistics
import RailwayDB.Lib.Except
import Mathlib.Data.List.Induction
import Mathlib.Data.Rat.Cast.CharZero

namespace RailwayDB.RunningStat

open SampleStatistics

/-! ### A run of calls -/

inductive Call where
  | push (x : ℚ)
  | clear

def call (stat : RunningStat) : Call → Except Fault RunningStat
  | .push x => stat.push x
  | .clear => .ok stat.clear

/-- The values pushed since the last clear. -/
def sinceClear (calls : List Call) : List ℚ :=
  calls.foldl (fun xs => fun
    | .push x => xs ++ [x]
    | .clear => []) []

theorem sinceClear_push (calls : List Call) (x : ℚ) :
    sinceClear (calls ++ [.push x]) = sinceClear calls ++ [x] :=
  List.foldl_append

theorem sinceClear_clear (calls : List Call) : sinceClear (calls ++ [.clear]) = [] :=
  List.foldl_append

/-! ### What the accumulators hold -/

/-- After these values. -/
structure Tracks (xs : List ℚ) (stat : RunningStat) : Prop where
  count : stat.n = xs.length
  room : xs.length ≤ maxInt
  oldMean : xs ≠ [] → stat.oldM = mean xs
  newMean : xs ≠ [] → stat.newM = mean xs
  oldDev : xs ≠ [] → stat.oldS = sumSqDev xs
  newDev : 1 < xs.length → stat.newS = sumSqDev xs

theorem tracks_nil {stat : RunningStat} (h : stat.n = 0) : Tracks [] stat :=
  ⟨h, Nat.zero_le _, fun h => absurd rfl h, fun h => absurd rfl h, fun h => absurd rfl h,
    fun h => absurd h (by simp)⟩

/-- A push keeps it while there is room. -/
theorem Tracks.push {xs : List ℚ} {stat : RunningStat} (h : Tracks xs stat)
    (hroom : xs.length < maxInt) (x : ℚ) :
    ∃ stat', stat.push x = .ok stat' ∧ Tracks (xs ++ [x]) stat' := by
  have hcount := h.count
  unfold RunningStat.push
  rw [if_neg (by omega)]
  by_cases hxs : xs = []
  · rw [hxs, List.length_nil] at hcount
    simp only [hcount, Nat.zero_add, if_true]
    refine ⟨_, rfl, ?_⟩
    rw [hxs, List.nil_append]
    exact ⟨rfl, show 1 ≤ maxInt by decide, fun _ => (mean_singleton x).symm,
      fun _ => (mean_singleton x).symm, fun _ => (sumSqDev_singleton x).symm,
      fun h => absurd h (by simp)⟩
  · have hpos : 0 < xs.length := List.length_pos_iff.mpr hxs
    simp only
    rw [if_neg (by omega)]
    refine ⟨_, rfl, ?_⟩
    have hmean : stat.oldM + (x - stat.oldM) / (stat.n + 1 : Nat) = mean (xs ++ [x]) := by
      rw [mean_append hxs, h.oldMean hxs, hcount]
    have hdev : stat.oldS + (x - stat.oldM) *
        (x - (stat.oldM + (x - stat.oldM) / (stat.n + 1 : Nat))) = sumSqDev (xs ++ [x]) := by
      rw [hmean, sumSqDev_append hxs, h.oldDev hxs, h.oldMean hxs]
    refine ⟨?_, ?_, fun _ => hmean, fun _ => hmean, fun _ => hdev, fun _ => hdev⟩
    · rw [List.length_append, ← hcount]
      rfl
    · rw [List.length_append]
      exact hroom

/-- There is room as long as no 2^31 values come without a clear. -/
def Fits (calls : List Call) : Prop :=
  ∀ before after, calls = before ++ after → (sinceClear before).length < 2 ^ 31

theorem fits_append (calls : List Call) (c : Call) :
    Fits (calls ++ [c]) ↔ Fits calls ∧ (sinceClear (calls ++ [c])).length < 2 ^ 31 := by
  refine ⟨?_, ?_⟩
  · intro h
    refine ⟨?_, h _ [] (List.append_nil _).symm⟩
    intro before after heq
    exact h before (after ++ [c]) (by rw [heq, List.append_assoc])
  · intro ⟨hcalls, hlast⟩ before after heq
    cases after using List.reverseRecOn with
    | nil =>
        rw [List.append_nil] at heq
        rw [← heq]
        exact hlast
    | append_singleton after c' =>
        rw [← List.append_assoc] at heq
        exact hcalls before after (List.append_inj_left' heq rfl)

def run (stat : RunningStat) (calls : List Call) : Except Fault RunningStat :=
  calls.foldlM call stat

/-- A run with room for its values tracks them, and one without overflows. -/
theorem run_cases (stat : RunningStat) (hnew : stat.n = 0) (calls : List Call) :
    (Fits calls ∧ ∃ stat', run stat calls = .ok stat' ∧ Tracks (sinceClear calls) stat') ∨
    (¬ Fits calls ∧ run stat calls = .error (.undefined .intOverflow)) := by
  induction calls using List.reverseRecOn with
  | nil =>
      refine Or.inl ⟨?_, stat, rfl, tracks_nil hnew⟩
      intro before after heq
      rw [(List.append_eq_nil_iff.mp heq.symm).1]
      decide
  | append_singleton calls c ih =>
      have hstep : run stat (calls ++ [c]) = run stat calls >>= fun s => s.call c := by
        unfold run
        rw [List.foldlM_append]
        simp only [List.foldlM_cons, List.foldlM_nil, bind_pure]
      rw [hstep, fits_append]
      rcases ih with ⟨hfits, stat', hrun, htracks⟩ | ⟨hfits, hrun⟩
      · rw [hrun, Except.ok_bind]
        cases c with
        | clear =>
            rw [sinceClear_clear]
            exact Or.inl ⟨⟨hfits, by decide⟩, _, rfl, tracks_nil rfl⟩
        | push x =>
            rw [sinceClear_push, List.length_append, List.length_singleton]
            have hroom := htracks.room
            by_cases hlast : (sinceClear calls).length < maxInt
            · obtain ⟨stat₁, hpush, htracks₁⟩ := htracks.push hlast x
              refine Or.inl ⟨⟨hfits, ?_⟩, stat₁, hpush, htracks₁⟩
              unfold maxInt at hlast
              omega
            · refine Or.inr ⟨?_, ?_⟩
              · unfold maxInt at hlast
                omega
              · show stat'.push x = _
                unfold RunningStat.push
                have hcount := htracks.count
                rw [if_pos (by omega)]
      · rw [hrun]
        exact Or.inr ⟨fun h => hfits h.1, rfl⟩

/-! ### The statistics -/

/-- Whatever was in memory, the run returns with count, mean and variance of the values since the
last clear. -/
def Exact (calls : List Call) : Prop :=
  ∀ oldM newM oldS newS, ∃ stat, run (new oldM newM oldS newS) calls = .ok stat ∧
    stat.getNumDataValues = (sinceClear calls).length ∧
    stat.getMean = (if sinceClear calls = [] then 0 else mean (sinceClear calls)) ∧
    stat.getVariance =
      (if (sinceClear calls).length < 2 then 0 else variance (sinceClear calls))

theorem Tracks.getMean {xs : List ℚ} {stat : RunningStat} (h : Tracks xs stat) :
    stat.getMean = if xs = [] then 0 else mean xs := by
  have hcount := h.count
  unfold RunningStat.getMean
  by_cases hxs : xs = []
  · rw [if_pos hxs, if_neg (by rw [hcount, hxs]; simp)]
  · have hpos : 0 < xs.length := List.length_pos_iff.mpr hxs
    rw [if_neg hxs, if_pos (by omega), h.newMean hxs]

theorem Tracks.getVariance {xs : List ℚ} {stat : RunningStat} (h : Tracks xs stat) :
    stat.getVariance = if xs.length < 2 then 0 else variance xs := by
  have hcount := h.count
  unfold RunningStat.getVariance variance
  by_cases hfew : xs.length < 2
  · rw [if_pos hfew, if_neg (by omega)]
  · rw [if_neg hfew, if_pos (by omega), h.newDev (by omega), hcount]

/-- **The statistics are exact as long as fewer than 2^31 values come without a clear.** -/
theorem statistics_exact_iff (calls : List Call) : Exact calls ↔ Fits calls := by
  refine ⟨?_, ?_⟩
  · intro hexact
    obtain ⟨stat, hrun, -⟩ := hexact 0 0 0 0
    rcases run_cases (new 0 0 0 0) rfl calls with ⟨hfits, -⟩ | ⟨-, herror⟩
    · exact hfits
    · rw [hrun] at herror
      simp at herror
  · intro hfits oldM newM oldS newS
    rcases run_cases (new oldM newM oldS newS) rfl calls with
      ⟨-, stat, hrun, htracks⟩ | ⟨hover, -⟩
    · exact ⟨stat, hrun, htracks.count, htracks.getMean, htracks.getVariance⟩
    · exact absurd hfits hover

/-- The counter overflows at the 2^31st value. -/
theorem not_exact_of_values {n : Nat} (hn : n = 2 ^ 31) : ¬ Exact (List.replicate n (.push 1)) := by
  have hsince : ∀ k, (sinceClear (List.replicate k (.push 1))).length = k := by
    intro k
    induction k with
    | zero => rfl
    | succ k ih =>
        rw [List.replicate_succ', sinceClear_push, List.length_append, ih]
        rfl
  intro hexact
  obtain ⟨stat, hrun, -⟩ := hexact 0 0 0 0
  rcases run_cases (new 0 0 0 0) rfl (List.replicate n (.push 1)) with
    ⟨hfits, -⟩ | ⟨-, herror⟩
  · have hlast := hfits _ [] (List.append_nil _).symm
    rw [hsince] at hlast
    omega
  · rw [hrun] at herror
    simp at herror

theorem not_statistics_exact : ¬ ∀ calls : List Call, Exact calls :=
  fun hall => not_exact_of_values rfl (hall (List.replicate (2 ^ 31) (.push 1)))

end RailwayDB.RunningStat
