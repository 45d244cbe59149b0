/-
The database takes what the optimizer finds.

Every solver makes its partitions of the attributes it is given and leaves none out, and
makes no more of them than there are attributes, or one more than there are queries.
With the attributes of a schema and the queries a collector took in, the names of such a
partitioning pass the checks for the slice they are to replace, and can be stored.
-/
import RailwayDB.Proofs.CollectedWorkload
import RailwayDB.Proofs.HeuristicOverlapping
import RailwayDB.Proofs.RunQueries
import RailwayDB.Proofs.SliceRoundTrip

namespace RailwayDB

/-! ### What a solver returns -/

namespace Optimizer

open Common Common.Cost ZeroOne

variable {workload : QueryWorkload} {stats : SchemaStats} {size : Nat → ℚ} {ω : SetOrder}
  {σ : SortOrder AttributePtr} {threshold : ℚ} {gurobi : Gurobi} {parting : Common.Partitioning}

/-- Partitions of all attributes and no others, and not too many of them. -/
structure Solved (workload : QueryWorkload) (parting : Common.Partitioning) : Prop where
  made : Made workload parting
  covers : ∀ attrb ∈ workload.attributes, ∃ part ∈ parting.partitions, attrb ∈ part.attributes
  few : parting.partitions.length ≤ max workload.attributes.length (workload.queries.length + 1)

theorem Solvable.costed (h : Solvable workload stats size) : Costed stats workload := by
  refine ⟨?_, h.queried, ?_⟩
  · intro attrb hattrb
    have hlt := OptimalOverlapping.index_lt h.sized hattrb
    exact ⟨_, h.sized.avgSize _ hlt, h.nonneg _ hlt⟩
  · intro query hquery
    obtain ⟨f, hf, -⟩ := h.frequency query hquery
    exact ⟨f, hf⟩

/-- Attributes are told apart by their positions. -/
theorem Solvable.nodup (h : Solvable workload stats size) : workload.attributes.Nodup := by
  refine List.nodup_iff_getElem?_ne_getElem?.mpr ?_
  intro i j hij hj heq
  have hi : i < workload.attributes.length := hij.trans hj
  have hfirst := h.sized.indexed i _ (List.getElem?_eq_getElem hi)
  have hsecond := h.sized.indexed j _ (heq ▸ List.getElem?_eq_getElem hi)
  omega

theorem solved_of_isPartition
    (h : HeuristicNonOverlapping.IsPartition workload.attributes parting.partitions) :
    Solved workload parting := by
  refine ⟨fun part hpart attrb hattrb => (h.covers attrb).mpr ⟨part, hpart, hattrb⟩,
    fun attrb hattrb => (h.covers attrb).mp hattrb, ?_⟩
  exact (OptimalNonOverlapping.length_le h).trans (le_max_left _ _)

theorem OptimalOverlapping.solved (hsolv : Solvable workload stats size)
    (hrun : OptimalOverlapping.solve gurobi stats workload threshold = .ok parting) :
    Solved workload parting := by
  obtain ⟨e, obj, cs, sol, he, -, hcs, hopt, hextract⟩ := OptimalCommon.solve_eq_ok hrun
  obtain ⟨-, hA, hP, hQ, -⟩ := createEnv_eq he
  obtain ⟨parts, hparts⟩ := exists_slots hsolv.sized hA sol
  have hsol := OptimalOverlapping.solves_of_feasible hsolv.sized hA hcs hopt.feasible
  obtain ⟨hadmitted, -⟩ := hsol.plan hparts hA hP hQ hsolv hextract
  exact ⟨hadmitted.made, hadmitted.covers, hadmitted.few.trans (le_max_left _ _)⟩

theorem OptimalNonOverlapping.solved (hsolv : Solvable workload stats size)
    (hrun : OptimalNonOverlapping.solve gurobi stats workload threshold = .ok parting) :
    Solved workload parting := by
  obtain ⟨e, obj, cs, sol, he, -, hcs, hopt, hextract⟩ := OptimalCommon.solve_eq_ok hrun
  obtain ⟨-, hA, hP, hQ, -⟩ := createEnv_eq he
  have hnonneg : ∀ a < e.A, 0 ≤ size a := by
    rw [hA]
    exact hsolv.nonneg
  obtain ⟨parts, hparts⟩ := exists_slots hsolv.sized hA sol
  have hsol := (OptimalNonOverlapping.feasible_iff_solves hsolv.sized hA hnonneg hcs).mp hopt.feasible
  obtain ⟨hadmitted, -⟩ := hsol.plan hparts hA hQ hsolv hextract
  exact solved_of_isPartition hadmitted.isPartition

namespace HeuristicNonOverlapping

/-- The best partitioning so far is always a true partition. -/
theorem solveFrom_isPartition (hc : Costed stats workload) (hnodup : workload.attributes.Nodup)
    {turns n : Nat} (hn : n ≠ 0) {m m' : MinCostSolution Common.Partitioning}
    (hm : m.Holds fun p _ => IsPartition workload.attributes p.partitions)
    (hrun : solveFrom stats ω σ workload threshold turns n m = .ok m') :
    m'.Holds fun p _ => IsPartition workload.attributes p.partitions := by
  induction turns generalizing n m with
  | zero =>
      rw [← Except.ok.inj hrun]
      exact hm
  | succ turns ih =>
      obtain ⟨partitioning, hsolve, hpart, -⟩ := solveWith_ok (ω := ω) (σ := σ) hc hnodup hn
      unfold solveFrom at hrun
      rw [hsolve, Except.ok_bind] at hrun
      obtain ⟨overhead, -, hrun⟩ := Except.bind_eq_ok.mp hrun
      split_ifs at hrun with hover
      · rw [← Except.ok.inj hrun]
        exact hm
      · obtain ⟨cost, -, hrun⟩ := Except.bind_eq_ok.mp hrun
        exact ih (Nat.succ_ne_zero n) (hm.push fun _ => hpart) hrun

theorem solved (hsolv : Solvable workload stats size)
    (hrun : solve stats ω σ workload threshold = .ok parting) : Solved workload parting := by
  unfold solve at hrun
  obtain ⟨m, hloop, hrun⟩ := Except.bind_eq_ok.mp hrun
  have hm := solveFrom_isPartition hsolv.costed hsolv.nodup one_ne_zero
    MinCostSolution.holds_new hloop
  split_ifs at hrun with hinited
  · obtain ⟨solution, cost, hbest, hpart⟩ :=
      hm.getBestSolution (Option.isSome_iff_ne_none.mp hinited)
    rw [hrun, Except.ok.injEq] at hbest
    rw [hbest]
    exact solved_of_isPartition hpart

end HeuristicNonOverlapping

namespace HeuristicOverlapping

theorem length_foldl_addQueryPartition (queries : List QuerySummary)
    (acc : Common.Partitioning × List AttributePtr) :
    (queries.foldl addQueryPartition acc).1.partitions.length
      = acc.1.partitions.length + queries.length := by
  induction queries generalizing acc with
  | nil => rfl
  | cons query queries ih =>
      rw [List.foldl_cons, ih, List.length_cons]
      show (acc.1.partitions ++ [_]).length + queries.length = _
      rw [List.length_append, List.length_singleton]
      omega

theorem length_queryPartitioning (workload : QueryWorkload) :
    (queryPartitioning workload).partitions.length ≤ workload.queries.length + 1 := by
  have hlength := length_foldl_addQueryPartition workload.queries
    (.new, workload.attributes.dedup)
  have hzero : (Partitioning.new : Common.Partitioning).partitions.length = 0 := rfl
  rw [hzero, Nat.zero_add] at hlength
  unfold queryPartitioning
  dsimp only
  split_ifs with hmissing
  · show (_ ++ [_]).length ≤ _
    rw [List.length_append, hlength, List.length_singleton]
  · rw [hlength]
    exact Nat.le_succ _

/-- Merging leaves nothing out and makes no more partitions. -/
theorem mergeLoop_complete (hc : Costed stats workload) (hthreshold : 0 ≤ threshold) {fuel : Nat}
    {partitions : List Partition} (h : Complete workload (sets partitions))
    (hrun : mergeLoop stats ω workload threshold fuel ⟨partitions⟩ = .ok parting) :
    Complete workload (sets parting.partitions) ∧
      parting.partitions.length ≤ partitions.length := by
  induction fuel generalizing partitions with
  | zero => cases hrun
  | succ fuel ih =>
      unfold mergeLoop at hrun
      rw [hc.getStorageOverhead_eq h.within, Except.ok_bind] at hrun
      split_ifs at hrun with hover
      · obtain ⟨merged, hmerge, hlength, hcomplete⟩ :=
          mergeBest_ok (ω := ω) hc h (two_le_length hc h.within hthreshold hover)
        rw [hmerge, Except.ok_bind] at hrun
        obtain ⟨hparting, hle⟩ := ih hcomplete hrun
        exact ⟨hparting, by omega⟩
      · rw [← Except.ok.inj hrun]
        exact ⟨h, le_refl _⟩

theorem solved (hsolv : Solvable workload stats size) (hthreshold : 0 ≤ threshold)
    (hrun : solve stats ω workload threshold = .ok parting) : Solved workload parting := by
  obtain ⟨hcomplete, hlength⟩ := mergeLoop_complete hsolv.costed hthreshold
    (queryPartitioning_complete hsolv.costed) hrun
  refine ⟨?_, ?_, ?_⟩
  · intro part hpart attrb hattrb
    have hin := hcomplete.within _ (mem_sets.mpr ⟨part, hpart, rfl⟩)
      (Partition.mem_toFinset.mpr hattrb)
    exact List.mem_toFinset.mp hin
  · intro attrb hattrb
    obtain ⟨s, hs, hmem⟩ := hcomplete.covers attrb hattrb
    obtain ⟨part, hpart, rfl⟩ := mem_sets.mp hs
    exact ⟨part, hpart, Partition.mem_toFinset.mp hmem⟩
  · exact (hlength.trans (length_queryPartitioning workload)).trans (le_max_right _ _)

end HeuristicOverlapping

theorem SinglePartition.solved (workload : QueryWorkload) :
    Solved workload (SinglePartition.solve workload) := by
  have hmem : ∀ attrb, attrb ∈ (Partition.ofAttributes workload.attributes).attributes
      ↔ attrb ∈ workload.attributes := by
    intro attrb
    rw [← Partition.mem_toFinset, Partition.toFinset_ofAttributes, List.mem_toFinset]
  have hone : (SinglePartition.solve workload).partitions
      = [.ofAttributes workload.attributes] := rfl
  refine ⟨?_, ?_, ?_⟩
  · intro part hpart attrb hattrb
    rw [hone, List.mem_singleton] at hpart
    rw [hpart] at hattrb
    exact (hmem attrb).mp hattrb
  · intro attrb hattrb
    exact ⟨_, by rw [hone]; exact List.mem_singleton_self _, (hmem attrb).mpr hattrb⟩
  · rw [hone, List.length_singleton]
    exact le_max_of_le_right (Nat.le_add_left 1 _)

namespace PartitionPerAttribute

theorem foldl_addAttribute (attributes : List AttributePtr)
    (acc : Partition × Common.Partitioning) :
    (attributes.foldl addAttribute acc).2.partitions
      = acc.2.partitions ++ attributes.map fun attrb => Partition.new.addAttribute attrb := by
  induction attributes generalizing acc with
  | nil => exact (List.append_nil _).symm
  | cons attrb attributes ih =>
      rw [List.foldl_cons, ih, List.map_cons, List.append_cons]
      rfl

theorem solved (workload : QueryWorkload) : Solved workload (solve workload) := by
  have hparts : (solve workload).partitions
      = workload.attributes.map fun attrb => Partition.new.addAttribute attrb := by
    unfold solve
    rw [foldl_addAttribute]
    rfl
  have hmem : ∀ attrb other : AttributePtr,
      other ∈ (Partition.new.addAttribute attrb).attributes ↔ other = attrb := by
    intro attrb other
    rw [← Partition.mem_toFinset, Partition.toFinset_addAttribute, Partition.toFinset_new]
    simp
  refine ⟨?_, ?_, ?_⟩
  · intro part hpart attrb hattrb
    rw [hparts] at hpart
    obtain ⟨other, hother, rfl⟩ := List.mem_map.mp hpart
    rw [(hmem other attrb).mp hattrb]
    exact hother
  · intro attrb hattrb
    rw [hparts]
    exact ⟨_, List.mem_map_of_mem hattrb, (hmem attrb attrb).mpr rfl⟩
  · rw [hparts, List.length_map]
    exact le_max_left _ _

end PartitionPerAttribute

/-- **No solver leaves an attribute out.** -/
theorem Solver.solved (solver : Solver) (hsolv : Solvable workload stats size)
    (hthreshold : 0 ≤ threshold)
    (hrun : solver.solve gurobi ω σ stats workload threshold = .ok parting) :
    Solved workload parting := by
  cases solver with
  | optimalOverlapping => exact OptimalOverlapping.solved hsolv hrun
  | optimalNonOverlapping => exact OptimalNonOverlapping.solved hsolv hrun
  | heuristicOverlapping => exact HeuristicOverlapping.solved hsolv hthreshold hrun
  | heuristicNonOverlapping => exact HeuristicNonOverlapping.solved hsolv hrun
  | singlePartition =>
      rw [← Except.ok.inj hrun]
      exact SinglePartition.solved workload
  | partitionPerAttribute =>
      rw [← Except.ok.inj hrun]
      exact PartitionPerAttribute.solved workload

end Optimizer

/-! ### What the database takes -/

section Install

open Optimizer (Solved Solvable Solver Gurobi)
open Common (AttributePtr)
open Common.Cost (Sized)
open InteractionGraph (WellNamed)
open PartitionIndex (Insertable checkReplacement)

variable {T : Type} [LinearOrder T] [Timestamp T] [BlockTime T] {schema : Schema}
  {workload : Common.QueryWorkload} {parting : Common.Partitioning}

/-- `newParting.getPartitioning() = solverSolution.toStringSet()`, for the times of a slice. -/
def TimeSlicedPartitioning.install (old : TimeSlicedPartitioning T)
    (parting : Common.Partitioning) : TimeSlicedPartitioning T :=
  { old with partitioning := parting.toStringSet }

/-- The names of a partitioning of all attributes are those of the schema. -/
theorem Optimizer.Solved.mem_toStringSet (h : Solved workload parting)
    (hattributes : workload.attributes = schema.attributePtrs) (name : Text) :
    name ∈ parting.toStringSet.flatten ↔ name ∈ schema.names := by
  unfold Common.Partitioning.toStringSet
  rw [← Schema.map_name_attributePtrs schema, ← hattributes]
  simp only [List.mem_flatten, List.mem_map]
  refine ⟨?_, ?_⟩
  · intro hin
    obtain ⟨l, ⟨part, hpart, rfl⟩, hname⟩ := hin
    obtain ⟨attrb, hattrb, rfl⟩ := List.mem_map.mp (List.mem_dedup.mp hname)
    exact ⟨attrb, h.made part hpart attrb hattrb, rfl⟩
  · intro hin
    obtain ⟨attrb, hattrb, rfl⟩ := hin
    obtain ⟨part, hpart, hmem⟩ := h.covers attrb hattrb
    exact ⟨_, ⟨part, hpart, rfl⟩, List.mem_dedup.mpr (List.mem_map_of_mem hmem)⟩

/-- **The slice passes the checks.** -/
theorem Optimizer.Solved.accepted {T : Type} [LinearOrder T] (h : Solved workload parting)
    (hattributes : workload.attributes = schema.attributePtrs) (hnamed : WellNamed schema)
    (old : TimeSlicedPartitioning T) :
    checkReplacement schema old [old.install parting] = none := by
  have hcount : PartitionIndex.getPartitioningAttributeCount parting.toStringSet
      = schema.attributes.length := by
    have hperm : parting.toStringSet.flatten.dedup.Perm schema.names := by
      refine (List.perm_ext_iff_of_nodup (List.nodup_dedup _) hnamed.nodup).mpr ?_
      intro name
      rw [List.mem_dedup]
      exact h.mem_toStringSet hattributes name
    unfold PartitionIndex.getPartitioningAttributeCount
    rw [hperm.length_eq, Schema.names, List.length_map]
  have hstart : TimeEq old.startTime (old.install parting).startTime := ⟨le_refl _, le_refl _⟩
  have hend : TimeEq old.endTime (old.install parting).endTime := ⟨le_refl _, le_refl _⟩
  have hall : ¬ ∃ parting' ∈ [old.install parting],
      PartitionIndex.getPartitioningAttributeCount parting'.partitioning
        ≠ schema.attributes.length := by
    simp only [List.mem_singleton, exists_eq_left, not_not]
    exact hcount
  unfold checkReplacement
  simp only [List.head?_cons, List.getLast?_singleton]
  rw [if_neg (not_not.mpr hstart), if_neg (not_not.mpr hend),
    if_neg (by simp [PartitionIndex.contiguous]), if_neg hall]

/-- Its parts are sets of names of the schema. -/
theorem Optimizer.Solved.has (h : Solved workload parting)
    (hattributes : workload.attributes = schema.attributePtrs) :
    ∀ attributes ∈ parting.toStringSet, schema.Has attributes := by
  intro attributes hin name hname
  exact (h.mem_toStringSet hattributes name).mp (List.mem_flatten.mpr ⟨attributes, hin, hname⟩)

theorem Optimizer.Solved.storable {T : Type} (h : Solved workload parting)
    (hattributes : workload.attributes = schema.attributePtrs) (hnamed : WellNamed schema)
    {old : TimeSlicedPartitioning T} : PartitionIndex.Storable (old.install parting) := by
  intro attributes hin
  refine ⟨?_, fun name hname => hnamed.short name (h.has hattributes attributes hin name hname)⟩
  obtain ⟨part, -, rfl⟩ := List.mem_map.mp hin
  exact List.nodup_dedup _

/-- **The slice can be kept.** -/
theorem Optimizer.Solved.insertable {T : Type} [LinearOrder T] [BlockTime T]
    (h : Solved workload parting) (hattributes : workload.attributes = schema.attributePtrs)
    (hnamed : WellNamed schema) (hne : schema.attributes ≠ [])
    (hfew : schema.attributes.length < 2 ^ 29) (hqueries : workload.queries.length + 1 < 2 ^ 29)
    {old : TimeSlicedPartitioning T} (hend : BlockTime.zero ≤ old.endTime) :
    Insertable schema (old.install parting) := by
  refine ⟨h.storable hattributes hnamed, hend, h.has hattributes, ?_, ?_⟩
  · show parting.toStringSet.length < _
    unfold Common.Partitioning.toStringSet
    rw [List.length_map]
    refine lt_of_le_of_lt h.few (max_lt ?_ hqueries)
    rw [hattributes, Schema.length_attributePtrs]
    exact hfew
  · intro hnil
    obtain ⟨attrb, hattrb⟩ := List.exists_mem_of_ne_nil schema.attributes hne
    have hname := (h.mem_toStringSet hattributes attrb.name).mpr (List.mem_map_of_mem hattrb)
    have hempty : parting.toStringSet = [] := hnil
    rw [hempty] at hname
    exact List.not_mem_nil hname

/-- There are no more summaries than queries. -/
theorem CollectedWorkload.Mix.length_le {qs : List (List Text)} {w : Common.QueryWorkload}
    (h : CollectedWorkload.Mix schema qs w) : w.queries.length ≤ qs.length := by
  have hsub : w.queries.map CollectedWorkload.summaryNames ⊆ qs.map Multiset.ofList := by
    intro m hm
    obtain ⟨q, hq, rfl⟩ := (h.seen m).mp hm
    exact List.mem_map_of_mem hq
  have hle := (h.distinct.subperm hsub).length_le
  rw [List.length_map, List.length_map] at hle
  exact hle

/-- A workload that was collected is the mix of the queries. -/
theorem QueryCollector.Collected.mix_of_find? {hashes : Hashes schema} {qs : List (List Text)}
    {qcol : QueryCollector schema} (h : QueryCollector.Collected hashes qs qcol)
    {w : CollectedWorkload schema} (hfind : qcol.workloads.find? 0 = some w) :
    CollectedWorkload.Mix schema qs w.read := by
  have hcurrent : qcol.current = w := by
    rw [QueryCollector.current, hfind]
  rw [← hcurrent]
  exact h.holds.current.mix

/-- **What any solver makes of the collected queries, the database takes**: the checks for the slice
that is replaced let it pass, its parts are as those of a slice in force, and it is stored and comes
back whenever its bytes fit into a buffer. -/
theorem QueryCollector.Collected.solution_accepted {hashes : Hashes schema} {qs : List (List Text)}
    {qcol : QueryCollector schema} (h : QueryCollector.Collected hashes qs qcol) (hasked : qs ≠ [])
    (hnamed : WellNamed schema) (hne : schema.attributes ≠ [])
    (hfew : schema.attributes.length < 2 ^ 29) (hqueries : qs.length + 1 < 2 ^ 29)
    {stats : SchemaStats} {size : Nat → ℚ} (hsized : Sized schema.attributePtrs stats size)
    (hnonneg : ∀ a < schema.attributes.length, 0 ≤ size a) :
    ∃ w, qcol.workloads.find? 0 = some w ∧
      ∀ (solver : Solver) (gurobi : Gurobi) (ω : SetOrder) (σ : SortOrder AttributePtr)
        (threshold : ℚ) (parting : Common.Partitioning), 0 ≤ threshold →
        solver.solve gurobi ω σ stats w.read threshold = .ok parting →
        ∀ old : TimeSlicedPartitioning T,
          checkReplacement schema old [old.install parting] = none ∧
            (BlockTime.zero ≤ old.endTime → Insertable schema (old.install parting)) ∧
            ((∃ data, (old.install parting).serialize = .ok data ∧
                TimeSlicedPartitioning.deserialize data .new = .ok (old.install parting)) ↔
              (old.install parting).bytes.length ≤ 2 ^ 32) := by
  obtain ⟨w, hentries⟩ := h.holds.one hasked
  have hfind := QueryCollector.find?_of_entries hentries
  have hmix := h.mix_of_find? hfind
  refine ⟨w, hfind, ?_⟩
  intro solver gurobi ω σ threshold parting hthreshold hrun old
  have hsolved := solver.solved (hmix.solvable hsized hnonneg) hthreshold hrun
  have hlength := hmix.length_le
  exact ⟨hsolved.accepted hmix.attributes hnamed old,
    hsolved.insertable hmix.attributes hnamed hne hfew (by omega),
    TimeSlicedPartitioning.comesBack_iff (hsolved.storable hmix.attributes hnamed)⟩

/-- The attributes of a schema stand at their positions. -/
theorem Schema.sized {stats : SchemaStats} {size : Nat → ℚ}
    (hsize : ∀ a < schema.attributes.length, stats.getAvgSize a = .ok (size a)) :
    Sized schema.attributePtrs stats size := by
  refine ⟨?_, ?_⟩
  · intro a attrb hget
    obtain ⟨i, hi, rfl⟩ := getElem?_attributePtrs hget
    exact hi
  · intro a ha
    rw [length_attributePtrs] at ha
    exact hsize a ha

/-- The three queries over two names, with the sizes of one edge. -/
theorem QueryCollector.solution_accepted_three :
    ∃ qcol : QueryCollector twoNames, Collected constantHashes threeQueries qcol ∧
      ∃ w, qcol.workloads.find? 0 = some w ∧
        ∀ (solver : Solver) (gurobi : Gurobi) (ω : SetOrder) (σ : SortOrder AttributePtr)
          (threshold : ℚ) (parting : Common.Partitioning), 0 ≤ threshold →
          solver.solve gurobi ω σ (Optimizer.seenOnce 2) w.read threshold = .ok parting →
          ∀ old : TimeSlicedPartitioning Time,
            checkReplacement twoNames old [old.install parting] = none ∧
              (BlockTime.zero ≤ old.endTime → Insertable twoNames (old.install parting)) ∧
              ((∃ data, (old.install parting).serialize = .ok data ∧
                  TimeSlicedPartitioning.deserialize data .new = .ok (old.install parting)) ↔
                (old.install parting).bytes.length ≤ 2 ^ 32) := by
  obtain ⟨qcol, h⟩ := exists_collected constantHashes threeQueries (by decide)
  have hsized : Sized twoNames.attributePtrs (Optimizer.seenOnce 2) fun _ => 8 :=
    Schema.sized fun a ha => (Optimizer.plainWorkload_sized 2).avgSize a ha
  exact ⟨qcol, h, h.solution_accepted (by decide) ⟨by decide, by decide⟩ (by decide) (by decide)
    (by decide) hsized fun _ _ => by norm_num⟩

end Install

end RailwayDB
