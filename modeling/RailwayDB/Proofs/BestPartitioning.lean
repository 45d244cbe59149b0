/-
The integer programs find the best partitioning.

A plan is a partitioning and, for each query, partitions that have what the query asks
for.  It costs the bytes the queries read by it, weighed by how often each is asked.
Every plan within the storage bound is a solution of the program for overlapping
partitions, and every solution is a plan that costs the value of the objective; for
partitions that do not overlap the objective is no less than the cost.  An optimal
solution therefore is a plan of least cost.
-/
import RailwayDB.Core.Solvers
import RailwayDB.Proofs.HeuristicNonOverlapping
import RailwayDB.Proofs.OptimalNonOverlapping
import RailwayDB.Proofs.OptimalOverlapping

namespace RailwayDB.Optimizer

open Common Common.Cost ZeroOne SystemConstants

/-! ### Plans -/

/-- Each query reads partitions that have what it asks for. -/
def Serves (workload : QueryWorkload) (partitions : List Partition)
    (reads : Nat → List Partition) : Prop :=
  ∀ q query, workload.queries[q]? = some query → (∀ part ∈ reads q, part ∈ partitions) ∧
    ∀ attrb ∈ query.attributes, ∃ part ∈ reads q, attrb ∈ part.attributes

/-- The bytes that are read, by how often each query is asked. -/
def readCost (stats : SchemaStats) (workload : QueryWorkload) (reads : Nat → List Partition) :
    Except Fault ℚ := do
  let costs ← (List.range workload.queries.length).mapM fun q => do
    let frequency ← workload.getFrequency (← workload.getQuerySummary q)
    let sizes ← (reads q).mapM (Cost.getPartitionSize stats)
    return frequency * sizes.sum
  return costs.sum

/-- The partitioning keeps to the storage bound. -/
def Fits (stats : SchemaStats) (workload : QueryWorkload) (alpha : ℚ)
    (parting : Common.Partitioning) : Prop :=
  ∃ overhead, Cost.getStorageOverhead stats parting workload = .ok overhead ∧ overhead ≤ alpha

/-- An allowed partitioning, by which no more is read than by any other. -/
structure Least (stats : SchemaStats) (workload : QueryWorkload)
    (Allowed : Common.Partitioning → Prop) (parting : Common.Partitioning) (cost : ℚ) : Prop where
  allowed : Allowed parting
  reached : ∃ reads, Serves workload parting.partitions reads ∧
    readCost stats workload reads = .ok cost
  least : ∀ other reads cost', Allowed other → Serves workload other.partitions reads →
    readCost stats workload reads = .ok cost' → cost ≤ cost'

/-- What the programs rely on: attributes numbered by position with known sizes, and queries over
them with frequencies. -/
structure Solvable (workload : QueryWorkload) (stats : SchemaStats) (size : Nat → ℚ) : Prop where
  sized : Sized workload.attributes stats size
  nonneg : ∀ a < workload.attributes.length, 0 ≤ size a
  queried : ∀ query ∈ workload.queries, ∀ attrb ∈ query.attributes, attrb ∈ workload.attributes
  frequency : ∀ query ∈ workload.queries, ∃ f, workload.getFrequency query = .ok f ∧ 0 ≤ f

variable {workload : QueryWorkload} {stats : SchemaStats} {size : Nat → ℚ} {e : VarEnv} {alpha : ℚ}
  {sol : Nat → Bool} {parting other : Common.Partitioning} {reads : Nat → List Partition}

theorem Solvable.counted (h : Solvable workload stats size) :
    OptimalOverlapping.Counted workload := by
  intro query hquery
  obtain ⟨f, hf, -⟩ := h.frequency query hquery
  unfold QueryWorkload.getFrequency at hf
  split at hf
  · next count hcount => exact AList.lookup_isSome.mp (by rw [hcount]; rfl)
  · cases hf

/-- The frequencies by position. -/
theorem Solvable.exists_frequency (h : Solvable workload stats size) :
    ∃ frequency : Nat → ℚ, ∀ q < workload.queries.length, 0 ≤ frequency q ∧ ∃ query,
      workload.getQuerySummary q = .ok query ∧ workload.getFrequency query = .ok (frequency q) := by
  obtain ⟨frequency, hf⟩ := h.counted.exists_frequency
  refine ⟨frequency, ?_⟩
  intro q hq
  obtain ⟨query, hquery, hfreq⟩ := hf q hq
  refine ⟨?_, query, hquery, hfreq⟩
  have hmem : query ∈ workload.queries := by
    unfold QueryWorkload.getQuerySummary at hquery
    split at hquery
    · next query' hget =>
        rw [← Except.ok.inj hquery]
        exact List.mem_of_getElem? hget
    · cases hquery
  obtain ⟨f, hf', hpos⟩ := h.frequency query hmem
  rw [hfreq, Except.ok.injEq] at hf'
  rw [hf']
  exact hpos

/-! ### Partitions as sets of positions -/

/-- The attributes are those of the workload. -/
def Made (workload : QueryWorkload) (parting : Common.Partitioning) : Prop :=
  ∀ part ∈ parting.partitions, ∀ attrb ∈ part.attributes, attrb ∈ workload.attributes

theorem Made.drawn (h : Made workload parting) (hs : Sized workload.attributes stats size)
    {part : Partition} (hpart : part ∈ parting.partitions) :
    Drawn workload.attributes part.attributes := by
  intro attrb hattrb
  exact hs.indices_attributes.1 attrb (h part hpart attrb hattrb)

/-- The bytes of a partition. -/
def bytesOf (size : Nat → ℚ) (part : Partition) : ℚ :=
  u_const + c_e * ((indices part.attributes).map size).sum

theorem nodup_indices {part : Partition}
    (hdrawn : Drawn workload.attributes part.attributes) : (indices part.attributes).Nodup := by
  refine List.Nodup.map_on ?_ part.nodup
  intro attrb hattrb attrb' hattrb' heq
  have hget := hdrawn attrb hattrb
  rw [heq, hdrawn attrb' hattrb', Option.some.injEq] at hget
  exact hget.symm

theorem indices_lt (hdrawn : Drawn workload.attributes attributes) {a : Nat}
    (ha : a ∈ indices attributes) : a < workload.attributes.length := by
  obtain ⟨attrb, hattrb, rfl⟩ := List.mem_map.mp ha
  exact (List.getElem?_eq_some_iff.mp (hdrawn attrb hattrb)).1

/-- The attribute bytes of a partition as a sum over positions. -/
theorem sum_indices {part : Partition}
    (hdrawn : Drawn workload.attributes part.attributes) :
    ((indices part.attributes).map size).sum
      = ∑ a ∈ Finset.range workload.attributes.length,
          size a * value (decide (a ∈ indices part.attributes)) := by
  rw [← List.sum_toFinset _ (nodup_indices hdrawn)]
  have hsub : (indices part.attributes).toFinset ⊆ Finset.range workload.attributes.length := by
    intro a ha
    exact Finset.mem_range.mpr (indices_lt hdrawn (List.mem_toFinset.mp ha))
  rw [← Finset.sum_subset_zero_on_sdiff hsub]
  · intro a ha
    rw [Finset.mem_sdiff, List.mem_toFinset] at ha
    rw [decide_eq_false ha.2, value_false, mul_zero]
  · intro a ha
    rw [decide_eq_true (List.mem_toFinset.mp ha), value_true, mul_one]

theorem bytesOf_nonneg (h : Solvable workload stats size) {part : Partition}
    (hdrawn : Drawn workload.attributes part.attributes) : 0 ≤ bytesOf size part := by
  unfold bytesOf
  have hsum : 0 ≤ ((indices part.attributes).map size).sum := by
    refine List.sum_nonneg ?_
    intro x hx
    obtain ⟨a, ha, rfl⟩ := List.mem_map.mp hx
    exact h.nonneg a (indices_lt hdrawn ha)
  have hmul : 0 ≤ (c_e : ℚ) * ((indices part.attributes).map size).sum :=
    mul_nonneg (Nat.cast_nonneg _) hsum
  have hconst := u_const_pos
  linarith

theorem getPartitionSize_drawn (hs : Sized workload.attributes stats size) {part : Partition}
    (hdrawn : Drawn workload.attributes part.attributes) :
    Cost.getPartitionSize stats part = .ok (bytesOf size part) := getPartitionSize_eq hs hdrawn

/-- What is stored, as a sum over the partitions. -/
theorem getStorageOverhead_drawn (hs : Sized workload.attributes stats size)
    (hA : e.A = workload.attributes.length) (hmade : Made workload parting) :
    Cost.getStorageOverhead stats parting workload
      = .ok ((parting.partitions.map (bytesOf size)).sum / blockSize e size - 1) := by
  have hfold : ∀ (l : List Partition) (total : ℚ),
      (∀ part ∈ l, Drawn workload.attributes part.attributes) →
      l.foldlM (fun total partition => do
          return total + (← Cost.getPartitionSize stats partition)) total
        = Except.ok (total + (l.map (bytesOf size)).sum) := by
    intro l
    induction l with
    | nil => simp
    | cons part l ih =>
        intro total hl
        rw [List.foldlM_cons, getPartitionSize_drawn hs (hl part List.mem_cons_self), Except.ok_bind,
          Except.pure_eq_ok, Except.ok_bind, ih _ fun p hp => hl p (List.mem_cons_of_mem _ hp),
          List.map_cons, List.sum_cons, add_assoc]
  have hwhole := wholePartition_size hs hA
  rw [wholePartition] at hwhole
  rw [Cost.getStorageOverhead, hwhole, Except.ok_bind,
    hfold _ 0 fun part hpart => hmade.drawn hs hpart, zero_add]
  rfl

/-- What is read, as a sum over the queries. -/
theorem readCost_ok (hs : Sized workload.attributes stats size) {frequency : Nat → ℚ}
    (hf : ∀ q < workload.queries.length, ∃ query,
      workload.getQuerySummary q = .ok query ∧ workload.getFrequency query = .ok (frequency q))
    (hreads : ∀ q < workload.queries.length, ∀ part ∈ reads q,
      Drawn workload.attributes part.attributes) :
    readCost stats workload reads = .ok (∑ q ∈ Finset.range workload.queries.length,
      frequency q * ((reads q).map (bytesOf size)).sum) := by
  unfold readCost
  rw [Except.mapM_eq_ok (g := fun q => frequency q * ((reads q).map (bytesOf size)).sum)]
  · rw [Except.ok_bind, sum_map_range]
    rfl
  intro q hq
  have hlt := List.mem_range.mp hq
  obtain ⟨query, hquery, hfreq⟩ := hf q hlt
  rw [hquery, Except.ok_bind, hfreq, Except.ok_bind, Except.mapM_eq_ok (g := bytesOf size)]
  · rfl
  · intro part hpart
    exact getPartitionSize_drawn hs (hreads q hlt part hpart)

/-! ### A solution as a plan -/

/-- The partitions the slots of a solution stand for. -/
structure Slots (workload : QueryWorkload) (e : VarEnv) (size : Nat → ℚ) (sol : Nat → Bool)
    (parts : Nat → Partition) : Prop where
  drawn : ∀ p, Drawn workload.attributes (parts p).attributes
  mem : ∀ p, ∀ attrb ∈ workload.attributes,
    attrb ∈ (parts p).attributes ↔ sol (x e attrb.index p) = true
  nonempty : ∀ p, (parts p).attributes ≠ [] ↔ filled e sol p = true
  bytes : ∀ p, bytesOf size (parts p) = u_const + c_e * slotSize e size sol p
  extract : extract e workload sol
    = .ok ⟨((List.range e.P).filter fun p => filled e sol p).map parts⟩

theorem exists_slots (h : Sized workload.attributes stats size)
    (hA : e.A = workload.attributes.length) (sol : Nat → Bool) :
    ∃ parts, Slots workload e size sol parts := by
  have hslots : ∀ p, ∃ part, slot e workload sol p = .ok part ∧
      Drawn workload.attributes part.attributes := by
    intro p
    obtain ⟨part, hslot, hdrawn, -⟩ := slot_ok h hA sol p
    exact ⟨part, hslot, hdrawn⟩
  choose parts hslot hdrawn using hslots
  have hsize : ∀ p, (0 < (parts p).numAttributes ↔ filled e sol p = true) ∧
      Cost.getPartitionSize stats (parts p) = .ok (u_const + c_e * slotSize e size sol p) := by
    intro p
    obtain ⟨part, hslot', hpos, hbytes⟩ := slot_size h hA sol p
    rw [hslot p, Except.ok.injEq] at hslot'
    rw [hslot']
    exact ⟨hpos, hbytes⟩
  refine ⟨parts, hdrawn, ?_, ?_, ?_, ?_⟩
  · exact fun p attrb hattrb => OptimalOverlapping.mem_slot h hA (hslot p) hattrb
  · intro p
    rw [← (hsize p).1, ← List.length_pos_iff]
    rfl
  · intro p
    have hbytes := (hsize p).2
    rw [getPartitionSize_drawn h (hdrawn p), Except.ok.injEq] at hbytes
    exact hbytes
  · have hfold : ∀ n, (List.range n).foldlM (fun partitioning p => do
          let partition ← slot e workload sol p
          return if partition.numAttributes > 0 then partitioning.addPartition partition
            else partitioning) Common.Partitioning.new
        = Except.ok (⟨((List.range n).filter fun p => filled e sol p).map parts⟩ :
            Common.Partitioning) := by
      intro n
      induction n with
      | zero => rfl
      | succ n ih =>
          rw [List.range_succ, List.foldlM_append, ih, Except.ok_bind, List.foldlM_cons, hslot n,
            Except.ok_bind, List.filter_append, List.map_append]
          by_cases hfilled : filled e sol n = true
          · have hpos : (parts n).numAttributes > 0 := (hsize n).1.mpr hfilled
            simp [hpos, hfilled, Common.Partitioning.addPartition]
          · have hnot : ¬ (parts n).numAttributes > 0 := fun hgt => hfilled ((hsize n).1.mp hgt)
            simp [hnot, hfilled]
    exact hfold e.P

namespace Slots

variable {parts : Nat → Partition}

theorem mem_partitions (hp : Slots workload e size sol parts)
    (hextract : Optimizer.extract e workload sol = .ok parting) {part : Partition} :
    part ∈ parting.partitions ↔ ∃ p < e.P, filled e sol p = true ∧ parts p = part := by
  rw [hp.extract, Except.ok.injEq] at hextract
  rw [← hextract]
  simp only [List.mem_map, List.mem_filter, List.mem_range, and_assoc]

theorem made (hp : Slots workload e size sol parts)
    (hextract : Optimizer.extract e workload sol = .ok parting) : Made workload parting := by
  intro part hpart attrb hattrb
  obtain ⟨p, -, -, rfl⟩ := (hp.mem_partitions hextract).mp hpart
  exact List.mem_of_getElem? (hp.drawn p attrb hattrb)

/-- The slots each query is given. -/
def given (e : VarEnv) (sol : Nat → Bool) (parts : Nat → Partition) (q : Nat) : List Partition :=
  ((List.range e.P).filter fun p => sol (y e p q)).map parts

theorem readCost_eq (hp : Slots workload e size sol parts) (hs : Sized workload.attributes stats size)
    {frequency : Nat → ℚ} (hf : ∀ q < workload.queries.length, ∃ query,
      workload.getQuerySummary q = .ok query ∧ workload.getFrequency query = .ok (frequency q)) :
    readCost stats workload (given e sol parts) = .ok (∑ q ∈ Finset.range workload.queries.length,
      frequency q * ∑ p ∈ Finset.range e.P,
        value (sol (y e p q)) * (u_const + c_e * slotSize e size sol p)) := by
  rw [readCost_ok hs hf]
  · congr 1
    refine Finset.sum_congr rfl fun q _ => ?_
    rw [given, List.map_map, sum_filter_range]
    congr 1
    refine Finset.sum_congr rfl fun p _ => ?_
    rw [Function.comp_apply, hp.bytes, mul_comm]
  · intro q _ part hpart
    obtain ⟨p, -, rfl⟩ := List.mem_map.mp hpart
    exact hp.drawn p

end Slots

/-! ### A plan as a solution -/

/-- Whether the attribute at a position is in the partition at another. -/
def holds (parting : Common.Partitioning) (a p : Nat) : Bool :=
  match parting.partitions[p]? with
  | some part => decide (a ∈ indices part.attributes)
  | none => false

/-- Where a partition stands, or one with the same attributes. -/
def place (parting : Common.Partitioning) (part : Partition) : Nat :=
  parting.partitions.findIdx fun other => other.attributes = part.attributes

theorem exists_place {part : Partition} (hpart : part ∈ parting.partitions) :
    ∃ other, parting.partitions[place parting part]? = some other ∧
      other.attributes = part.attributes := by
  have hlt : place parting part < parting.partitions.length :=
    List.findIdx_lt_length_of_exists ⟨part, hpart, decide_eq_true rfl⟩
  refine ⟨_, List.getElem?_eq_getElem hlt, ?_⟩
  exact of_decide_eq_true (List.findIdx_getElem (w := hlt))

/-- The variables say which slot is which partition and what is read. -/
structure Represents (e : VarEnv) (parting : Common.Partitioning) (reads : Nat → List Partition)
    (sol : Nat → Bool) : Prop where
  x_eq : ∀ a < e.A, ∀ p < e.P, sol (x e a p) = holds parting a p
  y_eq : ∀ p < e.P, ∀ q < e.Q, sol (y e p q)
    = (decide (∃ part ∈ reads q, place parting part = p) && filled e sol p)
  z_eq : ∀ a < e.A, ∀ p < e.P, ∀ q < e.Q, sol (z e a p q) = (sol (y e p q) && sol (x e a p))
  u_eq : ∀ p < e.P, sol (u e p) = filled e sol p

/-- Whether a slot would have an attribute. -/
def occupied (e : VarEnv) (parting : Common.Partitioning) (p : Nat) : Bool :=
  decide (∃ a < e.A, holds parting a p = true)

/-- The values of the variables. -/
def planned (e : VarEnv) (parting : Common.Partitioning) (reads : Nat → List Partition) :
    Var e.A e.P e.Q → Bool
  | .x a p => holds parting a p
  | .y p q => decide (∃ part ∈ reads q, place parting part = p) && occupied e parting p
  | .z a p q => (decide (∃ part ∈ reads q, place parting part = p) && occupied e parting p)
      && holds parting a p
  | .u p => occupied e parting p

theorem exists_represents (he : createEnv workload = .ok e) (parting : Common.Partitioning)
    (reads : Nat → List Partition) : ∃ sol, Represents e parting reads sol := by
  obtain ⟨sol, hsol⟩ := Var.exists_sol he (planned e parting reads)
  have hx : ∀ a < e.A, ∀ p < e.P, sol (x e a p) = holds parting a p :=
    fun a ha p hp => hsol (.x ⟨a, ha⟩ ⟨p, hp⟩)
  have hfilled : ∀ p < e.P, filled e sol p = occupied e parting p := by
    intro p hp
    rw [Bool.eq_iff_iff, filled_eq_true, occupied, decide_eq_true_eq]
    refine exists_congr fun a => and_congr_right fun ha => ?_
    rw [hx a ha p hp]
  have hy : ∀ p < e.P, ∀ q < e.Q, sol (y e p q)
      = (decide (∃ part ∈ reads q, place parting part = p) && filled e sol p) := by
    intro p hp q hq
    rw [hfilled p hp]
    exact hsol (.y ⟨p, hp⟩ ⟨q, hq⟩)
  refine ⟨sol, hx, hy, ?_, ?_⟩
  · intro a ha p hp q hq
    rw [hy p hp q hq, hx a ha p hp, hfilled p hp]
    exact hsol (.z ⟨a, ha⟩ ⟨p, hp⟩ ⟨q, hq⟩)
  · intro p hp
    rw [hfilled p hp]
    exact hsol (.u ⟨p, hp⟩)

namespace Represents

theorem z_iff (h : Represents e parting reads sol) {a p q : Nat} (ha : a < e.A) (hp : p < e.P) (hq : q < e.Q) :
    sol (z e a p q) = true ↔ sol (y e p q) = true ∧ sol (x e a p) = true := by
  rw [h.z_eq a ha p hp q hq, Bool.and_eq_true]

theorem exists_part (h : Represents e parting reads sol) {p : Nat} (hp : p < e.P) (hfilled : filled e sol p = true) :
    ∃ part, parting.partitions[p]? = some part := by
  obtain ⟨a, ha, hx⟩ := filled_eq_true.mp hfilled
  rw [h.x_eq a ha p hp] at hx
  unfold holds at hx
  split at hx
  · next part hpart => exact ⟨part, hpart⟩
  · cases hx

/-- A slot has the bytes of its partition. -/
theorem slotSize_eq (h : Represents e parting reads sol) (hA : e.A = workload.attributes.length)
    (hs : Sized workload.attributes stats size) (hmade : Made workload parting) {p : Nat} (hp : p < e.P) {part : Partition}
    (hpart : parting.partitions[p]? = some part) :
    u_const + c_e * slotSize e size sol p = bytesOf size part := by
  have hdrawn := hmade.drawn hs (List.mem_of_getElem? hpart)
  rw [bytesOf, sum_indices hdrawn, slotSize, hA]
  congr 2
  refine Finset.sum_congr rfl fun a ha => ?_
  rw [Finset.mem_range, ← hA] at ha
  rw [h.x_eq a ha p hp, holds, hpart]

/-- No more is stored in the slots than in the partitions. -/
theorem totalSize_le (h : Represents e parting reads sol) (hA : e.A = workload.attributes.length)
    (hsolv : Solvable workload stats size) (hmade : Made workload parting) (hlength : parting.partitions.length ≤ e.P) :
    totalSize e size sol ≤ (parting.partitions.map (bytesOf size)).sum := by
  rw [sum_map_eq_range _ _ hlength, totalSize]
  refine Finset.sum_le_sum fun p hp => ?_
  rw [Finset.mem_range] at hp
  cases hpart : parting.partitions[p]? with
  | none =>
      have hempty : filled e sol p = false := by
        refine Bool.eq_false_iff.mpr fun hfilled => ?_
        obtain ⟨part, hpart'⟩ := h.exists_part hp hfilled
        rw [hpart] at hpart'
        cases hpart'
      rw [hempty, slotSize_eq_zero size hempty]
      simp
  | some part =>
      have hbytes := h.slotSize_eq hA hsolv.sized hmade hp hpart
      have hone := mul_le_mul_of_nonneg_right (value_le_one (filled e sol p)) u_const_pos.le
      show _ ≤ bytesOf size part
      linarith

/-- No more is charged for the slots than for the partitions that are read. -/
theorem charged_le (h : Represents e parting reads sol) (hA : e.A = workload.attributes.length)
    (hsolv : Solvable workload stats size) (hmade : Made workload parting) {q : Nat} (hq : q < e.Q)
    (hreads : ∀ part ∈ reads q, part ∈ parting.partitions) :
    ∑ p ∈ Finset.range e.P, value (sol (y e p q)) * (u_const + c_e * slotSize e size sol p)
      ≤ ((reads q).map (bytesOf size)).sum := by
  have hnonneg : ∀ p : Nat, 0 ≤ parting.partitions[p]?.elim 0 (bytesOf size) := by
    intro p
    cases hpart : parting.partitions[p]? with
    | none => exact le_refl 0
    | some part =>
        exact bytesOf_nonneg hsolv (hmade.drawn hsolv.sized (List.mem_of_getElem? hpart))
  have hplaces : ((reads q).map (bytesOf size)).sum
      = ((reads q).map fun part => parting.partitions[place parting part]?.elim 0 (bytesOf size)).sum := by
    congr 1
    refine List.map_congr_left fun part hpart => ?_
    obtain ⟨other, hother, heq⟩ := exists_place (hreads part hpart)
    rw [hother]
    show bytesOf size part = bytesOf size other
    rw [bytesOf, bytesOf, heq]
  rw [hplaces]
  refine le_trans (Finset.sum_le_sum fun p hp => ?_) (sum_positions_le _ _ hnonneg e.P)
  rw [Finset.mem_range] at hp
  rw [h.y_eq p hp q hq, value_and]
  cases hfilled : filled e sol p with
  | false =>
      rw [value_false, mul_zero, zero_mul]
      exact mul_nonneg (value_nonneg _) (hnonneg p)
  | true =>
      obtain ⟨part, hpart⟩ := h.exists_part hp hfilled
      rw [h.slotSize_eq hA hsolv.sized hmade hp hpart, hpart, value_true, mul_one]
      rfl

end Represents

/-! ### Partitions that may overlap -/

namespace OptimalOverlapping

theorem accesses_eq_zero {queries : List QuerySummary} {q a : Nat} (h : accesses queries q a ≠ 1) :
    accesses queries q a = 0 := by
  unfold accesses at h ⊢
  split
  · next query hquery =>
      rw [hquery] at h
      by_cases hex : ∃ attrb ∈ query.attributes, attrb.index = a
      · exact absurd (if_pos hex) h
      · exact if_neg hex
  · rfl

/-- The constraints ask for no more, as long as the constant is large enough. -/
theorem feasible_of_solves (h : Sized workload.attributes stats size)
    (hA : e.A = workload.attributes.length) (hK : e.A ≤ 1000) {cs : List Constraint}
    (hcs : constraints alpha e workload stats = .ok cs)
    (hs : Solves e workload.queries size alpha sol) : Feasible cs sol := by
  simp only [constraints, wholePartition_size h hA, lastTerms_ok h hA, Except.ok_bind,
    Except.pure_eq_ok, Except.ok.injEq] at hcs
  have hKA : (e.A : ℚ) ≤ K := by
    rw [K]
    exact_mod_cast hK
  have hused : Feasible (usedFamily e) sol :=
    usedFamily_iff.mpr fun p hp hu => (hs.used p hp).symm.trans hu
  have hfilled : Feasible (filledFamily e) sol := by
    refine filledFamily_iff.mpr fun p hp => sum_le_mul hKA fun a ha hx => ?_
    rw [hs.used p hp]
    exact filled_eq_true.mpr ⟨a, ha, hx⟩
  rw [← hcs]
  simp only [feasible_append]
  refine ⟨⟨⟨⟨⟨⟨⟨⟨?_, ?_⟩, ?_⟩, ?_⟩, ?_⟩, bothFamily_iff.mpr hs.both⟩, hused⟩, hfilled⟩, ?_⟩
  all_goals
    simp only [feasible_map_range, feasible_flatMap_range, feasible_singleton, holds_greaterEqual,
      holds_lessEqual, weigh_append, weigh_cons, weigh_nil, weigh_map_range,
      weigh_flatten_map_range, one_mul, neg_mul, Finset.sum_neg_distrib, add_zero]
  · intro a ha
    exact one_le_sum_iff.mpr (hs.placed a ha)
  · intro a ha q hq
    by_cases hacc : accesses workload.queries q a = 1
    · rw [hacc, Nat.cast_one]
      exact one_le_sum_iff.mpr (hs.served a ha q hq hacc)
    · rw [accesses_eq_zero hacc, Nat.cast_zero]
      exact sum_nonneg
  · intro a ha p hp q hq
    cases hz : sol (z e a p q) with
    | false =>
        rw [value_false]
        linarith [value_nonneg (sol (x e a p))]
    | true =>
        rw [hs.z_x a ha p hp q hq hz, value_true]
        linarith
  · intro p hp q hq
    have hle := value_le_sum_iff.mpr (hs.y_z p hp q hq)
    linarith
  · intro p hp q hq
    have hle := sum_le_mul (y := sol (y e p q)) hKA fun a ha hz => hs.z_y a ha p hp q hq hz
    linarith
  · refine le_trans (le_of_eq ?_) hs.last
    rw [totalSize, ← Finset.sum_add_distrib]
    refine Finset.sum_congr rfl ?_
    intro p hp
    rw [hs.used p (Finset.mem_range.mp hp), slotSize, Finset.mul_sum, mul_comm u_const]
    congr 1
    refine Finset.sum_congr rfl ?_
    intro a _
    ring

/-- Partitions that have all attributes and no others, not more of them than there are attributes,
and within the storage bound. -/
structure Admitted (stats : SchemaStats) (workload : QueryWorkload) (alpha : ℚ)
    (parting : Common.Partitioning) : Prop where
  made : Made workload parting
  covers : ∀ attrb ∈ workload.attributes, ∃ part ∈ parting.partitions, attrb ∈ part.attributes
  few : parting.partitions.length ≤ workload.attributes.length
  fits : Fits stats workload alpha parting

/-- The attribute at a position. -/
theorem exists_attribute (h : Sized workload.attributes stats size) {a : Nat}
    (ha : a < workload.attributes.length) :
    ∃ attrb ∈ workload.attributes, attrb.index = a :=
  ⟨_, List.getElem_mem ha, h.indexed a _ (List.getElem?_eq_getElem ha)⟩

theorem exists_of_accesses {queries : List QuerySummary} {q a : Nat}
    (h : accesses queries q a = 1) :
    ∃ query, queries[q]? = some query ∧ ∃ attrb ∈ query.attributes, attrb.index = a := by
  unfold accesses at h
  split at h
  · next query hquery =>
      split_ifs at h with hex
      exact ⟨query, hquery, hex⟩
  · cases h

theorem holds_of_mem {p : Nat} {part : Partition} (hpart : parting.partitions[p]? = some part)
    {attrb : AttributePtr} (hattrb : attrb ∈ part.attributes) :
    holds parting attrb.index p = true := by
  rw [holds, hpart]
  exact decide_eq_true (List.mem_map_of_mem hattrb)

/-- **Every plan is a solution.** -/
theorem solves_of_represents (hr : Represents e parting reads sol)
    (hA : e.A = workload.attributes.length) (hP : e.P = workload.attributes.length)
    (hsolv : Solvable workload stats size) (ha : Admitted stats workload alpha parting)
    (hserves : Serves workload parting.partitions reads) : Solves e workload.queries size alpha sol := by
  have hnonneg : ∀ a < e.A, 0 ≤ size a := by
    rw [hA]
    exact hsolv.nonneg
  have hlt : ∀ {p : Nat} {part : Partition}, parting.partitions[p]? = some part → p < e.P := by
    intro p part hpart
    have hp := (List.getElem?_eq_some_iff.mp hpart).1
    have hfew := ha.few
    omega
  refine ⟨?_, ?_, ?_, ?_, ?_, ?_, hr.u_eq, ?_⟩
  · intro a hlta
    rw [hA] at hlta
    obtain ⟨attrb, hattrb, rfl⟩ := exists_attribute hsolv.sized hlta
    obtain ⟨part, hpart, hmem⟩ := ha.covers attrb hattrb
    obtain ⟨p, hp⟩ := List.mem_iff_getElem?.mp hpart
    refine ⟨p, hlt hp, ?_⟩
    rw [hr.x_eq _ (hA ▸ hlta) p (hlt hp)]
    exact holds_of_mem hp hmem
  · intro a hlta q hq hacc
    obtain ⟨query, hquery, attrb, hattrb, rfl⟩ := exists_of_accesses hacc
    obtain ⟨hin, hcovered⟩ := hserves q query hquery
    obtain ⟨part, hpart, hmem⟩ := hcovered attrb hattrb
    obtain ⟨other, hother, heq⟩ := exists_place (hin part hpart)
    have hx : sol (x e attrb.index (place parting part)) = true := by
      rw [hr.x_eq _ hlta _ (hlt hother)]
      exact holds_of_mem hother (heq ▸ hmem)
    refine ⟨place parting part, hlt hother, (hr.z_iff hlta (hlt hother) hq).mpr ⟨?_, hx⟩⟩
    rw [hr.y_eq _ (hlt hother) q hq, Bool.and_eq_true, decide_eq_true_eq]
    exact ⟨⟨part, hpart, rfl⟩, filled_eq_true.mpr ⟨_, hlta, hx⟩⟩
  · exact fun a hlta p hp q hq hz => ((hr.z_iff hlta hp hq).mp hz).2
  · intro p hp q hq hy
    have hfilled := hy
    rw [hr.y_eq p hp q hq, Bool.and_eq_true] at hfilled
    obtain ⟨a, hlta, hx⟩ := filled_eq_true.mp hfilled.2
    exact ⟨a, hlta, (hr.z_iff hlta hp hq).mpr ⟨hy, hx⟩⟩
  · exact fun a hlta p hp q hq hz => ((hr.z_iff hlta hp hq).mp hz).1
  · exact fun a hlta p hp q hq hx hy => (hr.z_iff hlta hp hq).mpr ⟨hy, hx⟩
  · obtain ⟨overhead, hoverhead, hle⟩ := ha.fits
    rw [getStorageOverhead_drawn hsolv.sized hA ha.made, Except.ok.injEq] at hoverhead
    rw [← hoverhead, sub_le_iff_le_add, div_le_iff₀ (blockSize_pos hnonneg)] at hle
    have htotal := hr.totalSize_le hA hsolv ha.made (by rw [hP]; exact ha.few)
    linarith

/-- **Every solution is a plan**, of the cost it is charged. -/
theorem Solves.plan (hs : Solves e workload.queries size alpha sol) {parts : Nat → Partition}
    (hparts : Slots workload e size sol parts) (hA : e.A = workload.attributes.length)
    (hP : e.P = workload.attributes.length) (hQ : e.Q = workload.queries.length)
    (hsolv : Solvable workload stats size) (hextract : extract e workload sol = .ok parting) :
    Admitted stats workload alpha parting ∧
      Serves workload parting.partitions (Slots.given e sol parts) := by
  have hnonneg : ∀ a < e.A, 0 ≤ size a := by
    rw [hA]
    exact hsolv.nonneg
  refine ⟨⟨hparts.made hextract, ?_, ?_, ?_⟩, ?_⟩
  · intro attrb hattrb
    have hlt := index_lt hsolv.sized hattrb
    rw [← hA] at hlt
    obtain ⟨p, hp, hx⟩ := hs.placed _ hlt
    exact ⟨parts p, (hparts.mem_partitions hextract).mpr
      ⟨p, hp, filled_eq_true.mpr ⟨_, hlt, hx⟩, rfl⟩, (hparts.mem p attrb hattrb).mpr hx⟩
  · have hlist := hparts.extract
    rw [hextract, Except.ok.injEq] at hlist
    rw [hlist, List.length_map, ← hP]
    refine le_trans (List.length_filter_le _ _) ?_
    rw [List.length_range]
  · obtain ⟨parting', hextract', -, hoverhead⟩ := getStorageOverhead_ok hsolv.sized hA sol
    rw [hextract, Except.ok.injEq] at hextract'
    rw [← hextract'] at hoverhead
    refine ⟨_, hoverhead, ?_⟩
    rw [sub_le_iff_le_add, div_le_iff₀ (blockSize_pos hnonneg), mul_comm, add_comm alpha]
    exact hs.last
  · intro q query hquery
    have hq : q < e.Q := by
      rw [hQ]
      exact (List.getElem?_eq_some_iff.mp hquery).1
    refine ⟨?_, ?_⟩
    · intro part hpart
      obtain ⟨p, hp, rfl⟩ := List.mem_map.mp hpart
      obtain ⟨hp, hy⟩ := List.mem_filter.mp hp
      rw [List.mem_range] at hp
      obtain ⟨a, ha, hz⟩ := hs.y_z p hp q hq hy
      exact (hparts.mem_partitions hextract).mpr
        ⟨p, hp, filled_eq_true.mpr ⟨a, ha, hs.z_x a ha p hp q hq hz⟩, rfl⟩
    · intro attrb hattrb
      have hmem := hsolv.queried query (List.mem_of_getElem? hquery) attrb hattrb
      have hlt := index_lt hsolv.sized hmem
      rw [← hA] at hlt
      have hacc : accesses workload.queries q attrb.index = 1 := by
        have hex : ∃ other ∈ query.attributes, other.index = attrb.index := ⟨attrb, hattrb, rfl⟩
        simp only [accesses, hquery, hex, ↓reduceIte]
      obtain ⟨p, hp, hz⟩ := hs.served _ hlt q hq hacc
      refine ⟨parts p, List.mem_map_of_mem (List.mem_filter.mpr ⟨List.mem_range.mpr hp,
        hs.z_y _ hlt p hp q hq hz⟩), ?_⟩
      exact (hparts.mem p attrb hmem).mpr (hs.z_x _ hlt p hp q hq hz)

end OptimalOverlapping

/-! ### A library that tries everything -/

theorem Model.objval_congr {m : Model} {sol sol' : Nat → Bool}
    (h : ∀ j < m.numVars, sol j = sol' j) : m.objval sol = m.objval sol' := by
  unfold Model.objval
  congr 1
  refine List.map_congr_left fun j hj => ?_
  rw [h j (List.mem_range.mp hj)]

/-- A solution of least value, found by going through all of them. -/
def Gurobi.exhaustive : Gurobi where
  optimize m :=
    if Within m.numVars m.constraints then
      match leastSolution m.numVars m.constraints m.objval with
      | some sol => .ok sol
      | none => .error (.runtimeError "infeasible")
    else .error (.runtimeError "unknown variable")
  optimal := by
    intro m sol h
    split_ifs at h with hwithin
    split at h
    · next sol' hleast =>
        rw [← Except.ok.inj h]
        exact ⟨leastSolution_feasible hleast, fun other hother =>
          leastSolution_le hwithin (fun _ _ => Model.objval_congr) hleast hother⟩
    · cases h

theorem Gurobi.exhaustive_ok {m : Model} (hwithin : Within m.numVars m.constraints)
    (hfeasible : Feasible m.constraints sol) : ∃ sol', Gurobi.exhaustive.optimize m = .ok sol' := by
  obtain ⟨sol', hleast⟩ := exists_leastSolution hwithin hfeasible m.objval
  refine ⟨sol', ?_⟩
  unfold Gurobi.exhaustive
  dsimp only
  rw [if_pos hwithin, hleast]

/-- It is enough that there is a solution. -/
theorem OptimalCommon.exists_solve (constraints : VarEnv → Except Fault (List Constraint))
    {cs : List Constraint} (hsolv : Solvable workload stats size) (he : createEnv workload = .ok e)
    (hcs : constraints e = .ok cs) (hwithin : Within e.numVars cs) (hfeasible : Feasible cs sol) :
    ∃ parting, OptimalCommon.solve .exhaustive constraints stats workload = .ok parting := by
  obtain ⟨-, hA, hP, hQ, -⟩ := createEnv_eq he
  obtain ⟨frequency, hfreq⟩ := hsolv.exists_frequency
  have hobj := OptimalOverlapping.objective_ok hsolv.sized hA hQ fun q hq => (hfreq q hq).2
  obtain ⟨sol', hsol'⟩ := Gurobi.exhaustive_ok (m := ⟨e.numVars, _, cs⟩) hwithin hfeasible
  obtain ⟨parting, hextract, -⟩ := extract_ok hsolv.sized hA sol' e.P
  refine ⟨parting, ?_⟩
  unfold OptimalCommon.solve
  rw [he, Except.ok_bind, hobj, Except.ok_bind, hcs, Except.ok_bind, hsol', Except.ok_bind]
  exact hextract

/-! Two attributes.  Two queries of three read the first of them, the third reads both. -/

def twoQueries : QueryWorkload :=
  { attributes := [plainAttribute 0, plainAttribute 1]
    queries := [⟨[plainAttribute 0]⟩, ⟨[plainAttribute 0, plainAttribute 1]⟩]
    counts := (AList.singleton ⟨[plainAttribute 0]⟩ 2).insert
      ⟨[plainAttribute 0, plainAttribute 1]⟩ 1
    totalQueries := 3 }

theorem twoQueries_solvable : Solvable twoQueries (seenOnce 2) fun _ => 8 := by
  have hboth : (twoQueries.getFrequency ⟨[plainAttribute 0]⟩).toOption = some (2 / 3) ∧
      (twoQueries.getFrequency ⟨[plainAttribute 0, plainAttribute 1]⟩).toOption
        = some (1 / 3) := by
    decide +kernel
  obtain ⟨hfirst, hsecond⟩ := hboth
  refine ⟨plainWorkload_sized 2, fun _ _ => by norm_num, by decide, ?_⟩
  intro query hquery
  simp only [twoQueries, List.mem_cons, List.not_mem_nil, or_false] at hquery
  rcases hquery with rfl | rfl
  · exact ⟨2 / 3, Except.of_toOption hfirst, by norm_num⟩
  · exact ⟨1 / 3, Except.of_toOption hsecond, by norm_num⟩

/-- Both attributes are in one partition, which both queries read. -/
def inOnePart : Nat → Bool := Nat.testBit 87349

theorem exists_feasible (constraints : VarEnv → Except Fault (List Constraint))
    (h : (do
      let e ← createEnv twoQueries
      let cs ← constraints e
      Except.ok (decide (Within e.numVars cs ∧ Feasible cs inOnePart))).toOption = some true) :
    ∃ e cs, createEnv twoQueries = .ok e ∧ constraints e = .ok cs ∧ Within e.numVars cs ∧
      Feasible cs inOnePart := by
  obtain ⟨e, he, h⟩ := Except.bind_eq_ok.mp (Except.of_toOption h)
  obtain ⟨cs, hcs, h⟩ := Except.bind_eq_ok.mp h
  obtain ⟨hwithin, hfeasible⟩ := of_decide_eq_true (Except.ok.inj h)
  exact ⟨e, cs, he, hcs, hwithin, hfeasible⟩

/-- The calls behind `solve`. -/
theorem OptimalCommon.solve_eq_ok {gurobi : Gurobi}
    {constraints : VarEnv → Except Fault (List Constraint)}
    (h : OptimalCommon.solve gurobi constraints stats workload = .ok parting) :
    ∃ e obj cs sol, createEnv workload = .ok e ∧ objective e workload stats = .ok obj ∧
      constraints e = .ok cs ∧ (⟨e.numVars, obj, cs⟩ : Model).Optimal sol ∧
      extract e workload sol = .ok parting := by
  unfold OptimalCommon.solve at h
  obtain ⟨e, he, h⟩ := Except.bind_eq_ok.mp h
  obtain ⟨obj, hobj, h⟩ := Except.bind_eq_ok.mp h
  obtain ⟨cs, hcs, h⟩ := Except.bind_eq_ok.mp h
  obtain ⟨sol, hsol, h⟩ := Except.bind_eq_ok.mp h
  exact ⟨e, obj, cs, sol, he, hobj, hcs, gurobi.optimal _ _ hsol, h⟩

namespace OptimalOverlapping

theorem solves_of_feasible (h : Sized workload.attributes stats size)
    (hA : e.A = workload.attributes.length) {cs : List Constraint}
    (hcs : constraints alpha e workload stats = .ok cs) (hsol : Feasible cs sol) :
    Solves e workload.queries size alpha sol := by
  obtain ⟨cs', hcs', hsound⟩ := constraints_ok h hA alpha
  rw [hcs, Except.ok.injEq] at hcs'
  rw [hcs'] at hsol
  exact hsound sol hsol

/-- **No partitioning that is admitted lets the queries read less**, whatever they read. -/
theorem solve_leastOverlapping (hsolv : Solvable workload stats size) (hfew : workload.attributes.length ≤ 1000)
    {gurobi : Gurobi} (hrun : solve gurobi stats workload alpha = .ok parting) :
    ∃ cost, Least stats workload (Admitted stats workload alpha) parting cost := by
  obtain ⟨e, obj, cs, sol, he, hobj, hcs, hopt, hextract⟩ := OptimalCommon.solve_eq_ok hrun
  obtain ⟨-, hA, hP, hQ, -⟩ := createEnv_eq he
  obtain ⟨frequency, hfreq⟩ := hsolv.exists_frequency
  have hf : ∀ q < workload.queries.length, ∃ query,
      workload.getQuerySummary q = .ok query ∧ workload.getFrequency query = .ok (frequency q) :=
    fun q hq => (hfreq q hq).2
  rw [objective_ok hsolv.sized hA hQ hf, Except.ok.injEq] at hobj
  obtain ⟨parts, hparts⟩ := exists_slots hsolv.sized hA sol
  have hsol := solves_of_feasible hsolv.sized hA hcs hopt.feasible
  obtain ⟨hadmitted, hserves⟩ := hsol.plan hparts hA hP hQ hsolv hextract
  refine ⟨_, hadmitted, ⟨_, hserves, hparts.readCost_eq hsolv.sized hf⟩, ?_⟩
  intro other reads cost' hother hserves' hcost'
  obtain ⟨sol', hr⟩ := exists_represents he other reads
  have hs' := solves_of_represents hr hA hP hsolv hother hserves'
  have hle := hopt.least sol' (feasible_of_solves hsolv.sized hA (by omega) hcs hs')
  have hval : ∀ sol, Solves e workload.queries size alpha sol →
      (⟨e.numVars, obj, cs⟩ : Model).objval sol = ∑ q ∈ Finset.range e.Q, frequency q * ∑ p ∈ Finset.range e.P,
        value (sol (y e p q)) * (u_const + c_e * slotSize e size sol p) := by
    intro sol hsol
    rw [← objval_eq he hsol, hobj]
    rfl
  rw [hval sol hsol, hval sol' hs', hQ] at hle
  have hin : ∀ q < workload.queries.length, ∀ part ∈ reads q, part ∈ other.partitions := by
    intro q hq
    exact (hserves' q _ (List.getElem?_eq_getElem hq)).1
  rw [readCost_ok hsolv.sized hf fun q hq part hpart =>
    hother.made.drawn hsolv.sized (hin q hq part hpart), Except.ok.injEq] at hcost'
  rw [← hcost']
  refine le_trans hle (Finset.sum_le_sum fun q hq => ?_)
  rw [Finset.mem_range] at hq
  exact mul_le_mul_of_nonneg_left
    (hr.charged_le hA hsolv hother.made (by rw [hQ]; exact hq) (hin q hq)) (hfreq q hq).1

theorem solve_leastOverlapping_two :
    ∃ parting, solve .exhaustive (seenOnce 2) twoQueries 1 = .ok parting ∧
      ∃ cost, Least (seenOnce 2) twoQueries (Admitted (seenOnce 2) twoQueries 1) parting cost := by
  obtain ⟨e, cs, he, hcs, hwithin, hfeasible⟩ := exists_feasible
    (fun e => constraints 1 e twoQueries (seenOnce 2)) (by decide +kernel)
  obtain ⟨parting, hrun⟩ := OptimalCommon.exists_solve
    (fun e => constraints 1 e twoQueries (seenOnce 2)) twoQueries_solvable he hcs hwithin hfeasible
  exact ⟨parting, hrun, solve_leastOverlapping twoQueries_solvable (by decide) hrun⟩

end OptimalOverlapping

/-! ### Partitions that do not overlap -/

namespace OptimalNonOverlapping

open HeuristicNonOverlapping (IsPartition)
open OptimalOverlapping (assignments objective_ok coefficient_number index_lt weight)

/-- A true partition within the storage bound. -/
structure Admitted (stats : SchemaStats) (workload : QueryWorkload) (alpha : ℚ)
    (parting : Common.Partitioning) : Prop where
  isPartition : IsPartition workload.attributes parting.partitions
  fits : Fits stats workload alpha parting

theorem Admitted.made (h : Admitted stats workload alpha parting) : Made workload parting :=
  fun part hpart attrb hattrb => (h.isPartition.covers attrb).mpr ⟨part, hpart, hattrb⟩

/-- Parts that are not empty and have nothing in common are no more than the attributes. -/
theorem length_le {attributes : List AttributePtr} {partitions : List Partition}
    (h : IsPartition attributes partitions) : partitions.length ≤ attributes.length := by
  have hnodup : (partitions.map (·.attributes)).flatten.Nodup := by
    refine List.nodup_flatten.mpr ⟨?_, List.pairwise_map.mpr h.disjoint⟩
    intro l hl
    obtain ⟨part, -, rfl⟩ := List.mem_map.mp hl
    exact part.nodup
  have hsub : (partitions.map (·.attributes)).flatten ⊆ attributes := by
    intro attrb hattrb
    obtain ⟨l, hl, hmem⟩ := List.mem_flatten.mp hattrb
    obtain ⟨part, hpart, rfl⟩ := List.mem_map.mp hl
    exact (h.covers attrb).mpr ⟨part, hpart, hmem⟩
  have hone : partitions.length ≤ (partitions.map (·.attributes)).flatten.length := by
    rw [List.length_flatten, List.map_map]
    have hle := List.length_le_sum_of_one_le (partitions.map fun part => part.attributes.length) (by
      intro n hn
      obtain ⟨part, hpart, rfl⟩ := List.mem_map.mp hn
      exact List.length_pos_iff.mpr (h.nonempty part hpart))
    rwa [List.length_map] at hle
  exact hone.trans (hnodup.subperm hsub).length_le

/-- An attribute is at one place. -/
theorem place_unique {attributes : List AttributePtr} {partitions : List Partition}
    (h : IsPartition attributes partitions) {p q : Nat} {part part' : Partition}
    (hp : partitions[p]? = some part) (hq : partitions[q]? = some part') {attrb : AttributePtr}
    (hmem : attrb ∈ part.attributes) (hmem' : attrb ∈ part'.attributes) : p = q := by
  obtain ⟨hlt, rfl⟩ := List.getElem?_eq_some_iff.mp hp
  obtain ⟨hlt', rfl⟩ := List.getElem?_eq_some_iff.mp hq
  have hpairs := List.pairwise_iff_getElem.mp h.disjoint
  rcases Nat.lt_trichotomy p q with hpq | hpq | hpq
  · exact (hpairs p q hlt hlt' hpq hmem hmem').elim
  · exact hpq
  · exact (hpairs q p hlt' hlt hpq hmem' hmem).elim

/-- The parts with something a query asks for. -/
def touched (workload : QueryWorkload) (parting : Common.Partitioning) (q : Nat) : List Partition :=
  parting.partitions.filter fun part => decide (∃ query ∈ workload.queries[q]?,
    ∃ attrb ∈ query.attributes, attrb ∈ part.attributes)

theorem mem_touched {q : Nat} {query : QuerySummary} (hquery : workload.queries[q]? = some query)
    {part : Partition} : part ∈ touched workload parting q ↔
      part ∈ parting.partitions ∧ ∃ attrb ∈ query.attributes, attrb ∈ part.attributes := by
  unfold touched
  rw [List.mem_filter, decide_eq_true_eq, hquery]
  simp

/-- A query that is served reads every part it touches. -/
theorem touched_subset (h : IsPartition workload.attributes parting.partitions)
    (hserves : Serves workload parting.partitions reads) {q : Nat} {query : QuerySummary}
    (hquery : workload.queries[q]? = some query) : touched workload parting q ⊆ reads q := by
  intro part hpart
  obtain ⟨hmem, attrb, hattrb, hin⟩ := (mem_touched hquery).mp hpart
  obtain ⟨hreads, hserved⟩ := hserves q query hquery
  obtain ⟨part', hpart', hin'⟩ := hserved attrb hattrb
  obtain ⟨p, hp⟩ := List.mem_iff_getElem?.mp hmem
  obtain ⟨p', hp'⟩ := List.mem_iff_getElem?.mp (hreads part' hpart')
  rw [place_unique h hp hp' hin hin', hp', Option.some.injEq] at hp
  rw [← hp]
  exact hpart'

theorem touched_le (hsolv : Solvable workload stats size)
    (h : IsPartition workload.attributes parting.partitions) (hmade : Made workload parting)
    (hserves : Serves workload parting.partitions reads) {q : Nat}
    (hq : q < workload.queries.length) :
    ((touched workload parting q).map (bytesOf size)).sum
      ≤ ((reads q).map (bytesOf size)).sum := by
  have hquery := List.getElem?_eq_getElem hq
  have hnodup : (touched workload parting q).Nodup := by
    refine List.Nodup.filter _ (h.disjoint.imp_of_mem fun {p p'} hp _ hdisjoint heq => ?_)
    obtain ⟨attrb, hattrb⟩ := List.exists_mem_of_ne_nil _ (h.nonempty p hp)
    exact hdisjoint hattrb (heq ▸ hattrb)
  obtain ⟨l, hperm, hsub⟩ := hnodup.subperm (touched_subset h hserves hquery)
  rw [← (hperm.map _).sum_eq]
  refine (hsub.map _).sum_le_sum ?_
  intro x hx
  obtain ⟨part, hpart, rfl⟩ := List.mem_map.mp hx
  exact bytesOf_nonneg hsolv (hmade.drawn hsolv.sized ((hserves q _ hquery).1 part hpart))

/-- A slot is read exactly for the queries that touch it. -/
theorem y_iff (hr : Represents e parting (touched workload parting) sol)
    (hA : e.A = workload.attributes.length) (hP : e.P = workload.attributes.length)
    (hsolv : Solvable workload stats size) (h : IsPartition workload.attributes parting.partitions)
    {p q : Nat} (hp : p < e.P) (hq : q < e.Q) (hQ : e.Q = workload.queries.length) :
    sol (y e p q) = true ↔ ∃ a < e.A, needed e workload.queries sol p q a = true := by
  have hlt : ∀ {p : Nat} {part : Partition}, parting.partitions[p]? = some part → p < e.P := by
    intro p part hpart
    have hp := (List.getElem?_eq_some_iff.mp hpart).1
    have hfew := length_le h
    omega
  rw [hQ] at hq
  have hquery := List.getElem?_eq_getElem hq
  rw [← hQ] at hq
  rw [hr.y_eq p hp q hq, Bool.and_eq_true, decide_eq_true_eq]
  constructor
  · rintro ⟨⟨part, hpart, rfl⟩, -⟩
    obtain ⟨hmem, attrb, hattrb, hin⟩ := (mem_touched hquery).mp hpart
    have hlta := index_lt hsolv.sized (hsolv.queried _ (List.mem_of_getElem? hquery) attrb hattrb)
    rw [← hA] at hlta
    obtain ⟨other, hother, heq⟩ := exists_place hmem
    refine ⟨attrb.index, hlta, ?_⟩
    have hex : ∃ other ∈ workload.queries[q].attributes, other.index = attrb.index :=
      ⟨attrb, hattrb, rfl⟩
    rw [needed, Bool.and_eq_true, hr.x_eq _ hlta _ hp, holds, hother, accesses, hquery]
    exact ⟨decide_eq_true (if_pos hex), decide_eq_true (heq ▸ List.mem_map_of_mem hin)⟩
  · rintro ⟨a, ha, hneeded⟩
    rw [needed, Bool.and_eq_true, decide_eq_true_eq] at hneeded
    obtain ⟨hacc, hx⟩ := hneeded
    have hfilled := filled_eq_true.mpr ⟨a, ha, hx⟩
    obtain ⟨part, hpart⟩ := hr.exists_part hp hfilled
    rw [hr.x_eq a ha p hp, holds, hpart, decide_eq_true_eq] at hx
    obtain ⟨query, hquery', attrb, hattrb, rfl⟩ := OptimalOverlapping.exists_of_accesses hacc
    rw [hquery, Option.some.injEq] at hquery'
    rw [← hquery'] at hattrb
    have hmem := List.mem_of_getElem? hpart
    have hmade : ∀ attrb ∈ part.attributes, attrb ∈ workload.attributes :=
      fun attrb hattrb => (h.covers attrb).mpr ⟨part, hmem, hattrb⟩
    have hin : attrb ∈ part.attributes := by
      refine (mem_indices_iff (fun b hb => hsolv.sized.indices_attributes.1 b (hmade b hb)) ?_).mp hx
      exact hsolv.sized.indices_attributes.1 attrb
        (hsolv.queried _ (List.mem_of_getElem? hquery) attrb hattrb)
    refine ⟨⟨part, (mem_touched hquery).mpr ⟨hmem, attrb, hattrb, hin⟩, ?_⟩, hfilled⟩
    obtain ⟨other, hother, heq⟩ := exists_place hmem
    exact place_unique h hother hpart (heq ▸ hin) hin

/-- Each attribute is in one slot. -/
theorem inOneSlot (hr : Represents e parting reads sol) (hA : e.A = workload.attributes.length)
    (hP : e.P = workload.attributes.length) (hs : Sized workload.attributes stats size)
    (h : IsPartition workload.attributes parting.partitions) : InOneSlot e sol := by
  intro a ha
  have hlta := ha
  rw [hA] at hlta
  obtain ⟨attrb, hattrb, rfl⟩ := OptimalOverlapping.exists_attribute hs hlta
  obtain ⟨part, hpart, hmem⟩ := (h.covers attrb).mp hattrb
  obtain ⟨p, hp⟩ := List.mem_iff_getElem?.mp hpart
  have hltp : p < e.P := by
    have hlength := length_le h
    have hlt := (List.getElem?_eq_some_iff.mp hp).1
    omega
  refine ⟨p, hltp, ?_, ?_⟩
  · rw [hr.x_eq _ ha p hltp]
    exact OptimalOverlapping.holds_of_mem hp hmem
  · intro p' hp' hx
    obtain ⟨part', hpart'⟩ := hr.exists_part hp' (filled_eq_true.mpr ⟨_, ha, hx⟩)
    rw [hr.x_eq _ ha p' hp', holds, hpart', decide_eq_true_eq] at hx
    have hdrawn : Drawn workload.attributes part'.attributes := by
      intro b hb
      exact hs.indices_attributes.1 b
        ((h.covers b).mpr ⟨part', List.mem_of_getElem? hpart', hb⟩)
    exact place_unique h hpart' hp
      ((mem_indices_iff hdrawn (hs.indices_attributes.1 attrb hattrb)).mp hx) hmem

/-- **Every true partition is a solution.** -/
theorem solves_of_represents (hr : Represents e parting (touched workload parting) sol)
    (hA : e.A = workload.attributes.length) (hP : e.P = workload.attributes.length)
    (hQ : e.Q = workload.queries.length) (hsolv : Solvable workload stats size) (hK : e.A ≤ 1000)
    (ha : Admitted stats workload alpha parting) :
    Solves e workload.queries (limit e size alpha) sol := by
  have hnonneg : ∀ a < e.A, 0 ≤ size a := by
    rw [hA]
    exact hsolv.nonneg
  have hKA : (e.A : ℚ) ≤ K := by
    rw [K]
    exact_mod_cast hK
  have hone := inOneSlot hr hA hP hsolv.sized ha.isPartition
  have hy := fun {p q : Nat} (hp : p < e.P) (hq : q < e.Q) =>
    y_iff hr hA hP hsolv ha.isPartition hp hq hQ
  refine ⟨hone, ?_, ?_, ?_, ?_, ?_, ?_⟩
  · exact fun p hp q hq hset => (hy hp hq).mp hset
  · exact fun p hp q hq => sum_le_mul hKA fun a ha hn => (hy hp hq).mpr ⟨a, ha, hn⟩
  · exact fun a ha p hp q hq hx hset => (hr.z_iff ha hp hq).mpr ⟨hset, hx⟩
  · exact fun p hp hu => (hr.u_eq p hp).symm.trans hu
  · intro p hp
    refine sum_le_mul hKA fun a ha hx => ?_
    rw [hr.u_eq p hp]
    exact filled_eq_true.mpr ⟨a, ha, hx⟩
  · rw [Finset.sum_congr rfl fun p hp => by rw [hr.u_eq p (Finset.mem_range.mp hp)]]
    refine (overhead_le_iff hone hnonneg).mp ?_
    obtain ⟨overhead, hoverhead, hle⟩ := ha.fits
    rw [getStorageOverhead_drawn hsolv.sized hA ha.made, Except.ok.injEq] at hoverhead
    have htotal := hr.totalSize_le hA hsolv ha.made (by rw [hP]; exact length_le ha.isPartition)
    have hquot := div_le_div_of_nonneg_right htotal (blockSize_pos hnonneg).le
    linarith

/-- **Every solution is a true partition**, and each query is given the slots it touches. -/
theorem Solves.plan (hs : Solves e workload.queries (limit e size alpha) sol)
    {parts : Nat → Partition} (hparts : Slots workload e size sol parts)
    (hA : e.A = workload.attributes.length) (hQ : e.Q = workload.queries.length)
    (hsolv : Solvable workload stats size) (hextract : extract e workload sol = .ok parting) :
    Admitted stats workload alpha parting ∧
      Serves workload parting.partitions (Slots.given e sol parts) := by
  have hnonneg : ∀ a < e.A, 0 ≤ size a := by
    rw [hA]
    exact hsolv.nonneg
  have hlt : ∀ attrb ∈ workload.attributes, attrb.index < e.A := by
    rw [hA]
    exact fun attrb hattrb => index_lt hsolv.sized hattrb
  have hmade := hparts.made hextract
  have hin : ∀ attrb ∈ workload.attributes, ∀ p < e.P, sol (x e attrb.index p) = true →
      parts p ∈ parting.partitions ∧ attrb ∈ (parts p).attributes := by
    intro attrb hattrb p hp hx
    exact ⟨(hparts.mem_partitions hextract).mpr
      ⟨p, hp, filled_eq_true.mpr ⟨_, hlt attrb hattrb, hx⟩, rfl⟩, (hparts.mem p attrb hattrb).mpr hx⟩
  refine ⟨⟨⟨?_, ?_, ?_⟩, ?_⟩, ?_⟩
  · intro part hpart
    obtain ⟨p, -, hfilled, rfl⟩ := (hparts.mem_partitions hextract).mp hpart
    exact (hparts.nonempty p).mpr hfilled
  · have hlist := hparts.extract
    rw [hextract, Except.ok.injEq] at hlist
    rw [hlist, List.pairwise_map]
    have hnodup : ((List.range e.P).filter fun p => Optimizer.filled e sol p).Nodup :=
      List.nodup_range.filter _
    refine hnodup.imp_of_mem ?_
    intro p p' hp hp' hne attrb hattrb hattrb'
    have hmem := List.mem_of_getElem? (hparts.drawn p attrb hattrb)
    obtain ⟨p₀, -, -, huniq⟩ := hs.first _ (hlt attrb hmem)
    have hslot : ∀ r ∈ (List.range e.P).filter fun p => Optimizer.filled e sol p,
        attrb ∈ (parts r).attributes → r = p₀ := by
      intro r hr hattrb
      exact huniq r (List.mem_range.mp (List.mem_filter.mp hr).1)
        ((hparts.mem r attrb hmem).mp hattrb)
    exact hne ((hslot p hp hattrb).trans (hslot p' hp' hattrb').symm)
  · intro attrb
    refine ⟨?_, fun ⟨part, hpart, hattrb⟩ => hmade part hpart attrb hattrb⟩
    intro hattrb
    obtain ⟨p, hp, hx, -⟩ := hs.first _ (hlt attrb hattrb)
    exact ⟨parts p, hin attrb hattrb p hp hx⟩
  · obtain ⟨parting', hextract', -, hoverhead⟩ := getStorageOverhead_ok hsolv.sized hA sol
    rw [hextract, Except.ok.injEq] at hextract'
    rw [← hextract'] at hoverhead
    refine ⟨_, hoverhead, (overhead_le_iff hs.first hnonneg).mpr ?_⟩
    have hlast := hs.last
    rwa [Finset.sum_congr rfl fun p hp => by rw [hs.used_eq (Finset.mem_range.mp hp)]] at hlast
  · intro q query hquery
    have hq : q < e.Q := by
      rw [hQ]
      exact (List.getElem?_eq_some_iff.mp hquery).1
    refine ⟨?_, ?_⟩
    · intro part hpart
      obtain ⟨p, hp, rfl⟩ := List.mem_map.mp hpart
      obtain ⟨hp, hy⟩ := List.mem_filter.mp hp
      rw [List.mem_range] at hp
      obtain ⟨a, ha, hneeded⟩ := hs.second p hp q hq hy
      rw [needed, Bool.and_eq_true] at hneeded
      exact (hparts.mem_partitions hextract).mpr
        ⟨p, hp, filled_eq_true.mpr ⟨a, ha, hneeded.2⟩, rfl⟩
    · intro attrb hattrb
      have hmem := hsolv.queried query (List.mem_of_getElem? hquery) attrb hattrb
      obtain ⟨p, hp, hx, -⟩ := hs.first _ (hlt attrb hmem)
      have hex : ∃ other ∈ query.attributes, other.index = attrb.index := ⟨attrb, hattrb, rfl⟩
      have hneeded : needed e workload.queries sol p q attrb.index = true := by
        rw [needed, Bool.and_eq_true, decide_eq_true_eq]
        refine ⟨?_, hx⟩
        simp only [accesses, hquery, hex, ↓reduceIte]
      have hy := of_sum_le_mul (hs.third p hp q hq) (hlt attrb hmem) hneeded
      exact ⟨parts p, List.mem_map_of_mem (List.mem_filter.mpr ⟨List.mem_range.mpr hp, hy⟩),
        (hin attrb hmem p hp hx).2⟩

/-- The objective, query by query. -/
theorem objval_eq_sum (he : createEnv workload = .ok e) (frequency : Nat → ℚ) (sol : Nat → Bool) :
    objval e (assignments e size frequency) sol
      = ∑ q ∈ Finset.range e.Q, frequency q * ∑ p ∈ Finset.range e.P,
          (value (sol (y e p q)) * u_const
            + c_e * ∑ a ∈ Finset.range e.A, size a * value (sol (z e a p q))) := by
  have hnumber : ∀ v : Var e.A e.P e.Q, coefficient (assignments e size frequency) (v.number e)
      = weight e size frequency v := coefficient_number he
  have hx : ∑ a ∈ Finset.range e.A, ∑ p ∈ Finset.range e.P,
      coefficient (assignments e size frequency) (x e a p) * value (sol (x e a p)) = 0 := by
    refine Finset.sum_eq_zero fun a ha => Finset.sum_eq_zero fun p hp => ?_
    rw [Finset.mem_range] at ha hp
    have hc := hnumber (.x ⟨a, ha⟩ ⟨p, hp⟩)
    rw [Var.number] at hc
    rw [hc]
    exact zero_mul _
  have hu : ∑ p ∈ Finset.range e.P,
      coefficient (assignments e size frequency) (u e p) * value (sol (u e p)) = 0 := by
    refine Finset.sum_eq_zero fun p hp => ?_
    have hc := hnumber (.u ⟨p, Finset.mem_range.mp hp⟩)
    rw [Var.number] at hc
    rw [hc]
    exact zero_mul _
  rw [objval, sum_map_range, Var.sum_range_numVars he, hx, hu, zero_add, add_zero,
    Finset.sum_comm, ← Finset.sum_add_distrib]
  refine Finset.sum_congr rfl fun q hq => ?_
  rw [Finset.sum_comm (s := Finset.range e.A), ← Finset.sum_add_distrib, Finset.mul_sum]
  refine Finset.sum_congr rfl fun p hp => ?_
  rw [Finset.mem_range] at hq hp
  have hy := hnumber (.y ⟨p, hp⟩ ⟨q, hq⟩)
  rw [Var.number] at hy
  rw [hy, weight, mul_add, Finset.mul_sum, Finset.mul_sum]
  congr 1
  · ring
  · refine Finset.sum_congr rfl fun a ha => ?_
    rw [Finset.mem_range] at ha
    have hz := hnumber (.z ⟨a, ha⟩ ⟨p, hp⟩ ⟨q, hq⟩)
    rw [Var.number] at hz
    rw [hz, weight]
    ring

/-- The variables `z` charge at least the slots that are read. -/
theorem charge_le {p q : Nat} (hpos : ∀ a < e.A, 0 ≤ size a)
    (hz : ∀ a < e.A, sol (x e a p) = true → sol (y e p q) = true → sol (z e a p q) = true) :
    value (sol (y e p q)) * (u_const + c_e * slotSize e size sol p)
      ≤ value (sol (y e p q)) * u_const
        + c_e * ∑ a ∈ Finset.range e.A, size a * value (sol (z e a p q)) := by
  rw [mul_add, mul_left_comm (value _), slotSize, Finset.mul_sum]
  refine add_le_add_right (mul_le_mul_of_nonneg_left (Finset.sum_le_sum fun a ha => ?_)
    (Nat.cast_nonneg _)) _
  rw [Finset.mem_range] at ha
  rw [mul_left_comm, ← value_and]
  refine mul_le_mul_of_nonneg_left ?_ (hpos a ha)
  cases hboth : sol (y e p q) && sol (x e a p) with
  | false => exact value_nonneg _
  | true =>
      rw [Bool.and_eq_true] at hboth
      rw [hz a ha hboth.2 hboth.1]

/-- A plan's solution charges no more than that. -/
theorem charge_eq (hr : Represents e parting reads sol) {p q : Nat} (hp : p < e.P) (hq : q < e.Q) :
    value (sol (y e p q)) * u_const
        + c_e * ∑ a ∈ Finset.range e.A, size a * value (sol (z e a p q))
      = value (sol (y e p q)) * (u_const + c_e * slotSize e size sol p) := by
  have hz : ∑ a ∈ Finset.range e.A, size a * value (sol (z e a p q))
      = value (sol (y e p q)) * slotSize e size sol p := by
    rw [slotSize, Finset.mul_sum]
    refine Finset.sum_congr rfl fun a ha => ?_
    rw [hr.z_eq a (Finset.mem_range.mp ha) p hp q hq, value_and, mul_left_comm]
  rw [hz]
  ring

theorem feasible_iff_solves (h : Sized workload.attributes stats size)
    (hA : e.A = workload.attributes.length) (hpos : ∀ a < e.A, 0 ≤ size a) {cs : List Constraint}
    (hcs : constraints alpha e workload stats = .ok cs) :
    Feasible cs sol ↔ Solves e workload.queries (limit e size alpha) sol := by
  obtain ⟨cs', hcs', hiff⟩ := constraints_ok h hA hpos alpha
  rw [hcs, Except.ok.injEq] at hcs'
  rw [hcs']
  exact hiff sol

/-- **No true partition within the bound lets the queries read less.** -/
theorem solve_leastPartition (hsolv : Solvable workload stats size) (hfew : workload.attributes.length ≤ 1000)
    {gurobi : Gurobi} (hrun : solve gurobi stats workload alpha = .ok parting) :
    ∃ cost, Least stats workload (Admitted stats workload alpha) parting cost := by
  obtain ⟨e, obj, cs, sol, he, hobj, hcs, hopt, hextract⟩ := OptimalCommon.solve_eq_ok hrun
  obtain ⟨-, hA, hP, hQ, -⟩ := createEnv_eq he
  have hnonneg : ∀ a < e.A, 0 ≤ size a := by
    rw [hA]
    exact hsolv.nonneg
  obtain ⟨frequency, hfreq⟩ := hsolv.exists_frequency
  have hf : ∀ q < workload.queries.length, ∃ query,
      workload.getQuerySummary q = .ok query ∧ workload.getFrequency query = .ok (frequency q) :=
    fun q hq => (hfreq q hq).2
  rw [objective_ok hsolv.sized hA hQ hf, Except.ok.injEq] at hobj
  have hsol := (feasible_iff_solves hsolv.sized hA hnonneg hcs).mp hopt.feasible
  obtain ⟨parts, hparts⟩ := exists_slots hsolv.sized hA sol
  obtain ⟨hadmitted, hserves⟩ := hsol.plan hparts hA hQ hsolv hextract
  refine ⟨_, hadmitted, ⟨_, hserves, hparts.readCost_eq hsolv.sized hf⟩, ?_⟩
  intro other reads cost' hother hserves' hcost'
  obtain ⟨sol', hr⟩ := exists_represents he other (touched workload other)
  have hsol' := solves_of_represents hr hA hP hQ hsolv (by omega) hother
  have hle : objval e (assignments e size frequency) sol
      ≤ objval e (assignments e size frequency) sol' := by
    have hleast := hopt.least sol' ((feasible_iff_solves hsolv.sized hA hnonneg hcs).mpr hsol')
    rw [← hobj] at hleast
    exact hleast
  rw [objval_eq_sum he, objval_eq_sum he] at hle
  have hin : ∀ q < workload.queries.length, ∀ part ∈ reads q, part ∈ other.partitions := by
    intro q hq
    exact (hserves' q _ (List.getElem?_eq_getElem hq)).1
  rw [readCost_ok hsolv.sized hf fun q hq part hpart =>
    hother.made.drawn hsolv.sized (hin q hq part hpart), Except.ok.injEq] at hcost'
  rw [← hcost', ← hQ]
  rw [← hQ] at hfreq
  have hcharged : ∑ q ∈ Finset.range e.Q, frequency q * ∑ p ∈ Finset.range e.P,
        value (sol (y e p q)) * (u_const + c_e * slotSize e size sol p)
      ≤ ∑ q ∈ Finset.range e.Q, frequency q * ∑ p ∈ Finset.range e.P, (value (sol (y e p q)) * u_const
        + c_e * ∑ a ∈ Finset.range e.A, size a * value (sol (z e a p q))) := by
    refine Finset.sum_le_sum fun q hq => ?_
    rw [Finset.mem_range] at hq
    refine mul_le_mul_of_nonneg_left (Finset.sum_le_sum fun p hp => ?_) (hfreq q hq).1
    exact charge_le hnonneg fun a ha hx hy =>
      hsol.both a ha p (Finset.mem_range.mp hp) q hq hx hy
  refine (hcharged.trans hle).trans (Finset.sum_le_sum fun q hq => ?_)
  rw [Finset.mem_range] at hq
  refine mul_le_mul_of_nonneg_left ?_ (hfreq q hq).1
  rw [Finset.sum_congr rfl fun p hp => charge_eq hr (Finset.mem_range.mp hp) hq]
  have hquery : q < workload.queries.length := hQ ▸ hq
  have hplaces := hr.charged_le hA hsolv hother.made hq fun part hpart =>
    ((mem_touched (List.getElem?_eq_getElem hquery)).mp hpart).1
  exact hplaces.trans (touched_le hsolv hother.isPartition hother.made hserves' hquery)

theorem solve_leastPartition_two :
    ∃ parting, solve .exhaustive (seenOnce 2) twoQueries 1 = .ok parting ∧
      ∃ cost, Least (seenOnce 2) twoQueries (Admitted (seenOnce 2) twoQueries 1) parting cost := by
  obtain ⟨e, cs, he, hcs, hwithin, hfeasible⟩ := exists_feasible
    (fun e => constraints 1 e twoQueries (seenOnce 2)) (by decide +kernel)
  obtain ⟨parting, hrun⟩ := OptimalCommon.exists_solve
    (fun e => constraints 1 e twoQueries (seenOnce 2)) twoQueries_solvable he hcs hwithin hfeasible
  exact ⟨parting, hrun, solve_leastPartition twoQueries_solvable (by decide) hrun⟩

end OptimalNonOverlapping

end RailwayDB.Optimizer
