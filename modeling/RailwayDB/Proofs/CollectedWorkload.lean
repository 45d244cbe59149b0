/-
What a graph knows of the queries it was asked.

The collector has one bucket.  After any queries and resets it is empty when nothing was
asked since the last reset, and otherwise holds one workload, made of the queries since
then.  Read as the solvers read it, that workload has the attributes of the schema and a
summary for each collection of names, with its share of the queries.
-/
import RailwayDB.Core.QueryCollector
import RailwayDB.Proofs.BestPartitioning
import RailwayDB.Proofs.QueryMix

namespace RailwayDB

open Common (AttributePtr)
open Common.Cost (Sized)
open Optimizer (Solvable)

/-! ### Pointers -/

namespace Schema

variable {schema : Schema}

theorem deref_injective (schema : Schema) : Function.Injective schema.deref := by
  intro i j h
  exact Fin.ext (congrArg AttributePtr.index h)

@[simp] theorem length_attributePtrs (schema : Schema) :
    schema.attributePtrs.length = schema.attributes.length := by
  rw [attributePtrs, pointers, List.length_map, List.length_finRange]

theorem mem_attributePtrs (i : schema.Pointer) : schema.deref i ∈ schema.attributePtrs :=
  List.mem_map_of_mem (List.mem_finRange i)

theorem getElem?_attributePtrs {a : Nat} {attrb : AttributePtr}
    (h : schema.attributePtrs[a]? = some attrb) :
    ∃ i : schema.Pointer, i.val = a ∧ schema.deref i = attrb := by
  rw [attributePtrs, pointers, List.getElem?_map, Option.map_eq_some_iff] at h
  obtain ⟨i, hi, hattrb⟩ := h
  obtain ⟨hlt, hget⟩ := List.getElem?_eq_some_iff.mp hi
  refine ⟨i, ?_, hattrb⟩
  rw [← hget, List.getElem_finRange]
  rfl

/-- The names in the order of the positions. -/
theorem map_name_attributePtrs (schema : Schema) :
    schema.attributePtrs.map (·.name) = schema.names := by
  rw [attributePtrs, pointers, List.map_map, names]
  refine List.ext_getElem (by simp) ?_
  intro i hi hi'
  rw [List.getElem_map, List.getElem_map, List.getElem_finRange]
  rfl

theorem map_nameAt_pointers (schema : Schema) : schema.pointers.map schema.nameAt = schema.names := by
  rw [← map_name_attributePtrs, attributePtrs, List.map_map]
  rfl

end Schema

/-! ### Queries that can be counted -/

/-- Only a query for names that are known is counted. -/
theorem Common.Hashed.Counted.known_of_ok {A N : Type} [LinearOrder A] [LinearOrder N]
    {ptrHash : A → BitVec 64} {nameHash : N → BitVec 64} {getName : A → N} {attributes : List A}
    {table : AList fun _ : N => A} {qs : List (List N)} {names : List N}
    {w w' : Hashed.QueryWorkload A N}
    (h : Hashed.Counted ptrHash nameHash getName attributes table (Hashed.keysOf nameHash qs) w)
    (htable : ∀ n a, table.lookup n = some a → n ∈ attributes.map getName)
    (hknown : ∀ q ∈ qs, ∀ n ∈ q, n ∈ attributes.map getName)
    (hadd : w.addQuery ptrHash (.new nameHash names) = .ok w') :
    ∀ n ∈ names, n ∈ attributes.map getName := by
  have hback : ∀ n ∈ names, n ∈ (Hashed.Query.new nameHash names).attributeNames :=
    fun n hn => (List.mem_insertionSort _).mpr hn
  have hconsistent : Hashed.Query.Consistent nameHash (.new nameHash names) := rfl
  unfold Hashed.QueryWorkload.addQuery at hadd
  dsimp only at hadd
  rw [UnorderedMap.find?_eq_view Hashed.separates_names h.queryKeys hconsistent,
    h.summaries] at hadd
  split_ifs at hadd with hseen
  · obtain ⟨q, hq, heq⟩ := List.mem_map.mp hseen
    intro n hn
    have hmem := hback n hn
    rw [← heq] at hmem
    exact hknown q hq n ((List.mem_insertionSort _).mp hmem)
  · obtain ⟨found, hmap, -⟩ := Except.bind_eq_ok.mp hadd
    intro n hn
    obtain ⟨a, ha⟩ := Except.ok_of_mapM hmap (hback n hn)
    unfold Hashed.QueryWorkload.attributeOf at ha
    split at ha
    · next attrb hlookup =>
        rw [h.attributeTable] at hlookup
        exact htable n attrb hlookup
    · cases ha

/-! ### A workload as the solvers read it -/

namespace CollectedWorkload

open Common.Hashed

variable {schema : Schema} {s t : QuerySummary schema.Pointer}

theorem readSummary_eq_iff : readSummary s = readSummary t ↔ s.attributes = t.attributes := by
  unfold readSummary
  rw [Common.QuerySummary.mk.injEq]
  exact (schema.deref_injective.list_map).eq_iff

theorem lookup_readCounts (entries : List (QuerySummary schema.Pointer × ℚ))
    (s : QuerySummary schema.Pointer) : (readCounts entries).lookup (readSummary s)
      = (⟨entries⟩ : UnorderedMap _ ℚ).view QuerySummary.attributes s.attributes := by
  unfold UnorderedMap.view
  induction entries with
  | nil => rfl
  | cons e entries ih =>
      show ((readCounts entries).insert (readSummary e.1) e.2).lookup (readSummary s) = _
      by_cases he : e.1.attributes = s.attributes
      · rw [readSummary_eq_iff.mpr he, AList.lookup_insert,
          List.find?_cons_of_pos (by simpa using he)]
        rfl
      · have hne : readSummary s ≠ readSummary e.1 := fun h => he (readSummary_eq_iff.mp h).symm
        rw [AList.lookup_insert_ne hne, ih, List.find?_cons_of_neg (by simpa using he)]

/-- The solvers read the frequencies that were collected. -/
theorem getFrequency_read {ptrHash : schema.Pointer → BitVec 64} {w : CollectedWorkload schema}
    (hkeys : ∀ e ∈ w.counts.entries, QuerySummary.Normal ptrHash e.1)
    (hs : QuerySummary.Normal ptrHash s) :
    w.read.getFrequency (readSummary s) = w.getFrequency s := by
  have hlookup : (readCounts w.counts.entries).lookup (readSummary s)
      = w.counts.view QuerySummary.attributes s.attributes := lookup_readCounts w.counts.entries s
  unfold Common.QueryWorkload.getFrequency Common.Hashed.QueryWorkload.getFrequency
  rw [UnorderedMap.find?_eq_view separates_attributes hkeys hs, ← hlookup]
  rfl

/-! ### The mix of the queries -/

/-- The names of a summary, whatever their order. -/
def summaryNames (s : Common.QuerySummary) : Multiset Text := (s.attributes.map (·.name) : List Text)

theorem summaryNames_readSummary (s : QuerySummary schema.Pointer) :
    summaryNames (readSummary s) = namesOf schema.nameAt s := by
  unfold summaryNames readSummary namesOf
  rw [List.map_map]
  rfl

/-- A summary over the attributes of a schema for each collection of names that was asked for, with
its share of the queries. -/
structure Mix (schema : Schema) (qs : List (List Text)) (w : Common.QueryWorkload) : Prop where
  attributes : w.attributes = schema.attributePtrs
  within : ∀ s ∈ w.queries, ∀ attrb ∈ s.attributes, attrb ∈ w.attributes
  distinct : (w.queries.map summaryNames).Nodup
  seen : ∀ m, m ∈ w.queries.map summaryNames ↔ ∃ q ∈ qs, (q : Multiset Text) = m
  frequency : ∀ s ∈ w.queries, w.getFrequency s
    = .ok ((qs.countP fun q : List Text => (q : Multiset Text) = summaryNames s : ℕ)
        / (qs.length : ℚ))

/-- The solvers can rely on a mix, whatever its queries are. -/
theorem Mix.solvable {qs : List (List Text)} {w : Common.QueryWorkload} (h : Mix schema qs w)
    {stats : SchemaStats} {size : Nat → ℚ} (hsized : Sized schema.attributePtrs stats size)
    (hnonneg : ∀ a < schema.attributes.length, 0 ≤ size a) : Solvable w stats size := by
  refine ⟨?_, ?_, h.within, ?_⟩
  · rw [h.attributes]
    exact hsized
  · rw [h.attributes, Schema.length_attributePtrs]
    exact hnonneg
  · intro s hs
    exact ⟨_, h.frequency s hs, div_nonneg (Nat.cast_nonneg _) (Nat.cast_nonneg _)⟩

/-- Where a workload of the schema looks names up. -/
def tableOf (schema : Schema) : AList fun _ : Text => schema.Pointer :=
  (QueryWorkload.ofAttributes schema.nameAt schema.pointers).nameToAttribute

/-- The workload was made of the queries. -/
structure MadeOf (hashes : Hashes schema) (qs : List (List Text)) (w : CollectedWorkload schema) :
    Prop where
  attributes : w.attributes = schema.pointers
  counted : Common.Hashed.Counted hashes.ptrHash hashes.nameHash schema.nameAt schema.pointers
    (tableOf schema) (keysOf hashes.nameHash qs) w
  known : ∀ q ∈ qs, ∀ n ∈ q, n ∈ schema.pointers.map schema.nameAt

variable {hashes : Hashes schema} {qs : List (List Text)} {w w' : CollectedWorkload schema}
  {names : List Text}

/-- Names are compared in one way, by whichever instance. -/
theorem addQuery_eq (hashes : Hashes schema) (w : CollectedWorkload schema) (q : Query Text) :
    w.addQuery hashes.ptrHash q
      = @QueryWorkload.addQuery _ _ LinearOrder.toDecidableEq _ hashes.ptrHash w q := by
  congr 1
  exact Subsingleton.elim _ _

theorem ofAttributes_eq (schema : Schema) :
    QueryWorkload.ofAttributes schema.nameAt schema.pointers
      = @QueryWorkload.ofAttributes _ _ LinearOrder.toDecidableEq schema.nameAt schema.pointers := by
  congr 1
  exact Subsingleton.elim _ _

theorem table_tableOf (schema : Schema) :
    Table schema.nameAt schema.pointers (tableOf schema) := by
  rw [tableOf, ofAttributes_eq]
  exact (table_ofAttributes schema.nameAt schema.pointers).1

theorem attributes_ofAttributes (schema : Schema) :
    (QueryWorkload.ofAttributes schema.nameAt schema.pointers).attributes = schema.pointers := by
  unfold QueryWorkload.ofAttributes
  generalize schema.pointers = attributes
  induction attributes using List.reverseRecOn with
  | nil => rfl
  | append_singleton attributes attrb ih =>
      rw [List.foldl_append]
      exact congrArg (· ++ [attrb]) ih

theorem madeOf_nil (hashes : Hashes schema) :
    MadeOf hashes [] (QueryWorkload.ofAttributes schema.nameAt schema.pointers) := by
  refine ⟨attributes_ofAttributes schema, ?_, fun q hq => (List.not_mem_nil hq).elim⟩
  rw [tableOf, ofAttributes_eq]
  obtain ⟨-, hqueries, hsummaries, hcounts, htotal⟩ :=
    table_ofAttributes schema.nameAt schema.pointers
  exact counted_new rfl hqueries hsummaries hcounts htotal

theorem attributes_addQuery {q : Query Text} (h : w.addQuery hashes.ptrHash q = .ok w') :
    w'.attributes = w.attributes := by
  unfold QueryWorkload.addQuery at h
  dsimp only at h
  split at h
  · unfold QueryWorkload.countAgain at h
    split at h
    · cases h
    · rw [← Except.ok.inj h]
  · unfold QueryWorkload.countFirst at h
    obtain ⟨attributes, -, h⟩ := Except.bind_eq_ok.mp h
    rw [← Except.ok.inj h]

/-- Only queries for names of the schema are counted. -/
theorem MadeOf.known_of_ok (h : MadeOf hashes qs w)
    (hadd : w.addQuery hashes.ptrHash (.new hashes.nameHash names) = .ok w') :
    ∀ n ∈ names, n ∈ schema.pointers.map schema.nameAt := by
  rw [addQuery_eq] at hadd
  refine h.counted.known_of_ok ?_ h.known hadd
  intro n i hlookup
  rw [← (table_tableOf schema).name n i hlookup]
  exact List.mem_map_of_mem (List.mem_finRange i)

theorem MadeOf.addQuery (h : MadeOf hashes qs w)
    (hknown : ∀ n ∈ names, n ∈ schema.pointers.map schema.nameAt) :
    ∃ w', w.addQuery hashes.ptrHash (.new hashes.nameHash names) = .ok w' ∧
      MadeOf hashes (qs ++ [names]) w' := by
  obtain ⟨w', hadd, hcounted⟩ := h.counted.addQuery (table_tableOf schema)
    (q := Query.new hashes.nameHash names) rfl (key_new hknown)
  rw [← addQuery_eq] at hadd
  refine ⟨w', hadd, (attributes_addQuery hadd).trans h.attributes, ?_, ?_⟩
  · unfold keysOf
    rw [List.map_append]
    exact hcounted
  · intro q hq
    rcases List.mem_append.mp hq with hq | hq
    · exact h.known q hq
    · rw [List.mem_singleton.mp hq]
      exact hknown

/-- **The solvers read the mix of the queries.** -/
theorem MadeOf.mix (h : MadeOf hashes qs w) : Mix schema qs w.read := by
  have hmix := h.counted.queryMix (table_tableOf schema) h.known
  have hmap : w.read.queries.map summaryNames = w.queries.map (namesOf schema.nameAt) := by
    show (w.queries.map readSummary).map summaryNames = _
    rw [List.map_map]
    exact List.map_congr_left fun s _ => summaryNames_readSummary s
  have hattributes : w.read.attributes = schema.attributePtrs := by
    show w.attributes.map schema.deref = _
    rw [h.attributes, Schema.attributePtrs]
  refine ⟨hattributes, ?_, ?_, ?_, ?_⟩
  · intro s hs attrb hattrb
    obtain ⟨t, -, rfl⟩ := List.mem_map.mp hs
    obtain ⟨i, -, rfl⟩ := List.mem_map.mp hattrb
    rw [hattributes]
    exact Schema.mem_attributePtrs i
  · rw [hmap]
    exact hmix.distinct
  · intro m
    rw [hmap]
    exact hmix.seen m
  · intro s hs
    obtain ⟨t, ht, rfl⟩ := List.mem_map.mp hs
    obtain ⟨distinct, -, -, hqueries⟩ := h.counted.queries
    have hnormal : QuerySummary.Normal hashes.ptrHash t := by
      rw [hqueries] at ht
      obtain ⟨names, -, rfl⟩ := List.mem_map.mp ht
      exact normal_summaryOf _ names
    rw [getFrequency_read h.counted.summaryKeys hnormal, hmix.frequency t ht,
      summaryNames_readSummary]
    -- the two counts compare by different instances
    refine congrArg (fun n : ℕ => Except.ok ((n : ℚ) / (qs.length : ℚ))) ?_
    exact List.countP_congr (by simp)

end CollectedWorkload

/-! ### Queries and resets -/

namespace QueryCollector

open Common.Hashed CollectedWorkload

variable {schema : Schema} {hashes : Hashes schema} {qs : List (List Text)}
  {qcol qcol' : QueryCollector schema} {names : List Text}

/-- The queries a collector took in since it was last reset. -/
inductive Collected (hashes : Hashes schema) : List (List Text) → QueryCollector schema → Prop
  | new : Collected hashes [] .new
  | collect {qs : List (List Text)} {qcol qcol' : QueryCollector schema} (names : List Text) :
      Collected hashes qs qcol →
      qcol.collectFocusedIntervalQuery hashes (.new hashes.nameHash names) = .ok qcol' →
      Collected hashes (qs ++ [names]) qcol'
  | reset {qs : List (List Text)} {qcol : QueryCollector schema} :
      Collected hashes qs qcol → Collected hashes [] qcol.reset

/-- The workload a query is added to. -/
def current (qcol : QueryCollector schema) : CollectedWorkload schema :=
  match qcol.workloads.find? 0 with
  | some workload => workload
  | none => QueryWorkload.ofAttributes schema.nameAt schema.pointers

/-- There is one bucket. -/
theorem collect_eq (hashes : Hashes schema) (q : Query Text) (qcol : QueryCollector schema) :
    qcol.collectFocusedIntervalQuery hashes q
      = (qcol.current.addQuery hashes.ptrHash q).map fun w => ⟨qcol.workloads.insert 0 w⟩ := by
  unfold collectFocusedIntervalQuery getBuckets current
  rw [List.foldlM_cons, addTo]
  cases qcol.workloads.find? 0 with
  | none =>
      dsimp only
      cases QueryWorkload.addQuery hashes.ptrHash _ q with
      | error e => rfl
      | ok w => rfl
  | some workload =>
      dsimp only
      cases workload.addQuery hashes.ptrHash q with
      | error e => rfl
      | ok w => rfl

/-- Attributes with the names `a` and `b`. -/
def twoNames : Schema := ⟨[⟨[97], .string⟩, ⟨[98], .string⟩]⟩

/-- Every pointer and every name has the hash 0. -/
def constantHashes : Hashes twoNames := ⟨fun _ => 0, fun _ => 0⟩

def threeQueries : List (List Text) := [[[97], [98]], [[97]], [[98], [97]]]

/-- No workload before the first query, and one after it. -/
structure Holds (hashes : Hashes schema) (qs : List (List Text)) (qcol : QueryCollector schema) :
    Prop where
  none : qs = [] → qcol.workloads.entries = []
  one : qs ≠ [] → ∃ w, qcol.workloads.entries = [(0, w)]
  current : MadeOf hashes qs qcol.current

theorem find?_of_entries {w : CollectedWorkload schema}
    (h : qcol.workloads.entries = [(0, w)]) : qcol.workloads.find? 0 = some w := by
  rw [← SortedMap.mem_iff_find?, h]
  exact List.mem_singleton_self _

theorem current_of_entries {w : CollectedWorkload schema}
    (h : qcol.workloads.entries = [(0, w)]) : qcol.current = w := by
  rw [QueryCollector.current, find?_of_entries h]

theorem Holds.of_nil (h : qcol.workloads.entries = []) : Holds hashes [] qcol := by
  refine ⟨fun _ => h, fun hne => absurd rfl hne, ?_⟩
  have hfind : qcol.workloads.find? 0 = Option.none := by
    rw [SortedMap.find?_eq_none, h]
    exact fun e he => (List.not_mem_nil he).elim
  rw [QueryCollector.current, hfind]
  exact madeOf_nil hashes

theorem Holds.entries_insert (h : Holds hashes qs qcol) (w : CollectedWorkload schema) :
    (qcol.workloads.insert 0 w).entries = [(0, w)] := by
  show SortedMap.insertEntry 0 w qcol.workloads.entries = _
  cases qs with
  | nil =>
      rw [h.none rfl]
      rfl
  | cons q qs =>
      obtain ⟨w', hentries⟩ := h.one (List.cons_ne_nil q qs)
      rw [hentries]
      rfl

theorem Holds.collect (h : Holds hashes qs qcol)
    (hrun : qcol.collectFocusedIntervalQuery hashes (.new hashes.nameHash names) = .ok qcol') :
    Holds hashes (qs ++ [names]) qcol' := by
  rw [collect_eq] at hrun
  obtain ⟨w, hadd, rfl⟩ := Except.map_eq_ok.mp hrun
  obtain ⟨w', hadd', hmade⟩ := h.current.addQuery (h.current.known_of_ok hadd)
  rw [hadd, Except.ok.injEq] at hadd'
  have hentries := h.entries_insert w
  refine ⟨fun hnil => ?_, fun _ => ⟨w, hentries⟩, ?_⟩
  · exact absurd hnil (List.append_ne_nil_of_right_ne_nil qs (List.cons_ne_nil names []))
  · have hcurrent : QueryCollector.current ⟨qcol.workloads.insert 0 w⟩ = w :=
      current_of_entries hentries
    rw [hcurrent, hadd']
    exact hmade

theorem Collected.holds (h : Collected hashes qs qcol) : Holds hashes qs qcol := by
  induction h with
  | new => exact .of_nil rfl
  | collect names _ hrun ih => exact ih.collect hrun
  | reset _ _ => exact .of_nil rfl

/-- A query is taken in exactly when it asks for names of the schema. -/
theorem Holds.collects_iff (h : Holds hashes qs qcol) :
    (∃ qcol', qcol.collectFocusedIntervalQuery hashes (.new hashes.nameHash names) = .ok qcol') ↔
      ∀ n ∈ names, n ∈ schema.names := by
  rw [← Schema.map_nameAt_pointers schema, collect_eq]
  refine ⟨?_, ?_⟩
  · intro hcollects
    obtain ⟨qcol', hrun⟩ := hcollects
    obtain ⟨w, hadd, -⟩ := Except.map_eq_ok.mp hrun
    exact h.current.known_of_ok hadd
  · intro hknown
    obtain ⟨w, hadd, -⟩ := h.current.addQuery hknown
    exact ⟨_, by rw [hadd, Except.ok_map]⟩

/-- Queries for names of the schema can be collected. -/
theorem exists_collected (hashes : Hashes schema) (qs : List (List Text))
    (hknown : ∀ q ∈ qs, ∀ n ∈ q, n ∈ schema.names) : ∃ qcol, Collected hashes qs qcol := by
  induction qs using List.reverseRecOn with
  | nil => exact ⟨_, .new⟩
  | append_singleton qs q ih =>
      obtain ⟨qcol, hcollected⟩ := ih fun q' hq' => hknown q' (List.mem_append_left _ hq')
      have hq := hknown q (List.mem_append_right _ (List.mem_singleton_self q))
      obtain ⟨qcol', hrun⟩ := hcollected.holds.collects_iff.mpr hq
      exact ⟨qcol', hcollected.collect q hrun⟩

/-- **What a collector knows of its queries.**  After any queries and resets there is no workload
before the first query and one after it, which for the solvers is the mix of the queries since the
last reset.  A query is taken in exactly when it asks for names of the schema. -/
theorem Collected.collects_mix (h : Collected hashes qs qcol) :
    (qs = [] → qcol.workloads.entries = []) ∧
      (qs ≠ [] → ∃ w, qcol.workloads.entries = [(0, w)] ∧ Mix schema qs w.read ∧
        ∀ stats size, Sized schema.attributePtrs stats size →
          (∀ a < schema.attributes.length, 0 ≤ size a) → Solvable w.read stats size) ∧
      ∀ names, (∃ qcol', qcol.collectFocusedIntervalQuery hashes (.new hashes.nameHash names)
        = .ok qcol') ↔ ∀ n ∈ names, n ∈ schema.names := by
  have hholds := h.holds
  refine ⟨hholds.none, ?_, fun names => hholds.collects_iff⟩
  intro hne
  obtain ⟨w, hentries⟩ := hholds.one hne
  have hmix : Mix schema qs w.read := by
    rw [← current_of_entries hentries]
    exact hholds.current.mix
  exact ⟨w, hentries, hmix, fun stats size hsized hnonneg => hmix.solvable hsized hnonneg⟩

/-- Three queries, two of them with the same names in a different order. -/
theorem collects_mix_three :
    ∃ qcol : QueryCollector twoNames, Collected constantHashes threeQueries qcol ∧
      (threeQueries = [] → qcol.workloads.entries = []) ∧
      (threeQueries ≠ [] → ∃ w, qcol.workloads.entries = [(0, w)] ∧ Mix twoNames threeQueries w.read ∧
        ∀ stats size, Sized twoNames.attributePtrs stats size →
          (∀ a < twoNames.attributes.length, 0 ≤ size a) → Solvable w.read stats size) ∧
      ∀ names, (∃ qcol', qcol.collectFocusedIntervalQuery constantHashes
        (.new constantHashes.nameHash names) = .ok qcol') ↔ ∀ n ∈ names, n ∈ twoNames.names := by
  obtain ⟨qcol, h⟩ := exists_collected constantHashes threeQueries (by decide)
  exact ⟨qcol, h, h.collects_mix⟩

end QueryCollector

end RailwayDB
