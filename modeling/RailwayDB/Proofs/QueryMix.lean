/-
The frequencies of the queries that were added.

`addQuery` counts a query through two hash maps.  One leads from the query, by its
names in order, to a summary; the other from the summary, by its attributes in order,
to a count.  Both are filled when a query comes for the first time.  `Counted` says
what they hold after a list of queries: as functions of the names, each is defined on
the names seen so far, and the counts are those of the list.

The names of a query determine its attributes and are read off them again, so neither
map takes two queries with different names for one.
-/
import RailwayDB.Proofs.QuerySummary
import RailwayDB.Lib.Except
import Mathlib.Algebra.BigOperators.Group.List.Lemmas
import Mathlib.Algebra.BigOperators.Ring.Finset
import Mathlib.Data.Multiset.Basic

namespace RailwayDB.Common.Hashed

variable {A N : Type} [LinearOrder A] [LinearOrder N] {ptrHash : A → BitVec 64}
  {nameHash : N → BitVec 64} {getName : A → N}

/-! ### Keys -/

/-- A query whose hash code is that of its names. -/
def Query.Consistent (nameHash : N → BitVec 64) (q : Query N) : Prop :=
  q.hash = Query.hashOf nameHash q.attributeNames

theorem separates_names :
    UnorderedMap.Separates Query.attributeNames (Query.Consistent nameHash) := by
  intro q q' hq hq'
  have hequals : q.equals q' = true ↔ q.attributeNames = q'.attributeNames := all_zip_iff
  refine ⟨fun hsame => hequals.mp hsame.2, ?_⟩
  intro hnames
  refine ⟨?_, hequals.mpr hnames⟩
  show q.hash = q'.hash
  rw [hq, hq', hnames]

theorem separates_attributes :
    UnorderedMap.Separates QuerySummary.attributes (QuerySummary.Normal ptrHash) := by
  intro s t hs ht
  rw [QuerySummary.same_iff]
  refine ⟨fun hsame => hsame.2, ?_⟩
  intro hattributes
  exact ⟨by rw [hs.hash, ht.hash, hattributes], hattributes⟩

/-! ### Names and attributes -/

/-- The attributes a table has for some names. -/
def attributesOf (table : AList fun _ : N => A) (names : List N) : List A :=
  names.filterMap fun name => table.lookup name

/-- The summary of some names. -/
def summaryOf (ptrHash : A → BitVec 64) (table : AList fun _ : N => A) (names : List N) :
    QuerySummary A :=
  .ofAttributes ptrHash (attributesOf table names)

/-- The table has each name of the attributes, and under it an attribute of that name. -/
structure Table (getName : A → N) (attributes : List A) (table : AList fun _ : N => A) : Prop where
  name : ∀ n a, table.lookup n = some a → getName a = n
  known : ∀ n ∈ attributes.map getName, table.lookup n ≠ none

theorem table_ofAttributes {A : Type} (getName : A → N) (attributes : List A) :
    Table getName attributes (QueryWorkload.ofAttributes getName attributes).nameToAttribute ∧
      (QueryWorkload.ofAttributes getName attributes).queries = [] ∧
      (QueryWorkload.ofAttributes getName attributes).summaries = .empty ∧
      (QueryWorkload.ofAttributes getName attributes).counts = .empty ∧
      (QueryWorkload.ofAttributes getName attributes).totalQueries = 0 := by
  unfold QueryWorkload.ofAttributes
  induction attributes using List.reverseRecOn with
  | nil =>
      refine ⟨⟨?_, ?_⟩, rfl, rfl, rfl, rfl⟩
      · intro n a h
        simp [QueryWorkload.new] at h
      · simp
  | append_singleton attributes attrb ih =>
      rw [List.foldl_append]
      obtain ⟨htable, hqueries, hsummaries, hcounts, htotal⟩ := ih
      refine ⟨⟨?_, ?_⟩, hqueries, hsummaries, hcounts, htotal⟩
      · intro n a h
        have h : (AList.insert (β := fun _ : N => A) (getName attrb) attrb _).lookup n = some a := h
        by_cases hn : n = getName attrb
        · rw [hn, AList.lookup_insert, Option.some.injEq] at h
          rw [← h, hn]
        · rw [AList.lookup_insert_ne hn] at h
          exact htable.name n a h
      · intro n hn
        show (AList.insert (β := fun _ : N => A) (getName attrb) attrb _).lookup n ≠ none
        by_cases heq : n = getName attrb
        · rw [heq, AList.lookup_insert]
          exact Option.some_ne_none _
        · rw [AList.lookup_insert_ne heq]
          refine htable.known n ?_
          rw [List.map_append, List.mem_append, List.map_singleton, List.mem_singleton] at hn
          exact hn.resolve_right heq

variable {attributes : List A} {table : AList fun _ : N => A} {names names' : List N}

/-- The names can be read off the attributes. -/
theorem Table.map_attributesOf {A : Type} {getName : A → N} {attributes : List A}
    {table : AList fun _ : N => A} (ht : Table getName attributes table)
    (hnames : ∀ n ∈ names, n ∈ attributes.map getName) :
    (attributesOf table names).map getName = names := by
  unfold attributesOf
  induction names with
  | nil => rfl
  | cons n names ih =>
      obtain ⟨a, ha⟩ := Option.ne_none_iff_exists'.mp
        (ht.known n (hnames n List.mem_cons_self))
      rw [List.filterMap_cons, ha, List.map_cons, ht.name n a ha,
        ih fun n hn => hnames n (List.mem_cons_of_mem _ hn)]

theorem Table.attributes_perm (ht : Table getName attributes table)
    (hnames : ∀ n ∈ names, n ∈ attributes.map getName) :
    ((summaryOf ptrHash table names).attributes.map getName).Perm names := by
  have hperm := (QuerySummary.attributes_ofAttributes_perm ptrHash
    (attributesOf table names)).map getName
  rw [ht.map_attributesOf hnames] at hperm
  exact hperm

/-- Names in order are determined by the summary. -/
theorem Table.names_eq (ht : Table getName attributes table)
    (hnames : ∀ n ∈ names, n ∈ attributes.map getName)
    (hnames' : ∀ n ∈ names', n ∈ attributes.map getName) (hsorted : names.Pairwise (· ≤ ·))
    (hsorted' : names'.Pairwise (· ≤ ·))
    (heq : (summaryOf ptrHash table names).attributes
      = (summaryOf ptrHash table names').attributes) : names = names' := by
  have hperm : ((summaryOf ptrHash table names).attributes.map getName).Perm names :=
    ht.attributes_perm hnames
  rw [heq] at hperm
  exact (hperm.symm.trans (ht.attributes_perm hnames')).eq_of_pairwise' hsorted hsorted'

theorem Table.mapM_attributeOf {A : Type} {getName : A → N} {attributes : List A}
    {table : AList fun _ : N => A} (ht : Table getName attributes table)
    (hnames : ∀ n ∈ names, n ∈ attributes.map getName) {w : QueryWorkload A N}
    (hw : w.nameToAttribute = table) :
    names.mapM w.attributeOf = .ok (attributesOf table names) := by
  unfold attributesOf
  induction names with
  | nil => rfl
  | cons n names ih =>
      obtain ⟨a, ha⟩ := Option.ne_none_iff_exists'.mp
        (ht.known n (hnames n List.mem_cons_self))
      have hone : w.attributeOf n = .ok a := by
        unfold QueryWorkload.attributeOf
        rw [hw, ha]
      rw [List.mapM_cons, hone, Except.ok_bind, ih fun n hn => hnames n (List.mem_cons_of_mem _ hn),
        List.filterMap_cons, ha]
      rfl

/-! ### Counting -/

/-- Names in order, each that of an attribute. -/
structure Key (getName : A → N) (attributes : List A) (names : List N) : Prop where
  sorted : names.Pairwise (· ≤ ·)
  known : ∀ n ∈ names, n ∈ attributes.map getName

/-- The workload after queries with the names `seen`. -/
structure Counted (ptrHash : A → BitVec 64) (nameHash : N → BitVec 64) (getName : A → N)
    (attributes : List A) (table : AList fun _ : N => A) (seen : List (List N))
    (w : QueryWorkload A N) : Prop where
  attributeTable : w.nameToAttribute = table
  total : w.totalQueries = seen.length
  queries : ∃ distinct : List (List N), distinct.Nodup ∧
    (∀ names, names ∈ distinct ↔ names ∈ seen) ∧ w.queries = distinct.map (summaryOf ptrHash table)
  queryKeys : ∀ e ∈ w.summaries.entries, Query.Consistent nameHash e.1
  summaryKeys : ∀ e ∈ w.counts.entries, QuerySummary.Normal ptrHash e.1
  summaries : ∀ names, w.summaries.view Query.attributeNames names
    = if names ∈ seen then some (summaryOf ptrHash table names) else none
  counts : ∀ names, Key getName attributes names →
    w.counts.view QuerySummary.attributes (summaryOf ptrHash table names).attributes
      = if names ∈ seen then some (seen.count names : ℚ) else none

theorem normal_summaryOf (table : AList fun _ : N => A) (names : List N) :
    QuerySummary.Normal ptrHash (summaryOf ptrHash table names) :=
  QuerySummary.normal_ofAttributes ptrHash _

section Step

variable {seen : List (List N)} {w : QueryWorkload A N}

theorem Counted.find_count (h : Counted ptrHash nameHash getName attributes table seen w)
    (hkey : Key getName attributes names) :
    w.counts.find? (summaryOf ptrHash table names)
      = if names ∈ seen then some (seen.count names : ℚ) else none := by
  rw [UnorderedMap.find?_eq_view separates_attributes h.summaryKeys (normal_summaryOf table names)]
  exact h.counts names hkey

/-- The count under the summary of some names goes up; the others stay. -/
theorem Counted.view_counts (h : Counted ptrHash nameHash getName attributes table seen w)
    (ht : Table getName attributes table) (hkey : Key getName attributes names)
    {counts : UnorderedMap (QuerySummary A) ℚ}
    (hcounts : counts.view QuerySummary.attributes = Function.update
      (w.counts.view QuerySummary.attributes) (summaryOf ptrHash table names).attributes
      (some ((seen.count names : ℚ) + 1))) {names' : List N}
    (hkey' : Key getName attributes names') :
    counts.view QuerySummary.attributes (summaryOf ptrHash table names').attributes
      = if names' ∈ seen ++ [names] then some ((seen ++ [names]).count names' : ℚ) else none := by
  rw [hcounts, List.count_append]
  by_cases heq : names' = names
  · have hmem : names ∈ seen ++ [names] := List.mem_append_right seen List.mem_cons_self
    rw [heq, Function.update_self, if_pos hmem, List.count_singleton_self, Nat.cast_add,
      Nat.cast_one]
  · have hne : (summaryOf ptrHash table names').attributes
        ≠ (summaryOf ptrHash table names).attributes :=
      fun hsame => heq (ht.names_eq hkey'.known hkey.known hkey'.sorted hkey.sorted hsame)
    have hzero : [names].count names' = 0 := by simp [Ne.symm heq]
    rw [Function.update_of_ne hne, h.counts names' hkey', hzero, Nat.add_zero]
    simp [heq]

/-- One query is counted, whether it has come before or not. -/
theorem Counted.addQuery (h : Counted ptrHash nameHash getName attributes table seen w)
    (ht : Table getName attributes table) {q : Query N} (hq : Query.Consistent nameHash q)
    (hkey : Key getName attributes q.attributeNames) :
    ∃ w', w.addQuery ptrHash q = .ok w' ∧
      Counted ptrHash nameHash getName attributes table (seen ++ [q.attributeNames]) w' := by
  have htotal : w.totalQueries + 1 = ((seen ++ [q.attributeNames]).length : ℚ) := by
    rw [List.length_append, Nat.cast_add, h.total]
    simp
  have hfind : w.summaries.find? q
      = if q.attributeNames ∈ seen then some (summaryOf ptrHash table q.attributeNames)
        else none := by
    rw [UnorderedMap.find?_eq_view separates_names h.queryKeys hq]
    exact h.summaries q.attributeNames
  have hcount := h.find_count hkey
  unfold QueryWorkload.addQuery
  by_cases hseen : q.attributeNames ∈ seen
  · -- The summary has a count: it goes up by one, and the `emplace` after it does nothing.
    rw [if_pos hseen] at hfind hcount
    have hview : w.counts.view QuerySummary.attributes
        (summaryOf ptrHash table q.attributeNames).attributes ≠ none := by
      rw [h.counts _ hkey, if_pos hseen]
      exact Option.some_ne_none _
    have hassign := UnorderedMap.view_assign separates_attributes h.summaryKeys
      (normal_summaryOf table q.attributeNames) hview ((seen.count q.attributeNames : ℚ) + 1)
    have hkeys : ∀ e ∈ (w.counts.assign (summaryOf ptrHash table q.attributeNames)
        ((seen.count q.attributeNames : ℚ) + 1)).entries, QuerySummary.Normal ptrHash e.1 := by
      intro e he
      have hmem := List.mem_map_of_mem (f := Prod.fst) he
      rw [UnorderedMap.keys_assign, List.mem_map] at hmem
      obtain ⟨d, hd, hde⟩ := hmem
      rw [← hde]
      exact h.summaryKeys d hd
    have hthere : (w.counts.assign (summaryOf ptrHash table q.attributeNames)
        ((seen.count q.attributeNames : ℚ) + 1)).find?
          (summaryOf ptrHash table q.attributeNames) ≠ none := by
      rw [UnorderedMap.find?_eq_view separates_attributes hkeys (normal_summaryOf _ _), hassign,
        Function.update_self]
      exact Option.some_ne_none _
    simp only [hfind, QueryWorkload.countAgain, hcount, UnorderedMap.emplace_of_some hthere]
    refine ⟨_, rfl, h.attributeTable, htotal, ?_, h.queryKeys, hkeys, ?_, ?_⟩
    · obtain ⟨distinct, hnodup, hmem, hqueries⟩ := h.queries
      refine ⟨distinct, hnodup, ?_, hqueries⟩
      intro names
      rw [hmem, List.mem_append, List.mem_singleton]
      refine ⟨Or.inl, ?_⟩
      rintro (hmem | heq)
      · exact hmem
      · rw [heq]
        exact hseen
    · intro names
      rw [h.summaries]
      by_cases heq : names = q.attributeNames
      · simp [heq, hseen]
      · simp [heq]
    · intro names' hkey'
      exact h.view_counts ht hkey hassign hkey'
  · -- Both maps get an entry.
    rw [if_neg hseen] at hfind hcount
    have hview : w.counts.view QuerySummary.attributes
        (summaryOf ptrHash table q.attributeNames).attributes = none := by
      rw [h.counts _ hkey, if_neg hseen]
    have hemplace := UnorderedMap.view_emplace separates_attributes h.summaryKeys
      (normal_summaryOf table q.attributeNames) hview 1
    have hzero : (1 : ℚ) = (seen.count q.attributeNames : ℚ) + 1 := by
      rw [List.count_eq_zero_of_not_mem hseen, Nat.cast_zero, zero_add]
    have hviewQ : w.summaries.view Query.attributeNames q.attributeNames = none := by
      rw [h.summaries, if_neg hseen]
    have hemplaceQ := UnorderedMap.view_emplace separates_names h.queryKeys hq hviewQ
      (summaryOf ptrHash table q.attributeNames)
    have hmap : q.attributeNames.mapM
        (QueryWorkload.attributeOf { w with totalQueries := w.totalQueries + 1 })
        = .ok (attributesOf table q.attributeNames) :=
      ht.mapM_attributeOf hkey.known h.attributeTable
    simp only [hfind, QueryWorkload.countFirst, hmap, Except.ok_bind]
    refine ⟨_, rfl, h.attributeTable, htotal, ?_, ?_, ?_, ?_, ?_⟩
    · obtain ⟨distinct, hnodup, hmem, hqueries⟩ := h.queries
      refine ⟨distinct ++ [q.attributeNames], ?_, ?_, ?_⟩
      · rw [List.nodup_append_comm]
        exact List.nodup_cons.mpr ⟨fun hin => hseen ((hmem _).mp hin), hnodup⟩
      · intro names
        rw [List.mem_append, List.mem_append, hmem]
      · rw [List.map_append, ← hqueries]
        rfl
    · intro e he
      rcases UnorderedMap.mem_emplace he with he | he
      · exact h.queryKeys e he
      · rw [he]
        exact hq
    · intro e he
      rcases UnorderedMap.mem_emplace he with he | he
      · exact h.summaryKeys e he
      · rw [he]
        exact normal_summaryOf table q.attributeNames
    · intro names
      show (w.summaries.emplace q (summaryOf ptrHash table q.attributeNames)).view _ names = _
      rw [hemplaceQ]
      by_cases heq : names = q.attributeNames
      · simp [heq]
      · rw [Function.update_of_ne heq, h.summaries]
        simp [heq]
    · intro names' hkey'
      refine h.view_counts ht hkey (hemplace.trans ?_) hkey'
      rw [← hzero]

end Step

/-! ### The whole mix -/

theorem key_new {A : Type} {getName : A → N} {attributes : List A}
    (hnames : ∀ n ∈ names, n ∈ attributes.map getName) :
    Key getName attributes (Query.new nameHash names).attributeNames := by
  refine ⟨List.pairwise_insertionSort _ names, ?_⟩
  intro n hn
  exact hnames n ((List.mem_insertionSort _).mp hn)

/-- The queries are added, one after the other. -/
def addQueries (ptrHash : A → BitVec 64) (nameHash : N → BitVec 64) (w : QueryWorkload A N)
    (qs : List (List N)) : Except Fault (QueryWorkload A N) :=
  qs.foldlM (fun w q => w.addQuery ptrHash (Query.new nameHash q)) w

theorem Counted.addQueries {seen : List (List N)} {w : QueryWorkload A N}
    (h : Counted ptrHash nameHash getName attributes table seen w)
    (ht : Table getName attributes table) {qs : List (List N)}
    (hnames : ∀ q ∈ qs, ∀ n ∈ q, n ∈ attributes.map getName) :
    ∃ w', Hashed.addQueries ptrHash nameHash w qs = .ok w' ∧
      Counted ptrHash nameHash getName attributes table
        (seen ++ qs.map fun q => (Query.new nameHash q).attributeNames) w' := by
  unfold Hashed.addQueries
  induction qs generalizing seen w with
  | nil => exact ⟨w, rfl, by rw [List.map_nil, List.append_nil]; exact h⟩
  | cons q qs ih =>
      obtain ⟨w₁, hadd, h₁⟩ := h.addQuery ht (q := Query.new nameHash q) rfl
        (key_new (hnames q List.mem_cons_self))
      obtain ⟨w₂, hrest, h₂⟩ := ih h₁ fun q hq => hnames q (List.mem_cons_of_mem _ hq)
      refine ⟨w₂, ?_, ?_⟩
      · rw [List.foldlM_cons, hadd, Except.ok_bind]
        exact hrest
      · rw [List.map_cons, List.append_cons]
        exact h₂

theorem counted_new {w : QueryWorkload A N} (htable : w.nameToAttribute = table)
    (hqueries : w.queries = []) (hsummaries : w.summaries = .empty)
    (hcounts : w.counts = .empty) (htotal : w.totalQueries = 0) :
    Counted ptrHash nameHash getName attributes table [] w := by
  refine ⟨htable, by rw [htotal]; rfl, ⟨[], List.nodup_nil, by simp, by rw [hqueries]; rfl⟩, ?_, ?_,
    ?_, ?_⟩
  · simp [hsummaries, UnorderedMap.empty]
  · simp [hcounts, UnorderedMap.empty]
  · intro names
    rw [hsummaries]
    simp [UnorderedMap.view_empty]
  · intro names _
    rw [hcounts]
    simp [UnorderedMap.view_empty]

/-- The names of a summary, whatever their order. -/
def namesOf (getName : A → N) (s : QuerySummary A) : Multiset N :=
  (s.attributes.map getName : List N)

/-- Two queries have one key exactly when they have the same names. -/
theorem names_new_eq_iff {names : List N} (hsorted : names.Pairwise (· ≤ ·)) (q : List N) :
    (Query.new nameHash q).attributeNames = names ↔ (q : Multiset N) = names := by
  have hperm : (Query.new nameHash q).attributeNames.Perm q := List.perm_insertionSort _ q
  rw [Multiset.coe_eq_coe]
  refine ⟨?_, ?_⟩
  · intro heq
    rw [← heq]
    exact hperm.symm
  · intro hq
    exact (hperm.trans hq).eq_of_pairwise' (List.pairwise_insertionSort _ q) hsorted

/-- The names of the queries, each in order. -/
def keysOf (nameHash : N → BitVec 64) (qs : List (List N)) : List (List N) :=
  qs.map fun q => (Query.new nameHash q).attributeNames

theorem sorted_of_mem_keysOf {qs : List (List N)} (h : names ∈ keysOf nameHash qs) :
    names.Pairwise (· ≤ ·) := by
  obtain ⟨q, _, rfl⟩ := List.mem_map.mp h
  exact List.pairwise_insertionSort _ q

theorem count_keysOf (hsorted : names.Pairwise (· ≤ ·)) (qs : List (List N)) :
    (keysOf nameHash qs).count names = qs.countP fun q : List N => (q : Multiset N) = names := by
  unfold keysOf
  rw [List.count_eq_countP, List.countP_map]
  refine List.countP_congr ?_
  intro q _
  rw [Function.comp_apply, beq_iff_eq, decide_eq_true_iff]
  exact names_new_eq_iff hsorted q

/-- A summary for each collection of names that was queried, with its share of the queries. -/
structure QueryMix (getName : A → N) (qs : List (List N)) (w : QueryWorkload A N) : Prop where
  distinct : (w.queries.map (namesOf getName)).Nodup
  seen : ∀ m, m ∈ w.queries.map (namesOf getName) ↔ ∃ q ∈ qs, (q : Multiset N) = m
  frequency : ∀ s ∈ w.queries, w.getFrequency s
    = .ok ((qs.countP fun q : List N => (q : Multiset N) = namesOf getName s : ℕ) / (qs.length : ℚ))

section Mix

variable {qs : List (List N)} {w : QueryWorkload A N}

/-- The summaries by their names in order, and what is found for each. -/
theorem Counted.exists_names
    (h : Counted ptrHash nameHash getName attributes table (keysOf nameHash qs) w)
    (ht : Table getName attributes table)
    (hnames : ∀ q ∈ qs, ∀ n ∈ q, n ∈ attributes.map getName) :
    ∃ distinct : List (List N), distinct.Nodup ∧
      (∀ names, names ∈ distinct ↔ names ∈ keysOf nameHash qs) ∧
      w.queries = distinct.map (summaryOf ptrHash table) ∧
      (∀ names ∈ distinct, namesOf getName (summaryOf ptrHash table names) = names) ∧
      ∀ names ∈ distinct, w.getFrequency (summaryOf ptrHash table names)
        = .ok ((keysOf nameHash qs).count names / (qs.length : ℚ)) := by
  obtain ⟨distinct, hnodup, hmem, hqueries⟩ := h.queries
  have hkey : ∀ names ∈ distinct, Key getName attributes names := by
    intro names hn
    obtain ⟨q, hq, rfl⟩ := List.mem_map.mp ((hmem names).mp hn)
    exact key_new (hnames q hq)
  refine ⟨distinct, hnodup, hmem, hqueries, ?_, ?_⟩
  · intro names hn
    exact Multiset.coe_eq_coe.mpr (ht.attributes_perm (hkey names hn).known)
  · intro names hn
    have hlength : (keysOf nameHash qs).length = qs.length := List.length_map _
    unfold QueryWorkload.getFrequency
    rw [h.find_count (hkey names hn), if_pos ((hmem names).mp hn), h.total, hlength]

theorem Counted.queryMix
    (h : Counted ptrHash nameHash getName attributes table (keysOf nameHash qs) w)
    (ht : Table getName attributes table)
    (hnames : ∀ q ∈ qs, ∀ n ∈ q, n ∈ attributes.map getName) : QueryMix getName qs w := by
  obtain ⟨distinct, hnodup, hmem, hqueries, hnamesOf, hfrequency⟩ := h.exists_names ht hnames
  have hsorted : ∀ names ∈ distinct, names.Pairwise (· ≤ ·) :=
    fun names hn => sorted_of_mem_keysOf ((hmem names).mp hn)
  have hmap : w.queries.map (namesOf getName) = distinct.map Multiset.ofList := by
    rw [hqueries, List.map_map]
    exact List.map_congr_left hnamesOf
  refine ⟨?_, ?_, ?_⟩
  · rw [hmap]
    refine hnodup.map_on ?_
    intro names hn names' hn' heq
    exact (Multiset.coe_eq_coe.mp heq).eq_of_pairwise' (hsorted names hn) (hsorted names' hn')
  · intro m
    rw [hmap, List.mem_map]
    refine ⟨?_, ?_⟩
    · rintro ⟨names, hn, rfl⟩
      obtain ⟨q, hq, heq⟩ := List.mem_map.mp ((hmem names).mp hn)
      exact ⟨q, hq, (names_new_eq_iff (hsorted names hn) q).mp heq⟩
    · rintro ⟨q, hq, rfl⟩
      refine ⟨(Query.new nameHash q).attributeNames, (hmem _).mpr (List.mem_map_of_mem hq), ?_⟩
      exact Multiset.coe_eq_coe.mpr (List.perm_insertionSort _ q)
  · intro s hs
    rw [hqueries, List.mem_map] at hs
    obtain ⟨names, hn, rfl⟩ := hs
    rw [hfrequency names hn, count_keysOf (hsorted names hn), hnamesOf names hn]

/-- The shares make up the whole, if there is a query. -/
theorem Counted.sum_frequencies
    (h : Counted ptrHash nameHash getName attributes table (keysOf nameHash qs) w)
    (ht : Table getName attributes table)
    (hnames : ∀ q ∈ qs, ∀ n ∈ q, n ∈ attributes.map getName) :
    ∃ fs, w.queries.mapM w.getFrequency = .ok fs ∧ fs.sum = (qs.length : ℚ) / qs.length := by
  obtain ⟨distinct, hnodup, hmem, hqueries, _, hfrequency⟩ := h.exists_names ht hnames
  have hperm : distinct.Perm (keysOf nameHash qs).dedup := by
    rw [List.perm_ext_iff_of_nodup hnodup (List.nodup_dedup _)]
    intro names
    rw [hmem, List.mem_dedup]
  refine ⟨distinct.map fun names => ((keysOf nameHash qs).count names / (qs.length : ℚ)), ?_, ?_⟩
  · rw [hqueries, List.mapM_map]
    exact Except.mapM_eq_ok distinct hfrequency
  · have hlength : (keysOf nameHash qs).length = qs.length := List.length_map _
    have hcounts := List.sum_map_count_dedup_eq_length (keysOf nameHash qs)
    rw [← (hperm.map _).sum_eq, hlength] at hcounts
    have hcast : (distinct.map fun names => ((keysOf nameHash qs).count names : ℚ)).sum
        = qs.length := by
      rw [← hcounts, Nat.cast_list_sum, List.map_map]
      refine congrArg List.sum (List.map_congr_left ?_)
      intro names _
      -- the two counts compare by different instances
      simp only [Function.comp_apply, List.count_eq_countP]
      exact congrArg Nat.cast (List.countP_congr (by simp))
    simp only [div_eq_mul_inv]
    rw [List.sum_map_mul_right, hcast]

end Mix

/-- **The frequencies that are collected are those of the queries, and they sum to one as soon as
there is a query.** -/
theorem addQueries_queryMix {qs : List (List N)}
    (hnames : ∀ q ∈ qs, ∀ n ∈ q, n ∈ attributes.map getName) :
    ∃ w, addQueries ptrHash nameHash (QueryWorkload.ofAttributes getName attributes) qs = .ok w ∧
      QueryMix getName qs w ∧
      ∃ fs, w.queries.mapM w.getFrequency = .ok fs ∧ (fs.sum = 1 ↔ qs ≠ []) := by
  obtain ⟨ht, hqueries, hsummaries, hcounts, htotal⟩ :=
    table_ofAttributes getName attributes
  have hstart : Counted ptrHash nameHash getName attributes _ [] _ :=
    counted_new rfl hqueries hsummaries hcounts htotal
  obtain ⟨w, hrun, h⟩ := hstart.addQueries ht hnames
  rw [List.nil_append] at h
  obtain ⟨fs, hfs, hsum⟩ := Counted.sum_frequencies h ht hnames
  refine ⟨w, hrun, Counted.queryMix h ht hnames, fs, hfs, ?_⟩
  rw [hsum]
  refine ⟨?_, ?_⟩
  · intro hone hqs
    simp [hqs] at hone
  · intro hqs
    exact div_self (Nat.cast_ne_zero.mpr (mt List.length_eq_zero_iff.mp hqs))

/-- Three queries, two of them with the same names in a different order. -/
theorem addQueries_queryMix_three :
    ∃ w, addQueries (BitVec.ofNat 64) (BitVec.ofNat 64)
        (QueryWorkload.ofAttributes (fun a : Nat => a + 100) [8, 16])
        [[108, 116], [108], [116, 108]] = .ok w ∧
      QueryMix (fun a : Nat => a + 100) [[108, 116], [108], [116, 108]] w ∧
      ∃ fs, w.queries.mapM w.getFrequency = .ok fs ∧
        (fs.sum = 1 ↔ ([[108, 116], [108], [116, 108]] : List (List Nat)) ≠ []) :=
  addQueries_queryMix (by decide)

/-- Before the first query there are no frequencies. -/
theorem addQueries_nil_sum :
    ∃ w, addQueries (BitVec.ofNat 64) (BitVec.ofNat 64)
        (QueryWorkload.ofAttributes (fun a : Nat => a + 100) [8, 16]) [] = .ok w ∧
      w.queries.mapM w.getFrequency = .ok [] ∧ ([] : List ℚ).sum ≠ 1 :=
  ⟨_, rfl, rfl, by decide⟩

end RailwayDB.Common.Hashed
