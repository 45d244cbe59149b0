/-
Maps kept in key order.

An ordered map is a list of entries whose keys increase strictly, which is what
an ordered tree map and an ordered key-value store both look like from outside: a
search returns a position, and everything from that position on can be walked.

Keys need only a total preorder.  Two keys neither of which is below the other
are the same key to the map, whichever of the two it was given first.
-/
import Mathlib.Order.Lattice
import Mathlib.Order.RelClasses
import Mathlib.Data.List.Pairwise
import Mathlib.Data.List.Sort

variable {K V : Type*}

/-- Entries in strictly increasing key order. -/
structure SortedMap (K V : Type*) [LT K] where
  entries : List (K × V)
  sorted : entries.Pairwise fun a b => a.1 < b.1

namespace SortedMap

variable [Preorder K] [DecidableLT K]

def empty : SortedMap K V := ⟨[], List.Pairwise.nil⟩

/-- The entries from the first key that is not below `k` on. -/
def lowerBound (m : SortedMap K V) (k : K) : List (K × V) :=
  m.entries.dropWhile fun e => decide (e.1 < k)

def find? (m : SortedMap K V) (k : K) : Option V :=
  match m.lowerBound k with
  | [] => none
  | e :: _ => if k < e.1 then none else some e.2

/-- Insertion into an entry list; a key that is there already keeps its place. -/
def insertEntry (k : K) (v : V) : List (K × V) → List (K × V)
  | [] => [(k, v)]
  | e :: es =>
      if k < e.1 then (k, v) :: e :: es
      else if e.1 < k then e :: insertEntry k v es
      else (e.1, v) :: es

theorem mem_insertEntry {k : K} {v : V} {e : K × V} {es : List (K × V)}
    (h : e ∈ insertEntry k v es) : e = (k, v) ∨ e ∈ es ∨ ∃ v', (e.1, v') ∈ es := by
  induction es with
  | nil => exact Or.inl (by simpa [insertEntry] using h)
  | cons d es ih =>
      unfold insertEntry at h
      split_ifs at h with hlt hgt
      · rcases List.mem_cons.mp h with rfl | hm
        · exact Or.inl rfl
        · exact Or.inr (Or.inl hm)
      · rcases List.mem_cons.mp h with rfl | hm
        · exact Or.inr (Or.inl (by simp))
        · rcases ih hm with he | he | ⟨v', he⟩
          · exact Or.inl he
          · exact Or.inr (Or.inl (List.mem_cons_of_mem _ he))
          · exact Or.inr (Or.inr ⟨v', List.mem_cons_of_mem _ he⟩)
      · rcases List.mem_cons.mp h with rfl | hm
        · exact Or.inr (Or.inr ⟨d.2, by simp⟩)
        · exact Or.inr (Or.inl (List.mem_cons_of_mem _ hm))

theorem pairwise_insertEntry {k : K} {v : V} {es : List (K × V)}
    (h : es.Pairwise fun a b => a.1 < b.1) :
    (insertEntry k v es).Pairwise fun a b => a.1 < b.1 := by
  induction es with
  | nil => exact List.pairwise_singleton _ _
  | cons d es ih =>
      obtain ⟨hd, hes⟩ := List.pairwise_cons.mp h
      unfold insertEntry
      split_ifs with hlt hgt
      · refine List.pairwise_cons.mpr ⟨?_, h⟩
        intro e he
        rcases List.mem_cons.mp he with rfl | hm
        · exact hlt
        · exact lt_trans hlt (hd e hm)
      · refine List.pairwise_cons.mpr ⟨?_, ih hes⟩
        intro e he
        rcases mem_insertEntry he with rfl | hm | ⟨v', hm⟩
        · exact hgt
        · exact hd e hm
        · exact hd (e.1, v') hm
      · exact List.pairwise_cons.mpr ⟨hd, hes⟩

/-- The map with `v` under `k`. -/
def insert (m : SortedMap K V) (k : K) (v : V) : SortedMap K V :=
  ⟨insertEntry k v m.entries, pairwise_insertEntry m.sorted⟩

/-- The map with nothing under `k`. -/
def erase (m : SortedMap K V) (k : K) : SortedMap K V :=
  ⟨m.entries.filter fun e => decide (e.1 < k) || decide (k < e.1), m.sorted.filter _⟩

/-! ### Searching -/

section Total

variable [@Std.Total K (· ≤ ·)]

omit [DecidableLT K] in
/-- In a total preorder what is not below is at least as large. -/
theorem le_of_not_gt_total {a b : K} (h : ¬ a < b) : b ≤ a := by
  rcases Std.Total.total (r := (· ≤ ·)) a b with hab | hba
  · by_contra hba
    exact h (lt_of_le_not_ge hab hba)
  · exact hba

omit [DecidableLT K] in
theorem lt_or_gt_of_not_equiv {a b : K} (h : ¬ (a ≤ b ∧ b ≤ a)) : a < b ∨ b < a := by
  by_cases hab : a < b
  · exact Or.inl hab
  · refine Or.inr (lt_of_le_not_ge (le_of_not_gt_total hab) fun hle => ?_)
    exact h ⟨hle, le_of_not_gt_total hab⟩

theorem mem_lowerBound {m : SortedMap K V} {k : K} {e : K × V} :
    e ∈ m.lowerBound k ↔ e ∈ m.entries ∧ k ≤ e.1 := by
  obtain ⟨es, hs⟩ := m
  simp only [lowerBound]
  induction es with
  | nil => simp
  | cons d es ih =>
      obtain ⟨hd, hes⟩ := List.pairwise_cons.mp hs
      by_cases hlt : d.1 < k
      · rw [List.dropWhile_cons_of_pos (by simpa using hlt), ih hes]
        constructor
        · rintro ⟨hm, hk⟩
          exact ⟨List.mem_cons_of_mem _ hm, hk⟩
        · rintro ⟨hm, hk⟩
          rcases List.mem_cons.mp hm with rfl | hm
          · exact absurd hlt (not_lt_of_ge hk)
          · exact ⟨hm, hk⟩
      · rw [List.dropWhile_cons_of_neg (by simpa using hlt)]
        have hkd : k ≤ d.1 := le_of_not_gt_total hlt
        refine ⟨fun hm => ⟨hm, ?_⟩, fun h => h.1⟩
        rcases List.mem_cons.mp hm with rfl | hm
        · exact hkd
        · exact le_trans hkd (le_of_lt (hd e hm))

omit [@Std.Total K (· ≤ ·)] in
theorem pairwise_lowerBound (m : SortedMap K V) (k : K) :
    (m.lowerBound k).Pairwise fun a b => a.1 < b.1 :=
  m.sorted.sublist (List.dropWhile_sublist _)

/-- The position a search returns: the least key that is not below the sought one. -/
theorem lowerBound_eq_cons {m : SortedMap K V} {k : K} {e : K × V} {es : List (K × V)}
    (h : m.lowerBound k = e :: es) :
    e ∈ m.entries ∧ k ≤ e.1 ∧ ∀ d ∈ m.entries, k ≤ d.1 → d = e ∨ e.1 < d.1 := by
  have he : e ∈ m.lowerBound k := by rw [h]; simp
  obtain ⟨hm, hk⟩ := mem_lowerBound.mp he
  refine ⟨hm, hk, ?_⟩
  intro d hd hkd
  have hdl : d ∈ m.lowerBound k := mem_lowerBound.mpr ⟨hd, hkd⟩
  have hs := m.pairwise_lowerBound k
  rw [h] at hdl hs
  rcases List.mem_cons.mp hdl with rfl | hde
  · exact Or.inl rfl
  · exact Or.inr ((List.pairwise_cons.mp hs).1 d hde)

/-- The next position: the least key above the one found. -/
theorem lowerBound_eq_cons_cons {m : SortedMap K V} {k : K} {e d : K × V} {es : List (K × V)}
    (h : m.lowerBound k = e :: d :: es) :
    d ∈ m.entries ∧ e.1 < d.1 ∧ ∀ c ∈ m.entries, e.1 < c.1 → c = d ∨ d.1 < c.1 := by
  have hs := m.pairwise_lowerBound k
  obtain ⟨-, hke, -⟩ := lowerBound_eq_cons h
  have hd : d ∈ m.lowerBound k := by rw [h]; simp
  rw [h] at hs
  obtain ⟨he, hs'⟩ := List.pairwise_cons.mp hs
  refine ⟨(mem_lowerBound.mp hd).1, he d (by simp), ?_⟩
  intro c hc hec
  have hcl : c ∈ m.lowerBound k := mem_lowerBound.mpr ⟨hc, le_trans hke (le_of_lt hec)⟩
  rw [h] at hcl
  rcases List.mem_cons.mp hcl with rfl | hcl
  · exact absurd hec (lt_irrefl _)
  · rcases List.mem_cons.mp hcl with rfl | hcl
    · exact Or.inl rfl
    · exact Or.inr ((List.pairwise_cons.mp hs').1 c hcl)

theorem lowerBound_eq_nil {m : SortedMap K V} {k : K} (h : m.lowerBound k = []) :
    ∀ e ∈ m.entries, e.1 < k := by
  intro e he
  by_contra hlt
  have hel : e ∈ m.lowerBound k := mem_lowerBound.mpr ⟨he, le_of_not_gt_total hlt⟩
  rw [h] at hel
  simp at hel

omit [DecidableLT K] [@Std.Total K (· ≤ ·)] in
/-- A map holds no two entries under one key. -/
theorem eq_of_mem {m : SortedMap K V} {e d : K × V} (he : e ∈ m.entries) (hd : d ∈ m.entries)
    (h₁ : e.1 ≤ d.1) (h₂ : d.1 ≤ e.1) : e = d := by
  have hall : ∀ a ∈ m.entries, ∀ b ∈ m.entries, a = b ∨ a.1 < b.1 ∨ b.1 < a.1 := by
    intro a ha b hb
    refine List.Pairwise.forall_of_forall_of_flip
      (R := fun a b : K × V => a = b ∨ a.1 < b.1 ∨ b.1 < a.1) ?_ ?_ ?_ ha hb
    · intro c _
      exact Or.inl rfl
    · exact m.sorted.imp fun h => Or.inr (Or.inl h)
    · exact m.sorted.imp fun h => Or.inr (Or.inr h)
  rcases hall e he d hd with h | h | h
  · exact h
  · exact absurd h (not_lt_of_ge h₂)
  · exact absurd h (not_lt_of_ge h₁)

theorem find?_eq_some {m : SortedMap K V} {k : K} {v : V} :
    m.find? k = some v ↔ ∃ k', (k', v) ∈ m.entries ∧ k ≤ k' ∧ k' ≤ k := by
  unfold find?
  cases hl : m.lowerBound k with
  | nil =>
      simp only [reduceCtorEq, false_iff, not_exists]
      rintro k' ⟨hm, hle, -⟩
      exact absurd (lowerBound_eq_nil hl _ hm) (not_lt_of_ge hle)
  | cons e es =>
      obtain ⟨he, hke, hleast⟩ := lowerBound_eq_cons hl
      by_cases hlt : k < e.1
      · simp only [hlt, if_true, reduceCtorEq, false_iff, not_exists]
        rintro k' ⟨hm, hle, hge⟩
        rcases hleast _ hm hle with heq | hek
        · exact absurd hlt (not_lt_of_ge (by rw [← heq]; exact hge))
        · exact absurd (lt_trans hlt hek) (not_lt_of_ge hge)
      · simp only [hlt, if_false, Option.some.injEq]
        constructor
        · rintro rfl
          exact ⟨e.1, he, hke, le_of_not_gt_total hlt⟩
        · rintro ⟨k', hm, hle, hge⟩
          have := eq_of_mem he hm (le_trans (le_of_not_gt_total hlt) hle) (le_trans hge hke)
          rw [this]

theorem find?_eq_none {m : SortedMap K V} {k : K} :
    m.find? k = none ↔ ∀ e ∈ m.entries, e.1 < k ∨ k < e.1 := by
  constructor
  · intro h e he
    apply lt_or_gt_of_not_equiv
    rintro ⟨hle, hge⟩
    have hsome : m.find? k = some e.2 := find?_eq_some.mpr ⟨e.1, he, hge, hle⟩
    rw [h] at hsome
    simp at hsome
  · intro h
    cases hf : m.find? k with
    | none => rfl
    | some v =>
        obtain ⟨k', hm, hle, hge⟩ := find?_eq_some.mp hf
        rcases h _ hm with hlt | hlt
        · exact absurd hlt (not_lt_of_ge hle)
        · exact absurd hlt (not_lt_of_ge hge)

/-! ### Updates -/

omit [@Std.Total K (· ≤ ·)] in
theorem mem_erase {m : SortedMap K V} {k : K} {e : K × V} :
    e ∈ (m.erase k).entries ↔ e ∈ m.entries ∧ (e.1 < k ∨ k < e.1) := by
  simp [erase]

/-- An entry under another key stays, and no other entry appears but the new one. -/
theorem mem_insert {m : SortedMap K V} {k : K} {v : V} {e : K × V} :
    e ∈ (m.insert k v).entries ↔
      e ∈ m.entries ∧ (e.1 < k ∨ k < e.1) ∨
      e.2 = v ∧ ((∃ v', (e.1, v') ∈ m.entries) ∧ k ≤ e.1 ∧ e.1 ≤ k ∨
        e.1 = k ∧ m.find? k = none) := by
  rw [find?_eq_none]
  obtain ⟨es, hs⟩ := m
  simp only [insert]
  induction es with
  | nil =>
      simp only [insertEntry, List.mem_singleton, List.not_mem_nil, false_and, exists_false,
        false_or, IsEmpty.forall_iff, implies_true, and_true, Prod.ext_iff]
      exact and_comm
  | cons d es ih =>
      obtain ⟨hd, hes⟩ := List.pairwise_cons.mp hs
      have ih := ih hes
      unfold insertEntry
      split_ifs with hlt hgt
      · -- Every key is above the new one.
        have habove : ∀ c ∈ d :: es, k < c.1 := by
          intro c hc
          rcases List.mem_cons.mp hc with rfl | hc
          · exact hlt
          · exact lt_trans hlt (hd c hc)
        constructor
        · intro he
          rcases List.mem_cons.mp he with rfl | he
          · exact Or.inr ⟨rfl, Or.inr ⟨rfl, fun c hc => Or.inr (habove c hc)⟩⟩
          · exact Or.inl ⟨he, Or.inr (habove e he)⟩
        · rintro (⟨he, -⟩ | ⟨hv, ⟨⟨v', hm⟩, -, hge⟩ | ⟨hk, -⟩⟩)
          · exact List.mem_cons_of_mem _ he
          · exact absurd (habove _ hm) (not_lt_of_ge hge)
          · rw [← hk, ← hv]
            exact List.mem_cons_self
      · rw [List.mem_cons, ih]
        constructor
        · rintro (rfl | ⟨he, hne⟩ | ⟨hv, ⟨⟨v', hm⟩, hle, hge⟩ | ⟨hk, hall⟩⟩)
          · exact Or.inl ⟨List.mem_cons_self, Or.inl hgt⟩
          · exact Or.inl ⟨List.mem_cons_of_mem _ he, hne⟩
          · exact Or.inr ⟨hv, Or.inl ⟨⟨v', List.mem_cons_of_mem _ hm⟩, hle, hge⟩⟩
          · refine Or.inr ⟨hv, Or.inr ⟨hk, ?_⟩⟩
            intro c hc
            rcases List.mem_cons.mp hc with rfl | hc
            · exact Or.inl hgt
            · exact hall c hc
        · rintro (⟨he, hne⟩ | ⟨hv, ⟨⟨v', hm⟩, hle, hge⟩ | ⟨hk, hall⟩⟩)
          · rcases List.mem_cons.mp he with rfl | he
            · exact Or.inl rfl
            · exact Or.inr (Or.inl ⟨he, hne⟩)
          · rcases List.mem_cons.mp hm with hed | hm
            · have hek : e.1 = d.1 := by rw [← hed]
              exact absurd hgt (not_lt_of_ge (by rw [← hek]; exact hle))
            · exact Or.inr (Or.inr ⟨hv, Or.inl ⟨⟨v', hm⟩, hle, hge⟩⟩)
          · exact Or.inr (Or.inr ⟨hv, Or.inr ⟨hk, fun c hc => hall c (List.mem_cons_of_mem _ hc)⟩⟩)
      · -- The head is the sought key.
        have hkd : k ≤ d.1 := le_of_not_gt_total hgt
        have hdk : d.1 ≤ k := le_of_not_gt_total hlt
        have habove : ∀ c ∈ es, k < c.1 := fun c hc => lt_of_le_of_lt hkd (hd c hc)
        constructor
        · intro he
          rcases List.mem_cons.mp he with rfl | he
          · exact Or.inr ⟨rfl, Or.inl ⟨⟨d.2, List.mem_cons_self⟩, hkd, hdk⟩⟩
          · exact Or.inl ⟨List.mem_cons_of_mem _ he, Or.inr (habove e he)⟩
        · rintro (⟨he, hne⟩ | ⟨hv, ⟨⟨v', hm⟩, hle, hge⟩ | ⟨hk, hall⟩⟩)
          · rcases List.mem_cons.mp he with rfl | he
            · exact absurd hne (by rintro (h | h) <;> contradiction)
            · exact List.mem_cons_of_mem _ he
          · rcases List.mem_cons.mp hm with hed | hm
            · have hek : e.1 = d.1 := by rw [← hed]
              rw [← hek, ← hv]
              exact List.mem_cons_self
            · exact absurd (habove _ hm) (not_lt_of_ge hge)
          · exact absurd (hall d List.mem_cons_self) (by rintro (h | h) <;> contradiction)

end Total

/-! ### Keys in a linear order -/

section Linear

-- The instance that decides `<` need not be the one of the linear order.
variable {K : Type*} [LinearOrder K] [DecidableLT K]

omit [DecidableLT K] in
/-- Entries in key order are told by which they are. -/
theorem eq_of_mem_iff {l l' : List (K × V)} (h : l.Pairwise fun a b => a.1 < b.1)
    (h' : l'.Pairwise fun a b => a.1 < b.1) (hmem : ∀ e, e ∈ l ↔ e ∈ l') : l = l' := by
  have : Std.Irrefl fun a b : K × V => a.1 < b.1 := ⟨fun _ => lt_irrefl _⟩
  have : Std.Antisymm fun a b : K × V => a.1 < b.1 :=
    ⟨fun _ _ hab hba => absurd hab (lt_asymm hba)⟩
  exact h.eq_of_mem_iff h' hmem

theorem mem_iff_find? {m : SortedMap K V} {k : K} {v : V} :
    (k, v) ∈ m.entries ↔ m.find? k = some v := by
  rw [find?_eq_some]
  constructor
  · intro h
    exact ⟨k, h, le_refl k, le_refl k⟩
  · rintro ⟨k', hm, hle, hge⟩
    rw [le_antisymm hle hge]
    exact hm

theorem mem_erase_iff {m : SortedMap K V} {k : K} {e : K × V} :
    e ∈ (m.erase k).entries ↔ e ∈ m.entries ∧ e.1 ≠ k := by
  rw [mem_erase, lt_or_lt_iff_ne]

theorem mem_insert_iff {m : SortedMap K V} {k : K} {v : V} {e : K × V} :
    e ∈ (m.insert k v).entries ↔ e = (k, v) ∨ e ∈ m.entries ∧ e.1 ≠ k := by
  rw [mem_insert, lt_or_lt_iff_ne]
  constructor
  · rintro (h | ⟨hv, ⟨-, hle, hge⟩ | ⟨hk, -⟩⟩)
    · exact Or.inr h
    · exact Or.inl (Prod.ext (le_antisymm hge hle) hv)
    · exact Or.inl (Prod.ext hk hv)
  · rintro (rfl | h)
    · refine Or.inr ⟨rfl, ?_⟩
      cases hf : m.find? k with
      | none => exact Or.inr ⟨rfl, rfl⟩
      | some v' => exact Or.inl ⟨⟨v', mem_iff_find?.mpr hf⟩, le_refl k, le_refl k⟩
    · exact Or.inl h

theorem find?_insert (m : SortedMap K V) (k k' : K) (v : V) :
    (m.insert k v).find? k' = if k' = k then some v else m.find? k' := by
  apply Option.ext
  intro w
  rw [← mem_iff_find?, mem_insert_iff, Prod.mk.injEq]
  by_cases hk : k' = k
  · simp only [hk, true_and, ne_eq, not_true_eq_false, and_false, or_false, if_true,
      Option.some.injEq, eq_comm]
  · simp only [hk, false_and, ne_eq, not_false_eq_true, and_true, false_or, if_false]
    exact mem_iff_find?

theorem find?_erase (m : SortedMap K V) (k k' : K) :
    (m.erase k).find? k' = if k' = k then none else m.find? k' := by
  apply Option.ext
  intro w
  rw [← mem_iff_find?, mem_erase_iff]
  by_cases hk : k' = k
  · simp [hk]
  · simp only [hk, ne_eq, not_false_eq_true, and_true, if_false]
    exact mem_iff_find?

end Linear

end SortedMap
