/-
A hash map whose keys bring their own hash code and equality.

Two keys are the same to `std::unordered_map` when their hash codes agree and they
compare equal.  Nothing makes that an equivalence: a key type may keep its hash code
in a field that its operations forget to bring up to date.  `view` reads a map through
a function of the keys, and where that function tells the keys apart just as the map
does, the operations are those of a finite function.
-/
import Mathlib.Order.Lattice
import Mathlib.Data.List.Find

namespace RailwayDB

/-- `std::hash` and `operator==` of a key type. -/
class HashKey (K : Type) where
  getHashCode : K → BitVec 64
  equals : K → K → Bool

structure UnorderedMap (K V : Type) where
  entries : List (K × V)

namespace UnorderedMap

variable {K V β : Type} [HashKey K] {m : UnorderedMap K V} {k k' : K} {v : V}

/-- The map takes the keys for one. -/
def Same (k k' : K) : Prop :=
  HashKey.getHashCode k = HashKey.getHashCode k' ∧ HashKey.equals k k' = true

instance decidableSame (k k' : K) : Decidable (Same k k') := inferInstanceAs (Decidable (_ ∧ _))

def empty : UnorderedMap K V := ⟨[]⟩

def find? (m : UnorderedMap K V) (k : K) : Option V :=
  (m.entries.find? fun e => Same e.1 k).map Prod.snd

/-- A key that is there keeps its value. -/
def emplace (m : UnorderedMap K V) (k : K) (v : V) : UnorderedMap K V :=
  if m.find? k = none then ⟨m.entries ++ [(k, v)]⟩ else m

def assignFirst (k : K) (v : V) : List (K × V) → List (K × V)
  | [] => []
  | e :: es => if Same e.1 k then (e.1, v) :: es else e :: assignFirst k v es

/-- `find(k)->second = v`. -/
def assign (m : UnorderedMap K V) (k : K) (v : V) : UnorderedMap K V := ⟨assignFirst k v m.entries⟩

/-! ### Entries -/

theorem find?_eq_none : m.find? k = none ↔ ∀ e ∈ m.entries, ¬ Same e.1 k := by
  simp [find?]

theorem emplace_of_none (h : m.find? k = none) : m.emplace k v = ⟨m.entries ++ [(k, v)]⟩ := by
  unfold emplace
  rw [if_pos h]

theorem emplace_of_some (h : m.find? k ≠ none) : m.emplace k v = m := by
  unfold emplace
  rw [if_neg h]

theorem mem_emplace {e : K × V} (h : e ∈ (m.emplace k v).entries) :
    e ∈ m.entries ∨ e = (k, v) := by
  by_cases hk : m.find? k = none
  · rw [emplace_of_none hk] at h
    simpa using h
  · rw [emplace_of_some hk] at h
    exact Or.inl h

/-- What was put in is found, under its own value or an older one. -/
theorem find?_emplace_self (hself : Same k k) (v : V) : (m.emplace k v).find? k ≠ none := by
  by_cases hk : m.find? k = none
  · rw [emplace_of_none hk, ne_eq, find?_eq_none]
    intro hnone
    exact hnone (k, v) (List.mem_append_right _ List.mem_cons_self) hself
  · rw [emplace_of_some hk]
    exact hk

theorem find?_emplace_ne_none (h : m.find? k' ≠ none) (k : K) (v : V) :
    (m.emplace k v).find? k' ≠ none := by
  by_cases hk : m.find? k = none
  · rw [emplace_of_none hk, ne_eq, find?_eq_none]
    rw [ne_eq, find?_eq_none] at h
    intro hnone
    exact h fun e he => hnone e (List.mem_append_left _ he)
  · rw [emplace_of_some hk]
    exact h

theorem keys_assign (m : UnorderedMap K V) (k : K) (v : V) :
    (m.assign k v).entries.map Prod.fst = m.entries.map Prod.fst := by
  show (assignFirst k v m.entries).map Prod.fst = _
  induction m.entries with
  | nil => rfl
  | cons e es ih =>
      unfold assignFirst
      split
      · rfl
      · rw [List.map_cons, List.map_cons, ih]

/-- Keys that the map takes for different ones are found where they were put. -/
theorem find?_of_pairwise (hself : ∀ k : K, Same k k)
    (hkeys : m.entries.Pairwise fun e d => ¬ Same e.1 d.1) (hmem : (k, v) ∈ m.entries) :
    m.find? k = some v := by
  unfold find?
  rw [Option.map_eq_some_iff]
  obtain ⟨before, after, hsplit⟩ := List.append_of_mem hmem
  refine ⟨(k, v), ?_, rfl⟩
  rw [hsplit] at hkeys ⊢
  rw [List.find?_append, List.find?_eq_none.mpr, Option.none_or, List.find?_cons_of_pos]
  · simpa using hself k
  · intro e he
    simpa using (List.pairwise_append.mp hkeys).2.2 e he (k, v) List.mem_cons_self

/-! ### Through a function of the keys -/

section View

variable [DecidableEq β] {f : K → β} {P : K → Prop}

/-- The value of the first key that `f` sends to `b`. -/
def view (f : K → β) (m : UnorderedMap K V) (b : β) : Option V :=
  (m.entries.find? fun e => f e.1 = b).map Prod.snd

/-- Among the keys with `P`, the map tells apart what `f` tells apart. -/
def Separates (f : K → β) (P : K → Prop) : Prop :=
  ∀ k k', P k → P k' → (Same k k' ↔ f k = f k')

theorem find?_eq_view (hf : Separates f P) (hm : ∀ e ∈ m.entries, P e.1) (hk : P k) :
    m.find? k = m.view f (f k) := by
  have hsame : ∀ e ∈ m.entries, decide (Same e.1 k) = decide (f e.1 = f k) := by
    intro e he
    rw [decide_eq_decide]
    exact hf e.1 k (hm e he) hk
  unfold find? view
  rw [List.find?_congr hsame]

theorem view_empty {K : Type} (f : K → β) (b : β) :
    (empty : UnorderedMap K V).view f b = none := rfl

theorem view_emplace (hf : Separates f P) (hm : ∀ e ∈ m.entries, P e.1) (hk : P k)
    (hnone : m.view f (f k) = none) (v : V) :
    (m.emplace k v).view f = Function.update (m.view f) (f k) (some v) := by
  have hnone' := hnone
  rw [← find?_eq_view hf hm hk] at hnone
  rw [emplace_of_none hnone]
  funext b
  unfold view at hnone' ⊢
  rw [List.find?_append]
  by_cases hb : b = f k
  · rw [Option.map_eq_none_iff] at hnone'
    rw [hb, Function.update_self, hnone', Option.none_or, List.find?_cons_of_pos (by simp)]
    rfl
  · rw [Function.update_of_ne hb, List.find?_cons_of_neg (by simpa using Ne.symm hb),
      List.find?_nil, Option.or_none]

theorem view_assign (hf : Separates f P) (hm : ∀ e ∈ m.entries, P e.1) (hk : P k)
    (hsome : m.view f (f k) ≠ none) (v : V) :
    (m.assign k v).view f = Function.update (m.view f) (f k) (some v) := by
  funext b
  unfold view at hsome ⊢
  show ((assignFirst k v m.entries).find? fun e => f e.1 = b).map Prod.snd = _
  induction hes : m.entries generalizing m with
  | nil => simp [hes] at hsome
  | cons e es ih =>
      rw [hes] at hm hsome
      have hsame := hf e.1 k (hm e List.mem_cons_self) hk
      unfold assignFirst
      by_cases he : f e.1 = f k
      · rw [if_pos (hsame.mpr he)]
        by_cases hb : b = f k
        · rw [List.find?_cons_of_pos (by simp [he, hb]), hb, Function.update_self]
          rfl
        · have hne : ¬ f e.1 = b := fun h => hb (h.symm.trans he)
          rw [List.find?_cons_of_neg (by simpa using hne), Function.update_of_ne hb,
            List.find?_cons_of_neg (by simpa using hne)]
      · rw [if_neg fun h => he (hsame.mp h)]
        rw [List.find?_cons_of_neg (by simpa using he)] at hsome
        have hrest := ih (m := ⟨es⟩) (fun d hd => hm d (List.mem_cons_of_mem e hd)) hsome rfl
        by_cases hb : f e.1 = b
        · have hne : b ≠ f k := fun h => he (hb.trans h)
          rw [List.find?_cons_of_pos (by simpa using hb), Function.update_of_ne hne,
            List.find?_cons_of_pos (by simpa using hb)]
        · rw [List.find?_cons_of_neg (by simpa using hb), hrest]
          by_cases hbk : b = f k
          · rw [hbk, Function.update_self, Function.update_self]
          · rw [Function.update_of_ne hbk, Function.update_of_ne hbk,
              List.find?_cons_of_neg (by simpa using hb)]

end View

end UnorderedMap

end RailwayDB
