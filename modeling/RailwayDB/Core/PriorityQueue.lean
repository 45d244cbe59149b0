/-
`PriorityQueue.h`: keyed items in order, and an index from ids to items.

The source orders pairs by key and then id; with `MaxAtTop` the comparison of keys is
turned round and that of ids is not.  So a queue with the largest key at the top is
the same queue over the keys in reverse order, and `PriorityQueue Keyᵒᵈ Id` stands
for it.

The index holds iterators.  An iterator into the set of items is the key its pair
carries; that it points at a pair that is there is part of the type.
-/
import RailwayDB.Core.Types
import RailwayDB.Lib.SortedMap
import Mathlib.Data.List.AList
import Mathlib.Data.Prod.Lex

namespace RailwayDB

structure PriorityQueue (Key Id : Type) [LinearOrder Key] [LinearOrder Id] where
  maxItemCount : Nat
  items : SortedMap (Key ×ₗ Id) Unit
  index : AList fun _ : Id => Key
  /-- Items and index hold the same pairs. -/
  consistent : ∀ key id, index.lookup id = some key ↔ (toLex (key, id), ()) ∈ items.entries

namespace PriorityQueue

variable {Key Id : Type} [LinearOrder Key] [LinearOrder Id]

/-- `PriorityQueue(maxItemCount)`; the default is no limit a queue can reach. -/
def new (maxItemCount : Nat) : PriorityQueue Key Id :=
  { maxItemCount := maxItemCount, items := .empty, index := ∅,
    consistent := by
      intro key id
      simp [SortedMap.empty] }

/-- `std::numeric_limits<size_t>::max()`. -/
def unbounded : Nat := 2 ^ 64 - 1

def isEmpty (q : PriorityQueue Key Id) : Bool := q.index.entries.isEmpty

def getSize (q : PriorityQueue Key Id) : Nat := q.index.keys.length

/-- `getItems()`, in order. -/
def getItems (q : PriorityQueue Key Id) : List (Key × Id) := q.items.entries.map fun e => ofLex e.1

/-- `*items_.begin()`. -/
def getTopItem (q : PriorityQueue Key Id) : Except Fault (Key × Id) :=
  match q.getItems with
  | item :: _ => .ok item
  | [] => .error (.undefined .outOfRange)

def removeItem (q : PriorityQueue Key Id) (id : Id) : PriorityQueue Key Id :=
  match h : q.index.lookup id with
  | none => q
  | some key =>
      { q with
        items := q.items.erase (toLex (key, id))
        index := q.index.erase id
        consistent := by
          intro key' id'
          rw [SortedMap.mem_erase_iff, ← q.consistent]
          by_cases hid : id' = id
          · subst hid
            rw [AList.lookup_erase]
            refine ⟨fun hc => by simp at hc, fun hc => ?_⟩
            obtain ⟨hl, hne⟩ := hc
            rw [h, Option.some.injEq] at hl
            exact absurd (by rw [hl]) hne
          · rw [AList.lookup_erase_ne hid]
            refine ⟨fun hl => ⟨hl, fun hc => hid ?_⟩, fun hc => hc.1⟩
            exact (Prod.mk.inj (toLex.injective hc)).2 }

/-- `index_[id] = items_.insert(KeyIdPair(key, id)).first`, for an id that has no item. -/
def addItemHasSpace (q : PriorityQueue Key Id) (key : Key) (id : Id)
    (hfree : q.index.lookup id = none) : PriorityQueue Key Id :=
  { q with
    items := q.items.insert (toLex (key, id)) ()
    index := q.index.insert id key
    consistent := by
      intro key' id'
      rw [SortedMap.mem_insert_iff, ← q.consistent]
      by_cases hid : id' = id
      · subst hid
        rw [AList.lookup_insert, hfree]
        simp [eq_comm]
      · rw [AList.lookup_insert_ne hid]
        simp [hid] }

theorem lookup_removeItem_self (q : PriorityQueue Key Id) (id : Id) :
    (q.removeItem id).index.lookup id = none := by
  unfold removeItem
  split
  · assumption
  · exact AList.lookup_erase id _

def updateItem (q : PriorityQueue Key Id) (key : Key) (id : Id) : PriorityQueue Key Id :=
  if q.index.lookup id = some key then q
  else (q.removeItem id).addItemHasSpace key id (lookup_removeItem_self q id)

/-- On a full queue the bottom item makes room when it is worse; a new item that is no better
than the bottom is added all the same. -/
def addItem (q : PriorityQueue Key Id) (key : Key) (id : Id) : Except Fault (PriorityQueue Key Id) :=
  if hfree : q.index.lookup id = none then
    if q.items.entries.length = q.maxItemCount then
      match q.getItems.getLast? with
      | none => .error (.undefined .outOfRange)
      | some bottom =>
          if bottom.1 ≤ key then .ok (q.addItemHasSpace key id hfree)
          else .ok ((q.removeItem bottom.2).updateItem key id)
    else .ok (q.addItemHasSpace key id hfree)
  else .error (.assertFailed .addItemIdAbsent)

/-! ### What the operations do to the index -/

theorem lookup_removeItem (q : PriorityQueue Key Id) (id id' : Id) :
    (q.removeItem id).index.lookup id' = if id' = id then none else q.index.lookup id' := by
  by_cases hid : id' = id
  · rw [if_pos hid, hid]
    exact lookup_removeItem_self q id
  · rw [if_neg hid]
    unfold removeItem
    split
    · rfl
    · exact AList.lookup_erase_ne hid

theorem lookup_updateItem (q : PriorityQueue Key Id) (key : Key) (id id' : Id) :
    (q.updateItem key id).index.lookup id' = if id' = id then some key else q.index.lookup id' := by
  unfold updateItem
  split
  · rename_i hsame
    by_cases hid : id' = id
    · rw [if_pos hid, hid]
      exact hsame
    · rw [if_neg hid]
  · show ((q.removeItem id).index.insert id key).lookup id' = _
    by_cases hid : id' = id
    · rw [if_pos hid, hid]
      exact AList.lookup_insert _
    · rw [if_neg hid, AList.lookup_insert_ne hid, lookup_removeItem, if_neg hid]

theorem mem_getItems {q : PriorityQueue Key Id} {key : Key} {id : Id} :
    (key, id) ∈ q.getItems ↔ q.index.lookup id = some key := by
  rw [q.consistent]
  unfold getItems
  rw [List.mem_map]
  refine ⟨fun h => ?_, fun h => ⟨_, h, rfl⟩⟩
  obtain ⟨⟨p, u⟩, he, hp⟩ := h
  have hp : p = toLex (key, id) := hp
  rw [← hp]
  exact he

theorem isEmpty_iff {q : PriorityQueue Key Id} :
    q.isEmpty = true ↔ ∀ id, q.index.lookup id = none := by
  unfold isEmpty
  rw [List.isEmpty_iff]
  refine ⟨fun h id => ?_, fun h => ?_⟩
  · rw [AList.lookup_eq_none, AList.mem_keys]
    simp [AList.keys, h]
  · rw [List.eq_nil_iff_forall_not_mem]
    intro e he
    have hmem : e.1 ∈ q.index := AList.mem_keys.mpr (List.mem_keys_of_mem he)
    exact AList.lookup_eq_none.mp (h e.1) hmem

theorem getItems_sorted (q : PriorityQueue Key Id) :
    q.getItems.Pairwise fun a b => toLex a < toLex b := by
  unfold getItems
  rw [List.pairwise_map]
  exact q.items.sorted

/-- The top of a queue that is not empty is one of its items, and no key is smaller. -/
theorem getTopItem_ok {q : PriorityQueue Key Id} (h : q.isEmpty = false) :
    ∃ item, q.getTopItem = .ok item ∧ q.index.lookup item.2 = some item.1 ∧
      ∀ id key, q.index.lookup id = some key → item.1 ≤ key := by
  cases hi : q.getItems with
  | nil =>
      exfalso
      rw [Bool.eq_false_iff, ne_eq, isEmpty_iff, not_forall] at h
      obtain ⟨id, hid⟩ := h
      obtain ⟨key, hkey⟩ := Option.ne_none_iff_exists'.mp hid
      have hmem := mem_getItems.mpr hkey
      rw [hi] at hmem
      simp at hmem
  | cons item items =>
      refine ⟨item, by simp only [getTopItem, hi], ?_, ?_⟩
      · rw [← mem_getItems, hi]
        exact List.mem_cons_self
      · intro id key hkey
        have hsorted := getItems_sorted q
        rw [hi] at hsorted
        have hmem := mem_getItems.mpr hkey
        rw [hi] at hmem
        rcases List.mem_cons.mp hmem with heq | hmem
        · rw [← heq]
        · have hlt := (List.pairwise_cons.mp hsorted).1 _ hmem
          exact Prod.Lex.monotone_fst _ _ (le_of_lt hlt)

end PriorityQueue

end RailwayDB
