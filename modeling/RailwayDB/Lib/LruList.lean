/-
A list of recently used keys with iterators into it.

A cache that forgets the key used longest ago keeps its keys in a list, the most
recent one first, and with each cached value an iterator to its own node.  Nodes are
numbers that are never used twice, so that an iterator is a number too.  `Points`
says that the list and the iterators belong to each other; what a cache does to its
list is push to the front, erase the node behind an iterator, and drop the last.

`LruCache` is such a list with the values beside it.  An entry that is being filled
has no iterator yet.
-/
import Mathlib.Data.List.AList
import Mathlib.Data.List.Nodup
import Mathlib.Logic.Function.Basic

namespace RailwayDB

variable {K : Type}

/-- The list has each key with an iterator once, at the node the iterator names. -/
structure Points (l : List (Nat × K)) (next : Nat) (iter : K → Option Nat) : Prop where
  nodes : (l.map Prod.fst).Nodup
  fresh : ∀ p ∈ l, p.1 < next
  once : (l.map Prod.snd).Nodup
  own : ∀ k n, iter k = some n ↔ (n, k) ∈ l

namespace Points

variable {l : List (Nat × K)} {next : Nat} {iter : K → Option Nat} {k : K} {n : Nat}

theorem nil (next : Nat) : Points ([] : List (Nat × K)) next fun _ => none :=
  ⟨List.nodup_nil, by simp, List.nodup_nil, by simp⟩

theorem mem_keys (h : Points l next iter) : k ∈ l.map Prod.snd ↔ iter k ≠ none := by
  rw [List.mem_map, Option.ne_none_iff_exists']
  refine ⟨?_, ?_⟩
  · intro hk
    obtain ⟨p, hp, hpk⟩ := hk
    exact ⟨p.1, (h.own k p.1).mpr (by rw [← hpk]; exact hp)⟩
  · intro hk
    obtain ⟨n, hn⟩ := hk
    exact ⟨(n, k), (h.own k n).mp hn, rfl⟩

/-- The keys in the list are the keys with an iterator, so no two nodes have one key. -/
theorem key_unique (h : Points l next iter) {p q : Nat × K} (hp : p ∈ l) (hq : q ∈ l)
    (hpq : p.2 = q.2) : p = q := by
  have hp' := (h.own p.2 p.1).mpr hp
  have hq' := (h.own q.2 q.1).mpr hq
  rw [hpq, hq', Option.some.injEq] at hp'
  exact Prod.ext hp'.symm hpq

theorem node_unique (h : Points l next iter) {p q : Nat × K} (hp : p ∈ l) (hq : q ∈ l)
    (hpq : p.1 = q.1) : p = q := List.inj_on_of_nodup_map h.nodes hp hq hpq

variable [DecidableEq K]

/-- A key that is not in the list goes to the front, under a new node. -/
theorem push (h : Points l next iter) (hk : iter k = none) :
    Points ((next, k) :: l) (next + 1) (Function.update iter k (some next)) := by
  have hfresh : next ∉ l.map Prod.fst := by
    intro hmem
    obtain ⟨p, hp, hpn⟩ := List.mem_map.mp hmem
    have hlt := h.fresh p hp
    omega
  have hkey : k ∉ l.map Prod.snd := by
    rw [h.mem_keys, not_not]
    exact hk
  refine ⟨List.nodup_cons.mpr ⟨hfresh, h.nodes⟩, ?_, List.nodup_cons.mpr ⟨hkey, h.once⟩, ?_⟩
  · intro p hp
    rcases List.mem_cons.mp hp with hp | hp
    · rw [hp]
      exact Nat.lt_succ_self next
    · exact Nat.lt_succ_of_lt (h.fresh p hp)
  · intro k' n
    rw [List.mem_cons, Prod.mk.injEq]
    by_cases hk' : k' = k
    · rw [hk', Function.update_self, Option.some.injEq]
      refine ⟨fun hn => Or.inl ⟨hn.symm, rfl⟩, ?_⟩
      intro hor
      rcases hor with hn | hn
      · exact hn.1.symm
      · exact absurd (List.mem_map_of_mem hn) hkey
    · rw [Function.update_of_ne hk', h.own]
      simp [hk']

/-- The node behind an iterator is erased. -/
theorem erase (h : Points l next iter) (hk : iter k = some n) :
    Points (l.filter fun p => p.1 ≠ n) next (Function.update iter k none) := by
  refine ⟨?_, ?_, ?_, ?_⟩
  · exact h.nodes.sublist (List.filter_sublist.map _)
  · intro p hp
    exact h.fresh p (List.mem_of_mem_filter hp)
  · exact h.once.sublist (List.filter_sublist.map _)
  · intro k' m
    have hnk := (h.own k n).mp hk
    rw [List.mem_filter]
    by_cases hk' : k' = k
    · rw [hk', Function.update_self]
      refine ⟨by simp, ?_⟩
      intro hm
      have heq := h.key_unique hm.1 hnk rfl
      have hne : (m, k).1 ≠ n := by simpa using hm.2
      rw [heq] at hne
      exact absurd rfl hne
    · rw [Function.update_of_ne hk', h.own]
      refine ⟨?_, fun hm => hm.1⟩
      intro hm
      refine ⟨hm, ?_⟩
      simp only [ne_eq, decide_not, Bool.not_eq_true', decide_eq_false_iff_not]
      intro hmn
      have heq := h.node_unique hm hnk hmn
      exact hk' (Prod.mk.inj heq).2

/-- The last node is dropped. -/
theorem dropLast (h : Points l next iter) {p : Nat × K} (hp : l.getLast? = some p) :
    Points l.dropLast next (Function.update iter p.2 none) := by
  have hmem : p ∈ l := List.mem_of_getLast? hp
  have hsplit : l = l.dropLast ++ [p] := by
    obtain ⟨ys, hys⟩ := List.getLast?_eq_some_iff.mp hp
    rw [hys, List.dropLast_concat]
  have hnot : p ∉ l.dropLast := by
    intro hin
    have hnodup := h.once
    rw [hsplit, List.map_append, List.map_singleton, List.nodup_append_comm,
      List.singleton_append, List.nodup_cons] at hnodup
    exact hnodup.1 (List.mem_map_of_mem hin)
  refine ⟨?_, ?_, ?_, ?_⟩
  · exact h.nodes.sublist ((List.dropLast_sublist l).map _)
  · intro q hq
    exact h.fresh q (List.dropLast_subset l hq)
  · exact h.once.sublist ((List.dropLast_sublist l).map _)
  · intro k m
    by_cases hk : k = p.2
    · rw [hk, Function.update_self]
      refine ⟨by simp, ?_⟩
      intro hm
      have heq : (m, p.2) = p := h.key_unique (List.dropLast_subset _ hm) hmem rfl
      rw [heq] at hm
      exact absurd hm hnot
    · rw [Function.update_of_ne hk, h.own]
      refine ⟨?_, fun hm => List.dropLast_subset l hm⟩
      intro hm
      rw [hsplit, List.mem_append, List.mem_singleton] at hm
      rcases hm with hm | hm
      · exact hm
      · rw [← hm] at hk
        exact absurd rfl hk

end Points

/-! ### The cache over the list -/

/-- A cached value with the iterator to its node. -/
structure LruEntry (V : Type) where
  data : V
  iter : Option Nat

structure LruCache (K V : Type) [DecidableEq K] where
  lruList : List (Nat × K)
  /-- The next node number. -/
  nextNode : Nat
  cache : AList fun _ : K => LruEntry V

namespace LruCache

variable [DecidableEq K] {V : Type}

def empty : LruCache K V := ⟨[], 0, ∅⟩

/-- An entry that is filled later. -/
def reserve (c : LruCache K V) (k : K) (v : V) : LruCache K V :=
  { c with cache := c.cache.insert k ⟨v, none⟩ }

/-- The key goes to the front, with its value. -/
def pushFront (c : LruCache K V) (k : K) (v : V) : LruCache K V :=
  { lruList := (c.nextNode, k) :: c.lruList
    nextNode := c.nextNode + 1
    cache := c.cache.insert k ⟨v, some c.nextNode⟩ }

/-- The node behind an iterator is erased; there may be none. -/
def eraseNode (c : LruCache K V) (iter : Option Nat) : Option (LruCache K V) :=
  match iter with
  | none => none
  | some node =>
      if node ∈ c.lruList.map Prod.fst then
        some { c with lruList := c.lruList.filter fun p => p.1 ≠ node }
      else none

/-- The key used longest ago is forgotten. -/
def popBack (c : LruCache K V) : LruCache K V :=
  match c.lruList.getLast? with
  | none => c
  | some (_, r) => { c with lruList := c.lruList.dropLast, cache := c.cache.erase r }

/-- A key that is used goes to the front, unless it is there. -/
def touch (c : LruCache K V) (k : K) (entry : LruEntry V) : Option (LruCache K V) :=
  if entry.iter ≠ none ∧ entry.iter = c.lruList.head?.map Prod.fst then some c
  else (c.eraseNode entry.iter).map fun c => c.pushFront k entry.data

/-- The iterator of a key. -/
def iterOf (c : LruCache K V) (k : K) : Option Nat := (c.cache.lookup k).bind LruEntry.iter

/-- The list has the cached keys, each at its own node. -/
structure Linked (c : LruCache K V) : Prop where
  points : Points c.lruList c.nextNode c.iterOf
  whole : ∀ k entry, c.cache.lookup k = some entry → entry.iter ≠ none

theorem linked_empty : Linked (empty : LruCache K V) :=
  ⟨Points.nil _, fun k entry h => by simp [empty] at h⟩

theorem Linked.mem_cache {c : LruCache K V} (h : Linked c) (k : K) :
    k ∈ c.lruList.map Prod.snd ↔ k ∈ c.cache := by
  rw [h.points.mem_keys, ← AList.lookup_isSome]
  unfold iterOf
  cases hl : c.cache.lookup k with
  | none => simp
  | some entry => simpa using h.whole k entry hl

theorem iterOf_pushFront (c : LruCache K V) (k : K) (v : V) :
    (c.pushFront k v).iterOf = Function.update c.iterOf k (some c.nextNode) := by
  funext k'
  unfold iterOf pushFront
  by_cases hk : k' = k
  · rw [hk, AList.lookup_insert, Function.update_self]
    rfl
  · rw [AList.lookup_insert_ne hk, Function.update_of_ne hk]

theorem lookup_pushFront (c : LruCache K V) (k k' : K) (v : V) :
    (c.pushFront k v).cache.lookup k'
      = if k' = k then some ⟨v, some c.nextNode⟩ else c.cache.lookup k' := by
  unfold pushFront
  by_cases hk : k' = k
  · rw [hk, AList.lookup_insert, if_pos rfl]
  · rw [AList.lookup_insert_ne hk, if_neg hk]

/-- A key without a node may be pushed. -/
theorem linked_pushFront {c : LruCache K V} {k : K}
    (points : Points c.lruList c.nextNode (Function.update c.iterOf k none))
    (whole : ∀ k' entry, k' ≠ k → c.cache.lookup k' = some entry → entry.iter ≠ none) (v : V) :
    Linked (c.pushFront k v) := by
  refine ⟨?_, ?_⟩
  · have hpush := points.push (k := k) (Function.update_self ..)
    rw [Function.update_idem] at hpush
    rw [iterOf_pushFront]
    exact hpush
  · intro k' entry hentry
    rw [lookup_pushFront] at hentry
    by_cases hk : k' = k
    · rw [if_pos hk, Option.some.injEq] at hentry
      rw [← hentry]
      simp
    · rw [if_neg hk] at hentry
      exact whole k' entry hk hentry

/-- Filling the entry of a key that was not cached. -/
theorem linked_fill {c : LruCache K V} (h : Linked c) {k : K} (hk : c.cache.lookup k = none)
    (v w : V) : Linked ((c.reserve k v).pushFront k w) := by
  refine linked_pushFront ?_ ?_ w
  · have hiter : Function.update (c.reserve k v).iterOf k none = c.iterOf := by
      funext k'
      by_cases hk' : k' = k
      · rw [hk', Function.update_self, iterOf, hk]
        rfl
      · rw [Function.update_of_ne hk', iterOf, reserve, AList.lookup_insert_ne hk']
        rfl
    rw [hiter]
    exact h.points
  · intro k' entry hk' hentry
    rw [reserve, AList.lookup_insert_ne hk'] at hentry
    exact h.whole k' entry hentry

theorem linked_popBack {c : LruCache K V} (h : Linked c) : Linked c.popBack := by
  unfold popBack
  cases hlast : c.lruList.getLast? with
  | none => exact h
  | some p =>
      have hiter : iterOf { c with lruList := c.lruList.dropLast, cache := c.cache.erase p.2 }
          = Function.update c.iterOf p.2 none := by
        funext k'
        unfold iterOf
        by_cases hk : k' = p.2
        · rw [hk, AList.lookup_erase, Function.update_self]
          rfl
        · rw [AList.lookup_erase_ne hk, Function.update_of_ne hk]
      refine ⟨?_, ?_⟩
      · show Points c.lruList.dropLast c.nextNode _
        rw [hiter]
        exact h.points.dropLast hlast
      · intro k' entry hentry
        by_cases hk : k' = p.2
        · rw [hk, AList.lookup_erase] at hentry
          simp at hentry
        · rw [AList.lookup_erase_ne hk] at hentry
          exact h.whole k' entry hentry

theorem length_popBack (c : LruCache K V) : c.popBack.lruList.length = c.lruList.length - 1 := by
  unfold popBack
  cases hlast : c.lruList.getLast? with
  | none =>
      rw [List.getLast?_eq_none_iff.mp hlast]
      rfl
  | some p => exact List.length_dropLast

/-- What is still cached has not changed. -/
theorem lookup_popBack {c : LruCache K V} {k : K} {entry : LruEntry V}
    (h : c.popBack.cache.lookup k = some entry) : c.cache.lookup k = some entry := by
  unfold popBack at h
  cases hlast : c.lruList.getLast? with
  | none =>
      rw [hlast] at h
      exact h
  | some p =>
      rw [hlast] at h
      by_cases hk : k = p.2
      · rw [hk] at h
        simp at h
      · rwa [AList.lookup_erase_ne hk] at h

/-- The key at the front is not the one forgotten when there are two. -/
theorem lookup_popBack_front {c : LruCache K V} {k : K} {v : V} (h : Linked (c.pushFront k v))
    (htwo : c.lruList ≠ []) :
    (c.pushFront k v).popBack.cache.lookup k = some ⟨v, some c.nextNode⟩ := by
  have hfront := lookup_pushFront c k k v
  rw [if_pos rfl] at hfront
  unfold popBack
  cases hlast : (c.pushFront k v).lruList.getLast? with
  | none => exact hfront
  | some p =>
      obtain ⟨n, r⟩ := p
      have hne : k ≠ r := by
        intro hr
        have hlast' : ((c.nextNode, k) :: c.lruList).getLast? = some (n, r) := hlast
        obtain ⟨q, l, hl⟩ := List.exists_cons_of_ne_nil htwo
        rw [hl, List.getLast?_cons_cons] at hlast'
        have hin : (n, r) ∈ c.lruList := by
          rw [hl]
          exact List.mem_of_getLast? hlast'
        have hnodup : (k :: c.lruList.map Prod.snd).Nodup := h.points.once
        rw [List.nodup_cons, hr] at hnodup
        exact hnodup.1 (List.mem_map_of_mem hin)
      show ((c.pushFront k v).cache.erase r).lookup k = _
      rw [AList.lookup_erase_ne hne, hfront]

/-- Using a cached key moves its node. -/
theorem touch_ok {c : LruCache K V} (h : Linked c) {k : K} {entry : LruEntry V}
    (hentry : c.cache.lookup k = some entry) :
    ∃ c', c.touch k entry = some c' ∧ Linked c' ∧ c'.lruList.length ≤ c.lruList.length ∧
      ∀ k' e, c'.cache.lookup k' = some e → ∃ e', c.cache.lookup k' = some e' ∧ e'.data = e.data := by
  unfold touch
  split_ifs with hfront
  · exact ⟨c, rfl, h, le_refl _, fun k' e he => ⟨e, he, rfl⟩⟩
  · obtain ⟨n, hn⟩ := Option.ne_none_iff_exists'.mp (h.whole k entry hentry)
    have hiter : c.iterOf k = some n := by
      unfold iterOf
      rw [hentry]
      exact hn
    have hmem : (n, k) ∈ c.lruList := (h.points.own k n).mp hiter
    have herase : c.eraseNode entry.iter
        = some { c with lruList := c.lruList.filter fun p => p.1 ≠ n } := by
      unfold eraseNode
      rw [hn]
      simp only
      rw [if_pos (List.mem_map_of_mem hmem)]
    refine ⟨_, by rw [herase, Option.map_some], ?_, ?_, ?_⟩
    · refine linked_pushFront (h.points.erase hiter) ?_ entry.data
      intro k' e _
      exact h.whole k' e
    · -- The list loses one node and wins one.
      have hlt : (c.lruList.filter fun p => p.1 ≠ n).length < c.lruList.length :=
        List.length_filter_lt_length_iff_exists.mpr ⟨(n, k), hmem, by simp⟩
      exact hlt
    · intro k' e he
      rw [lookup_pushFront] at he
      by_cases hk : k' = k
      · rw [if_pos hk, Option.some.injEq] at he
        rw [hk, ← he]
        exact ⟨entry, hentry, rfl⟩
      · rw [if_neg hk] at he
        exact ⟨e, he, rfl⟩

end LruCache

end RailwayDB
