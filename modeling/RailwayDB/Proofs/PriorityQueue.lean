/-
A bounded priority queue, call after call.

That items and index hold the same pairs is in the type; with the order of the items it
gives that an id is there once and that the top is the best pair.  What a run can
break is the bound.  On a full queue a new item takes the place of the bottom only when
its key is strictly better, and is added all the same when it is not: from there on the
queue is too large, and being larger than its bound it no longer counts as full.  So
a run stays within the bound exactly when no call adds to a full queue an item whose
key is no better than that of the bottom.
-/
import RailwayDB.Core.PriorityQueue
import RailwayDB.Lib.Except

namespace RailwayDB.PriorityQueue

variable {Key Id : Type} [LinearOrder Key] [LinearOrder Id]

/-! ### Items and index -/

/-- Each id is in one item. -/
theorem ids_nodup (q : PriorityQueue Key Id) : (q.getItems.map Prod.snd).Nodup := by
  refine List.Nodup.map_on ?_ ?_
  · intro a ha b hb hid
    obtain ⟨key, id⟩ := a
    obtain ⟨key', id'⟩ := b
    have hid : id = id' := hid
    subst hid
    rw [mem_getItems] at ha hb
    rw [ha, Option.some.injEq] at hb
    rw [hb]
  · exact q.getItems_sorted.imp fun hlt heq => absurd (congrArg toLex heq) (ne_of_lt hlt)

theorem mem_ids {q : PriorityQueue Key Id} {id : Id} :
    id ∈ q.getItems.map Prod.snd ↔ id ∈ q.index := by
  rw [List.mem_map, ← AList.lookup_isSome, Option.isSome_iff_exists]
  refine ⟨?_, ?_⟩
  · intro ⟨item, hitem, hid⟩
    obtain ⟨key, id'⟩ := item
    have hid : id' = id := hid
    rw [← hid]
    exact ⟨key, mem_getItems.mp hitem⟩
  · intro ⟨key, hkey⟩
    exact ⟨(key, id), mem_getItems.mpr hkey, rfl⟩

/-- The two containers have one size. -/
theorem length_getItems (q : PriorityQueue Key Id) : q.getItems.length = q.getSize := by
  have hperm : (q.getItems.map Prod.snd).Perm q.index.keys :=
    (List.perm_ext_iff_of_nodup q.ids_nodup q.index.keys_nodup).mpr fun id => mem_ids
  rw [← List.length_map (f := Prod.snd)]
  exact hperm.length_eq

theorem length_entries (q : PriorityQueue Key Id) : q.items.entries.length = q.getSize := by
  rw [← length_getItems]
  exact (List.length_map _).symm

/-- The top is the best of the items. -/
theorem getTopItem_iff {q : PriorityQueue Key Id} {item : Key × Id} :
    q.getTopItem = .ok item ↔
      item ∈ q.getItems ∧ ∀ other ∈ q.getItems, toLex item ≤ toLex other := by
  have hsorted := q.getItems_sorted
  unfold getTopItem
  cases hitems : q.getItems with
  | nil => simp
  | cons first rest =>
      rw [hitems] at hsorted
      obtain ⟨hfirst, -⟩ := List.pairwise_cons.mp hsorted
      have hbest : ∀ other ∈ first :: rest, toLex first ≤ toLex other := by
        intro other hother
        rcases List.mem_cons.mp hother with rfl | hother
        · exact le_refl _
        · exact le_of_lt (hfirst other hother)
      rw [Except.ok.injEq]
      refine ⟨?_, ?_⟩
      · intro heq
        rw [← heq]
        exact ⟨List.mem_cons_self, hbest⟩
      · intro ⟨hmem, hle⟩
        exact toLex.injective (le_antisymm (hbest item hmem) (hle first List.mem_cons_self))

/-! ### How the size changes -/

theorem getSize_addItemHasSpace (q : PriorityQueue Key Id) (key : Key) (id : Id)
    (hfree : q.index.lookup id = none) :
    (q.addItemHasSpace key id hfree).getSize = q.getSize + 1 := by
  have hnot : id ∉ q.index.keys := fun h => AList.lookup_eq_none.mp hfree (AList.mem_keys.mpr h)
  show (q.index.insert id key).keys.length = _
  rw [AList.keys_insert, List.erase_of_not_mem hnot]
  rfl

theorem removeItem_of_absent {q : PriorityQueue Key Id} {id : Id}
    (h : q.index.lookup id = none) : q.removeItem id = q := by
  unfold removeItem
  split
  · rfl
  · rename_i key hkey
    rw [h] at hkey
    simp at hkey

theorem getSize_removeItem (q : PriorityQueue Key Id) {id : Id} (h : id ∈ q.index) :
    (q.removeItem id).getSize + 1 = q.getSize := by
  obtain ⟨key, hkey⟩ := Option.isSome_iff_exists.mp (AList.lookup_isSome.mpr h)
  unfold removeItem
  split
  · rename_i hnone
    rw [hkey] at hnone
    simp at hnone
  · show (q.index.erase id).keys.length + 1 = q.index.keys.length
    rw [AList.keys_erase, List.length_erase_add_one (AList.mem_keys.mp h)]

theorem getSize_removeItem_le (q : PriorityQueue Key Id) (id : Id) :
    (q.removeItem id).getSize ≤ q.getSize := by
  by_cases h : id ∈ q.index
  · have := q.getSize_removeItem h
    omega
  · rw [removeItem_of_absent (AList.lookup_eq_none.mpr h)]

theorem getSize_updateItem (q : PriorityQueue Key Id) (key : Key) {id : Id} (h : id ∈ q.index) :
    (q.updateItem key id).getSize = q.getSize := by
  unfold updateItem
  split
  · rfl
  · rw [getSize_addItemHasSpace, getSize_removeItem q h]

/-- A full queue with room for one item has a bottom. -/
theorem exists_bottom {q : PriorityQueue Key Id} (h : 1 ≤ q.getSize) :
    ∃ bottom, q.getItems.getLast? = some bottom ∧ bottom ∈ q.getItems := by
  have hne : q.getItems ≠ [] := by
    intro hnil
    rw [← length_getItems, hnil] at h
    simp at h
  exact ⟨_, List.getLast?_eq_some_getLast hne, List.getLast_mem hne⟩

/-! ### One call -/

inductive Call (Key Id : Type) where
  | addItem (key : Key) (id : Id)
  | updateItem (key : Key) (id : Id)
  | removeItem (id : Id)

def call (q : PriorityQueue Key Id) : Call Key Id → Except Fault (PriorityQueue Key Id)
  | .addItem key id => q.addItem key id
  | .updateItem key id => .ok (q.updateItem key id)
  | .removeItem id => .ok (q.removeItem id)

/-- An id is added when it is absent and updated when it is present. -/
def Permits (q : PriorityQueue Key Id) : Call Key Id → Prop
  | .addItem _ id => id ∉ q.index
  | .updateItem _ id => id ∈ q.index
  | .removeItem _ => True

/-- On a full queue the key that comes in is strictly better than that of the bottom. -/
def Displaces (q : PriorityQueue Key Id) : Call Key Id → Prop
  | .addItem key _ => q.getSize = q.maxItemCount →
      ∀ bottom ∈ q.getItems.getLast?, key < bottom.1
  | .updateItem _ _ => True
  | .removeItem _ => True

/-- What is promised of every state. -/
structure Sound (q : PriorityQueue Key Id) : Prop where
  indexed : ∀ key id, q.index.lookup id = some key ↔ (key, id) ∈ q.getItems
  once : (q.getItems.map Prod.snd).Nodup
  top : ∀ item, q.getTopItem = .ok item ↔
    item ∈ q.getItems ∧ ∀ other ∈ q.getItems, toLex item ≤ toLex other
  bounded : q.getSize ≤ q.maxItemCount

/-- What is promised of a call: on a full queue the better of the new item and the bottom
stays, with the items that are neither. -/
def KeepsBetter (q q' : PriorityQueue Key Id) : Call Key Id → Prop
  | .addItem key id => q.getSize = q.maxItemCount → ∀ bottom ∈ q.getItems.getLast?, ∀ item,
      item ∈ q'.getItems ↔ (item ∈ q.getItems ∧ item ≠ bottom) ∨
        toLex item = min (toLex (key, id)) (toLex bottom)
  | .updateItem _ _ => True
  | .removeItem _ => True

theorem sound_of_bounded {q : PriorityQueue Key Id} (h : q.getSize ≤ q.maxItemCount) : Sound q :=
  ⟨fun _ _ => mem_getItems.symm, q.ids_nodup, fun _ => getTopItem_iff, h⟩

@[simp] theorem maxItemCount_removeItem (q : PriorityQueue Key Id) (id : Id) :
    (q.removeItem id).maxItemCount = q.maxItemCount := by
  unfold removeItem
  split
  · rfl
  · rfl

@[simp] theorem maxItemCount_updateItem (q : PriorityQueue Key Id) (key : Key) (id : Id) :
    (q.updateItem key id).maxItemCount = q.maxItemCount := by
  unfold updateItem
  split
  · rfl
  · exact maxItemCount_removeItem q id

/-- An item of a queue that is not full, or whose bottom is no worse, is added. -/
theorem addItem_grows {q : PriorityQueue Key Id} {key : Key} {id : Id} (hid : id ∉ q.index)
    (h : q.getSize = q.maxItemCount → ∃ bottom ∈ q.getItems.getLast?, bottom.1 ≤ key) :
    ∃ q', q.addItem key id = .ok q' ∧ q'.getSize = q.getSize + 1 ∧
      q'.maxItemCount = q.maxItemCount := by
  have hfree := AList.lookup_eq_none.mpr hid
  refine ⟨q.addItemHasSpace key id hfree, ?_, getSize_addItemHasSpace q key id hfree, rfl⟩
  unfold addItem
  rw [dif_pos hfree, length_entries]
  split
  · rename_i hfull
    obtain ⟨bottom, hbottom, hle⟩ := h hfull
    rw [Option.mem_def.mp hbottom]
    exact if_pos hle
  · rfl

/-- A better item takes the place of the bottom of a full queue. -/
theorem addItem_displaces {q : PriorityQueue Key Id} {key : Key} {id : Id} (hid : id ∉ q.index)
    (hfull : q.getSize = q.maxItemCount) {bottom : Key × Id}
    (hbottom : bottom ∈ q.getItems.getLast?) (hlt : key < bottom.1) :
    ∃ q', q.addItem key id = .ok q' ∧ q'.getSize = q.getSize ∧
      q'.maxItemCount = q.maxItemCount ∧
      ∀ item, item ∈ q'.getItems ↔ (item ∈ q.getItems ∧ item ≠ bottom) ∨ item = (key, id) := by
  have hfree := AList.lookup_eq_none.mpr hid
  have hmem : bottom ∈ q.getItems := List.mem_of_getLast? hbottom
  have hkey : q.index.lookup bottom.2 = some bottom.1 := mem_getItems.mp hmem
  have hin : bottom.2 ∈ q.index := AList.lookup_isSome.mp (by rw [hkey]; rfl)
  have hne : id ≠ bottom.2 := fun heq => hid (heq ▸ hin)
  have hgone : (q.removeItem bottom.2).index.lookup id = none := by
    rw [lookup_removeItem, if_neg hne, hfree]
  have hsize : ((q.removeItem bottom.2).updateItem key id).getSize = q.getSize := by
    unfold updateItem
    rw [if_neg (by rw [hgone]; simp), getSize_addItemHasSpace]
    rw [removeItem_of_absent hgone, getSize_removeItem q hin]
  refine ⟨(q.removeItem bottom.2).updateItem key id, ?_, hsize, by simp, ?_⟩
  · unfold addItem
    rw [dif_pos hfree, length_entries, if_pos hfull, Option.mem_def.mp hbottom]
    exact if_neg (not_le_of_gt hlt)
  · intro item
    obtain ⟨key', id'⟩ := item
    rw [mem_getItems, mem_getItems, lookup_updateItem, lookup_removeItem]
    by_cases hid' : id' = id
    · rw [if_pos hid', hid', hfree]
      simp [eq_comm]
    · rw [if_neg hid']
      by_cases hbot : id' = bottom.2
      · rw [if_pos hbot, hbot, hkey]
        refine iff_of_false (by simp) ?_
        rintro (⟨hsame, hdiff⟩ | heq)
        · exact hdiff (Prod.ext (Option.some.inj hsame).symm rfl)
        · exact hne (Prod.mk.inj heq).2.symm
      · rw [if_neg hbot]
        refine ⟨fun h => Or.inl ⟨h, ?_⟩, ?_⟩
        · intro heq
          exact hbot (congrArg Prod.snd heq)
        · rintro (⟨h, -⟩ | heq)
          · exact h
          · exact absurd (Prod.mk.inj heq).2 hid'

/-! ### A run of calls -/

def run (maxItemCount : Nat) (calls : List (Call Key Id)) : Except Fault (PriorityQueue Key Id) :=
  calls.foldlM call (new maxItemCount)

/-- Every call is permitted where it is made. -/
def PermittedRun (maxItemCount : Nat) (calls : List (Call Key Id)) : Prop :=
  ∀ before c after q, calls = before ++ c :: after → run maxItemCount before = .ok q → q.Permits c

/-- Every state is as promised, and every call does as promised. -/
structure SoundRun (maxItemCount : Nat) (calls : List (Call Key Id)) : Prop where
  states : ∀ before after, calls = before ++ after →
    ∃ q, run maxItemCount before = .ok q ∧ q.maxItemCount = maxItemCount ∧ q.Sound
  calls : ∀ before c after q q', calls = before ++ c :: after → run maxItemCount before = .ok q →
    q.call c = .ok q' → KeepsBetter q q' c

/-- What a call does to the size, by what it finds. -/
theorem getSize_call {q : PriorityQueue Key Id} {c : Call Key Id} (hmax : 1 ≤ q.maxItemCount)
    (hbound : q.getSize ≤ q.maxItemCount) (hpermits : q.Permits c) :
    ∃ q', q.call c = .ok q' ∧ q'.maxItemCount = q.maxItemCount ∧
      (q'.getSize ≤ q.maxItemCount ↔ q.Displaces c) ∧
      (q.Displaces c → KeepsBetter q q' c) := by
  cases c with
  | addItem key id =>
      by_cases hfull : q.getSize = q.maxItemCount
      · obtain ⟨bottom, hbottom, -⟩ := exists_bottom (hfull ▸ hmax)
        by_cases hlt : key < bottom.1
        · obtain ⟨q', hcall, hsize, hcount, hitems⟩ := addItem_displaces hpermits hfull hbottom hlt
          have hdisplaces : q.Displaces (.addItem key id) := by
            intro _ bottom' hbottom'
            rw [Option.mem_unique hbottom' hbottom]
            exact hlt
          refine ⟨q', hcall, hcount, iff_of_true (by omega) hdisplaces, ?_⟩
          intro _ _ bottom' hbottom' item
          have hworse : toLex (key, id) < toLex bottom := Prod.Lex.toLex_lt_toLex.mpr (Or.inl hlt)
          rw [Option.mem_unique hbottom' hbottom, hitems, min_eq_left (le_of_lt hworse)]
          rfl
        · obtain ⟨q', hcall, hsize, hcount⟩ := addItem_grows hpermits
            fun _ => ⟨bottom, hbottom, le_of_not_gt hlt⟩
          have hkeeps : ¬ q.Displaces (.addItem key id) := fun h => hlt (h hfull bottom hbottom)
          exact ⟨q', hcall, hcount, iff_of_false (by omega) hkeeps, fun h => absurd h hkeeps⟩
      · obtain ⟨q', hcall, hsize, hcount⟩ := addItem_grows hpermits fun h => absurd h hfull
        exact ⟨q', hcall, hcount, iff_of_true (by omega) fun h => absurd h hfull,
          fun _ h => absurd h hfull⟩
  | updateItem key id =>
      refine ⟨_, rfl, maxItemCount_updateItem q key id, iff_of_true ?_ trivial, fun _ => trivial⟩
      rw [getSize_updateItem q key hpermits]
      exact hbound
  | removeItem id =>
      refine ⟨_, rfl, maxItemCount_removeItem q id, iff_of_true ?_ trivial, fun _ => trivial⟩
      exact le_trans (getSize_removeItem_le q id) hbound

/-- **A run is as promised exactly when no item comes to a full queue that is no better than its
bottom.** -/
theorem soundRun_iff {maxItemCount : Nat} (hmax : 1 ≤ maxItemCount) {calls : List (Call Key Id)}
    (hcalls : PermittedRun maxItemCount calls) :
    SoundRun maxItemCount calls ↔ ∀ before c after q, calls = before ++ c :: after →
      run maxItemCount before = .ok q → q.Displaces c := by
  refine ⟨?_, ?_⟩
  · intro hsound before c after q heq hrun
    obtain ⟨q₁, hrun₁, hcount, hq⟩ := hsound.states before (c :: after) heq
    rw [hrun, Except.ok.injEq] at hrun₁
    rw [← hrun₁] at hcount hq
    obtain ⟨q', hcall, -, hiff, -⟩ := getSize_call (hcount ▸ hmax) hq.bounded
      (hcalls before c after q heq hrun)
    obtain ⟨q₂, hrun₂, hcount₂, hq₂⟩ := hsound.states (before ++ [c]) after (by
      rw [heq, List.append_assoc]
      rfl)
    have hlast : run maxItemCount (before ++ [c]) = .ok q' := by
      unfold run at hrun ⊢
      rw [List.foldlM_append, hrun]
      show (q.call c >>= fun q => .ok q) = .ok q'
      rw [hcall]
      rfl
    rw [hlast, Except.ok.injEq] at hrun₂
    rw [← hrun₂] at hcount₂ hq₂
    rw [← hiff, hcount, ← hcount₂]
    exact hq₂.bounded
  · intro hdisplaces
    have hstates : ∀ before after, calls = before ++ after → ∃ q, run maxItemCount before = .ok q ∧
        q.maxItemCount = maxItemCount ∧ q.getSize ≤ q.maxItemCount := by
      intro before after heq
      refine Except.foldlM_along
        (P := fun q : PriorityQueue Key Id => q.maxItemCount = maxItemCount ∧
          q.getSize ≤ q.maxItemCount)
        (A := fun q c => q.Permits c ∧ q.Displaces c) ?_ ⟨rfl, Nat.zero_le _⟩ ?_ heq
      · intro q c hq hc
        obtain ⟨hcount, hbound⟩ := hq
        obtain ⟨q', hcall, hcount', hiff, -⟩ := getSize_call (hcount ▸ hmax) hbound hc.1
        exact ⟨q', hcall, hcount'.trans hcount, hcount' ▸ hiff.mpr hc.2⟩
      · intro before' c after' q heq' hrun
        exact ⟨hcalls before' c after' q heq' hrun, hdisplaces before' c after' q heq' hrun⟩
    refine ⟨?_, ?_⟩
    · intro before after heq
      obtain ⟨q, hrun, hcount, hbound⟩ := hstates before after heq
      exact ⟨q, hrun, hcount, sound_of_bounded hbound⟩
    · intro before c after q q' heq hrun hcall
      obtain ⟨q₁, hrun₁, hcount, hbound⟩ := hstates before _ heq
      rw [hrun, Except.ok.injEq] at hrun₁
      rw [← hrun₁] at hcount hbound
      obtain ⟨q₂, hcall₂, -, -, hkeeps⟩ := getSize_call (hcount ▸ hmax) hbound
        (hcalls before c after q heq hrun)
      rw [hcall, Except.ok.injEq] at hcall₂
      rw [hcall₂]
      exact hkeeps (hdisplaces before c after q heq hrun)

section Example

instance decidablePermits (q : PriorityQueue Key Id) (c : Call Key Id) : Decidable (q.Permits c) :=
  match c with
  | .addItem _ id => inferInstanceAs (Decidable (id ∉ q.index))
  | .updateItem _ id => inferInstanceAs (Decidable (id ∈ q.index))
  | .removeItem _ => inferInstanceAs (Decidable True)

instance decidableDisplaces (q : PriorityQueue Key Id) (c : Call Key Id) :
    Decidable (q.Displaces c) :=
  match c with
  | .addItem key _ => inferInstanceAs (Decidable (q.getSize = q.maxItemCount →
      ∀ bottom ∈ q.getItems.getLast?, key < bottom.1))
  | .updateItem _ _ => inferInstanceAs (Decidable True)
  | .removeItem _ => inferInstanceAs (Decidable True)

/-- With the largest key at the top: 5 displaces 3 and is then lowered to 4. -/
def displacing : List (Call Natᵒᵈ Nat) :=
  [.addItem (OrderDual.toDual 3) 1, .addItem (OrderDual.toDual 5) 2,
    .updateItem (OrderDual.toDual 4) 2, .removeItem 2]

theorem soundRun_displacing : PermittedRun 1 displacing ∧ SoundRun 1 displacing := by
  have hcalls : PermittedRun 1 displacing := Except.allowed_of_check (by decide +kernel)
  exact ⟨hcalls, (soundRun_iff (Nat.le_refl 1) hcalls).mpr
    (Except.allowed_of_check (by decide +kernel))⟩

/-- A worse item comes to a queue that is full with one item, which then has two. -/
def worseItem : List (Call Nat Nat) := [.addItem 1 1, .addItem 2 2]

theorem not_soundRun : ¬ ∀ maxItemCount, 1 ≤ maxItemCount → ∀ calls : List (Call Nat Nat),
    PermittedRun maxItemCount calls → SoundRun maxItemCount calls := by
  intro hall
  have hsound := hall 1 (Nat.le_refl 1) worseItem (Except.allowed_of_check (by decide +kernel))
  obtain ⟨q, hrun, hcount, hq⟩ := hsound.states worseItem [] (List.append_nil _).symm
  have hsize : (run 1 worseItem).toOption.map getSize = some 2 := by decide +kernel
  have hbound := hq.bounded
  rw [hrun] at hsize
  rw [Option.some.inj hsize, hcount] at hbound
  omega

end Example

end RailwayDB.PriorityQueue
