/-
Finite sets under an involution.

Elements come in pairs, `a` and `rev a`.  In a finite set some have their partner
beside them and some do not; the latter are its dangling elements.  What is counted
here is how the number of dangling elements moves when one element comes in, and how
a sum over the pairs moves with it.
-/
import Mathlib.Algebra.Order.BigOperators.Group.Finset

namespace Pairing

variable {α β : Type*} [DecidableEq α] [DecidableEq β] {rev : α → α}

/-- The elements whose partner is missing. -/
def dangling (rev : α → α) (s : Finset α) : Finset α := s.filter fun a => rev a ∉ s

/-- The partner of a newcomer was dangling, and is not any more. -/
theorem dangling_insert_of_mem (hrev : ∀ a, rev (rev a) = a) {s : Finset α} {a : α}
    (h : rev a ∈ s) :
    dangling rev (insert a s) = (dangling rev s).erase (rev a) := by
  ext b
  simp only [dangling, Finset.mem_filter, Finset.mem_insert, Finset.mem_erase, not_or]
  refine ⟨?_, ?_⟩
  · intro hb
    obtain ⟨hmem, hne, hout⟩ := hb
    have hba : b ≠ a := by
      intro hc
      rw [hc] at hout
      exact hout h
    refine ⟨?_, hmem.resolve_left hba, hout⟩
    intro hc
    rw [hc, hrev] at hne
    exact hne rfl
  · intro hb
    obtain ⟨hne, hmem, hout⟩ := hb
    refine ⟨Or.inr hmem, ?_, hout⟩
    intro hc
    apply hne
    rw [← hc, hrev]

/-- A newcomer without a partner dangles, and leaves the others as they are. -/
theorem dangling_insert_of_notMem (hrev : ∀ a, rev (rev a) = a) {s : Finset α} {a : α}
    (hfix : rev a ≠ a) (h : rev a ∉ s) :
    dangling rev (insert a s) = insert a (dangling rev s) := by
  ext b
  simp only [dangling, Finset.mem_filter, Finset.mem_insert, not_or]
  refine ⟨?_, ?_⟩
  · intro hb
    obtain ⟨hmem, -, hout⟩ := hb
    rcases hmem with hba | hmem
    · exact Or.inl hba
    · exact Or.inr ⟨hmem, hout⟩
  · intro hb
    rcases hb with hba | hb
    · rw [hba]
      exact ⟨Or.inl rfl, hfix, h⟩
    · obtain ⟨hmem, hout⟩ := hb
      refine ⟨Or.inr hmem, ?_, hout⟩
      intro hc
      apply h
      rw [← hc, hrev]
      exact hmem

theorem card_dangling_insert_of_mem (hrev : ∀ a, rev (rev a) = a) {s : Finset α} {a : α}
    (ha : a ∉ s) (h : rev a ∈ s) :
    (dangling rev (insert a s)).card + 1 = (dangling rev s).card := by
  have hmem : rev a ∈ dangling rev s := by
    rw [dangling, Finset.mem_filter, hrev]
    exact ⟨h, ha⟩
  rw [dangling_insert_of_mem hrev h]
  exact Finset.card_erase_add_one hmem

theorem card_dangling_insert_of_notMem (hrev : ∀ a, rev (rev a) = a) {s : Finset α} {a : α}
    (ha : a ∉ s) (hfix : rev a ≠ a) (h : rev a ∉ s) :
    (dangling rev (insert a s)).card = (dangling rev s).card + 1 := by
  rw [dangling_insert_of_notMem hrev hfix h, Finset.card_insert_of_notMem]
  intro hc
  exact ha (Finset.mem_of_mem_filter a hc)

theorem card_dangling_le (s : Finset α) : (dangling rev s).card ≤ s.card :=
  Finset.card_filter_le _ _

/-! ### Sums over pairs -/

/-- The sum of `g` over the pairs met, where `pair` names the pair of an element. -/
def pairSum (pair : α → β) (g : β → Nat) (s : Finset α) : Nat := ∑ p ∈ s.image pair, g p

theorem pairSum_insert_of_mem {pair : α → β} (g : β → Nat) (hpair : ∀ a, pair (rev a) = pair a)
    {s : Finset α} {a : α} (h : rev a ∈ s) :
    pairSum pair g (insert a s) = pairSum pair g s := by
  have himage : (insert a s).image pair = s.image pair := by
    rw [Finset.image_insert, Finset.insert_eq_self, ← hpair a]
    exact Finset.mem_image_of_mem pair h
  rw [pairSum, himage, pairSum]

theorem pairSum_insert_of_notMem {pair : α → β} (g : β → Nat) {s : Finset α} {a : α}
    (ha : a ∉ s) (honly : ∀ b ∈ s, pair b = pair a → b = a ∨ b = rev a) (h : rev a ∉ s) :
    pairSum pair g (insert a s) = pairSum pair g s + g (pair a) := by
  have hnew : pair a ∉ s.image pair := by
    intro hc
    obtain ⟨b, hb, hpb⟩ := Finset.mem_image.mp hc
    rcases honly b hb hpb with hba | hba
    · exact ha (hba ▸ hb)
    · exact h (hba ▸ hb)
  rw [pairSum, Finset.image_insert, Finset.sum_insert hnew, pairSum, Nat.add_comm]

omit [DecidableEq α] in
/-- A pair that is met is part of the sum. -/
theorem le_pairSum {pair : α → β} (g : β → Nat) {s : Finset α} {a : α} (h : a ∈ s) :
    g (pair a) ≤ pairSum pair g s :=
  Finset.single_le_sum (fun _ _ => Nat.zero_le _) (Finset.mem_image_of_mem pair h)

/-! ### Complete pairs -/

/-- The pairs both of whose elements are there. -/
def complete (rev : α → α) (pair : α → β) (s : Finset α) : Finset β :=
  (s.filter fun a => rev a ∈ s).image pair

theorem mem_complete {pair : α → β} {s : Finset α} {p : β} :
    p ∈ complete rev pair s ↔ ∃ a ∈ s, rev a ∈ s ∧ pair a = p := by
  unfold complete
  simp only [Finset.mem_image, Finset.mem_filter, and_assoc]

/-- A newcomer whose partner is there completes their pair. -/
theorem complete_insert_of_mem {pair : α → β}
    (hpair : ∀ a, pair (rev a) = pair a) {s : Finset α} {a : α} (h : rev a ∈ s) :
    complete rev pair (insert a s) = insert (pair a) (complete rev pair s) := by
  ext p
  rw [Finset.mem_insert, mem_complete, mem_complete]
  refine ⟨?_, ?_⟩
  · intro hp
    obtain ⟨b, hb, hrb, rfl⟩ := hp
    rcases Finset.mem_insert.mp hb with rfl | hb
    · exact Or.inl rfl
    · rcases Finset.mem_insert.mp hrb with hrb | hrb
      · exact Or.inl (by rw [← hrb, hpair])
      · exact Or.inr ⟨b, hb, hrb, rfl⟩
  · intro hp
    rcases hp with rfl | hp
    · exact ⟨a, Finset.mem_insert_self _ _, Finset.mem_insert_of_mem h, rfl⟩
    · obtain ⟨b, hb, hrb, rfl⟩ := hp
      exact ⟨b, Finset.mem_insert_of_mem hb, Finset.mem_insert_of_mem hrb, rfl⟩

/-- A newcomer without a partner completes nothing. -/
theorem complete_insert_of_notMem (hrev : ∀ a, rev (rev a) = a) {pair : α → β} {s : Finset α}
    {a : α} (hfix : rev a ≠ a) (h : rev a ∉ s) :
    complete rev pair (insert a s) = complete rev pair s := by
  ext p
  rw [mem_complete, mem_complete]
  refine ⟨?_, ?_⟩
  · intro hp
    obtain ⟨b, hb, hrb, rfl⟩ := hp
    have hba : b ≠ a := by
      intro hc
      rw [hc, Finset.mem_insert] at hrb
      exact hrb.elim hfix h
    have hb := (Finset.mem_insert.mp hb).resolve_left hba
    have hrba : rev b ≠ a := by
      intro hc
      rw [← hc, hrev] at h
      exact h hb
    exact ⟨b, hb, (Finset.mem_insert.mp hrb).resolve_left hrba, rfl⟩
  · intro hp
    obtain ⟨b, hb, hrb, rfl⟩ := hp
    exact ⟨b, Finset.mem_insert_of_mem hb, Finset.mem_insert_of_mem hrb, rfl⟩

/-- The pair of an element that is missing is not complete. -/
theorem pair_notMem_complete (hrev : ∀ a, rev (rev a) = a) {pair : α → β} {s : Finset α} {a : α}
    (ha : a ∉ s) (honly : ∀ b ∈ s, pair b = pair a → b = a ∨ b = rev a) :
    pair a ∉ complete rev pair s := by
  intro hc
  obtain ⟨b, hb, hrb, hpair⟩ := mem_complete.mp hc
  rcases honly b hb hpair with rfl | rfl
  · exact ha hb
  · rw [hrev] at hrb
    exact ha hrb

end Pairing
