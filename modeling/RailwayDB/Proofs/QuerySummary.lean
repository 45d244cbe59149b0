/-
When a summary is a valid key.

A summary is found again under a summary with the same attributes that was made
separately when both are `Normal`: the attributes in order and the hash code theirs.
The constructor that is given the attributes makes it so.  `addAttribute` and
`setAttributes` neither sort nor hash, and the constructor without attributes leaves
the hash code undefined.  `validKeys_iff` says that this is all: among summaries that
include those of the constructor, equal attributes make equal keys exactly when every
one of them is normal.
-/
import RailwayDB.Core.HashedWorkload

namespace RailwayDB.Common.Hashed

variable {A N : Type}

/-! ### Comparing element by element -/

theorem all_zip_iff [DecidableEq A] {l l' : List A} :
    (decide (l.length = l'.length) && (l.zip l').all fun p => decide (p.1 = p.2)) = true ↔
      l = l' := by
  induction l generalizing l' with
  | nil => cases l' <;> simp
  | cons a l ih =>
      cases l' with
      | nil => simp
      | cons a' l' =>
          simp only [List.length_cons, Nat.add_right_cancel_iff, List.zip_cons_cons, List.all_cons,
            Bool.and_eq_true, decide_eq_true_eq, List.cons.injEq] at ih ⊢
          rw [← ih]
          exact and_left_comm

namespace QuerySummary

theorem equals_iff [DecidableEq A] {s t : QuerySummary A} :
    s.equals t = true ↔ s.attributes = t.attributes := all_zip_iff

theorem same_iff [DecidableEq A] {s t : QuerySummary A} :
    UnorderedMap.Same s t ↔ s.hash = t.hash ∧ s.attributes = t.attributes :=
  and_congr_right fun _ => equals_iff

/-- A summary is its attributes and its hash code. -/
theorem eq_of {s t : QuerySummary A} (hattributes : s.attributes = t.attributes)
    (hhash : s.hash = t.hash) : s = t := by
  cases s
  cases t
  simp only [mk.injEq]
  exact ⟨hattributes, hhash⟩

theorem same_self [DecidableEq A] (s : QuerySummary A) : UnorderedMap.Same s s :=
  same_iff.mpr ⟨rfl, rfl⟩

variable [LinearOrder A] (ptrHash : A → BitVec 64)

/-- The attributes are in order, and the hash code is theirs. -/
structure Normal (s : QuerySummary A) : Prop where
  sorted : s.attributes.Pairwise (· ≤ ·)
  hash : s.hash = hashOf ptrHash s.attributes

variable {ptrHash}

theorem normal_ofAttributes (ptrHash : A → BitVec 64) (attributes : List A) :
    Normal ptrHash (ofAttributes ptrHash attributes) :=
  ⟨List.pairwise_insertionSort _ attributes, rfl⟩

theorem attributes_ofAttributes_perm (ptrHash : A → BitVec 64) (attributes : List A) :
    (ofAttributes ptrHash attributes).attributes.Perm attributes :=
  List.perm_insertionSort _ attributes

/-- Normal summaries with the same attributes are equal. -/
theorem Normal.eq_of_perm {s t : QuerySummary A} (hs : Normal ptrHash s) (ht : Normal ptrHash t)
    (hperm : s.attributes.Perm t.attributes) : s = t := by
  have hattributes : s.attributes = t.attributes := hperm.eq_of_pairwise' hs.sorted ht.sorted
  exact eq_of hattributes (by rw [hs.hash, ht.hash, hattributes])

/-! ### Making a summary -/

/-- A call that changes a summary. -/
inductive Change (A : Type) where
  | addAttribute (attrb : A)
  | setAttributes (attributes : List A)

/-- A constructor call: without attributes, where the hash code is what happens to be there, or
with them. -/
inductive Start (A : Type) where
  | new (hash : BitVec 64)
  | ofAttributes (attributes : List A)

/-- A constructor call and the calls after it. -/
structure Making (A : Type) where
  start : Start A
  changes : List (Change A)

def change (s : QuerySummary A) : Change A → QuerySummary A
  | .addAttribute attrb => s.addAttribute attrb
  | .setAttributes attributes => s.setAttributes attributes

def begin (ptrHash : A → BitVec 64) : Start A → QuerySummary A
  | .new hash => new hash
  | .ofAttributes attributes => ofAttributes ptrHash attributes

/-- The summary that is made. -/
def made (ptrHash : A → BitVec 64) (p : Making A) : QuerySummary A :=
  p.changes.foldl change (begin ptrHash p.start)

/-- The two are one key: they compare equal and have one hash code, and what is set for one is
found under the other. -/
structure ValidKeys (N : Type) [DecidableEq N] (s t : QuerySummary A) : Prop where
  equal : s.equals t = true
  hash : s.getHashCode = t.getHashCode
  found : ∀ (workload : QueryWorkload A N) (f : ℚ), workload.counts.find? s = none →
    (workload.setFrequency s f).getFrequency t = .ok f

/-- What is set under a new key is found under the same key. -/
theorem getFrequency_setFrequency {workload : QueryWorkload A N} {s t : QuerySummary A}
    (hnone : workload.counts.find? s = none) (hsame : UnorderedMap.Same s t) (f : ℚ) :
    (workload.setFrequency s f).getFrequency t = .ok f := by
  obtain ⟨hhash, hattributes⟩ := same_iff.mp hsame
  have hst : s = t := eq_of hattributes hhash
  have hfind : (workload.setFrequency s f).counts.find? t = some f := by
    show (workload.counts.emplace s f).find? t = some f
    rw [UnorderedMap.emplace_of_none hnone]
    unfold UnorderedMap.find?
    rw [← hst, List.find?_append, List.find?_eq_none.mpr, Option.none_or, List.find?_cons_of_pos]
    · rfl
    · simpa using same_self s
    · intro e he
      simpa using UnorderedMap.find?_eq_none.mp hnone e he
  unfold QueryWorkload.getFrequency
  rw [hfind]
  show Except.ok (f / 1) = _
  rw [div_one]

variable [DecidableEq N]

theorem Normal.validKeys {s t : QuerySummary A} (hs : Normal ptrHash s) (ht : Normal ptrHash t)
    (hperm : s.attributes.Perm t.attributes) : ValidKeys N s t := by
  have hst := hs.eq_of_perm ht hperm
  rw [← hst]
  exact ⟨equals_iff.mpr rfl, rfl, fun _ f hnone => getFrequency_setFrequency hnone (same_self s) f⟩

/-- **Among summaries that include those of the constructor with attributes, the same attributes
make the same key exactly when every summary is normal.** -/
theorem validKeys_iff {S : Set (Making A)} (hS : ∀ l, ⟨.ofAttributes l, []⟩ ∈ S) :
    (∀ p ∈ S, ∀ q ∈ S, (made ptrHash p).attributes.Perm (made ptrHash q).attributes →
      ValidKeys N (made ptrHash p) (made ptrHash q)) ↔
    ∀ p ∈ S, Normal ptrHash (made ptrHash p) := by
  refine ⟨?_, ?_⟩
  · intro hall p hp
    have hperm := attributes_ofAttributes_perm ptrHash (made ptrHash p).attributes
    have hvalid := hall p hp _ (hS (made ptrHash p).attributes) hperm.symm
    -- the summary is the one the constructor makes of its attributes
    have hattributes : (made ptrHash p).attributes
        = (ofAttributes ptrHash (made ptrHash p).attributes).attributes :=
      equals_iff.mp hvalid.equal
    have hnormal := normal_ofAttributes ptrHash (made ptrHash p).attributes
    refine ⟨?_, ?_⟩
    · rw [hattributes]
      exact hnormal.sorted
    · have hhash : (made ptrHash p).hash
          = (ofAttributes ptrHash (made ptrHash p).attributes).hash := hvalid.hash
      rw [hhash, hnormal.hash, ← hattributes]
  · intro hnormal p hp q hq hperm
    exact (hnormal p hp).validKeys (hnormal q hq) hperm

/-- Two summaries of the constructor, with nothing done to them afterwards. -/
theorem validKeys_constructor :
    ValidKeys Nat (made (BitVec.ofNat 64) ⟨.ofAttributes [8, 16], []⟩)
      (made (BitVec.ofNat 64) ⟨.ofAttributes [16, 8], []⟩) := by
  refine (validKeys_iff (S := {p : Making Nat | ∃ l, p = ⟨.ofAttributes l, []⟩})
    fun l => ⟨l, rfl⟩).mpr ?_ _ ⟨[8, 16], rfl⟩ _ ⟨[16, 8], rfl⟩ (by decide +kernel)
  rintro p ⟨l, rfl⟩
  exact normal_ofAttributes _ l

/-- The attributes at 8 and 16 added one by one: the frequency that is set is not found under the
summary that the constructor makes of them. -/
theorem addAttribute_invalid_key :
    (made (BitVec.ofNat 64) ⟨.new 0, [.addAttribute 8, .addAttribute 16]⟩).attributes.Perm
        (made (BitVec.ofNat 64) ⟨.ofAttributes [8, 16], []⟩).attributes ∧
      ((QueryWorkload.new 0 : QueryWorkload Nat Nat).setFrequency
          (made (BitVec.ofNat 64) ⟨.new 0, [.addAttribute 8, .addAttribute 16]⟩) 1).getFrequency
          (made (BitVec.ofNat 64) ⟨.ofAttributes [8, 16], []⟩)
        = .error (.assertFailed .getFrequencyCount) ∧
      ¬ ValidKeys Nat (made (BitVec.ofNat 64) ⟨.new 0, [.addAttribute 8, .addAttribute 16]⟩)
        (made (BitVec.ofNat 64) ⟨.ofAttributes [8, 16], []⟩) := by
  refine ⟨by decide +kernel, by decide +kernel, ?_⟩
  intro hvalid
  exact absurd hvalid.hash (by decide +kernel)

end QuerySummary

end RailwayDB.Common.Hashed
