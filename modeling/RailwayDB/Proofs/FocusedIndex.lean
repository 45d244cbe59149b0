/-
What the focused index has of one vertex.

Its records are sorted by vertex and then by the time of the newest edge, as bytes.
Times from zero on are written in their own order.  So from a key on, the index has
the lists of its vertex that end at that time or later, in the order of time, and
after them only lists of other vertices.
-/
import RailwayDB.Proofs.IndexedBlocks

namespace RailwayDB

open FocusedIntervalQueryIndex

variable {P T : Type} {schema : Schema} [LinearOrder T] [Timestamp T] [BlockTime T]

/-- Times from zero on are written in order. -/
class WrittenInOrder (T : Type) [LinearOrder T] [Timestamp T] [BlockTime T] : Prop where
  timeBytes_lt : ∀ {a b : T}, BlockTime.zero ≤ a → BlockTime.zero ≤ b → a < b →
    timeBytes a < timeBytes b
  zero_le_infinity : (BlockTime.zero : T) ≤ Timestamp.infinity

theorem signBit_eq_false_of_nonneg {t : Time} (h : BlockTime.zero ≤ t) :
    Binary64.signBit t.val.val = false := by
  have hrank : Binary64.rank (BlockTime.zero : Time).val.val ≤ Binary64.rank t.val.val := h
  rw [show Binary64.rank (BlockTime.zero : Time).val.val = 0 by decide +kernel] at hrank
  have hneg := t.notNegZero
  rw [ne_eq, ← UInt64.toNat_inj, show (9223372036854775808 : UInt64).toNat = 2 ^ 63 from rfl] at hneg
  have hlt := t.val.val.toBits.toNat_lt
  cases hs : Binary64.signBit t.val.val with
  | false => rfl
  | true =>
      simp only [Binary64.rank, Binary64.signBit, Binary64.magnitude, decide_eq_true_eq] at hrank hs
      rw [if_pos hs] at hrank
      omega

instance : WrittenInOrder Time where
  timeBytes_lt ha hb hlt :=
    (timeBytes_lt_timeBytes (signBit_eq_false_of_nonneg ha) (signBit_eq_false_of_nonneg hb)).mpr
      ((Double.lt_iff_rank _ _).mpr hlt)
  zero_le_infinity := by decide +kernel

section Order

variable [WrittenInOrder T] {a b : T}

theorem timeBytes_lt_iff_lt (ha : BlockTime.zero ≤ a) (hb : BlockTime.zero ≤ b) :
    timeBytes a < timeBytes b ↔ a < b := by
  refine ⟨?_, WrittenInOrder.timeBytes_lt ha hb⟩
  intro hlt
  by_contra hge
  rcases lt_or_eq_of_le (not_lt.mp hge) with hgt | heq
  · exact absurd hlt (lt_asymm (WrittenInOrder.timeBytes_lt hb ha hgt))
  · rw [heq] at hlt
    exact lt_irrefl _ hlt

/-- Where a key comes among the records. -/
theorem key_lt_key_iff {v w : VertexId} (ha : BlockTime.zero ≤ a) (hb : BlockTime.zero ≤ b) :
    Bytes.bigEndian 8 v.val ++ timeBytes a < Bytes.bigEndian 8 w.val ++ timeBytes b ↔
      v < w ∨ v = w ∧ a < b := by
  rw [Bytes.append_lt_append_iff (by simp), timeBytes_lt_iff_lt ha hb,
    Bytes.bigEndian_lt_iff 8 (show v.val < 256 ^ 8 from v.isLt) (show w.val < 256 ^ 8 from w.isLt)]
  refine or_congr Iff.rfl (and_congr_left fun _ => ⟨?_, fun h => by rw [h]⟩)
  exact fun h => Fin.ext (Bytes.bigEndian_injective v.isLt w.isLt h)

end Order

/-! ### The records of a vertex -/

/-- What is stored of an entry. -/
def record (e : IntervalData T) : List Byte × List Byte := (recordKey e, recordData e)

/-- The entries of a vertex. -/
def entriesFor (iqIndex : List (IntervalData T)) (v : VertexId) : List (IntervalData T) :=
  iqIndex.filter fun e => e.vertex = v

theorem mem_entriesFor {T : Type} {iqIndex : List (IntervalData T)} {v : VertexId}
    {e : IntervalData T} :
    e ∈ entriesFor iqIndex v ↔ e ∈ iqIndex ∧ e.vertex = v := by
  simp [entriesFor]

/-- The focused index has the record of each entry and no other. -/
structure Cataloged (iqIndex : List (IntervalData T))
    (fiqIndex : SortedMap (List Byte) (List Byte)) : Prop where
  apart : Apart iqIndex fiqIndex
  only : ∀ p ∈ fiqIndex.entries, ∃ e ∈ iqIndex, p = record e
  nonneg : ∀ e ∈ iqIndex, BlockTime.zero ≤ e.intervalEnd

section Cataloged

variable {iqIndex : List (IntervalData T)} {fiqIndex : SortedMap (List Byte) (List Byte)}
  {v : VertexId} {start : T}

theorem Cataloged.mem_iff (h : Cataloged iqIndex fiqIndex) {p : List Byte × List Byte} :
    p ∈ fiqIndex.entries ↔ ∃ e ∈ iqIndex, p = record e := by
  refine ⟨h.only p, ?_⟩
  rintro ⟨e, he, rfl⟩
  exact SortedMap.mem_iff_find?.mpr (h.apart.found e he)

/-- The lists of a vertex, one after the other. -/
theorem Cataloged.disjoint (h : Cataloged iqIndex fiqIndex) (v : VertexId) :
    (entriesFor iqIndex v).Pairwise fun e e' => e.intervalEnd < e'.intervalStart := by
  refine (h.apart.disjoint.filter _).imp_of_mem ?_
  intro e e' he he' hdisjoint
  exact hdisjoint ((mem_entriesFor.mp he).2.trans (mem_entriesFor.mp he').2.symm)

variable [WrittenInOrder T]

/-- Where an entry's record comes. -/
theorem Cataloged.recordKey_lt_iff (h : Cataloged iqIndex fiqIndex) {e : IntervalData T}
    (he : e ∈ iqIndex) (hstart : BlockTime.zero ≤ start) :
    recordKey e < Bytes.bigEndian 8 v.val ++ timeBytes start ↔
      e.vertex < v ∨ e.vertex = v ∧ e.intervalEnd < start :=
  key_lt_key_iff (h.nonneg e he) hstart

theorem Cataloged.mem_lowerBound_key (h : Cataloged iqIndex fiqIndex)
    (hstart : BlockTime.zero ≤ start) {p : List Byte × List Byte} :
    p ∈ fiqIndex.lowerBound (Bytes.bigEndian 8 v.val ++ timeBytes start) ↔
      ∃ e ∈ iqIndex, p = record e ∧ (v < e.vertex ∨ e.vertex = v ∧ start ≤ e.intervalEnd) := by
  have hplace : ∀ e ∈ iqIndex, (Bytes.bigEndian 8 v.val ++ timeBytes start ≤ (record e).1 ↔
      v < e.vertex ∨ e.vertex = v ∧ start ≤ e.intervalEnd) := by
    intro e he
    rw [← not_lt, show (record e).1 = recordKey e from rfl, h.recordKey_lt_iff he hstart, not_or, not_and,
      not_lt, not_lt]
    refine ⟨?_, ?_⟩
    · rintro ⟨hle, himp⟩
      rcases lt_or_eq_of_le hle with hlt | heq
      · exact Or.inl hlt
      · exact Or.inr ⟨heq.symm, himp heq.symm⟩
    · rintro (hlt | ⟨heq, hle⟩)
      · exact ⟨hlt.le, fun heq => absurd heq hlt.ne'⟩
      · exact ⟨heq.ge, fun _ => hle⟩
  rw [SortedMap.mem_lowerBound, h.mem_iff]
  refine ⟨?_, ?_⟩
  · rintro ⟨⟨e, he, rfl⟩, hle⟩
    exact ⟨e, he, rfl, (hplace e he).mp hle⟩
  · rintro ⟨e, he, rfl, hle⟩
    exact ⟨⟨e, he, rfl⟩, (hplace e he).mpr hle⟩

/-- **The index from a key on**: the lists of its vertex that do not end before its time, in order,
then those of other vertices. -/
theorem Cataloged.lowerBound_key (h : Cataloged iqIndex fiqIndex) (v : VertexId)
    (hstart : BlockTime.zero ≤ start) :
    ∃ rest, fiqIndex.lowerBound (Bytes.bigEndian 8 v.val ++ timeBytes start)
        = ((entriesFor iqIndex v).filter fun e => start ≤ e.intervalEnd).map record ++ rest ∧
      ∀ p ∈ rest, ∃ e : IntervalData T, e.vertex ≠ v ∧ p = record e := by
  have hmem := fun p => h.mem_lowerBound_key (v := v) hstart (p := p)
  have hsorted := fiqIndex.pairwise_lowerBound (Bytes.bigEndian 8 v.val ++ timeBytes start)
  revert hmem hsorted
  generalize fiqIndex.lowerBound (Bytes.bigEndian 8 v.val ++ timeBytes start) = l
  intro hmem hsorted
  -- The vertex of a record is written in front.
  let own (p : List Byte × List Byte) : Bool := p.1.take 8 = Bytes.bigEndian 8 v.val
  have hown : ∀ e : IntervalData T, own (record e) = true ↔ e.vertex = v := by
    intro e
    have htake : (record e).1.take 8 = Bytes.bigEndian 8 e.vertex.val := by
      rw [show (record e).1 = Bytes.bigEndian 8 e.vertex.val ++ timeBytes e.intervalEnd from rfl,
        List.take_left' (by simp)]
    simp only [own, htake, decide_eq_true_eq]
    exact ⟨fun heq => Fin.ext (Bytes.bigEndian_injective e.vertex.isLt v.isLt heq),
      fun heq => by rw [heq]⟩
  have hdown : l.Pairwise fun x y => own y = true → own x = true := by
    refine hsorted.imp_of_mem ?_
    intro x y hx hy hlt hy'
    obtain ⟨e, he, rfl, hplace⟩ := (hmem x).mp hx
    obtain ⟨e', he', rfl, -⟩ := (hmem y).mp hy
    rw [hown] at hy' ⊢
    rcases hplace with habove | ⟨heq, -⟩
    · rcases (key_lt_key_iff (h.nonneg e he) (h.nonneg e' he')).mp hlt with hlt | ⟨heq, -⟩
      · rw [hy'] at hlt
        exact absurd hlt (lt_asymm habove)
      · exact heq.trans hy'
    · exact heq
  refine ⟨l.filter fun p => !own p, ?_, ?_⟩
  · rw [← dropWhile_eq_filter hdown]
    refine (List.takeWhile_append_dropWhile (p := own)).symm.trans (congrArg (· ++ _) ?_)
    rw [takeWhile_eq_filter hdown]
    refine SortedMap.eq_of_mem_iff (hsorted.filter _) ?_ ?_
    · refine List.pairwise_map.mpr (((h.disjoint v).filter _).imp_of_mem ?_)
      intro e e' he he' hlt
      obtain ⟨hin, hv⟩ := mem_entriesFor.mp (List.mem_filter.mp he).1
      obtain ⟨hin', hv'⟩ := mem_entriesFor.mp (List.mem_filter.mp he').1
      refine (key_lt_key_iff (h.nonneg e hin) (h.nonneg e' hin')).mpr (Or.inr ⟨hv.trans hv'.symm, ?_⟩)
      exact lt_of_lt_of_le hlt (h.apart.ordered e' hin')
    · intro p
      rw [List.mem_filter, hmem, List.mem_map]
      refine ⟨?_, ?_⟩
      · rintro ⟨⟨e, he, rfl, hplace⟩, hp⟩
        have hv := (hown e).mp hp
        refine ⟨e, List.mem_filter.mpr ⟨mem_entriesFor.mpr ⟨he, hv⟩, ?_⟩, rfl⟩
        rcases hplace with hlt | ⟨-, hle⟩
        · exact absurd hv hlt.ne'
        · exact decide_eq_true hle
      · rintro ⟨e, he, rfl⟩
        obtain ⟨hin, hle⟩ := List.mem_filter.mp he
        obtain ⟨hin, hv⟩ := mem_entriesFor.mp hin
        exact ⟨⟨e, hin, rfl, Or.inr ⟨hv, of_decide_eq_true hle⟩⟩, (hown e).mpr hv⟩
  · intro p hp
    obtain ⟨hp, hnot⟩ := List.mem_filter.mp hp
    obtain ⟨e, -, rfl, -⟩ := (hmem p).mp hp
    refine ⟨e, ?_, rfl⟩
    rw [Ne, ← hown e]
    simpa using hnot

end Cataloged

end RailwayDB
