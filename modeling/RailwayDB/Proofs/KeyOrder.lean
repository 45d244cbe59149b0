/-
How index keys sort.

The stores iterate their keys as byte strings.  A vertex id sorts like its
number.  A timestamp is written as its bit pattern, and bit patterns sort like
the numbers they encode only while the sign bit is clear: with the sign bit set
the pattern is above every positive one, and two negative patterns sort the wrong
way round.  So a key that is numerically below another is below it as a byte
string exactly when the vertices differ or the smaller time has no sign bit.
-/
import RailwayDB.Core.Keys
import RailwayDB.Lib.Binary64
import RailwayDB.Proofs.NetworkByteBuffer

namespace RailwayDB

open NetworkByteBuffer

section Bytes

variable {T : Type} [Preorder T] [Timestamp T]

/-- The eight bytes a timestamp is written as. -/
def timeBytes (t : T) : List Byte := Bytes.bigEndian 8 (Timestamp.toBits t).toNat

theorem timeBytes_injective : Function.Injective (timeBytes : T → List Byte) := by
  intro t₁ t₂ h
  have hbits := Bytes.bigEndian_injective (Timestamp.toBits t₁).isLt (Timestamp.toBits t₂).isLt h
  exact Timestamp.toBits_injective (BitVec.eq_of_toNat_eq hbits)

theorem PartitionIndex.key_eq (t : T) : PartitionIndex.key t = .ok (timeBytes t) := by
  obtain ⟨sb, hsb, -, hc⟩ := append_ok (growable_ofSize (n := 8) (by decide))
    (timeBytes t) (by simp [timeBytes])
  have hadd : (ofSize 8).addDouble (Timestamp.toBits t) = .ok sb := hsb
  unfold PartitionIndex.key
  simp only [hadd]
  show Except.ok sb.contents = _
  rw [hc, contents_ofSize, List.nil_append]

theorem FocusedIntervalQueryIndex.key_eq (v : VertexId) (t : T) :
    FocusedIntervalQueryIndex.key v t = .ok (Bytes.bigEndian 8 v.val ++ timeBytes t) := by
  obtain ⟨sb, hsb, hg, hc⟩ := append_ok (growable_ofSize (n := 16) (by decide))
    (Bytes.bigEndian 8 v.val) (by simp)
  obtain ⟨sb', hsb', -, hc'⟩ := append_ok hg (timeBytes t) (by simp [hc, timeBytes])
  have hadd : (ofSize 16).addUInt64 (BitVec.ofFin v) = .ok sb := hsb
  have hadd' : sb.addDouble (Timestamp.toBits t) = .ok sb' := hsb'
  unfold FocusedIntervalQueryIndex.key
  simp only [hadd]
  show (do let keyBuf ← sb.addDouble (Timestamp.toBits t); pure keyBuf.contents) = _
  rw [hadd']
  show Except.ok sb'.contents = _
  rw [hc', hc, contents_ofSize, List.nil_append]

end Bytes

/-! ### Times -/

theorem timeBytes_lt_iff_toBits (t₁ t₂ : Double) :
    timeBytes t₁ < timeBytes t₂ ↔ t₁.val.toBits.toNat < t₂.val.toBits.toNat :=
  Bytes.bigEndian_lt_iff 8 t₁.val.toBits.toNat_lt t₂.val.toBits.toNat_lt

/-- A time that is numerically smaller sorts first exactly when its sign bit is clear. -/
theorem timeBytes_lt_iff {t₁ t₂ : Double} (hlt : t₁ < t₂) :
    timeBytes t₁ < timeBytes t₂ ↔ Binary64.signBit t₁.val = false := by
  rw [Double.lt_iff_rank] at hlt
  have hm₁ := Binary64.magnitude_le t₁.notNaN
  have hm₂ := Binary64.magnitude_le t₂.notNaN
  rw [timeBytes_lt_iff_toBits, Binary64.toBits_eq, Binary64.toBits_eq]
  unfold Binary64.rank at hlt
  unfold Binary64.infMagnitude at hm₁ hm₂
  cases hs₁ : Binary64.signBit t₁.val <;> cases hs₂ : Binary64.signBit t₂.val <;>
    simp only [hs₁, hs₂, if_true, Bool.false_eq_true, if_false, Bool.true_eq_false, iff_true,
      iff_false] at hlt ⊢ <;> omega

/-- Where no sign bit is set, bytes sort like times. -/
theorem timeBytes_lt_timeBytes {t₁ t₂ : Double} (h₁ : Binary64.signBit t₁.val = false)
    (h₂ : Binary64.signBit t₂.val = false) : timeBytes t₁ < timeBytes t₂ ↔ t₁ < t₂ := by
  rw [timeBytes_lt_iff_toBits, Double.lt_iff_rank, Binary64.toBits_eq, Binary64.toBits_eq]
  simp [Binary64.rank, h₁, h₂]

/-- A time with a sign bit sorts after every time without one. -/
theorem timeBytes_lt_of_signBit {t₁ t₂ : Double} (h₁ : Binary64.signBit t₁.val = false)
    (h₂ : Binary64.signBit t₂.val = true) : timeBytes t₁ < timeBytes t₂ := by
  have hm₁ := Binary64.magnitude_le t₁.notNaN
  rw [timeBytes_lt_iff_toBits, Binary64.toBits_eq, Binary64.toBits_eq]
  unfold Binary64.infMagnitude at hm₁
  simp only [h₁, h₂, if_true, Bool.false_eq_true, if_false]
  omega

theorem signBit_eq_false_of_pos {t : Double} (h : Double.zero < t) :
    Binary64.signBit t.val = false := by
  rw [Double.lt_iff_rank, show Binary64.rank Double.zero.val = 0 by decide +kernel] at h
  unfold Binary64.rank at h
  cases hs : Binary64.signBit t.val with
  | false => rfl
  | true =>
      rw [hs, if_pos rfl] at h
      omega

theorem Double.le_infinity (t : Double) : t ≤ Timestamp.infinity := by
  rw [Double.le_iff_rank, show Binary64.rank (Timestamp.infinity : Double).val
    = Binary64.infMagnitude by decide +kernel]
  have hm := Binary64.magnitude_le t.notNaN
  unfold Binary64.rank
  split
  · omega
  · omega

/-! ### Keys -/

/--
**Keys sort like the values they encode exactly where the smaller time carries no
sign bit or the vertices differ.**
-/
theorem key_lt_iff (v₁ v₂ : VertexId) (t₁ t₂ : Double) :
    ∃ k₁ k₂ s₁ s₂,
      FocusedIntervalQueryIndex.key v₁ t₁ = .ok k₁ ∧
      FocusedIntervalQueryIndex.key v₂ t₂ = .ok k₂ ∧
      PartitionIndex.key t₁ = .ok s₁ ∧ PartitionIndex.key t₂ = .ok s₂ ∧
      (v₁ < v₂ ∨ v₁ = v₂ ∧ t₁ < t₂ →
        (k₁ < k₂ ↔ v₁ < v₂ ∨ Binary64.signBit t₁.val = false)) ∧
      (t₁ < t₂ → (s₁ < s₂ ↔ Binary64.signBit t₁.val = false)) := by
  refine ⟨_, _, _, _, FocusedIntervalQueryIndex.key_eq v₁ t₁,
    FocusedIntervalQueryIndex.key_eq v₂ t₂, PartitionIndex.key_eq t₁, PartitionIndex.key_eq t₂,
    ?_, fun hlt => timeBytes_lt_iff hlt⟩
  rintro hlt
  rw [Bytes.append_lt_append_iff (by simp),
    Bytes.bigEndian_lt_iff 8 (show v₁.val < 256 ^ 8 from v₁.isLt)
      (show v₂.val < 256 ^ 8 from v₂.isLt)]
  rcases hlt with hv | ⟨rfl, ht⟩
  · exact ⟨fun _ => Or.inl hv, fun _ => Or.inl hv⟩
  · simp only [lt_irrefl, false_or, true_and]
    exact timeBytes_lt_iff ht

/-- The law at vertex 7 and the times 1 and 2. -/
theorem key_lt_iff_one_two :
    Double.ofFloat 1.0 < Double.ofFloat 2.0 ∧
    ∃ k₁ k₂, FocusedIntervalQueryIndex.key 7 (Double.ofFloat 1.0) = .ok k₁ ∧
      FocusedIntervalQueryIndex.key 7 (Double.ofFloat 2.0) = .ok k₂ ∧ k₁ < k₂ := by
  have hlt : Double.ofFloat 1.0 < Double.ofFloat 2.0 := by decide +kernel
  obtain ⟨k₁, k₂, s₁, s₂, hk₁, hk₂, -, -, hkey, -⟩ :=
    key_lt_iff 7 7 (Double.ofFloat 1.0) (Double.ofFloat 2.0)
  refine ⟨hlt, k₁, k₂, hk₁, hk₂, ?_⟩
  exact (hkey (Or.inr ⟨rfl, hlt⟩)).mpr (Or.inr (by decide +kernel))

/-- A query from time -1 seeks past every edge time: the key of -1 is above that of 1. -/
theorem key_negative_time_sorts_last :
    Double.ofFloat (-1.0) < Double.ofFloat 1.0 ∧
    ∃ k₁ k₂ s₁ s₂, FocusedIntervalQueryIndex.key 7 (Double.ofFloat (-1.0)) = .ok k₁ ∧
      FocusedIntervalQueryIndex.key 7 (Double.ofFloat 1.0) = .ok k₂ ∧ ¬ k₁ < k₂ ∧
      PartitionIndex.key (Double.ofFloat (-1.0)) = .ok s₁ ∧
      PartitionIndex.key (Double.ofFloat 1.0) = .ok s₂ ∧ ¬ s₁ < s₂ := by
  refine ⟨by decide +kernel, _, _, _, _,
    FocusedIntervalQueryIndex.key_eq 7 _, FocusedIntervalQueryIndex.key_eq 7 _, ?_,
    PartitionIndex.key_eq _, PartitionIndex.key_eq _, ?_⟩ <;> decide +kernel

end RailwayDB
