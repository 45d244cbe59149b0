/-
The numeric order of IEEE doubles, read off their bit patterns.

Lean's `Float` is a bit pattern with the arithmetic and the comparisons of IEEE
754 defined on it.  Comparing unpacks both patterns and compares exponents, then
mantissas, with a case for each of the special values.  What is shown here is
that all of it amounts to one integer: the low 63 bits, negated when the sign bit
is set.  The step that needs an argument is that exponent and mantissa, once the
implicit leading one is put back, order like the 63 bits they were taken from;
`Unpacks` says what unpacking gives in those terms.
-/
import Mathlib.Algebra.Group.Nat.Defs
import Mathlib.Tactic.Linarith
import Mathlib.Data.Nat.Init

namespace RailwayDB.Binary64

open Float.Model Float.Model.UnpackedFloat

/-- The sign bit is set. -/
def signBit (x : Float) : Bool := decide (2 ^ 63 ≤ x.toBits.toNat)

/-- The exponent and mantissa fields as one number. -/
def magnitude (x : Float) : Nat := x.toBits.toNat % 2 ^ 63

/-- Where a double stands in the numeric order; the two zeros stand together. -/
def rank (x : Float) : Int := if signBit x then -(magnitude x : Int) else magnitude x

/-- The magnitude of the infinities: all exponent bits set. -/
def infMagnitude : Nat := 2047 * 2 ^ 52

theorem toBits_eq (x : Float) :
    x.toBits.toNat = magnitude x + if signBit x then 2 ^ 63 else 0 := by
  have hlt := x.toBits.toNat_lt
  unfold magnitude signBit
  by_cases h : 2 ^ 63 ≤ x.toBits.toNat
  · simp only [h, decide_true, if_true]
    omega
  · simp only [h, decide_false, Bool.false_eq_true, if_false]
    omega

/-! ### Unpacking in terms of sign and magnitude -/

/-- The sign an unpacked float carries for a sign bit. -/
def toSign (s : Bool) : Sign := if s then .negative else .positive

theorem toSign_true : toSign true = .negative := rfl

theorem toSign_false : toSign false = .positive := rfl

/--
What unpacking a pattern that is no NaN gives.  A finite value is `m` at the
exponent `k - 1074`, and `k` counts from the subnormals, which share their
exponent with the smallest normal numbers.
-/
inductive Unpacks (s : Bool) (mag : Nat) : UnpackedFloat → Prop
  | zero : mag = 0 → Unpacks s mag (.zero (toSign s))
  | infinity : mag = infMagnitude → Unpacks s mag (.infinity (toSign s))
  | finite (k m : Nat) (hm : 0 < m) :
      m < 2 ^ 53 → (k = 0 ∨ 2 ^ 52 ≤ m) → k < 2046 → mag = k * 2 ^ 52 + m →
      Unpacks s mag (.finite (toSign s) m ((k : Int) - 1074) hm)

section fields

variable (b : BitVec 64)

private theorem mantissa_toNat :
    (@unpackMantissa Format.binary64 b).toNat = b.toNat % 2 ^ 52 := by
  simp [unpackMantissa]

private theorem exponent_toNat :
    (@unpackExponent Format.binary64 b).toNat = b.toNat / 2 ^ 52 % 2 ^ 11 := by
  simp [unpackExponent, Nat.shiftRight_eq_div_pow]

private theorem sign_toNat :
    (@unpackSign Format.binary64 b).toNat = b.toNat / 2 ^ 63 % 2 := by
  delta unpackSign
  simp [Nat.shiftRight_eq_div_pow]

private theorem sign_eq :
    Sign.ofBitVec (@unpackSign Format.binary64 b)
      = toSign (decide (2 ^ 63 ≤ b.toNat)) := by
  have hlt := b.isLt
  have hz : @unpackSign Format.binary64 b = 0#1 ↔ ¬ 2 ^ 63 ≤ b.toNat := by
    rw [← BitVec.toNat_inj, sign_toNat]
    show b.toNat / 2 ^ 63 % 2 = 0 ↔ _
    omega
  unfold Sign.ofBitVec toSign
  by_cases hc : 2 ^ 63 ≤ b.toNat
  · rw [if_neg (by rw [hz]; exact not_not_intro hc), if_pos (by simpa using hc)]
  · rw [if_pos (hz.mpr hc), if_neg (by simpa using hc)]

private theorem exponent_eq_ones :
    @unpackExponent Format.binary64 b = -1#_ ↔ b.toNat / 2 ^ 52 % 2 ^ 11 = 2047 := by
  rw [← BitVec.toNat_inj, exponent_toNat]
  rfl

private theorem exponent_eq_zero :
    @unpackExponent Format.binary64 b = 0#_ ↔ b.toNat / 2 ^ 52 % 2 ^ 11 = 0 := by
  rw [← BitVec.toNat_inj, exponent_toNat]
  rfl

private theorem mantissa_eq_zero :
    @unpackMantissa Format.binary64 b = 0#_ ↔ b.toNat % 2 ^ 52 = 0 := by
  rw [← BitVec.toNat_inj, mantissa_toNat]
  rfl

private theorem normal_toNat :
    (1#1 ++ @unpackMantissa Format.binary64 b).toNat = 2 ^ 52 + b.toNat % 2 ^ 52 := by
  rw [BitVec.toNat_append, mantissa_toNat]
  show (1#1).toNat <<< 52 ||| b.toNat % 2 ^ 52 = _
  have hlt : b.toNat % 2 ^ 52 < 2 ^ 52 := Nat.mod_lt _ (by decide)
  rw [← Nat.shiftLeft_add_eq_or_of_lt hlt, Nat.shiftLeft_eq]
  simp

/-- Unpacking a bit pattern, by the value of its fields. -/
private theorem unpacks_bits
    (hnan : (UnpackedFloat.unpack Format.binary64 b).isNaN = false) :
    Unpacks (decide (2 ^ 63 ≤ b.toNat)) (b.toNat % 2 ^ 63)
      (UnpackedFloat.unpack Format.binary64 b) := by
  have hlt := b.isLt
  unfold UnpackedFloat.unpack at hnan ⊢
  dsimp only at hnan ⊢
  rw [sign_eq] at hnan ⊢
  by_cases he : @unpackExponent Format.binary64 b = -1#_
  · rw [if_pos he] at hnan ⊢
    have he' := (exponent_eq_ones b).mp he
    by_cases hm : @unpackMantissa Format.binary64 b = 0#_
    · rw [if_pos hm]
      have hm' := (mantissa_eq_zero b).mp hm
      exact .infinity (by unfold infMagnitude; omega)
    · rw [if_neg hm] at hnan
      exact Bool.noConfusion hnan
  · rw [if_neg he]
    have he' := mt (exponent_eq_ones b).mpr he
    by_cases hsub : @unpackExponent Format.binary64 b = 0#_
    · rw [if_pos hsub]
      have hsub' := (exponent_eq_zero b).mp hsub
      by_cases hm : @unpackMantissa Format.binary64 b = 0#_
      · rw [dif_pos hm]
        have hm' := (mantissa_eq_zero b).mp hm
        exact .zero (by omega)
      · rw [dif_neg hm]
        have hm' := mt (mantissa_eq_zero b).mpr hm
        have hexp : ((@unpackExponent Format.binary64 b).toNat : Int)
            - ((Format.binary64.exponentBias : Int) + 52) + 1 = ((0 : Nat) : Int) - 1074 := by
          rw [hsub]; rfl
        have hval := mantissa_toNat b
        have := @Unpacks.finite (decide (2 ^ 63 ≤ b.toNat)) (b.toNat % 2 ^ 63) 0
          (@unpackMantissa Format.binary64 b).toNat (by omega) (by omega)
          (Or.inl rfl) (by omega) (by omega)
        exact (congrArg (fun e => Unpacks _ _ (.finite _ _ e _)) hexp).mpr this
    · rw [if_neg hsub]
      have hsub' := mt (exponent_eq_zero b).mpr hsub
      have hfield := exponent_toNat b
      have hexp : ((@unpackExponent Format.binary64 b).toNat : Int)
          - ((Format.binary64.exponentBias : Int) + 52)
          = ((b.toNat / 2 ^ 52 % 2 ^ 11 - 1 : Nat) : Int) - 1074 := by
        rw [hfield]
        show ((b.toNat / 2 ^ 52 % 2 ^ 11 : Nat) : Int) - (1023 + 52) = _
        omega
      have hval := normal_toNat b
      have := @Unpacks.finite (decide (2 ^ 63 ≤ b.toNat)) (b.toNat % 2 ^ 63)
        (b.toNat / 2 ^ 52 % 2 ^ 11 - 1)
        (1#1 ++ @unpackMantissa Format.binary64 b).toNat (by omega) (by omega)
        (Or.inr (by omega)) (by omega) (by omega)
      exact (congrArg (fun e => Unpacks _ _ (.finite _ _ e _)) hexp).mpr this

end fields

theorem unpacks (x : Float) (h : x.isNaN = false) :
    Unpacks (signBit x) (magnitude x) x.toModel.unpack :=
  unpacks_bits x.toModel.toBits.toBitVec h

/-! ### Comparing -/

theorem lt_iff_compare (x y : Float) :
    x < y ↔ x.toModel.unpack.compare y.toModel.unpack = some .lt := by
  show Float.lt x y = true ↔ _
  unfold Float.lt
  show decide (Float.Model.lt x.toModel y.toModel = true) = true ↔ _
  unfold Float.Model.lt UnpackedFloat.lt
  simp

/-- Exponent first, then mantissa, is the order of the magnitudes. -/
private theorem compare_finite {k m k' m' : Nat} (hm : m < 2 ^ 53) (hk : k = 0 ∨ 2 ^ 52 ≤ m)
    (hm' : m' < 2 ^ 53) (hk' : k' = 0 ∨ 2 ^ 52 ≤ m') :
    (compare ((k : Int) - 1074) ((k' : Int) - 1074)).then (compare m m')
      = compare (k * 2 ^ 52 + m) (k' * 2 ^ 52 + m') := by
  rcases Nat.lt_trichotomy k k' with hlt | heq | hgt
  · rw [compare_lt_iff_lt.mpr (by omega : (k : Int) - 1074 < (k' : Int) - 1074),
      compare_lt_iff_lt.mpr (by omega : k * 2 ^ 52 + m < k' * 2 ^ 52 + m')]
    rfl
  · subst heq
    rw [compare_eq_iff_eq.mpr rfl]
    show compare m m' = _
    rcases Nat.lt_trichotomy m m' with hlt | heq | hgt
    · rw [compare_lt_iff_lt.mpr hlt, compare_lt_iff_lt.mpr (by omega)]
    · rw [compare_eq_iff_eq.mpr heq, compare_eq_iff_eq.mpr (by omega)]
    · rw [compare_gt_iff_gt.mpr hgt, compare_gt_iff_gt.mpr (by omega)]
  · rw [compare_gt_iff_gt.mpr (by omega : (k' : Int) - 1074 < (k : Int) - 1074),
      compare_gt_iff_gt.mpr (by omega : k' * 2 ^ 52 + m' < k * 2 ^ 52 + m)]
    rfl

/-- The sign and magnitude of a number, as one integer. -/
private def signed (s : Bool) (mag : Nat) : Int := if s then -(mag : Int) else mag

private theorem compare_unpacks {s s' : Bool} {mag mag' : Nat} {u u' : UnpackedFloat}
    (h : Unpacks s mag u) (h' : Unpacks s' mag' u') :
    u.compare u' = some .lt ↔ signed s mag < signed s' mag' := by
  cases h with
  | zero hz =>
      subst hz
      cases h' with
      | zero hz' =>
          subst hz'
          cases s <;> cases s' <;> dsimp only [UnpackedFloat.compare] <;> simp [signed]
      | infinity hi =>
          subst hi
          cases s <;> cases s' <;> dsimp only [toSign_true, toSign_false, UnpackedFloat.compare] <;>
            simp [signed, infMagnitude]
      | finite k m hm h1 h2 h3 h4 =>
          cases s <;> cases s' <;> dsimp only [toSign_true, toSign_false, UnpackedFloat.compare] <;>
            simp [signed] <;> omega
  | infinity hi =>
      subst hi
      cases h' with
      | zero hz' =>
          subst hz'
          cases s <;> cases s' <;> dsimp only [toSign_true, toSign_false, UnpackedFloat.compare] <;>
            simp [signed, infMagnitude]
      | infinity hi' =>
          subst hi'
          cases s <;> cases s' <;> dsimp only [toSign_true, toSign_false, UnpackedFloat.compare] <;>
            simp [signed, infMagnitude, compare]
      | finite k m hm h1 h2 h3 h4 =>
          cases s <;> cases s' <;> dsimp only [toSign_true, toSign_false, UnpackedFloat.compare] <;>
            simp [signed, infMagnitude] <;> omega
  | finite k m hm h1 h2 h3 h4 =>
      cases h' with
      | zero hz' =>
          subst hz'
          cases s <;> cases s' <;> dsimp only [toSign_true, toSign_false, UnpackedFloat.compare] <;>
            simp [signed] <;> omega
      | infinity hi' =>
          subst hi'
          cases s <;> cases s' <;> dsimp only [toSign_true, toSign_false, UnpackedFloat.compare] <;>
            simp [signed, infMagnitude] <;> omega
      | finite k' m' hm' h1' h2' h3' h4' =>
          have hcmp := compare_finite h1 h2 h1' h2'
          cases s <;> cases s' <;> dsimp only [toSign_true, toSign_false, UnpackedFloat.compare] <;>
            simp only [signed, if_true, Bool.false_eq_true, if_false, hcmp, Option.some.injEq,
              reduceCtorEq, false_iff, true_iff, not_lt]
          · rw [compare_lt_iff_lt]; omega
          · omega
          · omega
          · rw [Ordering.swap_eq_lt, compare_gt_iff_gt]; omega

/-- **The numeric order of doubles that are no NaN is the order of their ranks.** -/
theorem lt_iff_rank_lt {x y : Float} (hx : x.isNaN = false) (hy : y.isNaN = false) :
    x < y ↔ rank x < rank y := by
  rw [lt_iff_compare]
  exact compare_unpacks (unpacks x hx) (unpacks y hy)

/-- No magnitude is above that of infinity. -/
theorem magnitude_le {x : Float} (hx : x.isNaN = false) : magnitude x ≤ infMagnitude := by
  have h := unpacks x hx
  generalize x.toModel.unpack = u at h
  cases h with
  | zero hz => omega
  | infinity hi => omega
  | finite k m hm h1 h2 h3 h4 => unfold infMagnitude; omega

/-! ### Reading a bit pattern -/

instance decidableValid (b : BitVec 64) : Decidable (Format.binary64.Valid b) :=
  decidable_of_iff
    (@unpackExponent Format.binary64 b = -1#_ →
      @unpackMantissa Format.binary64 b ≠ 0#_ →
        b = UnpackedFloat.packedNaN Format.binary64)
    ⟨fun h => ⟨h⟩, fun h => h.1⟩

/-- The double with a given bit pattern; a NaN pattern other than the canonical one has
none. -/
def ofBits? (b : BitVec 64) : Option Float :=
  if h : Format.binary64.Valid b then some (Float.ofModel ⟨UInt64.ofBitVec b, h⟩) else none

theorem ofBits?_toBits (x : Float) : ofBits? x.toBits.toBitVec = some x := by
  unfold ofBits?
  rw [dif_pos (show Format.binary64.Valid x.toBits.toBitVec from x.toModel.valid)]
  rfl

/-- Every pattern below that of infinity is the double with these bits. -/
theorem ofBits?_of_lt {n : Nat} (hn : n < infMagnitude) :
    ∃ x, ofBits? (BitVec.ofNat 64 n) = some x ∧ x.isNaN = false ∧ x.toBits.toNat = n := by
  have hmag : n < 2047 * 2 ^ 52 := hn
  have hbits : (BitVec.ofNat 64 n).toNat = n := by
    rw [BitVec.toNat_ofNat]
    omega
  have hexp : ¬ @unpackExponent Format.binary64 (BitVec.ofNat 64 n) = -1#_ := by
    rw [exponent_eq_ones, hbits]
    omega
  have hvalid : Format.binary64.Valid (BitVec.ofNat 64 n) := ⟨fun h => absurd h hexp⟩
  refine ⟨_, dif_pos hvalid, ?_, hbits⟩
  show (UnpackedFloat.unpack Format.binary64 (BitVec.ofNat 64 n)).isNaN = false
  unfold UnpackedFloat.unpack
  rw [if_neg hexp]
  by_cases hsub : @unpackExponent Format.binary64 (BitVec.ofNat 64 n) = 0#_
  · rw [if_pos hsub]
    by_cases hm : @unpackMantissa Format.binary64 (BitVec.ofNat 64 n) = 0#_
    · rw [dif_pos hm]
      rfl
    · rw [dif_neg hm]
      rfl
  · rw [if_neg hsub]
    rfl

end RailwayDB.Binary64
