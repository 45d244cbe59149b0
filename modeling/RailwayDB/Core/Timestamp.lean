/-
`typedef double Timestamp`.

A timestamp is a double that is no NaN.  `0.0` and `-0.0` are two timestamps that
compare equal, so the order is a total preorder and not a linear order.  What is
stored of a timestamp is its bit pattern.

The partition index and everything above it is written over any type that has such
an order and such bit patterns, so that a result that needs no more than the order
does not depend on the number format.
-/
import RailwayDB.Lib.Binary64
import Mathlib.Order.RelClasses

namespace RailwayDB

/-- What is stored of a timestamp, and the bounds of the first slice. -/
class Timestamp (T : Type) [Preorder T] where
  toBits : T → BitVec 64
  ofBits : BitVec 64 → T
  ofBits_toBits : ∀ t, ofBits (toBits t) = t
  /-- `std::numeric_limits<double>::infinity()`. -/
  infinity : T
  negInfinity : T
  negInfinity_lt_infinity : negInfinity < infinity

theorem Timestamp.toBits_injective {T : Type} [Preorder T] [Timestamp T] :
    Function.Injective (toBits : T → BitVec 64) :=
  Function.LeftInverse.injective ofBits_toBits

/-- `a == b` on doubles that are no NaN. -/
def TimeEq {T : Type} [Preorder T] (a b : T) : Prop := a ≤ b ∧ b ≤ a

instance {T : Type} [Preorder T] [DecidableLE T] (a b : T) : Decidable (TimeEq a b) :=
  inferInstanceAs (Decidable (_ ∧ _))

/-! ### Doubles -/

/-- A double that is no NaN. -/
structure Double where
  val : Float
  notNaN : val.isNaN = false
  deriving DecidableEq

namespace Double

/-- Without NaNs `a <= b` is `!(b < a)`. -/
instance : LE Double := ⟨fun a b => ¬ b.val < a.val⟩

instance : LT Double := ⟨fun a b => a.val < b.val⟩

instance : DecidableLT Double := fun a b => inferInstanceAs (Decidable (a.val < b.val))

instance : DecidableLE Double := fun a b => inferInstanceAs (Decidable (¬ b.val < a.val))

theorem lt_iff_rank (a b : Double) : a < b ↔ Binary64.rank a.val < Binary64.rank b.val :=
  Binary64.lt_iff_rank_lt a.notNaN b.notNaN

theorem le_iff_rank (a b : Double) : a ≤ b ↔ Binary64.rank a.val ≤ Binary64.rank b.val := by
  show ¬ b.val < a.val ↔ _
  rw [Binary64.lt_iff_rank_lt b.notNaN a.notNaN]
  exact not_lt

instance : Preorder Double where
  le_refl a := (le_iff_rank a a).mpr (le_refl _)
  le_trans a b c hab hbc :=
    (le_iff_rank a c).mpr (le_trans ((le_iff_rank a b).mp hab) ((le_iff_rank b c).mp hbc))
  lt_iff_le_not_ge a b := by
    rw [lt_iff_rank, le_iff_rank, le_iff_rank]
    exact lt_iff_le_not_ge

instance : @Std.Total Double (· ≤ ·) where
  total a b := by
    rw [le_iff_rank, le_iff_rank]
    exact le_total _ _

/-- A double as a timestamp.  NaNs are no timestamps; they read as zero here. -/
def ofFloat (x : Float) : Double :=
  if h : x.isNaN = false then ⟨x, h⟩ else ⟨0.0, by decide +kernel⟩

/-- `Timestamp(0)`. -/
def zero : Double := ofFloat 0.0

/-- The timestamp with a given bit pattern. -/
def ofBits (b : BitVec 64) : Double := ofFloat ((Binary64.ofBits? b).getD 0.0)

instance : Timestamp Double where
  toBits t := t.val.toBits.toBitVec
  ofBits := ofBits
  ofBits_toBits t := by
    simp only [ofBits, Binary64.ofBits?_toBits, Option.getD_some, ofFloat, t.notNaN, dif_pos]
  infinity := ofFloat (1.0 / 0.0)
  negInfinity := ofFloat (-1.0 / 0.0)
  negInfinity_lt_infinity := by decide +kernel

end Double

/-- The arithmetic on the times of a block. -/
class BlockTime (T : Type) where
  zero : T
  /-- `numeric_limits<Timestamp>::max()`. -/
  maxValue : T
  /-- `-numeric_limits<Timestamp>::max()`. -/
  lowest : T
  /-- `(a+b)/2.0`. -/
  midpoint : T → T → T

instance : BlockTime Double where
  zero := .zero
  maxValue := .ofBits 0x7fefffffffffffff
  lowest := .ofBits 0xffefffffffffffff
  midpoint a b := .ofFloat ((a.val + b.val) / 2.0)

/-! ### Times on a line -/

/-- A double that is no NaN and not `-0.0`.  On these the order is linear; the times of edges are
such, since they are above zero. -/
structure Time where
  val : Double
  notNegZero : val.val.toBits ≠ 9223372036854775808

namespace Time

theorem rank_injective : Function.Injective fun t : Time => Binary64.rank t.val.val := by
  intro a b h
  have hbits : a.val.val.toBits.toNat = b.val.val.toBits.toNat := by
    have ha := a.notNegZero
    have hb := b.notNegZero
    rw [ne_eq, ← UInt64.toNat_inj, show (9223372036854775808 : UInt64).toNat = 2 ^ 63 from rfl]
      at ha hb
    simp only [Binary64.rank, Binary64.signBit, Binary64.magnitude, decide_eq_true_eq] at h
    have hla := a.val.val.toBits.toNat_lt
    have hlb := b.val.val.toBits.toNat_lt
    split_ifs at h <;> omega
  have hfloat : some a.val.val = some b.val.val := by
    rw [← Binary64.ofBits?_toBits, ← Binary64.ofBits?_toBits, UInt64.toNat_inj.mp hbits]
  obtain ⟨⟨x, hx⟩, ha⟩ := a
  obtain ⟨⟨y, hy⟩, hb⟩ := b
  have hxy : x = y := Option.some.inj hfloat
  subst hxy
  rfl

instance : LinearOrder Time := LinearOrder.lift' (fun t => Binary64.rank t.val.val) rank_injective

/-- A double as a time on the line: `-0.0` is the same point as `0.0`. -/
def ofDouble (t : Double) : Time :=
  if h : t.val.toBits ≠ 9223372036854775808 then ⟨t, h⟩ else ⟨Double.zero, by decide +kernel⟩

def ofFloat (x : Float) : Time := ofDouble (Double.ofFloat x)

/-- A bit pattern below that of infinity stands at its own place. -/
theorem rank_ofBits {n : Nat} (hn : n < Binary64.infMagnitude) :
    Binary64.rank (ofDouble (Double.ofBits (BitVec.ofNat 64 n))).val.val = n := by
  obtain ⟨x, hx, hnan, hbits⟩ := Binary64.ofBits?_of_lt hn
  unfold Binary64.infMagnitude at hn
  have hval : Double.ofBits (BitVec.ofNat 64 n) = ⟨x, hnan⟩ := by
    unfold Double.ofBits Double.ofFloat
    simp only [hx, Option.getD_some]
    rw [dif_pos hnan]
  have hpos : x.toBits ≠ 9223372036854775808 := by
    rw [ne_eq, ← UInt64.toNat_inj, hbits, show (9223372036854775808 : UInt64).toNat = 2 ^ 63 from rfl]
    omega
  rw [hval, ofDouble, dif_pos hpos]
  simp only [Binary64.rank, Binary64.signBit, Binary64.magnitude, hbits, decide_eq_true_eq]
  rw [if_neg (by omega), Nat.mod_eq_of_lt (by omega)]

instance : Timestamp Time where
  toBits t := Timestamp.toBits t.val
  ofBits b := ofDouble (Timestamp.ofBits b)
  ofBits_toBits t := by
    rw [Timestamp.ofBits_toBits, ofDouble, dif_pos t.notNegZero]
  infinity := ofFloat (1.0 / 0.0)
  negInfinity := ofFloat (-1.0 / 0.0)
  negInfinity_lt_infinity := by decide +kernel

instance : BlockTime Time where
  zero := ofFloat 0.0
  maxValue := ofDouble (Timestamp.ofBits 0x7fefffffffffffff)
  lowest := ofDouble (Timestamp.ofBits 0xffefffffffffffff)
  midpoint a b := ofFloat ((a.val.val + b.val.val) / 2.0)

end Time

end RailwayDB
