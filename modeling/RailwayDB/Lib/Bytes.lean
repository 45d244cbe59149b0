/-
Fixed-width numbers as byte strings.

A `w`-byte number is stored in memory least significant byte first, and put on
the wire by reversing those bytes.  Two facts carry everything built on top of
that: reading back a number that fits its width returns it, and the reversed
bytes of two numbers of one width compare, byte by byte from the front, exactly
as the numbers do.  The second is what an ordered store with bytewise keys needs.
-/
import Mathlib.Order.Lattice
import Mathlib.Algebra.Group.Nat.Defs
import Mathlib.Data.List.Lex
import Mathlib.Order.Fin.Basic
import Mathlib.Tactic.Ring

namespace RailwayDB

abbrev Byte := Fin 256

instance neZero_bytes : NeZero 256 := ⟨by decide⟩

namespace Bytes

/-- The memory image of a `w`-byte number, least significant byte first. -/
def littleEndian : Nat → Nat → List Byte
  | 0, _ => []
  | w + 1, n => Fin.ofNat 256 n :: littleEndian w (n / 256)

/-- The number a memory image stands for. -/
def ofLittleEndian : List Byte → Nat
  | [] => 0
  | b :: rest => b.val + 256 * ofLittleEndian rest

@[simp] theorem length_littleEndian : ∀ w n, (littleEndian w n).length = w := by
  intro w
  induction w with
  | zero => intro n; rfl
  | succ w ih => intro n; simp [littleEndian, ih]

theorem ofLittleEndian_lt (bs : List Byte) : ofLittleEndian bs < 256 ^ bs.length := by
  induction bs with
  | nil => simp [ofLittleEndian]
  | cons b rest ih =>
      have hb := b.isLt
      simp only [ofLittleEndian, List.length_cons, pow_succ]
      omega

/-- Reading back a number returns it modulo the width. -/
theorem ofLittleEndian_littleEndian :
    ∀ w n, ofLittleEndian (littleEndian w n) = n % 256 ^ w := by
  intro w
  induction w with
  | zero => intro n; simp [littleEndian, ofLittleEndian, Nat.mod_one]
  | succ w ih =>
      intro n
      simp only [littleEndian, ofLittleEndian, ih, Fin.val_ofNat]
      rw [pow_succ, Nat.mul_comm (256 ^ w) 256, Nat.mod_mul]

theorem littleEndian_ofLittleEndian (bs : List Byte) :
    littleEndian bs.length (ofLittleEndian bs) = bs := by
  induction bs with
  | nil => rfl
  | cons b rest ih =>
      have hb := b.isLt
      have hdiv : (b.val + 256 * ofLittleEndian rest) / 256 = ofLittleEndian rest := by omega
      have hmod : Fin.ofNat 256 (b.val + 256 * ofLittleEndian rest) = b := by
        apply Fin.ext
        simp only [Fin.val_ofNat]
        omega
      simp only [List.length_cons, littleEndian, ofLittleEndian, hdiv, hmod, ih]

/-- The bytes of a `w`-byte number most significant byte first. -/
def bigEndian (w n : Nat) : List Byte := (littleEndian w n).reverse

@[simp] theorem length_bigEndian (w n : Nat) : (bigEndian w n).length = w := by
  simp [bigEndian]

/-- Distinct numbers that fit the width have distinct bytes. -/
theorem bigEndian_injective {w x y : Nat} (hx : x < 256 ^ w) (hy : y < 256 ^ w)
    (h : bigEndian w x = bigEndian w y) : x = y := by
  have hle : littleEndian w x = littleEndian w y := List.reverse_injective h
  have hval := congrArg ofLittleEndian hle
  rwa [ofLittleEndian_littleEndian, ofLittleEndian_littleEndian, Nat.mod_eq_of_lt hx,
    Nat.mod_eq_of_lt hy] at hval

/-! ### The order of the bytes is the order of the numbers -/

/-- Strings with heads of one length compare by the heads first, then by the tails. -/
theorem append_lt_append_iff {α : Type} [LinearOrder α] :
    ∀ {a b : List α} (_ : a.length = b.length) (c d : List α),
      a ++ c < b ++ d ↔ a < b ∨ a = b ∧ c < d := by
  intro a
  induction a with
  | nil =>
      intro b hlen c d
      cases b with
      | nil => simp
      | cons y b => simp at hlen
  | cons x a ih =>
      intro b hlen c d
      cases b with
      | nil => simp at hlen
      | cons y b =>
          have hlen' : a.length = b.length := by simpa using hlen
          simp only [List.cons_append, List.cons_lt_cons_iff, ih hlen' c d, List.cons.injEq]
          constructor
          · rintro (hxy | ⟨hxy, hab | ⟨hab, hcd⟩⟩)
            · exact Or.inl (Or.inl hxy)
            · exact Or.inl (Or.inr ⟨hxy, hab⟩)
            · exact Or.inr ⟨⟨hxy, hab⟩, hcd⟩
          · rintro ((hxy | ⟨hxy, hab⟩) | ⟨⟨hxy, hab⟩, hcd⟩)
            · exact Or.inl hxy
            · exact Or.inr ⟨hxy, Or.inl hab⟩
            · exact Or.inr ⟨hxy, Or.inr ⟨hab, hcd⟩⟩

theorem bigEndian_succ (w n : Nat) :
    bigEndian (w + 1) n = bigEndian w (n / 256) ++ [Fin.ofNat 256 n] := by
  simp [bigEndian, littleEndian]

/-- **Big-endian bytes of one width compare like the numbers.** -/
theorem bigEndian_lt_iff :
    ∀ (w : Nat) {x y : Nat}, x < 256 ^ w → y < 256 ^ w →
      (bigEndian w x < bigEndian w y ↔ x < y) := by
  intro w
  induction w with
  | zero =>
      intro x y hx hy
      have hx0 : x = 0 := by simpa using hx
      have hy0 : y = 0 := by simpa using hy
      subst hx0 hy0
      simp
  | succ w ih =>
      intro x y hx hy
      rw [pow_succ] at hx hy
      have hx' : x / 256 < 256 ^ w := by omega
      have hy' : y / 256 < 256 ^ w := by omega
      rw [bigEndian_succ, bigEndian_succ, append_lt_append_iff (by simp), ih hx' hy']
      have hlast : ([Fin.ofNat 256 x] : List Byte) < [Fin.ofNat 256 y] ↔ x % 256 < y % 256 := by
        simp [List.cons_lt_cons_iff, Fin.lt_def]
      rw [hlast]
      constructor
      · rintro (hlt | ⟨heq, hlt⟩)
        · omega
        · have hdiv := (bigEndian_injective hx' hy' heq)
          omega
      · intro hlt
        by_cases hdiv : x / 256 = y / 256
        · exact Or.inr ⟨by rw [hdiv], by omega⟩
        · exact Or.inl (by omega)

end Bytes

end RailwayDB
