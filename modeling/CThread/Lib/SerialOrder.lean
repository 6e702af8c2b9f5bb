import Mathlib.Algebra.Group.Int.Defs
import Mathlib.Algebra.Group.Nat.Defs
import Mathlib.Data.Int.Order.Basic
import Mathlib.Data.Nat.Cast.Order.Basic

/-!
Serial-number order on machine words: `a` precedes `b` when the difference
`a - b`, read as a signed number, is negative.

The relation is not transitive on all words. It is the order of the integers on
any set of words that are the truncations of integers less than half the range
apart, and every statement below is an instance of the exact difference
`signedDiff_ofInt`.
-/
namespace SerialOrder
variable {w : Nat}

/-- `(intN_t)(a - b)` of the C code. -/
def signedDiff (a b : BitVec w) : Int := (a - b).toInt

/-- The comparison `(intN_t)(a - b) < 0`. -/
def precedes (a b : BitVec w) : Bool := decide (signedDiff a b < 0)

theorem precedes_iff (a b : BitVec w) : precedes a b = true ↔ signedDiff a b < 0 := by
  simp [precedes]

theorem ofInt_sub_ofInt (x y : Int) :
    BitVec.ofInt w x - BitVec.ofInt w y = BitVec.ofInt w (x - y) := by
  apply BitVec.eq_of_toInt_eq
  simp [BitVec.toInt_sub, BitVec.toInt_ofInt]

/-- Truncation loses nothing of a difference that fits the signed range. -/
theorem signedDiff_ofInt {a b : BitVec w} {x y : Int} (ha : a = BitVec.ofInt w x)
    (hb : b = BitVec.ofInt w y) (lower : -(2 ^ w : Int) ≤ 2 * (x - y))
    (upper : 2 * (x - y) < 2 ^ w) : signedDiff a b = x - y := by
  have range : ((2 ^ w : Nat) : Int) = 2 ^ w := by simp
  rw [signedDiff, ha, hb, ofInt_sub_ofInt, BitVec.toInt_ofInt]
  apply Int.bmod_eq_of_le_mul_two <;> omega

/-- Every word is a truncated time less than half the range away. -/
theorem ofInt_add_signedDiff (a : BitVec w) (y : Int) :
    BitVec.ofInt w (y + signedDiff a (BitVec.ofInt w y)) = a := by
  rw [signedDiff, BitVec.ofInt_add, BitVec.ofInt_toInt, BitVec.add_comm, BitVec.sub_add_cancel]

theorem signedDiff_lt (a b : BitVec w) : 2 * signedDiff a b < 2 ^ w :=
  BitVec.two_mul_toInt_lt

/-- The distance walked upwards from `base` to reach `a`. -/
def offset (base a : BitVec w) : Nat := (a - base).toNat

/-- `a` lies in the half range that starts at `base`. -/
def InWindow (base a : BitVec w) : Prop := 2 * offset base a < 2 ^ w

theorem offset_ofInt (x y : Int) (lower : x ≤ y) (upper : y - x < 2 ^ w) :
    (offset (BitVec.ofInt w x) (BitVec.ofInt w y) : Int) = y - x := by
  have positive : ((2 ^ w : Nat) : Int) ≠ 0 := by
    have := Nat.two_pow_pos w
    omega
  rw [offset, ofInt_sub_ofInt, BitVec.toNat_ofInt,
    Int.toNat_of_nonneg (Int.emod_nonneg _ positive)]
  exact Int.emod_eq_of_lt (by omega) (by simpa using upper)

/-- Every word is its base advanced by its offset. -/
theorem eq_ofInt_offset (base a : BitVec w) :
    a = BitVec.ofInt w (base.toNat + offset base a) := by
  have advance : BitVec.ofInt w ((base.toNat : Int) + (offset base a : Int)) =
      base + (a - base) := by
    rw [← Int.natCast_add, BitVec.ofInt_natCast, BitVec.ofNat_add]
    simp only [offset, BitVec.ofNat_toNat, BitVec.setWidth_eq]
  rw [advance, BitVec.add_comm, BitVec.sub_add_cancel]

theorem signedDiff_of_window {base a b : BitVec w} (ha : InWindow base a)
    (hb : InWindow base b) :
    signedDiff a b = (offset base a : Int) - offset base b := by
  have range : ((2 ^ w : Nat) : Int) = 2 ^ w := by simp
  simp only [InWindow] at ha hb
  rw [signedDiff_ofInt (eq_ofInt_offset base a) (eq_ofInt_offset base b)] <;> omega

theorem precedes_of_window {base a b : BitVec w} (ha : InWindow base a)
    (hb : InWindow base b) : precedes a b = true ↔ offset base a < offset base b := by
  rw [precedes_iff, signedDiff_of_window ha hb]
  omega

/-- The word just below a window still precedes all of it, because the signed
range reaches one further down than up. -/
theorem pred_precedes (width : 0 < w) {base a b : BitVec w} (hb : InWindow base b)
    (first : offset base a ≤ offset base b) : precedes (a - 1) b = true := by
  have range : ((2 ^ w : Nat) : Int) = 2 ^ w := by simp
  have even : 2 ^ w = 2 * 2 ^ (w - 1) := by
    rw [← Nat.pow_succ']
    congr 1
    omega
  simp only [InWindow] at hb
  have below : a - 1 = BitVec.ofInt w ((base.toNat + offset base a : Int) - 1) := by
    rw [← ofInt_sub_ofInt, ← eq_ofInt_offset]
    congr 1
  rw [precedes_iff, signedDiff_ofInt below (eq_ofInt_offset base b)] <;> omega

end SerialOrder
