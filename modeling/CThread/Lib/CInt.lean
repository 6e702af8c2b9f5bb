import CThread.Lib.Faults
import CThread.Lib.SerialOrder

/-!
Integer arithmetic of C where `int` has 32 bits.

An operator works on promoted values: a type narrower than `int` becomes `int`. A result that
does not fit a signed type is an overflow, which has no meaning; in an unsigned type it wraps.
A conversion keeps the low bits, and one to `_Bool` tells zero from everything else.
-/
namespace CInt
open Faults

inductive IntType
  | bool
  | integer (width : Nat) (signed : Bool)
  deriving DecidableEq, Repr

inductive ArithFault
  | overflow
  deriving DecidableEq, Repr

namespace IntType

def int : IntType := .integer 32 true

def long : IntType := .integer 64 true

def width : IntType → Nat
  | .bool => 1
  | .integer width _ => width

def signed : IntType → Bool
  | .bool => false
  | .integer _ signed => signed

/-- The representation of a value of the type. -/
abbrev Val (T : IntType) := BitVec T.width

def toInt (T : IntType) (x : T.Val) : Int := if T.signed then x.toInt else x.toNat

def convert : (T : IntType) → Int → T.Val
  | .bool, r => if r = 0 then 0 else 1
  | .integer width _, r => BitVec.ofInt width r

/-- The values of the type. -/
def Fits (T : IntType) (r : Int) : Prop :=
  if T.signed then -(2 ^ T.width : Int) ≤ 2 * r ∧ 2 * r < 2 ^ T.width
  else 0 ≤ r ∧ r < 2 ^ T.width

instance (T : IntType) (r : Int) : Decidable (T.Fits r) := by
  unfold Fits
  exact inferInstance

def promoted (T : IntType) : IntType := if T.width < 32 then int else T

/-- The value of an operator in the type, where `r` is the mathematical result. -/
def eval (T : IntType) (r : Int) : Except ArithFault Int :=
  if T.signed then (if T.Fits r then .ok r else .error .overflow) else .ok (r % 2 ^ T.width)

/-- What a compound assignment to an object of the type stores. -/
def assign (T : IntType) (r : Int) : Except ArithFault T.Val := do
  let r ← T.promoted.eval r
  return T.convert r

def Overflows (T : IntType) (r : Int) : Prop := T.promoted.signed = true ∧ ¬ T.promoted.Fits r

variable {T : IntType} {r : Int}

theorem eval_fits (fits : T.Fits r) : T.eval r = .ok r := by
  unfold eval
  by_cases signed : T.signed = true
  · rw [if_pos signed, if_pos fits]
  · simp only [Fits, if_neg signed] at fits
    rw [if_neg signed, Int.emod_eq_of_lt fits.1 fits.2]

theorem eval_overflow (signed : T.signed = true) (exceeds : ¬ T.Fits r) :
    T.eval r = .error .overflow := by
  rw [eval, if_pos signed, if_neg exceeds]

/-- Low bits are low bits of the promoted result. -/
theorem ofInt_emod {width n : Nat} (narrow : width ≤ n) (r : Int) :
    BitVec.ofInt width (r % 2 ^ n) = BitVec.ofInt width r := by
  apply BitVec.eq_of_toNat_eq
  have divides : ((2 ^ width : Nat) : Int) ∣ 2 ^ n := by
    have powers : 2 ^ width ∣ 2 ^ n := Nat.pow_dvd_pow 2 narrow
    exact_mod_cast powers
  rw [BitVec.toNat_ofInt, BitVec.toNat_ofInt, Int.emod_emod_of_dvd _ divides]

theorem assign_ok {width : Nat} {signed : Bool} (fits : ¬ (integer width signed).Overflows r) :
    (integer width signed).assign r = .ok ((integer width signed).convert r) := by
  by_cases sign : (integer width signed).promoted.signed = true
  · have inside : (integer width signed).promoted.Fits r := by
      by_contra exceeds
      exact fits ⟨sign, exceeds⟩
    rw [assign, eval_fits inside]
    rfl
  · have wide : (integer width signed).promoted = integer width signed := by
      unfold promoted
      split
      · next narrow =>
          rw [promoted, if_pos narrow] at sign
          exact absurd rfl sign
      · rfl
    rw [assign, eval, if_neg sign, ok_bind, wide]
    exact congrArg Except.ok (ofInt_emod (Nat.le_refl width) r)

theorem assign_overflows (exceeds : T.Overflows r) : T.assign r = .error .overflow := by
  rw [assign, eval_overflow exceeds.1 exceeds.2]
  rfl

theorem toInt_convert {width : Nat} (fits : (integer width true).Fits r) :
    (integer width true).toInt ((integer width true).convert r) = r := by
  have range : ((2 ^ width : Nat) : Int) = 2 ^ width := by simp
  obtain ⟨lower, upper⟩ := fits
  have lower : -(2 ^ width : Int) ≤ 2 * r := lower
  have upper : 2 * r < (2 ^ width : Int) := upper
  show (BitVec.ofInt width r).toInt = r
  rw [BitVec.toInt_ofInt]
  apply Int.bmod_eq_of_le_mul_two <;> omega

theorem fits_toInt (x : T.Val) : T.Fits (T.toInt x) := by
  unfold Fits toInt
  split
  · exact ⟨BitVec.le_two_mul_toInt, BitVec.two_mul_toInt_lt⟩
  · exact ⟨Int.natCast_nonneg _, mod_cast x.isLt⟩

theorem convert_toInt {width : Nat} {signed : Bool} (x : (integer width signed).Val) :
    (integer width signed).convert ((integer width signed).toInt x) = x := by
  cases signed with
  | true => exact BitVec.ofInt_toInt
  | false =>
      show BitVec.ofInt width ((BitVec.toNat x : Nat) : Int) = x
      rw [BitVec.ofInt_natCast]
      exact (BitVec.ofNat_toNat width x).trans (BitVec.setWidth_eq x)

section Wrap
variable {width : Nat} {signed : Bool} (a b : (integer width signed).Val)

/-- The low bits of a sum and of a difference do not depend on the sign of the type. -/
theorem convert_add :
    (integer width signed).convert ((integer width signed).toInt a +
      (integer width signed).toInt b) = a + b := by
  rw [convert, BitVec.ofInt_add]
  exact congr_arg₂ (· + ·) (convert_toInt a) (convert_toInt b)

theorem convert_sub :
    (integer width signed).convert ((integer width signed).toInt a -
      (integer width signed).toInt b) = a - b := by
  rw [convert, ← SerialOrder.ofInt_sub_ofInt]
  exact congr_arg₂ (· - ·) (convert_toInt a) (convert_toInt b)

end Wrap

end IntType

end CInt
