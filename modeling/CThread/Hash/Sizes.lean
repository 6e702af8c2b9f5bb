import CThread.Hash.Model
import CThread.Lib.Probing
import Mathlib.Data.Nat.Log

/-!
The sizes of the table.

`kroundup32` copies the highest bit of `x - 1` to all bits below it, which leads to the next
power of two, or to 0 past `2 ^ 31`. The load that a table of `2 ^ m` buckets bears is more
than half of them and less than all.
-/
namespace CThread.Hash
variable {y z : BitVec 32} {n m v : Nat}

/-- Every bit of `z` is set that has a bit of `y` at most `n - 1` places above it. -/
def Smeared (n : Nat) (y z : BitVec 32) : Prop :=
  ∀ i, z.getLsbD i = true ↔ ∃ j, i ≤ j ∧ j < i + n ∧ y.getLsbD j = true

theorem Smeared.refl (y : BitVec 32) : Smeared 1 y y := by
  intro i
  constructor
  · exact fun bit => ⟨i, Nat.le_refl i, Nat.lt_succ_self i, bit⟩
  · rintro ⟨j, low, high, bit⟩
    have same : j = i := by omega
    exact same ▸ bit

theorem Smeared.double (smeared : Smeared n y z) : Smeared (n + n) y (z ||| z >>> n) := by
  intro i
  rw [BitVec.getLsbD_or, BitVec.getLsbD_ushiftRight, Bool.or_eq_true, smeared i, smeared (n + i)]
  constructor
  · rintro (⟨j, low, high, bit⟩ | ⟨j, low, high, bit⟩)
    · exact ⟨j, low, by omega, bit⟩
    · exact ⟨j, by omega, by omega, bit⟩
  · rintro ⟨j, low, high, bit⟩
    rcases Nat.lt_or_ge j (i + n) with near | far
    · exact .inl ⟨j, low, near, bit⟩
    · exact .inr ⟨j, by omega, by omega, bit⟩

/-- A number of `m` bits, smeared over all of them. -/
theorem Smeared.eq_ones (smeared : Smeared 32 y z) (short : m ≤ 32) (below : y.toNat < 2 ^ m)
    (top : 2 ^ m < 2 * (y.toNat + 1)) : z = BitVec.ofNat 32 (2 ^ m - 1) := by
  refine BitVec.eq_of_getLsbD_eq fun i inside => ?_
  rw [BitVec.getLsbD_ofNat, Nat.testBit_two_pow_sub_one, Bool.eq_iff_iff, smeared i,
    Bool.and_eq_true, decide_eq_true_iff, decide_eq_true_iff]
  constructor
  · rintro ⟨j, low, -, bit⟩
    have high := Nat.ge_two_pow_of_testBit bit
    refine ⟨inside, Nat.lt_of_le_of_lt low ((Nat.pow_lt_pow_iff_right Nat.one_lt_two).mp ?_)⟩
    exact Nat.lt_of_le_of_lt high below
  · rintro ⟨-, low⟩
    obtain ⟨k, rfl⟩ := Nat.exists_eq_add_of_lt low
    refine ⟨i + k, by omega, by omega, ?_⟩
    rw [Nat.pow_succ] at below top
    rw [BitVec.getLsbD, Nat.testBit_eq_decide_div_mod_eq]
    have quotient : y.toNat / 2 ^ (i + k) = 1 := by
      rw [Nat.div_eq_iff (Nat.two_pow_pos _)]
      omega
    rw [quotient]
    rfl

/-- The least power of two that is not below the number. -/
theorem kroundup32_eq {x : BitVec 32} (short : m ≤ 32) (le : x.toNat ≤ 2 ^ m)
    (least : 2 ^ m < 2 * x.toNat) : kroundup32 x = BitVec.ofNat 32 (2 ^ m) := by
  have positive := Nat.two_pow_pos m
  have less : (x - 1).toNat = x.toNat - 1 := by
    have bound := x.isLt
    rw [BitVec.toNat_sub]
    show (2 ^ 32 - 1 + x.toNat) % 2 ^ 32 = _
    omega
  have smeared := (Smeared.refl (x - 1)).double.double.double.double.double
  have ones := smeared.eq_ones short (by omega) (by omega)
  rw [kroundup32]
  refine (congrArg (· + 1) ones).trans ?_
  refine (BitVec.ofNat_add_ofNat (2 ^ m - 1) 1).trans (congrArg (BitVec.ofNat 32) ?_)
  omega

theorem roundedBuckets_eq (low : 2 ≤ m) (high : m ≤ 31) (le : v ≤ 2 ^ m)
    (least : 2 ^ m < 2 * v) : roundedBuckets v = 2 ^ m := by
  have small : 2 ^ m ≤ 2 ^ 31 := Nat.pow_le_pow_right (by decide) high
  have large : 2 ^ 2 ≤ 2 ^ m := Nat.pow_le_pow_right (by decide) low
  have word : (BitVec.ofNat 32 v).toNat = v := Nat.mod_eq_of_lt (by omega)
  have rounded := kroundup32_eq (x := .ofNat 32 v) (m := m) (by omega) (by omega) (by omega)
  have size : (kroundup32 (.ofNat 32 v)).toNat = 2 ^ m := by
    rw [rounded]
    exact Nat.mod_eq_of_lt (by omega)
  rw [roundedBuckets, size]
  exact if_neg (by omega)

/-- The least power of two that is not below a number. -/
theorem exists_least_power {x : Nat} (positive : 0 < x) (short : x ≤ 2 ^ 32) :
    ∃ m, m ≤ 32 ∧ x ≤ 2 ^ m ∧ 2 ^ m < 2 * x := by
  refine ⟨Nat.clog 2 x, Nat.clog_le_of_le_pow short, Nat.le_pow_clog (by decide) x, ?_⟩
  rcases Nat.lt_or_ge 1 x with more | one
  · have below : 2 ^ (Nat.clog 2 x - 1) < x := Nat.pow_pred_clog_lt_self (by decide) more
    have power : 2 ^ Nat.clog 2 x = 2 ^ (Nat.clog 2 x - 1) * 2 := by
      rw [← Nat.pow_succ, Nat.succ_eq_add_one, Nat.sub_add_cancel (Nat.clog_pos (by decide) more)]
    omega
  · rw [Nat.clog_of_right_le_one one 2]
    omega

/-- A request of up to `2 ^ 31` buckets is met by the least power of two from 4 on, and a larger
one gets 4 buckets. -/
structure Rounds (request n : Nat) : Prop where
  power : ∃ m, 2 ≤ m ∧ m ≤ 31 ∧ n = 2 ^ m
  met : request ≤ 2 ^ 31 → request ≤ n ∧ (n = 4 ∨ n < 2 * request)
  wraps : 2 ^ 31 < request → n = 4

theorem roundedBuckets_rounds {request : Nat} (word : request < 2 ^ 32) :
    Rounds request (roundedBuckets request) := by
  have asWord : (BitVec.ofNat 32 request).toNat = request := Nat.mod_eq_of_lt word
  have four : ∃ m, 2 ≤ m ∧ m ≤ 31 ∧ 4 = 2 ^ m := ⟨2, by decide⟩
  rcases Nat.eq_zero_or_pos request with rfl | positive
  · have zero : roundedBuckets 0 = 4 := by decide
    rw [zero]
    exact ⟨four, fun _ => ⟨Nat.zero_le 4, .inl rfl⟩, fun _ => rfl⟩
  obtain ⟨m, short, le, least⟩ := exists_least_power positive (Nat.le_of_lt word)
  by_cases usual : 2 ≤ m ∧ m ≤ 31
  · have large : 2 ^ m ≤ 2 ^ 31 := Nat.pow_le_pow_right (by decide) usual.2
    rw [roundedBuckets_eq usual.1 usual.2 le least]
    exact ⟨⟨m, usual.1, usual.2, rfl⟩, fun _ => ⟨le, .inr least⟩, fun _ => by omega⟩
  have rounded := kroundup32_eq (x := .ofNat 32 request) short (by omega) (by omega)
  have few : (kroundup32 (.ofNat 32 request)).toNat < 4 := by
    have outside : m = 0 ∨ m = 1 ∨ m = 32 := by omega
    rw [rounded]
    rcases outside with rfl | rfl | rfl <;> decide
  have result : roundedBuckets request = 4 := if_pos few
  rw [result]
  refine ⟨four, fun small => ⟨?_, .inl rfl⟩, fun _ => rfl⟩
  have outside : m = 0 ∨ m = 1 ∨ m = 32 := by omega
  rcases outside with rfl | rfl | rfl <;> omega

/-- Whatever is asked for, the number of buckets is a power of two that fits a word. -/
theorem roundedBuckets_power (v : Nat) : ∃ m, 2 ≤ m ∧ m ≤ 31 ∧ roundedBuckets v = 2 ^ m := by
  have word : BitVec.ofNat 32 v = BitVec.ofNat 32 (v % 2 ^ 32) :=
    BitVec.eq_of_toNat_eq (by rw [BitVec.toNat_ofNat, BitVec.toNat_ofNat, Nat.mod_mod])
  have same : roundedBuckets v = roundedBuckets (v % 2 ^ 32) := by
    rw [roundedBuckets, roundedBuckets, word]
  rw [same]
  exact (roundedBuckets_rounds (Nat.mod_lt v (by decide))).power

theorem acUpperBound_lt (enough : 4 ≤ n) : acUpperBound n < n := by
  rw [acUpperBound, acHashUpper]
  omega

theorem half_le_acUpperBound (n : Nat) : n / 2 ≤ acUpperBound n := by
  rw [acUpperBound, acHashUpper]
  omega

theorem le_acUpperBound_double (n : Nat) : n ≤ acUpperBound (2 * n) := by
  rw [acUpperBound, acHashUpper]
  omega

/-- A step of the search, below the mask. -/
theorem nextBucket_place (short : m ≤ 32) (h s : Nat) :
    nextBucket (2 ^ m - 1) (Probing.place m h s) (s + 1) = Probing.place m h (s + 1) := by
  rw [nextBucket, Nat.and_two_pow_sub_one_eq_mod, Probing.place_succ,
    Nat.mod_mod_of_dvd _ (Nat.pow_dvd_pow 2 short)]

theorem firstBucket_place (m h : Nat) : h &&& 2 ^ m - 1 = Probing.place m h 0 :=
  Nat.and_two_pow_sub_one_eq_mod h m

/-- The flags have room for the buckets. -/
theorem le_acFsize (low : 2 ≤ m) : 2 ^ m ≤ 16 * acFsize (2 ^ m) := by
  rw [acFsize]
  split
  · omega
  · next large =>
      rw [word_eq]
      have more : 4 ≤ m := (Nat.pow_le_pow_iff_right (by decide)).mp (by omega : 2 ^ 4 ≤ 2 ^ m)
      obtain ⟨d, rfl⟩ := Nat.exists_eq_add_of_le more
      rw [Nat.pow_add]
      omega

theorem acFsize_pos (m : Nat) : 0 < acFsize m := by
  rw [acFsize]
  split
  · decide
  · rw [word_eq]
    omega

end CThread.Hash
