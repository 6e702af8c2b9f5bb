import CThread.Lib.Faults
import Mathlib.Logic.Function.Basic

/-!
The bucket flags of `khash.h`, two bits for each bucket and sixteen buckets in a word.

A bucket is empty, deleted, or neither; the macros look at the two bits through a mask, and set
or clear them through one. An access to a word that is not allocated is a fault.
-/
namespace CThread.Hash
open Faults

inductive KhFault
  | outOfBounds
  | diverges
  deriving DecidableEq, Repr

/-- `khint32_t *flags`, of which `len` words are allocated. -/
structure KhFlags where
  words : Nat → BitVec 32
  len : Nat

/-- `(i & 0xfU) << 1`. -/
def acShift (i : Nat) : Nat := (i &&& 0xf) <<< 1

def acTest (mask : BitVec 32) (flag : KhFlags) (i : Nat) : Except KhFault Bool :=
  if i >>> 4 < flag.len then .ok ((flag.words (i >>> 4) >>> acShift i) &&& mask != 0)
  else .error .outOfBounds

def acIsempty : KhFlags → Nat → Except KhFault Bool := acTest 2
def acIsdel : KhFlags → Nat → Except KhFault Bool := acTest 1
def acIseither : KhFlags → Nat → Except KhFault Bool := acTest 3

def KhFlags.write (flag : KhFlags) (i : Nat) (w : BitVec 32) : Except KhFault KhFlags :=
  if i >>> 4 < flag.len then .ok { flag with words := Function.update flag.words (i >>> 4) w }
  else .error .outOfBounds

def acClear (mask : BitVec 32) (flag : KhFlags) (i : Nat) : Except KhFault KhFlags :=
  flag.write i (flag.words (i >>> 4) &&& ~~~(mask <<< acShift i))

def acSetIsemptyFalse : KhFlags → Nat → Except KhFault KhFlags := acClear 2
def acSetIsbothFalse : KhFlags → Nat → Except KhFault KhFlags := acClear 3

def acSetIsdelTrue (flag : KhFlags) (i : Nat) : Except KhFault KhFlags :=
  flag.write i (flag.words (i >>> 4) ||| (1 : BitVec 32) <<< acShift i)

/-- The number of words for `m` buckets. -/
def acFsize (m : Nat) : Nat := if m < 16 then 1 else m >>> 4

/-- `memset(flags, 0xaa, ..)` of `n` words makes all their buckets empty. -/
def KhFlags.fill (flag : KhFlags) (n : Nat) : Except KhFault KhFlags :=
  if n ≤ flag.len then
    .ok { flag with words := fun w => if w < n then 0xaaaaaaaa else flag.words w }
  else .error .outOfBounds

/-- `n` words that were allocated and filled. -/
def KhFlags.filled (n : Nat) : KhFlags := ⟨fun _ => 0xaaaaaaaa, n⟩

/-- Bit `c` of the two bits of bucket `i`. -/
def KhFlags.bit (flag : KhFlags) (c i : Nat) : Bool :=
  (flag.words (i / 16)).getLsbD (2 * (i % 16) + c)

def KhFlags.isDel (flag : KhFlags) (i : Nat) : Bool := flag.bit 0 i

def KhFlags.isEmpty (flag : KhFlags) (i : Nat) : Bool := flag.bit 1 i

theorem acShift_eq (i : Nat) : acShift i = 2 * (i % 16) := by
  have low : i &&& 0xf = i % 16 := Nat.and_two_pow_sub_one_eq_mod i 4
  rw [acShift, low, Nat.shiftLeft_eq]
  omega

theorem word_eq (i : Nat) : i >>> 4 = i / 16 := Nat.shiftRight_eq_div_pow i 4

variable {flag : KhFlags} {i : Nat}

theorem word_lt (inside : i < 16 * flag.len) : i >>> 4 < flag.len := by
  rw [word_eq]
  omega

theorem high_clear {mask : BitVec 32} (small : mask.toNat < 4) {c : Nat} (high : 2 ≤ c) :
    mask.getLsbD c = false :=
  Nat.testBit_lt_two_pow
    (Nat.lt_of_lt_of_le small (Nat.pow_le_pow_right (show 2 > 0 by decide) high))

/-- A mask of one or both of the bits. -/
theorem and_mask (y : BitVec 32) {mask : BitVec 32} (small : mask.toNat < 4) :
    (y &&& mask != 0) =
      (y.getLsbD 0 && mask.getLsbD 0 || y.getLsbD 1 && mask.getLsbD 1) := by
  by_cases zero : y &&& mask = 0
  · have none : ∀ c, (y.getLsbD c && mask.getLsbD c) = false := fun c => by
      rw [← BitVec.getLsbD_and, zero]
      exact BitVec.getLsbD_zero
    rw [none 0, none 1, zero]
    rfl
  · have some : (y.getLsbD 0 && mask.getLsbD 0 || y.getLsbD 1 && mask.getLsbD 1) = true := by
      by_contra clear
      refine zero (BitVec.eq_of_getLsbD_eq fun c inside => ?_)
      obtain ⟨first, second⟩ := Bool.or_eq_false_iff.mp (Bool.not_eq_true _ ▸ clear)
      refine Eq.trans ?_ BitVec.getLsbD_zero.symm
      rw [BitVec.getLsbD_and]
      match c with
      | 0 => exact first
      | 1 => exact second
      | c + 2 => rw [high_clear small (by omega), Bool.and_false]
    rw [some]
    simpa using zero

theorem acTest_ok (inside : i < 16 * flag.len) {mask : BitVec 32} (small : mask.toNat < 4) :
    acTest mask flag i =
      .ok (flag.isDel i && mask.getLsbD 0 || flag.isEmpty i && mask.getLsbD 1) := by
  rw [acTest, if_pos (word_lt inside), and_mask _ small, BitVec.getLsbD_ushiftRight,
    BitVec.getLsbD_ushiftRight, acShift_eq, word_eq]
  rfl

theorem acIsempty_ok (inside : i < 16 * flag.len) : acIsempty flag i = .ok (flag.isEmpty i) := by
  rw [acIsempty, acTest_ok inside (by decide)]
  simp

theorem acIsdel_ok (inside : i < 16 * flag.len) : acIsdel flag i = .ok (flag.isDel i) := by
  rw [acIsdel, acTest_ok inside (by decide)]
  simp

theorem acIseither_ok (inside : i < 16 * flag.len) :
    acIseither flag i = .ok (flag.isDel i || flag.isEmpty i) := by
  rw [acIseither, acTest_ok inside (by decide)]
  simp

/-- A word that differs in the bits of one bucket only. -/
theorem write_ok (inside : i < 16 * flag.len) {w : BitVec 32} {x : Nat → Bool}
    (here : ∀ c, c < 2 → w.getLsbD (2 * (i % 16) + c) = x c)
    (others : ∀ r c, r < 16 → r ≠ i % 16 → c < 2 →
      w.getLsbD (2 * r + c) = (flag.words (i / 16)).getLsbD (2 * r + c)) :
    ∃ flag', flag.write i w = .ok flag' ∧ flag'.len = flag.len ∧
      flag'.isDel = Function.update flag.isDel i (x 0) ∧
      flag'.isEmpty = Function.update flag.isEmpty i (x 1) := by
  let flag' : KhFlags := { flag with words := Function.update flag.words (i / 16) w }
  have bits : ∀ c, c < 2 → flag'.bit c = Function.update (flag.bit c) i (x c) := by
    intro c low
    funext j
    by_cases word : j / 16 = i / 16
    · have at_j : flag'.bit c j = w.getLsbD (2 * (j % 16) + c) := by
        show (Function.update flag.words (i / 16) w (j / 16)).getLsbD _ = _
        rw [word, Function.update_self]
      by_cases same : j = i
      · subst same
        rw [at_j, Function.update_self, here c low]
      · rw [at_j, Function.update_of_ne same, others (j % 16) c (by omega) (by omega) low,
          ← word]
        rfl
    · have other : j ≠ i := fun same => word (congrArg (· / 16) same)
      rw [Function.update_of_ne other]
      show (Function.update flag.words (i / 16) w (j / 16)).getLsbD _ = _
      rw [Function.update_of_ne word]
      rfl
  refine ⟨flag', ?_, rfl, bits 0 (by decide), bits 1 (by decide)⟩
  rw [KhFlags.write, if_pos (word_lt inside), word_eq]

theorem getLsbD_shifted {mask : BitVec 32} (small : mask.toNat < 4) {r c : Nat}
    (inside : r < 16) (low : c < 2) :
    (mask <<< acShift i).getLsbD (2 * r + c) = (decide (r = i % 16) && mask.getLsbD c) := by
  rw [acShift_eq, BitVec.getLsbD_shiftLeft]
  by_cases same : r = i % 16
  · have offset : 2 * r + c - 2 * (i % 16) = c := by omega
    have bound : 2 * r + c < 32 := by omega
    have start : ¬ 2 * r + c < 2 * (i % 16) := by omega
    simp only [offset, decide_eq_true bound, decide_eq_false start, decide_eq_true same,
      Bool.not_false, Bool.true_and]
  · rcases Nat.lt_or_ge (2 * r + c) (2 * (i % 16)) with below | above
    · simp [below, same]
    · rw [high_clear small (by omega)]
      simp [same]

theorem acClear_ok (inside : i < 16 * flag.len) {mask : BitVec 32} (small : mask.toNat < 4) :
    ∃ flag', acClear mask flag i = .ok flag' ∧ flag'.len = flag.len ∧
      flag'.isDel = Function.update flag.isDel i (flag.isDel i && !mask.getLsbD 0) ∧
      flag'.isEmpty = Function.update flag.isEmpty i (flag.isEmpty i && !mask.getLsbD 1) := by
  refine write_ok (x := fun c => flag.bit c i && !mask.getLsbD c) inside ?_ ?_
  · intro c low
    rw [BitVec.getLsbD_and, BitVec.getLsbD_not, getLsbD_shifted small (by omega) low, word_eq]
    have bound : 2 * (i % 16) + c < 32 := by omega
    simp [bound, KhFlags.bit]
  · intro r c bound other low
    rw [BitVec.getLsbD_and, BitVec.getLsbD_not, getLsbD_shifted small bound low, word_eq]
    have within : 2 * r + c < 32 := by omega
    simp [within, other]

theorem acSetIsemptyFalse_ok (inside : i < 16 * flag.len) :
    ∃ flag', acSetIsemptyFalse flag i = .ok flag' ∧ flag'.len = flag.len ∧
      flag'.isDel = flag.isDel ∧ flag'.isEmpty = Function.update flag.isEmpty i false := by
  obtain ⟨flag', run, len, del, empty⟩ :=
    acClear_ok inside (show (2 : BitVec 32).toNat < 4 by decide)
  refine ⟨flag', run, len, ?_, ?_⟩
  · simpa using del
  · simpa using empty

theorem acSetIsbothFalse_ok (inside : i < 16 * flag.len) :
    ∃ flag', acSetIsbothFalse flag i = .ok flag' ∧ flag'.len = flag.len ∧
      flag'.isDel = Function.update flag.isDel i false ∧
      flag'.isEmpty = Function.update flag.isEmpty i false := by
  obtain ⟨flag', run, len, del, empty⟩ :=
    acClear_ok inside (show (3 : BitVec 32).toNat < 4 by decide)
  refine ⟨flag', run, len, ?_, ?_⟩
  · simpa using del
  · simpa using empty

theorem acSetIsdelTrue_ok (inside : i < 16 * flag.len) :
    ∃ flag', acSetIsdelTrue flag i = .ok flag' ∧ flag'.len = flag.len ∧
      flag'.isDel = Function.update flag.isDel i true ∧ flag'.isEmpty = flag.isEmpty := by
  obtain ⟨flag', run, len, del, empty⟩ : ∃ flag', acSetIsdelTrue flag i = .ok flag' ∧
      flag'.len = flag.len ∧ flag'.isDel = Function.update flag.isDel i true ∧
      flag'.isEmpty = Function.update flag.isEmpty i (flag.isEmpty i) := by
    refine write_ok (x := fun c => if c = 0 then true else flag.bit c i) inside ?_ ?_
    · intro c low
      rw [BitVec.getLsbD_or, getLsbD_shifted (by decide) (by omega) low, word_eq]
      match c, low with
      | 0, _ => simp
      | 1, _ => simp [KhFlags.bit]
    · intro r c bound other low
      rw [BitVec.getLsbD_or, getLsbD_shifted (by decide) bound low, word_eq]
      simp [other]
  exact ⟨flag', run, len, del, empty.trans (Function.update_eq_self ..)⟩

theorem fill_ok (flag : KhFlags) : ∃ flag', flag.fill flag.len = .ok flag' ∧
    flag'.len = flag.len ∧
      ∀ i, i < 16 * flag.len → flag'.isEmpty i = true ∧ flag'.isDel i = false := by
  refine ⟨_, if_pos (Nat.le_refl _), rfl, fun i inside => ?_⟩
  have bits : ∀ r, r < 16 → (0xaaaaaaaa : BitVec 32).getLsbD (2 * r + 1) = true ∧
      (0xaaaaaaaa : BitVec 32).getLsbD (2 * r + 0) = false := by decide
  have word : i / 16 < flag.len := by omega
  have at_i := bits (i % 16) (by omega)
  simpa only [KhFlags.isEmpty, KhFlags.isDel, KhFlags.bit, if_pos word] using at_i

theorem filled_isEmpty (len i : Nat) : (KhFlags.filled len).isEmpty i = true := by
  have all : ∀ r, r < 16 → (0xaaaaaaaa : BitVec 32).getLsbD (2 * r + 1) = true := by decide
  exact all (i % 16) (by omega)

theorem filled_isDel (len i : Nat) : (KhFlags.filled len).isDel i = false := by
  have all : ∀ r, r < 16 → (0xaaaaaaaa : BitVec 32).getLsbD (2 * r + 0) = false := by decide
  exact all (i % 16) (by omega)

end CThread.Hash
