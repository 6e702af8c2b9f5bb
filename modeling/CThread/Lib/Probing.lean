import Mathlib.Data.Fintype.EquivFin
import Mathlib.Data.Nat.ModEq
import Mathlib.Data.Nat.Prime.Basic
import Mathlib.Tactic.Ring

/-!
Triangular probing.

In a table of `2 ^ m` places the path of a hash starts at the hash and takes steps of length
1, 2, 3 and so on. Because the number of places is a power of two, the first `2 ^ m` places
of a path are all different, so that a path misses none.
-/
namespace Probing

/-- How far the first `s` steps lead. -/
def triangle : Nat → Nat
  | 0 => 0
  | s + 1 => triangle s + (s + 1)

/-- The place that the path of `h` is at after `s` steps. -/
def place (m h s : Nat) : Nat := (h + triangle s) % 2 ^ m

theorem two_mul_triangle (s : Nat) : 2 * triangle s = s * (s + 1) := by
  induction s with
  | zero => rfl
  | succ s ih =>
      rw [triangle, Nat.mul_add, ih]
      ring

variable {m h : Nat}

theorem place_lt (m h s : Nat) : place m h s < 2 ^ m :=
  Nat.mod_lt _ (Nat.two_pow_pos m)

theorem place_succ (m h s : Nat) : place m h (s + 1) = (place m h s + (s + 1)) % 2 ^ m := by
  rw [place, place, triangle, Nat.mod_add_mod, Nat.add_assoc]

/-- One of two factors that differ by an odd number is odd, so a power of two divides the other
one. -/
theorem two_pow_dvd_factor {n d x : Nat} (divides : 2 ^ n ∣ d * (d + (2 * x + 1))) :
    2 ^ n ∣ d ∨ 2 ^ n ∣ d + (2 * x + 1) := by
  have coprime : ∀ {y : Nat}, y % 2 = 1 → Nat.Coprime (2 ^ n) y := fun odd =>
    Nat.Coprime.pow_left n (Nat.coprime_two_left.mpr (Nat.odd_iff.mpr odd))
  rcases Nat.mod_two_eq_zero_or_one d with even | odd
  · have other : (d + (2 * x + 1)) % 2 = 1 := by omega
    exact .inl ((coprime other).dvd_of_dvd_mul_right divides)
  · exact .inr ((coprime odd).dvd_of_dvd_mul_left divides)

theorem place_inj {s r : Nat} (left : s < 2 ^ m) (right : r < 2 ^ m)
    (same : place m h s = place m h r) : s = r := by
  wlog le : s ≤ r generalizing s r
  · exact (this right left same.symm (by omega)).symm
  obtain ⟨d, rfl⟩ := Nat.exists_eq_add_of_le le
  have steps : 2 ^ m ∣ triangle (s + d) - triangle s :=
    (Nat.modEq_iff_dvd' (by
      have small := two_mul_triangle s
      have large := two_mul_triangle (s + d)
      have grows : s * (s + 1) ≤ (s + d) * (s + d + 1) :=
        Nat.mul_le_mul (by omega) (by omega)
      omega)).mp (Nat.ModEq.add_left_cancel' h same)
  have twice : 2 * (triangle (s + d) - triangle s) = d * (d + (2 * s + 1)) := by
    rw [Nat.mul_sub, two_mul_triangle, two_mul_triangle]
    apply Nat.sub_eq_of_eq_add
    ring
  have power : 2 ^ (m + 1) = 2 * 2 ^ m := by rw [Nat.pow_succ, Nat.mul_comm]
  have divides : 2 ^ (m + 1) ∣ d * (d + (2 * s + 1)) := by
    rw [← twice, power]
    exact Nat.mul_dvd_mul_left 2 steps
  rcases two_pow_dvd_factor divides with near | far
  · have := Nat.eq_zero_of_dvd_of_lt near (by omega)
    omega
  · have := Nat.eq_zero_of_dvd_of_lt far (by omega)
    omega

/-- A path is back at its start after `2 ^ (m + 1) - 1` steps .. -/
theorem place_again (m h : Nat) : place m h (2 ^ (m + 1) - 1) = place m h 0 := by
  have power : 2 ^ (m + 1) = 2 * 2 ^ m := by rw [Nat.pow_succ, Nat.mul_comm]
  have positive := Nat.two_pow_pos m
  have twice := two_mul_triangle (2 ^ (m + 1) - 1)
  have next : 2 ^ (m + 1) - 1 + 1 = 2 * 2 ^ m := by omega
  rw [next, Nat.mul_left_comm] at twice
  have steps := Nat.eq_of_mul_eq_mul_left (by decide) twice
  rw [place, steps, Nat.add_mul_mod_self_right]
  rfl

/-- .. and not before. -/
theorem place_ne_start {s : Nat} (moved : 0 < s) (before : s < 2 ^ (m + 1) - 1) :
    place m h s ≠ place m h 0 := by
  intro back
  have power : 2 ^ (m + 1) = 2 * 2 ^ m := by rw [Nat.pow_succ, Nat.mul_comm]
  have steps : 2 ^ m ∣ triangle s :=
    Nat.modEq_zero_iff_dvd.mp (Nat.ModEq.add_left_cancel' h back)
  have divides : 2 ^ (m + 1) ∣ s * (s + (2 * 0 + 1)) := by
    have doubled := Nat.mul_dvd_mul_left 2 steps
    rwa [two_mul_triangle, ← power] at doubled
  rcases two_pow_dvd_factor divides with near | far
  · exact absurd (Nat.le_of_dvd moved near) (by omega)
  · exact absurd (Nat.le_of_dvd (by omega) far) (by omega)

/-- A path visits every place. -/
theorem place_surj (h : Nat) {b : Nat} (inside : b < 2 ^ m) :
    ∃ s, s < 2 ^ m ∧ place m h s = b := by
  let path : Fin (2 ^ m) → Fin (2 ^ m) := fun s => ⟨place m h s, place_lt m h s⟩
  have injective : Function.Injective path := fun s r same =>
    Fin.ext (place_inj s.isLt r.isLt (congrArg Fin.val same))
  obtain ⟨s, at_b⟩ := Finite.surjective_of_injective injective ⟨b, inside⟩
  exact ⟨s, s.isLt, congrArg Fin.val at_b⟩

end Probing
