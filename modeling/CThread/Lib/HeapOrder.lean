import Mathlib.Order.Lattice
import Mathlib.Logic.Equiv.Basic

/-!
The order of an implicit binary heap whose slots are numbered from 1, so that
the parent of slot `i` is slot `i / 2`.

Only the keys of the slots matter here. A sift is described by the two
predicates that allow one slot to be out of place, and by the rule that a swap
along the tree moves the exception to the other slot.
-/
namespace HeapOrder
universe u
variable {κ : Type u} [LinearOrder κ] {n i : Nat} {k : Nat → κ}

/-- No slot is smaller than its parent. -/
def Ordered (n : Nat) (k : Nat → κ) : Prop :=
  ∀ j, 2 ≤ j → j ≤ n → k (j / 2) ≤ k j

/-- Only slot `i` may be smaller than its parent, and the slots below `i` are
not smaller than the parent of `i`. -/
structure OrderedUp (n : Nat) (k : Nat → κ) (i : Nat) : Prop where
  off : ∀ j, 2 ≤ j → j ≤ n → j ≠ i → k (j / 2) ≤ k j
  across : ∀ j, 2 ≤ i → 2 ≤ j → j ≤ n → j / 2 = i → k (i / 2) ≤ k j

/-- Only the children of slot `i` may be smaller than slot `i`, and they are
not smaller than the parent of `i`. -/
structure OrderedDown (n : Nat) (k : Nat → κ) (i : Nat) : Prop where
  off : ∀ j, 2 ≤ j → j ≤ n → j / 2 ≠ i → k (j / 2) ≤ k j
  across : ∀ j, 2 ≤ i → 2 ≤ j → j ≤ n → j / 2 = i → k (i / 2) ≤ k j

/-- The slots after the contents of two of them are exchanged. -/
def exchange {β : Type u} (f : Nat → β) (a b : Nat) : Nat → β := f ∘ Equiv.swap a b

section Exchange
variable {β : Type u} (f : Nat → β) {a b j : Nat}

@[simp] theorem exchange_left : exchange f a b a = f b := by
  simp [exchange]

@[simp] theorem exchange_right : exchange f a b b = f a := by
  simp [exchange]

theorem exchange_other (ha : j ≠ a) (hb : j ≠ b) : exchange f a b j = f j := by
  simp [exchange, Equiv.swap_apply_of_ne_of_ne ha hb]

end Exchange

/-- The root of an ordered heap is a minimum. -/
theorem Ordered.root_le (h : Ordered n k) (i : Nat) (one : 1 ≤ i) (hi : i ≤ n) :
    k 1 ≤ k i := by
  induction i using Nat.strongRecOn with
  | ind i ih =>
      by_cases root : i = 1
      · rw [root]
      · exact le_trans (ih (i / 2) (by omega) (by omega) (by omega))
          (h i (by omega) hi)

/-- A new last slot has no children, so it is the only exception. -/
theorem Ordered.append {k' : Nat → κ} (h : Ordered n k)
    (same : ∀ j, 1 ≤ j → j ≤ n → k' j = k j) : OrderedUp (n + 1) k' (n + 1) where
  off j two hj ne := by
    rw [same j (by omega) (by omega), same (j / 2) (by omega) (by omega)]
    exact h j two (by omega)
  across j _ _ hj below := by omega

/-- Lowering the key of one slot leaves that slot as the only exception. -/
theorem Ordered.decrease {k' : Nat → κ} (h : Ordered n k)
    (same : ∀ j, 1 ≤ j → j ≤ n → j ≠ i → k' j = k j)
    (lower : k' i ≤ k i) : OrderedUp n k' i where
  off j two hj ne := by
    rw [same j (by omega) hj ne]
    by_cases parent : j / 2 = i
    · rw [parent]
      exact le_trans lower (by simpa only [parent] using h j two hj)
    · rw [same (j / 2) (by omega) (by omega) parent]
      exact h j two hj
  across j top two hj below := by
    rw [same j (by omega) hj (by omega), same (i / 2) (by omega) (by omega) (by omega)]
    have above : k (i / 2) ≤ k i := h i top (by omega)
    exact le_trans above (by simpa only [below] using h j two hj)

theorem OrderedUp.done (h : OrderedUp n k i)
    (inPlace : 2 ≤ i → i ≤ n → k (i / 2) ≤ k i) : Ordered n k := by
  intro j two hj
  by_cases here : j = i
  · subst here
    exact inPlace two hj
  · exact h.off j two hj here

/-- Exchanging slot `i` with a larger parent moves the exception one level up. -/
theorem OrderedUp.exchange (h : OrderedUp n k i) (two : 2 ≤ i) (hi : i ≤ n)
    (smaller : k i < k (i / 2)) :
    OrderedUp n (exchange k i (i / 2)) (i / 2) where
  off j htwo hj ne := by
    by_cases here : j = i
    · subst here
      simpa using le_of_lt smaller
    · rw [exchange_other k here ne]
      by_cases sibling : j / 2 = i / 2
      · rw [sibling, exchange_right]
        exact le_trans (le_of_lt smaller)
          (by simpa only [sibling] using h.off j htwo hj here)
      · by_cases child : j / 2 = i
        · rw [child, exchange_left]
          exact h.across j two htwo hj child
        · rw [exchange_other k child sibling]
          exact h.off j htwo hj here
  across j top htwo hj below := by
    have above : k (i / 2 / 2) ≤ k (i / 2) :=
      h.off (i / 2) top (by omega) (by omega)
    rw [exchange_other k (by omega) (by omega)]
    by_cases here : j = i
    · subst here
      simpa using above
    · rw [exchange_other k here (by omega)]
      exact le_trans above (by simpa only [below] using h.off j htwo hj here)

theorem OrderedDown.done (h : OrderedDown n k i)
    (inPlace : ∀ j, 2 ≤ j → j ≤ n → j / 2 = i → k i ≤ k j) : Ordered n k := by
  intro j two hj
  by_cases below : j / 2 = i
  · rw [below]
    exact inPlace j two hj below
  · exact h.off j two hj below

/-- Exchanging slot `i` with its least child moves the exception one level down. -/
theorem OrderedDown.exchange (h : OrderedDown n k i) {c : Nat} (one : 1 ≤ i)
    (child : c / 2 = i) (hc : c ≤ n) (smaller : k c < k i)
    (least : ∀ j, 2 ≤ j → j ≤ n → j / 2 = i → k c ≤ k j) :
    OrderedDown n (exchange k c i) c where
  off j htwo hj ne := by
    by_cases here : j / 2 = i
    · rw [here, exchange_right]
      by_cases same : j = c
      · subst same
        simpa using le_of_lt smaller
      · rw [exchange_other k same (by omega)]
        exact least j htwo hj here
    · rw [exchange_other k ne here]
      by_cases self : j = i
      · subst self
        rw [exchange_right]
        exact h.across c htwo (by omega) hc child
      · rw [exchange_other k (by omega) self]
        exact h.off j htwo hj here
  across j top htwo hj below := by
    rw [child, exchange_right, exchange_other k (by omega) (by omega)]
    simpa only [below] using h.off j htwo hj (by omega)

end HeapOrder
