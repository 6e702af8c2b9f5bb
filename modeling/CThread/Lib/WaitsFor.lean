import Mathlib.Dynamics.PeriodicPts.Lemmas
import Mathlib.Logic.Relation
import Mathlib.Logic.Relator

/-!
Parties that wait for each other, where nobody waits for two others and nobody is waited for
by two. Among finitely many of them each one waits, directly or through others, either for a
party that does not wait or for itself.
-/
namespace WaitsFor
open Relation Function Relator
universe u
variable {α : Type u} {R R' : α → α → Prop} {S : Set α} {a b : α}

/-- `a` waits for itself. -/
def Deadlocked (R : α → α → Prop) (a : α) : Prop := TransGen R a a

/-- `a` waits for `b`, or is `b`, and `b` does not wait. -/
structure LeadsTo (R : α → α → Prop) (a b : α) : Prop where
  path : ReflTransGen R a b
  free : ∀ c, ¬ R b c

theorem LeadsTo.head (step : R a b) {c : α} (leads : LeadsTo R b c) : LeadsTo R a c :=
  ⟨leads.path.head step, leads.free⟩

namespace Deadlocked

theorem waits (dead : Deadlocked R a) : ∃ b, R a b := by
  obtain ⟨b, step, _⟩ := TransGen.head'_iff.mp dead
  exact ⟨b, step⟩

theorem next (functional : RightUnique R) (dead : Deadlocked R a) (step : R a b) :
    Deadlocked R b := by
  obtain ⟨c, step', more⟩ := TransGen.head'_iff.mp dead
  rw [functional step' step] at more
  exact TransGen.tail' more step

theorem reaches (functional : RightUnique R) (dead : Deadlocked R a)
    (path : ReflTransGen R a b) : Deadlocked R b := by
  induction path with
  | refl => exact dead
  | tail _ step ih => exact ih.next functional step

theorem not_leads (functional : RightUnique R) (dead : Deadlocked R a) : ¬ LeadsTo R a b :=
  fun leads =>
    have ⟨c, step⟩ := (dead.reaches functional leads.path).waits
    leads.free c step

/-- A deadlock lasts as long as those in it go on to wait as they do. -/
theorem lasts (functional : RightUnique R) (dead : Deadlocked R a)
    (kept : ∀ b c, Deadlocked R b → R b c → R' b c) : Deadlocked R' a := by
  have moved : ∀ b, TransGen R a b → TransGen R' a b := by
    intro b path
    induction path with
    | single step => exact .single (kept a _ dead step)
    | tail path step ih =>
        exact ih.tail (kept _ _ (dead.reaches functional path.to_reflTransGen) step)
  exact moved a dead

end Deadlocked

theorem transGen_iterate {f : α → α} (step : ∀ a, R a (f a)) (a : α) {n : Nat} (pos : 0 < n) :
    TransGen R a (f^[n] a) := by
  induction n with
  | zero => exact absurd pos (Nat.lt_irrefl 0)
  | succ n ih =>
      rw [iterate_succ_apply']
      rcases Nat.eq_zero_or_pos n with zero | more
      · subst zero
        exact .single (step a)
      · exact (ih more).tail (step _)

/-- Those who lead to nobody wait for one another, so the map from each to the one it waits
for is a permutation of them. -/
theorem deadlocked_or_leads (finite : S.Finite) (inside : ∀ a b, a ∈ S → R a b → b ∈ S)
    (injective : LeftUnique R) (member : a ∈ S) :
    Deadlocked R a ∨ ∃ b, b ∈ S ∧ LeadsTo R a b := by
  by_cases leads : ∃ b, b ∈ S ∧ LeadsTo R a b
  · exact .inr leads
  · let T : Set α := {a | a ∈ S ∧ ¬ ∃ b, b ∈ S ∧ LeadsTo R a b}
    have finite : Finite T := (finite.subset fun _ stuck => stuck.1).to_subtype
    have succ : ∀ x : T, ∃ y : T, R x y := by
      intro ⟨x, member, stuck⟩
      have waits : ∃ y, R x y := by
        by_contra free
        exact stuck ⟨x, member, .refl, fun c step => free ⟨c, step⟩⟩
      obtain ⟨y, step⟩ := waits
      refine ⟨⟨y, inside x y member step, fun ⟨b, there, leads⟩ => ?_⟩, step⟩
      exact stuck ⟨b, there, leads.head step⟩
    choose f step using succ
    have one : Injective f := fun x y same => by
      have step' := step y
      rw [← same] at step'
      exact Subtype.ext (injective (step x) step')
    obtain ⟨n, pos, back⟩ := mem_periodicPts.mp (one.mem_periodicPts ⟨a, member, leads⟩)
    have path := transGen_iterate (R := fun x y : T => R x y) step ⟨a, member, leads⟩ pos
    rw [back.eq] at path
    exact .inl (path.lift Subtype.val fun _ _ step => step)

end WaitsFor
