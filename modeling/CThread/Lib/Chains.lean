import Mathlib.Data.List.Nodup
import Mathlib.Data.List.Perm.Subperm

/-!
Intrusive singly linked lists: `next` gives the link stored in a live node, and nothing
for a node that is not there.
-/
namespace Chains
universe u
variable {ρ : Type u} {next next' : ρ → Option (Option ρ)} {start : Option ρ} {l : List ρ}

/-- Following the links from `start` visits the live nodes `l` and ends at `none`. -/
def Chain (next : ρ → Option (Option ρ)) : Option ρ → List ρ → Prop
  | start, [] => start = none
  | start, p :: rest => start = some p ∧ ∃ n, next p = some n ∧ Chain next n rest

/-- Only the links of the nodes on the chain matter. -/
theorem Chain.congr (chain : Chain next start l) (same : ∀ p, p ∈ l → next' p = next p) :
    Chain next' start l := by
  induction l generalizing start with
  | nil => exact chain
  | cons p rest ih =>
      obtain ⟨first, n, link, tail⟩ := chain
      refine ⟨first, n, (same p (.head _)).trans link, ?_⟩
      exact ih tail fun q inside => same q (.tail _ inside)

theorem Chain.push {p : ρ} (chain : Chain next start l) (link : next p = some start) :
    Chain next (some p) (p :: l) :=
  ⟨rfl, start, link, chain⟩

theorem Chain.eq_nil (chain : Chain next none l) : l = [] := by
  cases l with
  | nil => rfl
  | cons p rest => cases chain.1

theorem Chain.start_mem {p : ρ} (chain : Chain next (some p) l) : p ∈ l := by
  cases l with
  | nil => cases chain
  | cons q rest =>
      cases chain.1
      exact .head _

theorem Chain.live (chain : Chain next start l) {p : ρ} (inside : p ∈ l) :
    ∃ n, next p = some n := by
  induction l generalizing start with
  | nil => cases inside
  | cons q rest ih =>
      obtain ⟨_, n, link, tail⟩ := chain
      cases inside with
      | head => exact ⟨n, link⟩
      | tail _ inside => exact ih tail inside

/-- A chain without repetitions is no longer than any list of the live nodes. -/
theorem Chain.length_le (chain : Chain next start l) (nodup : l.Nodup) {live : List ρ}
    (all : ∀ p n, next p = some n → p ∈ live) : l.length ≤ live.length := by
  refine (List.subperm_of_subset nodup ?_).length_le
  intro p inside
  obtain ⟨n, link⟩ := chain.live inside
  exact all p n link

end Chains
