import Mathlib.Logic.Basic

/-!
Guarded runs of a deterministic machine whose step may fault.

An input is offered to the machine only when the guard admits it, and the guard
may look at the whole history. What a specification remembers about a run is a
monitor: a fold over the inputs and outputs seen so far. The two rules proved
here are the invariant rule and the refinement rule; the second one also gives
progress, because a refining step must not fault.
-/
namespace GuardedRuns
universe u v w x y
variable {σ : Type u} {ι : Type v} {ο : Type w} {ε : Type x} {α : Type y}

/-- A machine consumes one input at a time. A fault ends every run through it. -/
structure Machine (σ : Type u) (ι : Type v) (ο : Type w) (ε : Type x) where
  step : σ → ι → Except ε (σ × ο)

/-- The inputs of a run with the outputs they gave, newest first. -/
abbrev Trace (ι : Type v) (ο : Type w) := List (ι × ο)

/-- An admission policy: the history, the current state and the input offered. -/
abbrev Guard (σ : Type u) (ι : Type v) (ο : Type w) := Trace ι ο → σ → ι → Prop

inductive Run (M : Machine σ ι ο ε) (ok : Guard σ ι ο) (s₀ : σ) :
    Trace ι ο → σ → Prop
  | nil : Run M ok s₀ [] s₀
  | snoc {tr : Trace ι ο} {s s' : σ} {i : ι} {o : ο} (run : Run M ok s₀ tr s)
      (admitted : ok tr s i) (stepped : M.step s i = .ok (s', o)) :
      Run M ok s₀ ((i, o) :: tr) s'

/-- The state after an input; a faulting input leaves the state. -/
def Machine.after (M : Machine σ ι ο ε) (s : σ) (i : ι) : σ :=
  match M.step s i with
  | .ok (s', _) => s'
  | .error _ => s

/-- The state after a list of inputs, first input first. -/
def Machine.afterAll (M : Machine σ ι ο ε) (s : σ) (inputs : List ι) : σ :=
  inputs.foldl M.after s

def Machine.answer (M : Machine σ ι ο ε) (s : σ) (i : ι) : Option ο :=
  match M.step s i with
  | .ok (_, o) => some o
  | .error _ => none

theorem Machine.step_eq {M : Machine σ ι ο ε} {s : σ} {i : ι} {o : ο}
    (answered : M.answer s i = some o) : M.step s i = .ok (M.after s i, o) := by
  unfold Machine.answer at answered
  unfold Machine.after
  split at answered
  · next stepped =>
      cases answered
      rw [stepped]
  · cases answered

/-- The state of a specification that watches the run from outside. -/
def monitor (next : α → ι → ο → α) (a₀ : α) : Trace ι ο → α
  | [] => a₀
  | (i, o) :: tr => next (monitor next a₀ tr) i o

@[simp] theorem monitor_nil (next : α → ι → ο → α) (a₀ : α) :
    monitor next a₀ ([] : Trace ι ο) = a₀ := rfl

@[simp] theorem monitor_cons (next : α → ι → ο → α) (a₀ : α) (i : ι) (o : ο)
    (tr : Trace ι ο) :
    monitor next a₀ ((i, o) :: tr) = next (monitor next a₀ tr) i o := rfl

variable {M : Machine σ ι ο ε} {ok : Guard σ ι ο} {s₀ : σ}

/-- What holds at the start and is kept by every admitted step holds throughout. -/
theorem Run.invariant {P : Trace ι ο → σ → Prop} (init : P [] s₀)
    (step : ∀ tr s i s' o, P tr s → ok tr s i → M.step s i = .ok (s', o) →
      P ((i, o) :: tr) s')
    {tr : Trace ι ο} {s : σ} (run : Run M ok s₀ tr s) : P tr s := by
  induction run with
  | nil => exact init
  | snoc _ admitted stepped ih => exact step _ _ _ _ _ ih admitted stepped

theorem Run.unique {tr : Trace ι ο} {s s' : σ} (first : Run M ok s₀ tr s)
    (second : Run M ok s₀ tr s') : s = s' := by
  induction first generalizing s' with
  | nil =>
      cases second
      rfl
  | snoc _ _ stepped ih =>
      cases second with
      | snoc before _ stepped' =>
          rw [ih before, stepped'] at stepped
          cases stepped
          rfl

/-- What every admitted step keeps lasts through the rest of a run. -/
theorem Run.lasts {P : σ → Prop}
    (kept : ∀ tr s i s' o, Run M ok s₀ tr s → P s → ok tr s i → M.step s i = .ok (s', o) →
      P s')
    {tr later : Trace ι ο} {s s' : σ} (run : Run M ok s₀ tr s) (holds : P s)
    (run' : Run M ok s₀ (later ++ tr) s') : P s' := by
  induction later generalizing s' with
  | nil => exact run.unique run' ▸ holds
  | cons step later ih =>
      cases run' with
      | snoc before admitted stepped => exact kept _ _ _ _ _ before (ih before) admitted stepped

/-- A stricter guard admits fewer runs. -/
theorem Run.mono {ok' : Guard σ ι ο} (weaker : ∀ tr s i, ok tr s i → ok' tr s i)
    {tr : Trace ι ο} {s : σ} (run : Run M ok s₀ tr s) : Run M ok' s₀ tr s := by
  induction run with
  | nil => exact .nil
  | snoc _ admitted stepped ih => exact .snoc ih (weaker _ _ _ admitted) stepped

/-- A machine of which a component makes at most one step at a time: the inputs and outputs
that concern the component are a run of it. -/
theorem Run.project {σ' : Type*} {ι' : Type*} {ο' : Type*} {ε' : Type*}
    {M' : Machine σ' ι' ο' ε'} {ok' : Guard σ' ι' ο'} (view : σ → σ')
    (part : ι × ο → Option (ι' × ο'))
    (step : ∀ tr s i s' o, Run M' ok' (view s₀) (tr.filterMap part) (view s) → ok tr s i →
      M.step s i = .ok (s', o) →
      (part (i, o) = none ∧ view s' = view s) ∨
        ∃ j p, part (i, o) = some (j, p) ∧ ok' (tr.filterMap part) (view s) j ∧
          M'.step (view s) j = .ok (view s', p))
    {tr : Trace ι ο} {s : σ} (run : Run M ok s₀ tr s) :
    Run M' ok' (view s₀) (tr.filterMap part) (view s) := by
  induction run with
  | nil => exact .nil
  | @snoc tr s s' i o run admitted stepped ih =>
      rcases step tr s i s' o ih admitted stepped with
        ⟨outside, same⟩ | ⟨j, p, inside, ok, moved⟩
      · rw [List.filterMap_cons_none outside, same]
        exact ih
      · rw [List.filterMap_cons_some inside]
        exact .snoc ih ok moved

/-- A specification judges each output in the state it reached before it. -/
def Lawful (next : α → ι → ο → α) (a₀ : α) (legal : α → ι → ο → Prop) :
    Trace ι ο → Prop
  | [] => True
  | (i, o) :: tr => Lawful next a₀ legal tr ∧ legal (monitor next a₀ tr) i o

/-- `R` relates the machine to the monitor, and no admitted step breaks it,
gives an output the specification rejects, or faults. -/
structure Refines (M : Machine σ ι ο ε) (ok : Guard σ ι ο) (next : α → ι → ο → α)
    (a₀ : α) (legal : α → ι → ο → Prop) (R : σ → α → Prop) : Prop where
  step : ∀ tr s i, R s (monitor next a₀ tr) → ok tr s i →
    ∃ s' o, M.step s i = .ok (s', o) ∧ legal (monitor next a₀ tr) i o ∧
      R s' (next (monitor next a₀ tr) i o)

variable {next : α → ι → ο → α} {a₀ : α} {legal : α → ι → ο → Prop}
  {R : σ → α → Prop}

theorem Refines.run (h : Refines M ok next a₀ legal R) (init : R s₀ a₀)
    {tr : Trace ι ο} {s : σ} (run : Run M ok s₀ tr s) :
    Lawful next a₀ legal tr ∧ R s (monitor next a₀ tr) := by
  refine Run.invariant (P := fun tr s => Lawful next a₀ legal tr ∧
    R s (monitor next a₀ tr)) ⟨trivial, init⟩ ?_ run
  intro tr s i s' o ⟨lawful, rel⟩ admitted stepped
  obtain ⟨t, o', stepped', hlegal, rel'⟩ := h.step tr s i rel admitted
  rw [stepped] at stepped'
  cases stepped'
  exact ⟨⟨lawful, hlegal⟩, rel'⟩

/-- Progress: an admitted input of a reachable state never faults. -/
theorem Refines.progress (h : Refines M ok next a₀ legal R) (init : R s₀ a₀)
    {tr : Trace ι ο} {s : σ} (run : Run M ok s₀ tr s) {i : ι} (admitted : ok tr s i) :
    ∃ s' o, M.step s i = .ok (s', o) ∧ legal (monitor next a₀ tr) i o := by
  obtain ⟨s', o, stepped, hlegal, _⟩ := h.step tr s i (h.run init run).2 admitted
  exact ⟨s', o, stepped, hlegal⟩

end GuardedRuns
