import CThread.Poll.Moves

/-!
What a call has done when it has not faulted, whatever state it came to.

`ev_watch`, `ev_unwatch` and `ev_close` end in `mark_dirty`, which writes the records and the
dirty list only. So each leaves the rest as it was when it got there.
-/
namespace CThread.Poll
open Faults Timers
variable {ρ ω τ φ : Type} {e e' : Pollers ρ ω φ} {fd : Int} {p : ρ} {r : EvloopPoll ρ ω}
  {w u : ω} {ev : EvEvent} {block : ρ}

theorem Pollers.of_get (found : e.get p = .ok r) : e.records p = some r := by
  unfold Pollers.get at found
  split at found
  · next r' record =>
      cases found
      exact record
  · cases found

/-- Only records and the dirty list were written. -/
structure RecordsOnly (e e' : Pollers ρ ω φ) : Prop where
  watches : e'.watches = e.watches
  table : e'.table = e.table
  kernel : e'.kernel = e.kernel
  allocated : e'.allocated = e.allocated

variable [DecidableEq ρ]

theorem markDirty_recordsOnly (run : markDirty (e.put p r) p = .ok e') : RecordsOnly e e' := by
  unfold markDirty at run
  obtain ⟨r, _, run⟩ := bind_eq_ok.mp run
  split at run
  · cases run
    exact ⟨rfl, rfl, rfl, rfl⟩
  · cases run
    exact ⟨rfl, rfl, rfl, rfl⟩

theorem evClose_effect (run : evClose e fd = .ok e') :
    e'.watches = e.watches ∧ e'.allocated = e.allocated ∧
      e'.kernel = Function.update e.kernel fd none := by
  unfold evClose at run
  split at run
  · cases run
    exact ⟨rfl, rfl, rfl⟩
  · obtain ⟨r, _, run⟩ := bind_eq_ok.mp run
    obtain ⟨e₁, marked, run⟩ := bind_eq_ok.mp run
    cases run
    have kept := markDirty_recordsOnly marked
    refine ⟨kept.watches, kept.allocated, ?_⟩
    show Function.update e₁.kernel fd none = _
    rw [kept.kernel]

theorem recordFor_some (inside : e.table fd = some p) : recordFor e fd block = (e, p) := by
  simp [recordFor, inside]

theorem recordFor_none (empty : e.table fd = none) :
    recordFor e fd block = (addPoll e fd block, block) := by
  simp [recordFor, empty]

theorem recordFor_watches (e : Pollers ρ ω φ) (fd : Int) (block : ρ) :
    (recordFor e fd block).1.watches = e.watches := by
  unfold recordFor
  split <;> rfl

variable [DecidableEq ω]

/-- `ev_watch` got past its assertions, and has marked the record that the table has. -/
theorem evWatch_effect (run : evWatch e w fd ev block = .ok e') :
    (∃ f, (e.watches w).fn = some f) ∧
      (∃ r, (recordFor e fd block).1.records (recordFor e fd block).2 = some r ∧
        r.slot ev = none) ∧
      ∃ x, RecordsOnly ((recordFor e fd block).1.putWatch w x) e' := by
  unfold evWatch at run
  split at run
  · cases run
  next named =>
  obtain ⟨r, found, run⟩ := bind_eq_ok.mp run
  split at run
  · cases run
  next free =>
  exact ⟨Option.ne_none_iff_exists'.mp (by simpa using named),
    ⟨r, Pollers.of_get found, by simpa using free⟩, _, markDirty_recordsOnly run⟩

theorem evWatch_watches (run : evWatch e w fd ev block = .ok e') (other : u ≠ w) :
    e'.watches u = e.watches u := by
  obtain ⟨_, _, x, kept⟩ := evWatch_effect run
  rw [kept.watches]
  exact (Function.update_of_ne other ..).trans (congrFun (recordFor_watches e fd block) u)

/-- `ev_unwatch` came to a watcher with no pointer, or the watcher was in the record that it
points to. -/
theorem evUnwatch_effect (run : evUnwatch e w = .ok e') :
    ((e.watches w).pollData = none ∧ e' = e) ∨
      (∃ p r ev, e.records p = some r ∧ r.slot ev = some w) ∧
        RecordsOnly (e.putWatch w ⟨none, none⟩) e' := by
  unfold evUnwatch at run
  split at run
  · next pointer =>
      cases run
      exact .inl ⟨pointer, rfl⟩
  · next p pointer =>
      obtain ⟨r, found, run⟩ := bind_eq_ok.mp run
      have record := Pollers.of_get found
      split at run
      · next rd => exact .inr ⟨⟨p, r, .read, record, rd⟩, markDirty_recordsOnly run⟩
      split at run
      · next wr => exact .inr ⟨⟨p, r, .write, record, wr⟩, markDirty_recordsOnly run⟩
      · cases run

theorem evUnwatch_watches (run : evUnwatch e w = .ok e') :
    (e'.watches w).pollData = none ∧ ∀ u, u ≠ w → e'.watches u = e.watches u := by
  rcases evUnwatch_effect run with ⟨pointer, same⟩ | ⟨_, kept⟩
  · rw [same]
    exact ⟨pointer, fun _ _ => rfl⟩
  · rw [kept.watches]
    refine ⟨?_, fun u other => Function.update_of_ne other ..⟩
    show (Function.update e.watches w ⟨none, none⟩ w).pollData = none
    rw [Function.update_self]

section
omit [DecidableEq ρ] [DecidableEq ω]

theorem inPolls_eq_ok {α : Type} {x : Except PollFault α} {a : α} :
    inPolls x = .ok a ↔ x = .ok a := by
  cases x with
  | ok b => simp [inPolls]
  | error f => simp [inPolls]

variable {s s' : LoopState ρ ω τ φ} {out : LoopOutput ρ ω τ φ}

theorem withPolls_eq_ok {x : Except PollFault (Pollers ρ ω φ)}
    (stepped : (do
      let polls ← inPolls x
      return (s.withPolls polls, .done) : Except LoopFault _) = .ok (s', out)) :
    ∃ e', x = .ok e' ∧ s' = s.withPolls e' ∧ out = .done := by
  obtain ⟨e', run, rest⟩ := bind_eq_ok.mp stepped
  cases rest
  exact ⟨e', inPolls_eq_ok.mp run, rfl, rfl⟩

/-- Neither a timer nor `epoll_wait` is called. -/
def LoopOutput.Calm : LoopOutput ρ ω τ φ → Prop
  | .done | .watchCall .. | .returns _ => True
  | _ => False

theorem LoopOutput.Calm.ne_waits (calm : out.Calm) (timeout : Int) : out ≠ .waits timeout := by
  intro same
  rw [same] at calm
  exact calm

/-- A dispatch loop changes no data of the loop, and does not wait. -/
theorem dispatchFrom_effect {loop : Evloop ρ ω τ φ} {outer : List (LoopFrame ρ)}
    {todo : List (Event ρ × EvEvent)} (run : dispatchFrom loop outer todo = .ok (s', out)) :
    s'.loop = loop ∧ s'.waiting = none ∧ out.Calm := by
  unfold dispatchFrom at run
  obtain ⟨next, _, run⟩ := bind_eq_ok.mp run
  split at run
  · cases run
    exact ⟨rfl, rfl, trivial⟩
  · cases run
    exact ⟨rfl, rfl, trivial⟩

end

end CThread.Poll
