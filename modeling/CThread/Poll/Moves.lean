import CThread.Poll.Loop
import CThread.Poll.Lifetime
import CThread.Timers.Spec

/-!
What one step of the loop does to the descriptors. A step is one operation on the records, a
pass, a dispatch, or leaves the records alone.
-/
namespace CThread.Poll
open Faults Timers
variable {ρ ω τ φ : Type}

theorem mem_pending {s : LoopState ρ ω τ φ} {half : Event ρ × EvEvent}
    {rest : List (Event ρ × EvEvent)} {outer : List (LoopFrame ρ)}
    (frames : s.frames = .watch rest :: outer) (inside : half ∈ rest) : half ∈ s.pending := by
  rw [LoopState.pending, frames]
  exact List.mem_append_left _ inside

theorem mem_halves {evs : List (Event ρ)} {half : Event ρ × EvEvent}
    (inside : half ∈ halves evs) : half.1 ∈ evs := by
  obtain ⟨event, member, here⟩ := List.mem_flatMap.mp inside
  cases here with
  | head => exact member
  | tail _ here =>
      cases here with
      | head => exact member
      | tail _ absurd => cases absurd

/-- A call that the dispatch loop makes. -/
structure Ringing (e : Pollers ρ ω φ) (todo : List (Event ρ × EvEvent))
    (call : WatchCall ρ ω φ) : Prop where
  record : ∃ r, e.records call.event.ptr = some r ∧ r.slot call.ev = some call.watch
  fn : (e.watches call.watch).fn = some call.fn
  ready : call.event.events &&& call.ev.wakeup ≠ 0
  split : ∃ passed, todo = passed ++ (call.event, call.ev) :: call.rest

/-- A watcher in the slot of any live record is registered and has a callback. -/
theorem Lifetime.callback {e : Pollers ρ ω φ} {slot : Int → EvEvent → Option ω}
    {start : Option ρ} (life : Lifetime e slot start) (reg : Registered e slot) {p : ρ}
    {r : EvloopPoll ρ ω} (record : e.records p = some r) {ev : EvEvent} {w : ω}
    (taken : r.slot ev = some w) :
    e.table r.fd = some p ∧ slot r.fd ev = some w ∧ ∃ f, (e.watches w).fn = some f := by
  cases life.placed p r record with
  | inl inside =>
      have registered : slot r.fd ev = some w :=
        (life.slots r.fd p r ev inside record).symm.trans taken
      obtain ⟨_, f, _, content⟩ := reg.watch r.fd ev w registered
      exact ⟨inside, registered, f, by rw [content]⟩
  | inr out =>
      rw [out.2.2 ev] at taken
      cases taken

/-- The dispatch loop reaches its end, a registered watcher, or a freed record. -/
theorem dispatch_cases {e : Pollers ρ ω φ} {slot : Int → EvEvent → Option ω}
    {start : Option ρ} (life : Lifetime e slot start) (reg : Registered e slot)
    (todo : List (Event ρ × EvEvent)) :
    dispatch e todo = .ok none ∨
    (∃ call, dispatch e todo = .ok (some call) ∧ Ringing e todo call) ∨
    (dispatch e todo = .error .freed ∧ ∃ half ∈ todo, e.records half.1.ptr = none) := by
  induction todo with
  | nil => exact .inl rfl
  | cons half rest ih =>
      obtain ⟨event, ev⟩ := half
      have later : dispatch e ((event, ev) :: rest) = dispatch e rest →
          dispatch e ((event, ev) :: rest) = .ok none ∨
          (∃ call, dispatch e ((event, ev) :: rest) = .ok (some call) ∧
            Ringing e ((event, ev) :: rest) call) ∨
          (dispatch e ((event, ev) :: rest) = .error .freed ∧
            ∃ half ∈ (event, ev) :: rest, e.records half.1.ptr = none) := by
        intro skip
        rw [skip]
        refine ih.imp id (Or.imp ?_ ?_)
        · intro ⟨call, run, rings⟩
          obtain ⟨passed, split⟩ := rings.split
          exact ⟨call, run, rings.record, rings.fn, rings.ready, (event, ev) :: passed,
            by rw [split]; rfl⟩
        · intro ⟨run, half, inside, gone⟩
          exact ⟨run, half, .tail _ inside, gone⟩
      cases record : e.records event.ptr with
      | none =>
          refine .inr (.inr ⟨?_, _, .head _, record⟩)
          simp [dispatch, Pollers.get, record]
      | some r =>
          have get : e.get event.ptr = .ok r := Pollers.get_ok record
          cases taken : r.slot ev with
          | none => exact later (by simp [dispatch, get, taken])
          | some w =>
              by_cases ready : event.events &&& ev.wakeup = 0
              · exact later (by simp [dispatch, get, taken, ready])
              · obtain ⟨_, _, f, fn⟩ := life.callback reg record taken
                refine .inr (.inl ⟨⟨event, ev, w, f, rest⟩, ?_, ⟨r, record, taken⟩, fn,
                  ready, [], rfl⟩)
                simp only [dispatch, get, ok_bind, taken, if_neg ready, fn, pure_eq_ok]

/-- Where a dispatch loop has its halves from: a fresh batch, or one that a callback broke
off. -/
inductive Source (s : LoopState ρ ω τ φ) :
    LoopOp ρ ω τ φ → List (LoopFrame ρ) → List (Event ρ × EvEvent) → Prop
  | deliver {evs : List (Event ρ)} {now : BitVec 32} (waiting : s.waiting ≠ none) :
      Source s (.epollWait (.events evs now)) s.frames (halves evs)
  | resume {rest : List (Event ρ × EvEvent)} {outer : List (LoopFrame ρ)}
      (frames : s.frames = .watch rest :: outer) : Source s .callbackReturn outer rest

def LoopOp.IsQuiet : LoopOp ρ ω τ φ → Prop
  | .alarm .. | .stop _ | .evloopStep | .callbackReturn => True
  | .epollWait .interrupted | .epollWait .failed => True
  | _ => False

def LoopOutput.IsQuiet : LoopOutput ρ ω τ φ → Prop
  | .done | .timerCall .. | .returns _ => True
  | _ => False

variable [DecidableEq ρ] [DecidableEq ω] [DecidableEq τ]

/-- Where the result of a step comes from. -/
inductive LoopMove (s : LoopState ρ ω τ φ) :
    LoopOp ρ ω τ φ → Except LoopFault (LoopState ρ ω τ φ × LoopOutput ρ ω τ φ) → Prop
  | watch {w : ω} {fd : Int} {ev : EvEvent} {block : ρ} :
      LoopMove s (.watch w fd ev block) (do
        let polls ← inPolls (evWatch s.loop.polls w fd ev block)
        return (s.withPolls polls, .done))
  | unwatch {w : ω} :
      LoopMove s (.unwatch w) (do
        let polls ← inPolls (evUnwatch s.loop.polls w)
        return (s.withPolls polls, .done))
  | close {fd : Int} :
      LoopMove s (.close fd) (do
        let polls ← inPolls (evClose s.loop.polls fd)
        return (s.withPolls polls, .done))
  | setWatch {w : ω} {x : Evwatch ρ φ} :
      LoopMove s (.setWatch w x) (.ok (s.withPolls (s.loop.polls.putWatch w x), .done))
  | pass {timers : EvTimers τ φ} {timeout : Int} :
      LoopMove s .evloopStep (do
        let polls ← inPolls (flushDirty s.loop.polls)
        return (⟨⟨timers, polls⟩, s.frames, some timeout⟩, .waits timeout))
  | dispatched {op : LoopOp ρ ω τ φ} {loop : Evloop ρ ω τ φ} {outer : List (LoopFrame ρ)}
      {todo : List (Event ρ × EvEvent)} (source : Source s op outer todo)
      (polls : loop.polls = s.loop.polls) : LoopMove s op (dispatchFrom loop outer todo)
  | quiet {op : LoopOp ρ ω τ φ} {s' : LoopState ρ ω τ φ} {out : LoopOutput ρ ω τ φ}
      (polls : s'.loop.polls = s.loop.polls) (pending : s'.pending = s.pending)
      (waiting : s'.waiting ≠ none → s.waiting ≠ none)
      (calls : op.IsQuiet) (answers : out.IsQuiet) :
      LoopMove s op (.ok (s', out))
  | stop {op : LoopOp ρ ω τ φ} {f : LoopFault} (other : ∀ g, f ≠ .poll g) :
      LoopMove s op (.error f)

theorem loopStep_move (s : LoopState ρ ω τ φ) (op : LoopOp ρ ω τ φ) :
    LoopMove s op (loopStep s op) := by
  have stop : ∀ {op : LoopOp ρ ω τ φ}, LoopMove s op (.error .control) :=
    .stop fun g same => by cases same
  have timer : ∀ {op : LoopOp ρ ω τ φ} {f : TimerFault}, LoopMove s op (.error (.timer f)) :=
    .stop fun g same => by cases same
  unfold loopStep
  cases waiting : s.waiting with
  | some t =>
      cases op with
      | epollWait result =>
          cases result with
          | interrupted => exact .quiet rfl rfl id trivial trivial
          | failed => exact .quiet rfl rfl (fun absurd => (absurd rfl).elim) trivial trivial
          | events evs now => exact .dispatched (.deliver (by simp [waiting])) rfl
      | _ => exact stop
  | none =>
      cases op with
      | watch w fd ev block => exact .watch
      | unwatch w => exact .unwatch
      | close fd => exact .close
      | setWatch w x => exact .setWatch
      | alarm t wakeup fn =>
          simp only [userStep]
          cases evAlarm s.loop.timers t wakeup fn with
          | error f => exact timer
          | ok timers => exact .quiet rfl rfl id trivial trivial
      | stop t =>
          simp only [userStep]
          cases evStop s.loop.timers t with
          | error f => exact timer
          | ok timers => exact .quiet rfl rfl id trivial trivial
      | evloopStep =>
          simp only [userStep]
          cases evStepTimers s.loop.timers with
          | error f => exact timer
          | ok outcome =>
              obtain ⟨timers, outcome⟩ := outcome
              cases outcome with
              | calls t fn =>
                  exact .quiet rfl rfl (fun absurd => (absurd rfl).elim) trivial trivial
              | returns timeout =>
                  simp only [inTimers, ok_bind, afterTimers]
                  split
                  · exact .quiet rfl rfl (fun absurd => (absurd rfl).elim) trivial trivial
                  · exact .pass
      | callbackReturn =>
          simp only [userStep]
          cases frames : s.frames with
          | nil => exact stop
          | cons frame outer =>
              have popped : frame.pending = [] →
                  outer.flatMap LoopFrame.pending = s.pending := by
                intro empty
                rw [LoopState.pending, frames, List.flatMap_cons, empty, List.nil_append]
              cases frame with
              | watch rest => exact .dispatched (.resume frames) rfl
              | timer =>
                  cases resumed : evStepTimersResume s.loop.timers with
                  | error f => exact timer
                  | ok outcome =>
                      obtain ⟨timers, outcome⟩ := outcome
                      cases outcome with
                      | calls t fn =>
                          exact .quiet rfl (popped rfl) (fun absurd => (absurd rfl).elim)
                            trivial trivial
                      | returns timeout =>
                          simp only [inTimers, ok_bind, afterTimers,
                            (evStepTimersResume_returns resumed).2, if_true]
                          exact .quiet rfl (popped rfl) (fun absurd => (absurd rfl).elim)
                            trivial trivial
      | epollWait result => exact stop

end CThread.Poll
