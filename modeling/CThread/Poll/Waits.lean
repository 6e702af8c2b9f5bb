import CThread.Poll.Effects
import CThread.Timers.Lateness

/-!
How long `evloop_step` asks the kernel to wait.

The timeout is computed once, from the clock that was read last, and `epoll_wait` is called
again with the same one each time a signal has interrupted it. Time passes in `epoll_wait`
only, so the timeout is right in the first call, and too long by what has passed in each
later one.
-/
namespace CThread.Poll
open SerialOrder Faults Heap GuardedRuns Timers
variable {ρ ω τ φ : Type}

/-- What the run meant, with the true time next to the one that was read last. While
`epoll_wait` is called the log has its timeout. -/
structure WaitLog (τ : Type) extends DelayLog τ where
  clock : Int

/-- A step and the time that `epoll_wait` takes in it. -/
abbrev WaitInput (ρ ω τ φ : Type) := Nat × LoopOp ρ ω τ φ

namespace WaitLog

/-- The time that a wake-up word stands for. -/
def deadline (q : WaitLog τ) (wakeup : BitVec 32) : Int :=
  q.now + signedDiff wakeup (BitVec.ofInt 32 q.now)

/-- A call of `epoll_wait` lets no deadline pass. -/
structure CallOk (q : WaitLog τ) (clock timeout : Int) : Prop where
  endless : timeout = -1 → ∀ t, q.due t = none
  inTime : ∀ t D, q.due t = some D →
    (0 ≤ timeout ∧ clock + timeout ≤ D) ∨ (D ≤ clock ∧ timeout = 0)

/-- Each call of `epoll_wait` is the first one of its `evloop_step`, or follows one that was
interrupted. -/
def Legal (q : WaitLog τ) : WaitInput ρ ω τ φ → LoopOutput ρ ω τ φ → Prop
  | _, .waits timeout => q.CallOk q.clock timeout
  | (gap, .epollWait .interrupted), _ =>
      ∀ timeout, q.waiting = some timeout → q.CallOk (q.clock + gap) timeout
  | _, _ => True

/-- When `evloop_step` is called the word of the earliest deadline, where that has passed, does
not look as if it were ahead. No time passes before an interruption unless nothing is
armed. -/
def Meets (q : WaitLog τ) : WaitInput ρ ω τ φ → Prop
  | (_, .evloopStep) => ∀ t D, q.due t = some D → (∀ u E, q.due u = some E → D ≤ E) →
      D ≤ q.now → signedDiff (BitVec.ofInt 32 D) (BitVec.ofInt 32 q.now) ≤ 0
  | (gap, .epollWait .interrupted) => gap = 0 ∨ ∀ t, q.due t = none
  | _ => True

def next [DecidableEq τ] (q : WaitLog τ) : WaitInput ρ ω τ φ → LoopOutput ρ ω τ φ → WaitLog τ
  | (_, .alarm t wakeup _), _ => { q with toDelayLog := q.plan t (q.deadline wakeup) }
  | (_, .stop t), _ => { q with toDelayLog := q.fire t }
  | (gap, .epollWait .interrupted), _ => { q with clock := q.clock + gap }
  | (gap, .epollWait .failed), _ => { q with clock := q.clock + gap, waiting := none }
  | (gap, .epollWait (.events _ _)), _ =>
      { q with clock := q.clock + gap, now := q.clock + gap, waiting := none }
  | _, .timerCall t _ => { q with toDelayLog := q.fire t }
  | _, .waits timeout => { q with waiting := some timeout }
  | _, _ => q

def init (now : Int) : WaitLog τ := ⟨.init now, now⟩

end WaitLog

variable [DecidableEq ρ] [DecidableEq ω] [DecidableEq τ]

def waitLog (now : Int) (tr : Trace (WaitInput ρ ω τ φ) (LoopOutput ρ ω τ φ)) : WaitLog τ :=
  monitor WaitLog.next (.init now) tr

def waitMachine :
    Machine (LoopState ρ ω τ φ) (WaitInput ρ ω τ φ) (LoopOutput ρ ω τ φ) LoopFault :=
  ⟨fun s input => loopStep s input.2⟩

/-- Armed deadlines stay within the half range, timers are stopped that are armed or that
`ev_stop` does not touch, `evloop_step` is called when the clock is what was read last, and
after `epoll_wait` the clock is read. -/
def WaitLog.Admits (q : WaitLog τ) (s : LoopState ρ ω τ φ) : WaitInput ρ ω τ φ → Prop
  | (_, .alarm t wakeup _) => q.due t = none ∧ (q.plan t (q.deadline wakeup)).Within
  | (_, .stop t) => q.due t ≠ none ∨ s.loop.timers.timers.index t = heapInvalid
  | (_, .evloopStep) => q.clock = q.now
  | (gap, .epollWait (.events _ word)) => word = BitVec.ofInt 32 (q.clock + gap)
  | _ => True

def WaitAdmits (now : Int) :
    Guard (LoopState ρ ω τ φ) (WaitInput ρ ω τ φ) (LoopOutput ρ ω τ φ) :=
  fun tr s input => (waitLog now tr).Admits s input

def LoopOp.OnPolls : LoopOp ρ ω τ φ → Prop
  | .watch .. | .unwatch _ | .close _ | .setWatch .. | .callbackReturn => True
  | _ => False

/-- What a step does to the timers and to the call of `epoll_wait`. -/
inductive TimersMove (s s' : LoopState ρ ω τ φ) : LoopOp ρ ω τ φ → LoopOutput ρ ω τ φ → Prop
  | alarm {t : τ} {wakeup : BitVec 32} {fn : φ} (idle : s.waiting = none)
      (run : evAlarm s.loop.timers t wakeup fn = .ok s'.loop.timers) (still : s'.waiting = none) :
      TimersMove s s' (.alarm t wakeup fn) .done
  | stop {t : τ} (idle : s.waiting = none) (run : evStop s.loop.timers t = .ok s'.loop.timers)
      (still : s'.waiting = none) : TimersMove s s' (.stop t) .done
  | calls {t : τ} {fn : φ} (idle : s.waiting = none)
      (run : evStepTimers s.loop.timers = .ok (s'.loop.timers, .calls t fn))
      (still : s'.waiting = none) : TimersMove s s' .evloopStep (.timerCall t fn)
  | waits {timeout : Int}
      (run : evStepTimers s.loop.timers = .ok (s'.loop.timers, .returns timeout))
      (starts : s'.waiting = some timeout) : TimersMove s s' .evloopStep (.waits timeout)
  | callsNext {t : τ} {fn : φ} (idle : s.waiting = none)
      (run : evStepTimersResume s.loop.timers = .ok (s'.loop.timers, .calls t fn))
      (still : s'.waiting = none) : TimersMove s s' .callbackReturn (.timerCall t fn)
  | interrupted {timeout : Int} (waiting : s.waiting = some timeout) (same : s' = s) :
      TimersMove s s' (.epollWait .interrupted) .done
  | failed (timers : s'.loop.timers = s.loop.timers) (still : s'.waiting = none) :
      TimersMove s s' (.epollWait .failed) (.returns (-1))
  | events {evs : List (Event ρ)} {word : BitVec 32} {out : LoopOutput ρ ω τ φ}
      (timers : s'.loop.timers = { s.loop.timers with now := word }) (still : s'.waiting = none)
      (calm : out.Calm) : TimersMove s s' (.epollWait (.events evs word)) out
  | same {op : LoopOp ρ ω τ φ} {out : LoopOutput ρ ω τ φ} (idle : s.waiting = none)
      (polls : op.OnPolls) (timers : s'.loop.timers = s.loop.timers) (still : s'.waiting = none)
      (calm : out.Calm) : TimersMove s s' op out

section Moves
variable {s s' : LoopState ρ ω τ φ} {out : LoopOutput ρ ω τ φ}

theorem inTimers_eq_ok {α : Type} {x : Except TimerFault α} {a : α} :
    inTimers x = .ok a ↔ x = .ok a := by
  cases x with
  | ok b => simp [inTimers]
  | error f => simp [inTimers]

omit [DecidableEq ρ] [DecidableEq ω] in
/-- A call that leaves the timers alone. -/
theorem withPolls_timers {x : Except PollFault (Pollers ρ ω φ)} {op : LoopOp ρ ω τ φ}
    (idle : s.waiting = none) (polls : op.OnPolls) (stepped : (do
      let polls ← inPolls x
      return (s.withPolls polls, .done) : Except LoopFault _) = .ok (s', out)) :
    TimersMove s s' op out := by
  obtain ⟨e', _, rfl, rfl⟩ := withPolls_eq_ok stepped
  exact .same idle polls rfl idle trivial

/-- Every step that does not fault is one of the moves. -/
theorem loopStep_timers {op : LoopOp ρ ω τ φ} (stepped : loopStep s op = .ok (s', out)) :
    TimersMove s s' op out := by
  unfold loopStep at stepped
  cases waiting : s.waiting with
  | some t =>
      rw [waiting] at stepped
      cases op with
      | epollWait result =>
          cases result with
          | interrupted =>
              cases stepped
              exact .interrupted waiting rfl
          | failed =>
              cases stepped
              exact .failed rfl rfl
          | events evs word =>
              obtain ⟨loop, idle, calm⟩ := dispatchFrom_effect stepped
              exact .events (congrArg Evloop.timers loop) idle calm
      | _ => cases stepped
  | none =>
      rw [waiting] at stepped
      cases op with
      | watch w fd ev block => exact withPolls_timers waiting trivial stepped
      | unwatch w => exact withPolls_timers waiting trivial stepped
      | close fd => exact withPolls_timers waiting trivial stepped
      | setWatch w x =>
          cases stepped
          exact .same waiting trivial rfl waiting trivial
      | alarm t wakeup fn =>
          obtain ⟨timers, run, rest⟩ := bind_eq_ok.mp stepped
          cases rest
          exact .alarm waiting (inTimers_eq_ok.mp run) waiting
      | stop t =>
          obtain ⟨timers, run, rest⟩ := bind_eq_ok.mp stepped
          cases rest
          exact .stop waiting (inTimers_eq_ok.mp run) waiting
      | evloopStep =>
          obtain ⟨⟨timers, outcome⟩, run, rest⟩ := bind_eq_ok.mp stepped
          have run := inTimers_eq_ok.mp run
          cases outcome with
          | calls t fn =>
              cases rest
              exact .calls waiting run rfl
          | returns timeout =>
              simp only [afterTimers, if_neg (evStepTimers_returns run)] at rest
              obtain ⟨polls, _, rest⟩ := bind_eq_ok.mp rest
              cases rest
              exact .waits run rfl
      | callbackReturn =>
          simp only [userStep] at stepped
          split at stepped
          · cases stepped
          · next outer frames =>
              obtain ⟨⟨timers, outcome⟩, run, rest⟩ := bind_eq_ok.mp stepped
              have run := inTimers_eq_ok.mp run
              cases outcome with
              | calls t fn =>
                  cases rest
                  exact .callsNext waiting run rfl
              | returns timeout =>
                  obtain ⟨same, zero⟩ := evStepTimersResume_returns run
                  rw [zero] at rest
                  cases rest
                  exact .same waiting trivial same rfl trivial
          · obtain ⟨loop, idle, calm⟩ := dispatchFrom_effect stepped
            exact .same waiting trivial (congrArg Evloop.timers loop) idle calm
      | epollWait result => cases stepped

end Moves

/-- A timeout that ends with the earliest deadline, no time having passed since it was
computed. -/
def WaitLog.Awaits (q : WaitLog τ) (timeout : Int) : Prop :=
  q.clock = q.now ∧ 0 < timeout ∧ ∃ t, q.due t = some (q.now + timeout) ∧
    ∀ u E, q.due u = some E → q.now + timeout ≤ E

/-- What a run keeps. While `epoll_wait` is called no time has passed since the timeout was
computed, unless nothing is armed. -/
structure Keeping (s : LoopState ρ ω τ φ) (q : WaitLog τ) : Prop where
  pairs : Pairs s.loop.timers q.toDelayLog
  order : HeapOrdered s.loop.timers.timers
  within : q.Within
  waiting : s.waiting = q.waiting
  later : q.now ≤ q.clock
  call : ∀ r, q.waiting = some r → (∀ t, q.due t = none) ∨ q.Awaits r

namespace Keeping
omit [DecidableEq ρ] [DecidableEq ω]
variable {s s' : LoopState ρ ω τ φ} {q : WaitLog τ}

omit [DecidableEq τ] in
/-- The state after a step that ends outside of `epoll_wait`. -/
theorem idle {timers : EvTimers τ φ} {p : WaitLog τ} (pairs : Pairs timers p.toDelayLog)
    (order : HeapOrdered timers.timers) (within : p.Within) (later : p.now ≤ p.clock)
    (same : s'.loop.timers = timers) (still : s'.waiting = none) (none : p.waiting = none) :
    Keeping s' p := by
  subst same
  refine ⟨pairs, order, within, still.trans none.symm, later, fun r calling => ?_⟩
  rw [none] at calling
  cases calling

omit [DecidableEq τ] in
theorem idle_log (keeping : Keeping s q) (idle : s.waiting = none) : q.waiting = none :=
  keeping.waiting.symm.trans idle

theorem alarm (keeping : Keeping s q) {t : τ} {wakeup : BitVec 32} {fn : φ}
    (unarmed : q.due t = none) (within : (q.plan t (q.deadline wakeup)).Within)
    (idle : s.waiting = none) (run : evAlarm s.loop.timers t wakeup fn = .ok s'.loop.timers)
    (still : s'.waiting = none) :
    Keeping s' { q with toDelayLog := q.plan t (q.deadline wakeup) } := by
  have near : q.deadline wakeup ≤ q.now + (2 ^ 31 - 1) := by
    have less := signedDiff_lt wakeup (BitVec.ofInt 32 q.now)
    unfold WaitLog.deadline
    omega
  obtain ⟨timers, run', pairs, order⟩ :=
    keeping.pairs.plan unarmed (ofInt_add_signedDiff wakeup q.now).symm near fn
  cases run.symm.trans run'
  exact .idle pairs (order within.windowed keeping.order) within keeping.later rfl still
    (keeping.idle_log idle)

/-- `ev_stop` takes an armed timer out, and does nothing for one that it marked before. -/
theorem stop (keeping : Keeping s q) {t : τ}
    (admitted : q.due t ≠ none ∨ s.loop.timers.timers.index t = heapInvalid)
    (idle : s.waiting = none) (run : evStop s.loop.timers t = .ok s'.loop.timers)
    (still : s'.waiting = none) : Keeping s' { q with toDelayLog := q.fire t } := by
  have none := keeping.idle_log idle
  have within := keeping.within.fire t
  cases armed : q.words t with
  | some x =>
      obtain ⟨timers, run', hold, order, now, _⟩ :=
        evStop_armed keeping.pairs.hold keeping.within.windowed keeping.order armed
      cases run.symm.trans run'
      exact .idle (keeping.pairs.drop hold now) order within keeping.later rfl still none
  | none =>
      have unarmed := q.unarmed armed
      have invalid := admitted.resolve_left (absurd unarmed)
      have timers := Except.ok.inj (run.symm.trans (evStop_invalid invalid))
      have same : q.fire t = q.toDelayLog := by
        unfold DelayLog.fire
        rw [← unarmed, Function.update_eq_self]
      rw [same]
      exact .idle keeping.pairs keeping.order keeping.within keeping.later timers still none

theorem fires (keeping : Keeping s q) {t : τ} (fired : Fired q.words t s.loop.timers s'.loop.timers)
    (idle : s.waiting = none) (still : s'.waiting = none) :
    Keeping s' { q with toDelayLog := q.fire t } :=
  .idle (keeping.pairs.fire fired) (fired.order keeping.within.windowed keeping.order)
    (keeping.within.fire t) keeping.later rfl still (keeping.idle_log idle)

omit [DecidableEq τ] in
/-- The state in which `epoll_wait` is called first. -/
theorem calling (keeping : Keeping s q) {timeout : Int}
    (timers : s'.loop.timers = s.loop.timers) (starts : s'.waiting = some timeout)
    (call : (∀ t, q.due t = none) ∨ q.Awaits timeout) :
    Keeping s' { q with waiting := some timeout } := by
  refine ⟨?_, ?_, keeping.within, starts, keeping.later, fun r calling => ?_⟩
  · rw [timers]
    exact keeping.pairs.wait _
  · rw [timers]
    exact keeping.order
  · cases calling
    exact call

/-- The call that comes first is right unless the earliest deadline only looks as if it were
ahead. -/
theorem waits (keeping : Keeping s q) (entry : q.clock = q.now) {timeout : Int} {gap : Nat}
    (run : evStepTimers s.loop.timers = .ok (s'.loop.timers, .returns timeout))
    (starts : s'.waiting = some timeout) :
    (q.CallOk q.clock timeout ↔ q.Meets (gap, (.evloopStep : LoopOp ρ ω τ φ))) ∧
      (q.Meets (gap, (.evloopStep : LoopOp ρ ω τ φ)) →
        Keeping s' { q with waiting := some timeout }) := by
  rcases evStepTimers_ok keeping.pairs.hold with ⟨empty, run'⟩ | ⟨t, x, head, ahead, run'⟩ |
    ⟨t, x, f, e', head, due, run', _⟩
  · have unarmed : ∀ t, q.due t = none := fun t => q.unarmed (empty t)
    have timers := congrArg Prod.fst (Except.ok.inj (run.symm.trans run'))
    refine ⟨iff_of_true ⟨fun _ => unarmed, ?_⟩ ?_,
      fun _ => keeping.calling timers starts (.inl unarmed)⟩
    all_goals
      intro t D due
      rw [unarmed t] at due
      cases due
  · have same := Except.ok.inj (run.symm.trans run')
    have value := TimerOutcome.returns.inj (congrArg Prod.snd same)
    obtain ⟨D, due, word, near, earliest⟩ := keeping.within.first keeping.pairs keeping.order head
    rw [keeping.pairs.now, word] at value ahead
    -- The word of the earliest deadline looks ahead, so the condition says that it is ahead.
    have meets_iff : q.Meets (gap, (.evloopStep : LoopOp ρ ω τ φ)) ↔ q.now < D := by
      refine ⟨fun meets => ?_, fun before u E due' least passed => ?_⟩
      · by_contra passed
        have looks := meets t D due earliest (by omega)
        omega
      · have := earliest u E due'
        omega
    have exact : q.now < D → timeout = D - q.now := by
      intro before
      rw [value]
      apply signedDiff_ofInt rfl rfl <;> omega
    rw [meets_iff]
    refine ⟨⟨fun ok => ?_, fun before => ?_⟩, fun before => ?_⟩
    · rcases ok.inTime t D due with ⟨_, inside⟩ | ⟨_, zero⟩ <;> omega
    · have timeout_eq := exact before
      refine ⟨fun endless => by omega, fun u E due' => .inl ?_⟩
      have := earliest u E due'
      omega
    · have timeout_eq := exact before
      have deadline : q.now + timeout = D := by omega
      refine keeping.calling (congrArg Prod.fst same) starts
        (.inr ⟨entry, by omega, t, ?_, ?_⟩)
      · rw [deadline]
        exact due
      · rw [deadline]
        exact earliest
  · cases run.symm.trans run'

omit [DecidableEq τ] in
/-- A repeated call is right when no time has passed, or nothing is armed. -/
theorem interrupted (keeping : Keeping s q) {timeout : Int} (waiting : s.waiting = some timeout)
    (gap : Nat) :
    (q.CallOk (q.clock + gap) timeout ↔ gap = 0 ∨ ∀ t, q.due t = none) ∧
      ((gap = 0 ∨ ∀ t, q.due t = none) → Keeping s { q with clock := q.clock + gap }) := by
  have later : q.now ≤ q.clock + gap := by
    have := keeping.later
    omega
  have call := keeping.call timeout (keeping.waiting.symm.trans waiting)
  refine ⟨⟨fun ok => ?_, fun meets => ?_⟩, fun meets => ?_⟩
  · refine call.symm.imp_left fun ⟨_, positive, t, due, _⟩ => ?_
    rcases ok.inTime t _ due with ⟨_, inside⟩ | ⟨_, zero⟩ <;> omega
  · rcases call with unarmed | ⟨entry, positive, t, due, earliest⟩
    · refine ⟨fun _ => unarmed, fun t D due => ?_⟩
      rw [unarmed t] at due
      cases due
    · have still : gap = 0 := by
        refine meets.resolve_right fun unarmed => ?_
        rw [unarmed t] at due
        cases due
      refine ⟨fun endless => by omega, fun u E due' => .inl ?_⟩
      have := earliest u E due'
      omega
  · refine ⟨keeping.pairs, keeping.order, keeping.within, keeping.waiting, later, ?_⟩
    intro r calling
    rcases meets with still | unarmed
    · subst still
      have same : q.clock + (0 : Nat) = q.clock := by omega
      rw [same]
      exact keeping.call r calling
    · exact .inl unarmed

end Keeping

section Step
variable {s s' : LoopState ρ ω τ φ} {q : WaitLog τ} {gap : Nat} {op : LoopOp ρ ω τ φ}
  {out : LoopOutput ρ ω τ φ}

omit [DecidableEq ρ] [DecidableEq ω] in
theorem WaitLog.next_same (q : WaitLog τ) (gap : Nat) (polls : op.OnPolls) (calm : out.Calm) :
    q.next (gap, op) out = q ∧ q.Legal (gap, op) out ∧ q.Meets (gap, op) := by
  cases op with
  | watch | unwatch | close | setWatch | callbackReturn =>
      cases out with
      | done | watchCall | returns => exact ⟨rfl, trivial, trivial⟩
      | timerCall | waits => exact calm.elim
  | alarm | stop | evloopStep | epollWait => exact polls.elim

omit [DecidableEq ρ] [DecidableEq ω] [DecidableEq τ] in
/-- The earliest deadline has passed, and its word says so. -/
theorem Keeping.meets_due (keeping : Keeping s q) {t : τ} {x : BitVec 32}
    (head : Head s.loop.timers q.words t x) (due : signedDiff x s.loop.timers.now ≤ 0) :
    q.Meets (gap, (.evloopStep : LoopOp ρ ω τ φ)) := by
  obtain ⟨D, armed, word, _, earliest⟩ := keeping.within.first keeping.pairs keeping.order head
  intro u E armed' least _
  have same : E = D := Int.le_antisymm (least t D armed) (earliest u E armed')
  rw [same, ← word, ← keeping.pairs.now]
  exact due

/-- A call of `epoll_wait` is right exactly when the step meets the condition, and then the
run goes on as before. -/
theorem Keeping.step (keeping : Keeping s q) (admitted : q.Admits s (gap, op))
    (stepped : loopStep s op = .ok (s', out)) :
    (q.Legal (gap, op) out ↔ q.Meets (gap, op)) ∧
      (q.Meets (gap, op) → Keeping s' (q.next (gap, op) out)) := by
  cases loopStep_timers stepped with
  | alarm idle run still =>
      exact ⟨iff_of_true trivial trivial,
        fun _ => keeping.alarm admitted.1 admitted.2 idle run still⟩
  | stop idle run still =>
      exact ⟨iff_of_true trivial trivial, fun _ => keeping.stop admitted idle run still⟩
  | calls idle run still =>
      obtain ⟨x, head, due, fired⟩ := evStepTimers_calls keeping.pairs.hold run
      exact ⟨iff_of_true trivial (keeping.meets_due head due),
        fun _ => keeping.fires fired idle still⟩
  | waits run starts => exact keeping.waits admitted run starts
  | callsNext idle run still =>
      have fired := evStepTimersResume_calls keeping.pairs.hold run
      exact ⟨iff_of_true trivial trivial, fun _ => keeping.fires fired idle still⟩
  | interrupted waiting same =>
      subst same
      obtain ⟨right, next⟩ := keeping.interrupted waiting gap
      refine ⟨⟨fun legal => right.mp (legal _ (keeping.waiting.symm.trans waiting)),
        fun meets timeout calling => ?_⟩, next⟩
      cases calling.symm.trans (keeping.waiting.symm.trans waiting)
      exact right.mpr meets
  | failed timers still =>
      have later := keeping.later
      exact ⟨iff_of_true trivial trivial, fun _ => .idle (keeping.pairs.wait none) keeping.order
        keeping.within (show q.now ≤ q.clock + gap by omega) timers still rfl⟩
  | events timers still calm =>
      have word : _ = BitVec.ofInt 32 (q.clock + gap) := admitted
      have later := keeping.later
      subst word
      refine ⟨iff_of_true ?_ trivial, fun _ => .idle
        (keeping.pairs.tick (show q.now ≤ q.clock + gap by omega) none) keeping.order
        keeping.within (Int.le_refl _) timers still rfl⟩
      cases out with
      | done | watchCall | returns => trivial
      | timerCall | waits => exact calm.elim
  | same idle polls timers still calm =>
      obtain ⟨next, legal, meets⟩ := q.next_same gap polls calm
      rw [next]
      exact ⟨iff_of_true legal meets, fun _ => .idle keeping.pairs keeping.order keeping.within
        keeping.later timers still (keeping.idle_log idle)⟩

end Step

section Runs
variable {garbage : Nat → BitVec 32} {index : τ → Nat} {fn : τ → Option φ}
  {watches : ω → Evwatch ρ φ}

/-- `evloop_init`. -/
def LoopState.fresh (now : Int) (garbage : Nat → BitVec 32) (index : τ → Nat) (fn : τ → Option φ)
    (watches : ω → Evwatch ρ φ) : LoopState ρ ω τ φ :=
  .init (TimerState.init garbage index fn (BitVec.ofInt 32 now)).loop watches

omit [DecidableEq ρ] [DecidableEq ω] [DecidableEq τ] in
theorem fresh_keeping (now : Int) :
    Keeping (LoopState.fresh now garbage index fn watches) (.init now) where
  pairs := init_pairs garbage index fn now
  order := init_ordered garbage index fn (BitVec.ofInt 32 now)
  within t u D E due := by cases due
  waiting := rfl
  later := Int.le_refl now
  call r calling := by cases calling

/-- All the steps of a run meet their conditions. -/
def Meeting (now : Int) (tr : Trace (WaitInput ρ ω τ φ) (LoopOutput ρ ω τ φ)) : Prop :=
  Lawful WaitLog.next (.init now) (fun q input _ => q.Meets input) tr

/-- In a run every call of `epoll_wait` is given a time that ends no later than the earliest
deadline, and an endless one only when nothing is armed, exactly when every step meets its
condition: no time has passed before an interruption while a timer was armed, and no
deadline looked as if it were ahead when it had passed. -/
theorem evloopRun_waits_iff {now : Int} {tr : Trace (WaitInput ρ ω τ φ) (LoopOutput ρ ω τ φ)}
    {s : LoopState ρ ω τ φ} (run : Run waitMachine (WaitAdmits now)
      (LoopState.fresh now garbage index fn watches) tr s) :
    Lawful WaitLog.next (.init now) WaitLog.Legal tr ↔ Meeting now tr := by
  have whole : (Lawful WaitLog.next (.init now) WaitLog.Legal tr ↔ Meeting now tr) ∧
      (Meeting now tr → Keeping s (waitLog now tr)) := by
    refine run.invariant (P := fun tr s =>
      (Lawful WaitLog.next (.init now) WaitLog.Legal tr ↔ Meeting now tr) ∧
        (Meeting now tr → Keeping s (waitLog now tr)))
      ⟨iff_of_true trivial trivial, fun _ => fresh_keeping now⟩ ?_
    intro tr s input s' out ⟨same, keeps⟩ admitted stepped
    obtain ⟨gap, op⟩ := input
    refine ⟨⟨fun ⟨before, legal⟩ => ?_, fun ⟨before, meets⟩ => ?_⟩, fun ⟨before, meets⟩ => ?_⟩
    · have before := same.mp before
      exact ⟨before, ((keeps before).step admitted stepped).1.mp legal⟩
    · exact ⟨same.mpr before, ((keeps before).step admitted stepped).1.mpr meets⟩
    · exact ((keeps before).step admitted stepped).2 meets
  exact whole.1

end Runs

/-- Timer 0 is armed for 10 ms, and `epoll_wait` is called for that long. -/
def waitingTrace : Trace (WaitInput Nat Nat Nat Unit) (LoopOutput Nat Nat Nat Unit) :=
  [((0, .evloopStep), .waits 10), ((0, .alarm 0 10 ()), .done)]

def freshLoop : LoopState Nat Nat Nat Unit :=
  .fresh 0 (fun _ => 0) (fun _ => 0) (fun _ => none) fun _ => ⟨none, none⟩

def waitingLoop : LoopState Nat Nat Nat Unit :=
  waitMachine.afterAll freshLoop (waitingTrace.reverse.map Prod.fst)

theorem waiting_due {t : Nat} {D : Int} (due : (waitLog 0 waitingTrace).due t = some D) :
    t = 0 ∧ D = 10 := by
  have due : Function.update (fun _ : Nat => (none : Option Int)) 0 (some 10) t = some D := due
  by_cases zero : t = 0
  · subst zero
    cases due
    exact ⟨rfl, rfl⟩
  · rw [Function.update_of_ne zero] at due
    cases due

theorem waiting_run : Run waitMachine (WaitAdmits 0) freshLoop waitingTrace waitingLoop := by
  refine .snoc (.snoc .nil ⟨rfl, ?_⟩ (Machine.step_eq rfl)) rfl (Machine.step_eq rfl)
  intro t u D E first second
  have first := (waiting_due first).2
  have second := (waiting_due second).2
  omega

/-- A signal comes at once. -/
theorem evloopRun_waits_iff_waiting :
    (waitLog 0 waitingTrace).CallOk ((waitLog 0 waitingTrace).clock + (0 : Nat)) 10 := by
  have run : Run waitMachine (WaitAdmits 0) freshLoop
      (((0, .epollWait .interrupted), .done) :: waitingTrace) waitingLoop :=
    .snoc waiting_run trivial (Machine.step_eq rfl)
  refine ((evloopRun_waits_iff run).mpr ⟨⟨⟨trivial, trivial⟩, ?_⟩, .inl rfl⟩).2 10 rfl
  intro t D due _ passed
  have value := (waiting_due due).2
  have passed : D ≤ 0 := passed
  omega

/-- A signal comes after 5 ms, and `epoll_wait` is called for 10 ms again. -/
theorem evloopRun_waits_too_long :
    Run waitMachine (WaitAdmits 0) freshLoop
        (((5, .epollWait .interrupted), .done) :: waitingTrace) waitingLoop ∧
      ¬ Lawful WaitLog.next (.init 0) WaitLog.Legal
        (((5, .epollWait .interrupted), .done) :: waitingTrace) := by
  refine ⟨.snoc waiting_run trivial (Machine.step_eq rfl), fun lawful => ?_⟩
  rcases (lawful.2 10 rfl).inTime 0 10 rfl with ⟨_, inside⟩ | ⟨passed, _⟩
  · exact absurd inside (by decide)
  · exact absurd passed (by decide)

end CThread.Poll
