import CThread.Poll.Model
import CThread.Timers.Model

/-!
`evloop_step`, composed of the timers and the descriptors, as the thread that owns the loop
runs it.

The step leaves the C code where it calls back or waits: in a timer callback, in
`epoll_wait`, or in a watcher callback with the rest of the batch before it. A callback may
call `evloop_step` again, so the calls in progress form a stack. Each event of a batch is
two halves, the read half first. An event names the descriptor the kernel reports; the code
never looks at it.
-/
namespace CThread.Poll
open Faults GuardedRuns Timers

structure Evloop (ρ ω τ φ : Type) where
  timers : EvTimers τ φ
  polls : Pollers ρ ω φ

structure Event (ρ : Type) where
  fd : Int
  ptr : ρ
  events : Flags
  deriving DecidableEq, Repr

inductive LoopFault
  | timer (f : TimerFault)
  | poll (f : PollFault)
  | control
  deriving DecidableEq, Repr

/-- A call of `evloop_step` that is in a callback: in the timers, or in the dispatch loop
with the halves that are left. -/
inductive LoopFrame (ρ : Type)
  | timer
  | watch (rest : List (Event ρ × EvEvent))

/-- The callbacks in progress, innermost first. With `waiting` the innermost `evloop_step`
is in `epoll_wait`. -/
structure LoopState (ρ ω τ φ : Type) where
  loop : Evloop ρ ω τ φ
  frames : List (LoopFrame ρ)
  waiting : Option Int

def LoopFrame.pending {ρ : Type} : LoopFrame ρ → List (Event ρ × EvEvent)
  | .timer => []
  | .watch rest => rest

/-- The halves that the dispatch loops in progress have still to look at. -/
def LoopState.pending {ρ ω τ φ : Type} (s : LoopState ρ ω τ φ) : List (Event ρ × EvEvent) :=
  s.frames.flatMap LoopFrame.pending

inductive WaitResult (ρ : Type)
  | interrupted
  | failed
  | events (evs : List (Event ρ)) (now : BitVec 32)

inductive LoopOp (ρ ω τ φ : Type)
  | watch (w : ω) (fd : Int) (ev : EvEvent) (block : ρ)
  | unwatch (w : ω)
  | close (fd : Int)
  | setWatch (w : ω) (x : Evwatch ρ φ)
  | alarm (t : τ) (wakeup : BitVec 32) (fn : φ)
  | stop (t : τ)
  | evloopStep
  | epollWait (result : WaitResult ρ)
  | callbackReturn

inductive LoopOutput (ρ ω τ φ : Type)
  | done
  | timerCall (t : τ) (fn : φ)
  | waits (timeout : Int)
  | watchCall (event : Event ρ) (ev : EvEvent) (w : ω) (fn : φ)
  | returns (result : Int)

variable {ρ ω τ φ : Type}

def inTimers {α : Type} : Except TimerFault α → Except LoopFault α
  | .ok a => .ok a
  | .error f => .error (.timer f)

def inPolls {α : Type} : Except PollFault α → Except LoopFault α
  | .ok a => .ok a
  | .error f => .error (.poll f)

/-- The bits that make the loop call the watcher of a direction. -/
def EvEvent.wakeup : EvEvent → Flags
  | .read => epollIn ||| epollHup
  | .write => epollOut

def halves (evs : List (Event ρ)) : List (Event ρ × EvEvent) :=
  evs.flatMap fun event => [(event, .read), (event, .write)]

/-- The call that comes next in a batch, with what is left after it. -/
structure WatchCall (ρ ω φ : Type) where
  event : Event ρ
  ev : EvEvent
  watch : ω
  fn : φ
  rest : List (Event ρ × EvEvent)

/-- The dispatch loop up to its next callback. -/
def dispatch (e : Pollers ρ ω φ) :
    List (Event ρ × EvEvent) → Except PollFault (Option (WatchCall ρ ω φ))
  | [] => .ok none
  | (event, ev) :: rest => do
      let r ← e.get event.ptr
      match r.slot ev with
      | none => dispatch e rest
      | some w =>
          if event.events &&& ev.wakeup = 0 then dispatch e rest
          else match (e.watches w).fn with
            | none => .error .nullCallback
            | some fn => return some ⟨event, ev, w, fn, rest⟩

def dispatchFrom (e : Evloop ρ ω τ φ) (outer : List (LoopFrame ρ))
    (todo : List (Event ρ × EvEvent)) :
    Except LoopFault (LoopState ρ ω τ φ × LoopOutput ρ ω τ φ) := do
  match ← inPolls (dispatch e.polls todo) with
  | none => return (⟨e, outer, none⟩, .returns 0)
  | some call => return (⟨e, .watch call.rest :: outer, none⟩,
      .watchCall call.event call.ev call.watch call.fn)

variable [DecidableEq ρ] [DecidableEq ω] [DecidableEq τ]

/-- `evloop_step` after `ev_step_timers` has called back or returned. -/
def afterTimers (polls : Pollers ρ ω φ) (outer : List (LoopFrame ρ)) :
    EvTimers τ φ × TimerOutcome τ φ →
      Except LoopFault (LoopState ρ ω τ φ × LoopOutput ρ ω τ φ)
  | (timers, .calls t fn) => .ok (⟨⟨timers, polls⟩, .timer :: outer, none⟩, .timerCall t fn)
  | (timers, .returns timeout) =>
      if timeout = 0 then .ok (⟨⟨timers, polls⟩, outer, none⟩, .returns 0)
      else do
        let polls ← inPolls (flushDirty polls)
        return (⟨⟨timers, polls⟩, outer, some timeout⟩, .waits timeout)

def LoopState.withPolls (s : LoopState ρ ω τ φ) (polls : Pollers ρ ω φ) :
    LoopState ρ ω τ φ :=
  { s with loop := { s.loop with polls := polls } }

def LoopState.withTimers (s : LoopState ρ ω τ φ) (timers : EvTimers τ φ) :
    LoopState ρ ω τ φ :=
  { s with loop := { s.loop with timers := timers } }

/-- A call that user code makes, in its own code or in a callback. `setWatch` is a write to
the memory of a watcher. -/
def userStep (s : LoopState ρ ω τ φ) :
    LoopOp ρ ω τ φ → Except LoopFault (LoopState ρ ω τ φ × LoopOutput ρ ω τ φ)
  | .watch w fd ev block => do
      let polls ← inPolls (evWatch s.loop.polls w fd ev block)
      return (s.withPolls polls, .done)
  | .unwatch w => do
      let polls ← inPolls (evUnwatch s.loop.polls w)
      return (s.withPolls polls, .done)
  | .close fd => do
      let polls ← inPolls (evClose s.loop.polls fd)
      return (s.withPolls polls, .done)
  | .setWatch w x => .ok (s.withPolls (s.loop.polls.putWatch w x), .done)
  | .alarm t wakeup fn => do
      let timers ← inTimers (evAlarm s.loop.timers t wakeup fn)
      return (s.withTimers timers, .done)
  | .stop t => do
      let timers ← inTimers (evStop s.loop.timers t)
      return (s.withTimers timers, .done)
  | .evloopStep => do
      let outcome ← inTimers (evStepTimers s.loop.timers)
      afterTimers s.loop.polls s.frames outcome
  | .callbackReturn =>
      match s.frames with
      | [] => .error .control
      | .timer :: outer => do
          let outcome ← inTimers (evStepTimersResume s.loop.timers)
          afterTimers s.loop.polls outer outcome
      | .watch rest :: outer => dispatchFrom s.loop outer rest
  | .epollWait _ => .error .control

def waitStep (s : LoopState ρ ω τ φ) :
    WaitResult ρ → Except LoopFault (LoopState ρ ω τ φ × LoopOutput ρ ω τ φ)
  | .interrupted => .ok (s, .done)
  | .failed => .ok (⟨s.loop, s.frames, none⟩, .returns (-1))
  | .events evs now =>
      dispatchFrom { s.loop with timers := { s.loop.timers with now := now } } s.frames
        (halves evs)

def loopStep (s : LoopState ρ ω τ φ) (op : LoopOp ρ ω τ φ) :
    Except LoopFault (LoopState ρ ω τ φ × LoopOutput ρ ω τ φ) :=
  match s.waiting with
  | none => userStep s op
  | some _ =>
      match op with
      | .epollWait result => waitStep s result
      | _ => .error .control

def loopMachine :
    Machine (LoopState ρ ω τ φ) (LoopOp ρ ω τ φ) (LoopOutput ρ ω τ φ) LoopFault :=
  ⟨loopStep⟩

/-- `evloop_init`: nothing is watched. The memory of the watchers is arbitrary. -/
def LoopState.init (timers : EvTimers τ φ) (watches : ω → Evwatch ρ φ) :
    LoopState ρ ω τ φ :=
  ⟨⟨timers, ⟨fun _ => none, [], watches, none, fun _ => none, fun _ => none⟩⟩, [], none⟩

end CThread.Poll
