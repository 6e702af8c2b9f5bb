import CThread.Sleep.Model
import CThread.Poll.Loop

/-!
`cthread-evloop.c`: threads that the loop wakes, through timers and through watchers.

The threads and the loop run side by side on one system thread. `timer_wakeup` and
`fd_wakeup` call the thread that is stored beside the timer or the watcher, so a step of the
loop that gets to one of them is also a `cthread_call`. What any other callback does is a
step of its own. User code may write the fields of a `struct cthread_timer` or a
`struct cthread_watch` itself, as `main.c` does.

`cthread_recv` reads neither the descriptor nor the buffer and registers nothing;
`cthread_send` has no body, and `cthread_cancel` calls a function that does not exist.
-/
namespace CThread.Wake
open Faults GuardedRuns Threads Poll Sleep

structure CthreadWatch where
  thread : Word
  arg : Word
  deriving DecidableEq, Repr

/-- What the `fn` field of a timer or a watcher points to. -/
inductive Wakeup
  | timerWakeup
  | fdWakeup
  | other (fn : Word)
  deriving DecidableEq, Repr

structure WakeState where
  world : World
  loop : LoopState Word Word Word Wakeup
  ct : Word → CthreadTimer
  cw : Word → CthreadWatch

inductive WakeOp
  | thread (op : ThreadOp)
  | loop (op : LoopOp Word Word Word Wakeup)
  | cthreadAlarm (t : Word) (wakeup : BitVec 32) (arg : Word)
  | cthreadRecv (w : Word)
  | writeTimer (t : Word) (x : CthreadTimer)
  | writeWatch (w : Word) (x : CthreadWatch)

inductive WakeOutput
  | switched (o : ThreadOutput)
  | looped (o : LoopOutput Word Word Word Wakeup)
  | woke (o : LoopOutput Word Word Word Wakeup) (thread arg : Word) (r : ThreadOutput)
  | done

inductive WakeFault
  | thread (f : ThreadFault)
  | loop (f : LoopFault)
  | control
  deriving DecidableEq, Repr

def inThreads {α : Type} : Except ThreadFault α → Except WakeFault α
  | .ok a => .ok a
  | .error f => .error (.thread f)

def inLoop {α : Type} : Except LoopFault α → Except WakeFault α
  | .ok a => .ok a
  | .error f => .error (.loop f)

/-- The call that `timer_wakeup` or `fd_wakeup` makes. -/
def WakeState.wakeup (s : WakeState) : LoopOutput Word Word Word Wakeup → Option (Word × Word)
  | .timerCall t .timerWakeup => some ((s.ct t).thread, (s.ct t).arg)
  | .watchCall _ _ w .fdWakeup => some ((s.cw w).thread, (s.cw w).arg)
  | _ => none

/-- A step of the loop, up to the first switch of the callback that it gets to. -/
def stepLoop (s : WakeState) (site : CallSite) (op : LoopOp Word Word Word Wakeup) :
    Except WakeFault (WakeState × WakeOutput) := do
  let (l, o) ← inLoop (loopStep s.loop op)
  match s.wakeup o with
  | none => return ({ s with loop := l }, .looped o)
  | some (thread, arg) => do
      let (w, r) ← inThreads (cthreadCall s.world site thread arg)
      return ({ s with loop := l, world := w }, .woke o thread arg r)

/-- A write to the loop that calls nobody. -/
def writeLoop (s : WakeState) (op : LoopOp Word Word Word Wakeup) :
    Except WakeFault (WakeState × WakeOutput) := do
  let (l, _) ← inLoop (loopStep s.loop op)
  return ({ s with loop := l }, .done)

def cthreadAlarm (s : WakeState) (t : Word) (wakeup : BitVec 32) (arg : Word) :
    Except WakeFault (WakeState × WakeOutput) :=
  writeLoop { s with ct := Function.update s.ct t ⟨s.world.self, arg⟩ }
    (.alarm t wakeup .timerWakeup)

def cthreadRecv (s : WakeState) (w : Word) : Except WakeFault (WakeState × WakeOutput) :=
  writeLoop { s with cw := Function.update s.cw w { s.cw w with thread := s.world.self } }
    (.setWatch w { s.loop.loop.polls.watches w with fn := some .fdWakeup })

/-- Nothing runs while `evloop_step` is inside `epoll_wait`. -/
def stepThread (s : WakeState) (site : CallSite) (op : ThreadOp) :
    Except WakeFault (WakeState × WakeOutput) :=
  match s.loop.waiting with
  | some _ => .error .control
  | none => do
      let (w, o) ← inThreads (threadStep s.world (site, op))
      return ({ s with world := w }, .switched o)

def wakeStep (s : WakeState) : CallSite × WakeOp → Except WakeFault (WakeState × WakeOutput)
  | (site, .thread op) => stepThread s site op
  | (site, .loop op) => stepLoop s site op
  | (_, .cthreadAlarm t wakeup arg) => cthreadAlarm s t wakeup arg
  | (_, .cthreadRecv w) => cthreadRecv s w
  | (_, .writeTimer t x) => .ok ({ s with ct := Function.update s.ct t x }, .done)
  | (_, .writeWatch w x) => .ok ({ s with cw := Function.update s.cw w x }, .done)

def wakeMachine : Machine WakeState (CallSite × WakeOp) WakeOutput WakeFault :=
  ⟨wakeStep⟩

/-- `cthread_main_init` and `evloop_init`; the memory of timers and watchers is arbitrary. -/
def WakeState.init (garbage : Nat → BitVec 32) (index : Word → Nat) (fn : Word → Option Wakeup)
    (now : BitVec 32) (watches : Word → Evwatch Word Wakeup) (ct : Word → CthreadTimer)
    (cw : Word → CthreadWatch) : WakeState :=
  ⟨World.init, .init (Timers.TimerState.init garbage index fn now).loop watches, ct, cw⟩

/-- The thread operation of a step, when the step gets to one. -/
def WakeState.callOf (s : WakeState) : CallSite × WakeOp → Option (CallSite × ThreadOp)
  | (site, .thread op) =>
      match s.loop.waiting with
      | some _ => none
      | none => some (site, op)
  | (site, .loop op) =>
      match loopStep s.loop op with
      | .ok (_, o) => (s.wakeup o).map fun call => (site, .call call.1 call.2)
      | .error _ => none
  | _ => none

/-- The part of a step that the threads see. -/
def threadPart : (CallSite × WakeOp) × WakeOutput → Option ((CallSite × ThreadOp) × ThreadOutput)
  | ((site, .thread op), .switched o) => some ((site, op), o)
  | ((site, _), .woke _ thread arg o) => some ((site, .call thread arg), o)
  | _ => none

def threadTrace (tr : Trace (CallSite × WakeOp) WakeOutput) :
    Trace (CallSite × ThreadOp) ThreadOutput :=
  tr.filterMap threadPart

end CThread.Wake
