import CThread.Threads.Model
import CThread.Timers.Model

/-!
`do_sleep` and `timer_wakeup` of `main.c`: threads that sleep on the timers of the loop
that the main context runs.

A `struct cthread_timer` is a local variable of `do_sleep` and is named by its address;
`asleep` says which threads are inside `do_sleep`, and where their variable is. `do_sleep`
leaves `timer_wakeup` in the `fn` field, here through the argument that `ev_alarm` has in
`evloop.c`. Nothing is watched, so a step of the loop is `ev_step_timers` and, when it
called nobody, `epoll_wait` and `get_ticks`. A step of the model ends at the next switch.
-/
namespace CThread.Sleep
open Faults GuardedRuns Threads Timers

structure CthreadTimer where
  thread : Word
  arg : Word
  deriving DecidableEq, Repr

inductive EvtimerFn
  | timerWakeup
  deriving DecidableEq, Repr

inductive SleepFault
  | thread (f : ThreadFault)
  | timer (f : TimerFault)
  | control
  deriving DecidableEq, Repr

/-- Where the main context is: between the steps of the loop, inside a timer callback, or
in `epoll_wait`. -/
inductive LoopPlace
  | idle
  | inCallback
  | waiting
  deriving DecidableEq, Repr

structure SleepState where
  world : World
  timers : EvTimers Word EvtimerFn
  ct : Word → CthreadTimer
  asleep : Word → Option Word
  place : LoopPlace

/-- What the running context does next. `epollWait` is the return of `epoll_wait` with the
clock reading after it, `none` when it failed. -/
inductive SleepOp
  | mainStart (fn arg stack sz : Word)
  | evloopStep
  | epollWait (now : Option (BitVec 32))
  | callbackReturn
  | start (fn arg stack sz : Word)
  | sleep (ct : Word) (msecs : Int)
  | join (t : Word)
  | exit (code : Word)
  | fnReturn (rax : Word)
  deriving DecidableEq, Repr

inductive SleepOutput
  | switched (o : ThreadOutput)
  | woke (t thread arg : Word) (o : ThreadOutput)
  | waits (timeout : Int)
  | returns (result : Int)
  deriving DecidableEq, Repr

def inThreads {α : Type} : Except ThreadFault α → Except SleepFault α
  | .ok a => .ok a
  | .error f => .error (.thread f)

def inTimers {α : Type} : Except TimerFault α → Except SleepFault α
  | .ok a => .ok a
  | .error f => .error (.timer f)

/-- A thread that is resumed in its yield returns from `do_sleep`. -/
def leaveSleep (asleep : Word → Option Word) : ThreadOutput → Word → Option Word
  | .resumes c .yield _ => Function.update asleep c none
  | _ => asleep

def SleepState.switch (s : SleepState) (w : World) (o : ThreadOutput) : SleepState :=
  { s with world := w, asleep := leaveSleep s.asleep o }

def switched (s : SleepState) (r : Except ThreadFault (World × ThreadOutput)) :
    Except SleepFault (SleepState × SleepOutput) := do
  let (w, o) ← inThreads r
  return (s.switch w o, .switched o)

def timerWakeup (s : SleepState) (site : CallSite) (t : Word) :
    Except SleepFault (SleepState × SleepOutput) := do
  let (w, o) ← inThreads (cthreadCall s.world site (s.ct t).thread (s.ct t).arg)
  return (s.switch w o, .woke t (s.ct t).thread (s.ct t).arg o)

/-- `ct` is the address of the local variable; its field `arg` is not initialized. -/
def doSleep (s : SleepState) (site : CallSite) (ct : Word) (msecs : Int) :
    Except SleepFault (SleepState × SleepOutput) := do
  let s := { s with
    ct := Function.update s.ct ct { s.ct ct with thread := s.world.self }
    asleep := Function.update s.asleep s.world.self (some ct) }
  let timers ← inTimers (evAlarm s.timers ct (evTimeout s.timers msecs) .timerWakeup)
  switched { s with timers := timers } (cthreadYield s.world site null)

/-- `evloop_step` after `ev_step_timers` has called back or returned. -/
def afterTimers (s : SleepState) (site : CallSite) :
    EvTimers Word EvtimerFn × TimerOutcome Word EvtimerFn →
      Except SleepFault (SleepState × SleepOutput)
  | (timers, .calls t .timerWakeup) =>
      timerWakeup { s with timers := timers, place := .inCallback } site t
  | (timers, .returns timeout) =>
      if timeout = 0 then .ok ({ s with timers := timers, place := .idle }, .returns 0)
      else .ok ({ s with timers := timers, place := .waiting }, .waits timeout)

def evloopStep (s : SleepState) (site : CallSite) :
    Except SleepFault (SleepState × SleepOutput) :=
  match s.place with
  | .idle => do
      let outcome ← inTimers (evStepTimers s.timers)
      afterTimers s site outcome
  | _ => .error .control

def callbackReturn (s : SleepState) (site : CallSite) :
    Except SleepFault (SleepState × SleepOutput) :=
  match s.place with
  | .inCallback => do
      let outcome ← inTimers (evStepTimersResume s.timers)
      afterTimers s site outcome
  | _ => .error .control

/-- `epoll_wait` fails, or returns and `e->now = get_ticks()` follows. -/
def epollWait (s : SleepState) (now : Option (BitVec 32)) :
    Except SleepFault (SleepState × SleepOutput) :=
  match s.place with
  | .waiting =>
      match now with
      | none => .ok ({ s with place := .idle }, .returns (-1))
      | some now =>
          .ok ({ s with timers := { s.timers with now := now }, place := .idle }, .returns 0)
  | _ => .error .control

def mainStart (s : SleepState) (site : CallSite) (fn arg stack sz : Word) :
    Except SleepFault (SleepState × SleepOutput) :=
  match s.place with
  | .idle => switched s (cthreadMainStart s.world site fn arg stack sz)
  | _ => .error .control

def mainStep (s : SleepState) (site : CallSite) :
    SleepOp → Except SleepFault (SleepState × SleepOutput)
  | .mainStart fn arg stack sz => mainStart s site fn arg stack sz
  | .evloopStep => evloopStep s site
  | .epollWait now => epollWait s now
  | .callbackReturn => callbackReturn s site
  | _ => .error .control

def sleeperStep (s : SleepState) (site : CallSite) :
    SleepOp → Except SleepFault (SleepState × SleepOutput)
  | .start fn arg stack sz => switched s (cthreadStart s.world site fn arg stack sz)
  | .sleep ct msecs => doSleep s site ct msecs
  | .join t => switched s (cthreadJoin s.world site t)
  | .exit code => switched s (cthreadExit s.world site code)
  | .fnReturn rax => switched s (cthreadExit s.world site rax)
  | _ => .error .control

def sleepStep (s : SleepState) (i : CallSite × SleepOp) :
    Except SleepFault (SleepState × SleepOutput) :=
  if s.world.running = null then mainStep s i.1 i.2 else sleeperStep s i.1 i.2

def sleepMachine : Machine SleepState (CallSite × SleepOp) SleepOutput SleepFault :=
  ⟨sleepStep⟩

/-- `cthread_main_init` and `evloop_init`; the memory of the timers is arbitrary. -/
def SleepState.init (garbage : Nat → BitVec 32) (index : Word → Nat)
    (fn : Word → Option EvtimerFn) (now : BitVec 32) (ct : Word → CthreadTimer) :
    SleepState :=
  ⟨World.init, (TimerState.init garbage index fn now).loop, ct, fun _ => none, .idle⟩

end CThread.Sleep
