import CThread.Heap.Operations
import CThread.Lib.Runs

/-!
The timers of `evloop.c`: `ev_timeout`, `ev_alarm`, `ev_stop`, `next_timeout` and
`ev_step_timers`.

A timer is named by the heap node embedded in it, so `container_of` is the
identity. The call `t->fn(t)` leaves `ev_step_timers` in the middle of its
`do`-loop; the model stops there, and `evStepTimersResume` is the rest of the loop
body after the callback has returned. What a callback does is the run's choice.
-/
namespace CThread.Timers
open SerialOrder Faults Heap GuardedRuns

inductive TimerFault
  | heap (f : HeapFault)
  | nullCallback
  | control
  deriving DecidableEq, Repr

/-- The part of `struct evloop` the timers use, with the `fn` field of every
timer; `none` is `NULL`. -/
structure EvTimers (τ φ : Type) where
  timers : HeapMod32 τ
  now : BitVec 32
  fn : τ → Option φ

inductive TimerOutcome (τ φ : Type)
  | calls (t : τ) (fn : φ)
  | returns (result : Int)
  deriving DecidableEq, Repr

variable {τ φ : Type} [DecidableEq τ]

def inHeap {α : Type} : Except HeapFault α → Except TimerFault α
  | .ok a => .ok a
  | .error f => .error (.heap f)

def evTimeout (e : EvTimers τ φ) (msecs : Int) : BitVec 32 :=
  e.now + BitVec.ofInt 32 msecs

def evAlarm (e : EvTimers τ φ) (t : τ) (wakeup : BitVec 32) (fn : φ) :
    Except TimerFault (EvTimers τ φ) := do
  let e := { e with fn := Function.update e.fn t (some fn) }
  let h ← inHeap (heapInsert e.timers t wakeup)
  return { e with timers := h }

def evStop (e : EvTimers τ φ) (t : τ) : Except TimerFault (EvTimers τ φ) :=
  if e.timers.index t ≠ heapInvalid then do
    let h ← inHeap (heapRemove e.timers (e.timers.index t))
    return { e with
      timers := { h with index := Function.update h.index t heapInvalid }
      fn := Function.update e.fn t none }
  else .ok e

def nextTimeout (e : EvTimers τ φ) : Except TimerFault Int :=
  if e.timers.size = 0 then .ok (-1)
  else do
    let head ← inHeap (e.timers.read heapHead)
    let diff := signedDiff head.value e.now
    return if diff > 0 then diff else 0

/-- The body of the `do`-loop up to the call of `t->fn`. -/
def fireHead (e : EvTimers τ φ) :
    Except TimerFault (EvTimers τ φ × TimerOutcome τ φ) := do
  let head ← inHeap (e.timers.read heapHead)
  match head.node with
  | none => .error (.heap .wildNode)
  | some t => do
      let h ← inHeap (heapRemove e.timers heapHead)
      match e.fn t with
      | none => .error .nullCallback
      | some fn => return ({ e with timers := h }, .calls t fn)

def evStepTimers (e : EvTimers τ φ) :
    Except TimerFault (EvTimers τ φ × TimerOutcome τ φ) := do
  let diff ← nextTimeout e
  if diff ≠ 0 then return (e, .returns diff) else fireHead e

/-- The loop condition, reached when a callback returns. -/
def evStepTimersResume (e : EvTimers τ φ) :
    Except TimerFault (EvTimers τ φ × TimerOutcome τ φ) := do
  let diff ← nextTimeout e
  if diff = 0 then fireHead e else return (e, .returns 0)

/-- Where the thread that owns the loop is: in its own code, or in a callback. -/
inductive TimerControl
  | idle
  | inCallback
  deriving DecidableEq, Repr

structure TimerState (τ φ : Type) where
  loop : EvTimers τ φ
  control : TimerControl

inductive TimerOp (τ φ : Type)
  | alarm (t : τ) (wakeup : BitVec 32) (fn : φ)
  | stop (t : τ)
  | getTicks (now : BitVec 32)
  | stepTimers
  | callbackReturn

inductive TimerOutput (τ φ : Type)
  | done
  | outcome (o : TimerOutcome τ φ)
  deriving DecidableEq, Repr

def TimerOutcome.control : TimerOutcome τ φ → TimerControl
  | .calls _ _ => .inCallback
  | .returns _ => .idle

def settle (r : Except TimerFault (EvTimers τ φ × TimerOutcome τ φ)) :
    Except TimerFault (TimerState τ φ × TimerOutput τ φ) := do
  let (e, o) ← r
  return (⟨e, o.control⟩, .outcome o)

/-- One step of the thread that owns the loop. `getTicks` is `e->now = get_ticks()`. -/
def timerStep (s : TimerState τ φ) :
    TimerOp τ φ → Except TimerFault (TimerState τ φ × TimerOutput τ φ)
  | .alarm t wakeup fn => do
      let e ← evAlarm s.loop t wakeup fn
      return ({ s with loop := e }, .done)
  | .stop t => do
      let e ← evStop s.loop t
      return ({ s with loop := e }, .done)
  | .getTicks now =>
      match s.control with
      | .idle => .ok ({ s with loop := { s.loop with now := now } }, .done)
      | .inCallback => .error .control
  | .stepTimers =>
      match s.control with
      | .idle => settle (evStepTimers s.loop)
      | .inCallback => .error .control
  | .callbackReturn =>
      match s.control with
      | .idle => .error .control
      | .inCallback => settle (evStepTimersResume s.loop)

def timerMachine : Machine (TimerState τ φ) (TimerOp τ φ) (TimerOutput τ φ) TimerFault :=
  ⟨timerStep⟩

/-- `evloop_init`: the zeroed structure and the first clock reading. -/
def TimerState.init (garbage : Nat → BitVec 32) (index : τ → Nat)
    (fn : τ → Option φ) (now : BitVec 32) : TimerState τ φ :=
  ⟨⟨HeapMod32.zeroed garbage index, now, fn⟩, .idle⟩

end CThread.Timers
