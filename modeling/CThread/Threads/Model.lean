import CThread.Lib.Runs
import CThread.Lib.Faults
import Mathlib.Logic.Function.Basic

/-!
The coroutines of `cthread.c` for one `cthread_main`, at the level of the C code.

A `cthread_t *` is a machine word and `NULL` stands for the main context, as it does
for `cthread_self`. Stack contents are kept only where a switch looks at them: `saved`
maps the stack pointer of each suspended context to that context and to the call it is
inside of. `cthread_asm_switch` pushes such a frame for the context that runs, and takes
one off at the stack pointer it loads; a stack pointer with no frame is a dead stack.

The fields `main` (there is one), `wait_next` (never used) and the register values in
the frames are left out; the registers are the subject of the machine-level model.
-/
namespace CThread.Threads
open Faults GuardedRuns

abbrev Word := BitVec 64

def null : Word := 0

inductive ThreadFault
  | wildThread
  | deadStack
  | deadContext
  | assertion
  deriving DecidableEq, Repr

/-- `struct cthread_caller`: where a debugger finds the frame below the thread. -/
structure CthreadCaller where
  stack : Word
  prev : Word
  returnAddress : Word
  deriving DecidableEq, Repr

structure Cthread where
  stack : Word
  caller : CthreadCaller
  yieldTo : Word
  exitTo : Word
  exitData : Word
  exitCode : Word
  finished : Bool
  deriving DecidableEq, Repr

structure CthreadMain where
  stack : Word
  numThreads : Int
  deriving DecidableEq, Repr

/-- The call a suspended context is inside of. `start` and `mainStart` carry the thread
that was created, `entry` the thread function that has not run yet. -/
inductive Pending
  | entry (fn : Word)
  | call
  | tailcall
  | yield
  | start (t : Word)
  | mainStart (t : Word)
  | join (t : Word)
  | exit
  deriving DecidableEq, Repr

structure Frame where
  owner : Word
  pending : Pending
  deriving DecidableEq, Repr

structure World where
  main : CthreadMain
  threads : Word → Option Cthread
  self : Word
  running : Word
  saved : Word → Option Frame

/-- What the running context holds when it enters `cthread_asm_switch`. -/
structure CallSite where
  rsp : Word
  rbp : Word
  returnAddress : Word
  deriving DecidableEq, Repr

/-- The context that runs after an operation, and what it gets there. -/
inductive ThreadOutput
  | resumes (c : Word) (pending : Pending) (value : Word)
  | joined (c t : Word) (code : Int)
  deriving DecidableEq, Repr

def World.get (w : World) (t : Word) : Except ThreadFault Cthread :=
  match w.threads t with
  | some c => .ok c
  | none => .error .wildThread

def World.put (w : World) (t : Word) (c : Cthread) : World :=
  { w with threads := Function.update w.threads t (some c) }

def setThread (w : World) (c : Word) : World :=
  { w with self := c }

/-- `*psavestack = rsp`, where `NULL` names `&m->stack`. -/
def saveStack (w : World) (psave : Word) (rsp : Word) : Except ThreadFault World :=
  if psave = null then .ok { w with main := { w.main with stack := rsp } }
  else do
    let c ← w.get psave
    return w.put psave { c with stack := rsp }

/-- `*pcaller`, where `none` is the dummy on the stack of the caller. -/
def saveCaller (w : World) (site : CallSite) : Option Word → Except ThreadFault World
  | none => .ok w
  | some t => do
      let c ← w.get t
      return w.put t { c with caller := ⟨site.rsp + 8, site.rbp, site.returnAddress⟩ }

def exitResult (c : Cthread) : Int :=
  (c.exitCode.setWidth 32).toInt

/-- The resumed context finishes the call it was inside of. -/
def deliver (w : World) (frame : Frame) (udata : Word) :
    Except ThreadFault (World × ThreadOutput) :=
  match frame.pending with
  | .exit => .error .deadContext
  | .join t => do
      let c ← w.get t
      if c.finished then
        return (w.put t { c with exitTo := null }, .joined frame.owner t (exitResult c))
      else .error .assertion
  | pending => .ok (w, .resumes frame.owner pending udata)

/-- The frame at `load` is popped and its owner runs. -/
def popFrame (w : World) (load owner : Word) : World :=
  { w with saved := Function.update w.saved load none, running := owner }

def loadStack (w : World) (load udata : Word) : Except ThreadFault (World × ThreadOutput) :=
  match w.saved load with
  | none => .error .deadStack
  | some frame => deliver (popFrame w load frame.owner) frame udata

/-- Six registers are pushed below the return address. -/
def pushFrame (w : World) (site : CallSite) (pending : Pending) : World :=
  { w with saved := Function.update w.saved (site.rsp - 48) (some ⟨w.running, pending⟩) }

def cthreadAsmSwitch (w : World) (site : CallSite) (pending : Pending)
    (udata load psave : Word) (pcaller : Option Word) :
    Except ThreadFault (World × ThreadOutput) := do
  let w ← saveCaller w site pcaller
  let w ← saveStack (pushFrame w site pending) psave (site.rsp - 48)
  loadStack w load udata

def cthreadCall (w : World) (site : CallSite) (tgt data : Word) :
    Except ThreadFault (World × ThreadOutput) := do
  let src := w.self
  let c ← w.get tgt
  let w := setThread (w.put tgt { c with yieldTo := src }) tgt
  cthreadAsmSwitch w site .call data c.stack src (some tgt)

/-- `pending` is the call the running context is left in: `cthread_exit` calls this too. -/
def cthreadTailcall (w : World) (site : CallSite) (pending : Pending) (tgt data : Word) :
    Except ThreadFault (World × ThreadOutput) := do
  let src := w.self
  let f ← w.get src
  let c ← w.get tgt
  let w := setThread (w.put tgt { c with yieldTo := f.yieldTo, caller := f.caller }) tgt
  cthreadAsmSwitch w site pending data c.stack src none

def doYield (w : World) (site : CallSite) (pending : Pending) (data src : Word) :
    Except ThreadFault (World × ThreadOutput) := do
  let f ← w.get src
  if f.yieldTo = null then
    cthreadAsmSwitch (setThread w f.yieldTo) site pending data w.main.stack src none
  else do
    let c ← w.get f.yieldTo
    cthreadAsmSwitch (setThread w f.yieldTo) site pending data c.stack src none

def cthreadYield (w : World) (site : CallSite) (data : Word) :
    Except ThreadFault (World × ThreadOutput) :=
  doYield w site .yield data w.self

/-- What follows the switch in `cthread_join` is in `deliver`. -/
def cthreadJoin (w : World) (site : CallSite) (t : Word) :
    Except ThreadFault (World × ThreadOutput) := do
  if w.self = null then .error .assertion
  else do
    let c ← w.get t
    if c.finished then return (w, .joined w.self t (exitResult c))
    else doYield (w.put t { c with exitTo := w.self }) site (.join t) null w.self

/-- The assignments of `cthread_exit` before it leaves. -/
def retire (w : World) (c : Cthread) (code : Word) : World :=
  { w.put w.self { c with finished := true, exitCode := code } with
    main := { w.main with numThreads := w.main.numThreads - 1 } }

def cthreadExit (w : World) (site : CallSite) (code : Word) :
    Except ThreadFault (World × ThreadOutput) := do
  if w.self = null then .error .assertion
  else do
    let c ← w.get w.self
    if c.finished then .error .assertion
    else if c.exitTo = null then doYield (retire w c code) site .exit null w.self
    else cthreadTailcall (retire w c code) site .exit c.exitTo c.exitData

/-- The structure lies at the top of the stack buffer, aligned to 16 bytes. -/
def cthreadAddress (stack sz : Word) : Word :=
  (stack + sz - 88) &&& ~~~15

def zeroedThread (c : Word) : Cthread :=
  ⟨c - 64, ⟨0, 0, 0⟩, null, null, null, 0, false⟩

/-- The prepared frame is the one `cthread_asm_switch` would have pushed. -/
def prepareThread (w : World) (c fn : Word) : World :=
  { w.put c (zeroedThread c) with
    saved := Function.update w.saved (c - 64) (some ⟨c, .entry fn⟩)
    main := { w.main with numThreads := w.main.numThreads + 1 } }

def createCthread (w : World) (fn stack sz : Word) : World × Word :=
  (prepareThread w (cthreadAddress stack sz) fn, cthreadAddress stack sz)

def cthreadStart (w : World) (site : CallSite) (fn arg stack sz : Word) :
    Except ThreadFault (World × ThreadOutput) := do
  let src := w.self
  let _ ← w.get src
  let (w, tgt) := createCthread w fn stack sz
  let c ← w.get tgt
  let w := setThread (w.put tgt { c with yieldTo := src }) tgt
  cthreadAsmSwitch w site (.start tgt) arg c.stack src (some tgt)

def cthreadMainStart (w : World) (site : CallSite) (fn arg stack sz : Word) :
    Except ThreadFault (World × ThreadOutput) := do
  if w.self ≠ null then .error .assertion
  else do
    let (w, tgt) := createCthread w fn stack sz
    let c ← w.get tgt
    if c.yieldTo ≠ null then .error .assertion
    else do
      let w := setThread (w.put tgt { c with yieldTo := null }) tgt
      cthreadAsmSwitch w site (.mainStart tgt) arg c.stack null (some tgt)

inductive ThreadOp
  | mainStart (fn arg stack sz : Word)
  | start (fn arg stack sz : Word)
  | call (tgt data : Word)
  | tailcall (tgt data : Word)
  | yield (data : Word)
  | join (t : Word)
  | exit (code : Word)
  | fnReturn (rax : Word)
  deriving DecidableEq, Repr

/-- One operation of the running context. A thread function returns into `__morestack`,
which hands the return register to `cthread_exit`. -/
def threadStep (w : World) : CallSite × ThreadOp → Except ThreadFault (World × ThreadOutput)
  | (site, .mainStart fn arg stack sz) => cthreadMainStart w site fn arg stack sz
  | (site, .start fn arg stack sz) => cthreadStart w site fn arg stack sz
  | (site, .call tgt data) => cthreadCall w site tgt data
  | (site, .tailcall tgt data) => cthreadTailcall w site .tailcall tgt data
  | (site, .yield data) => cthreadYield w site data
  | (site, .join t) => cthreadJoin w site t
  | (site, .exit code) => cthreadExit w site code
  | (site, .fnReturn rax) => cthreadExit w site rax

def threadMachine : Machine World (CallSite × ThreadOp) ThreadOutput ThreadFault :=
  ⟨threadStep⟩

/-- `cthread_main_init`, before any thread. -/
def World.init : World :=
  ⟨⟨null, 0⟩, fun _ => none, null, null, fun _ => none⟩

end CThread.Threads
