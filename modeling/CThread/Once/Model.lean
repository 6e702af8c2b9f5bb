import CThread.Lib.Runs
import CThread.Lib.Faults
import Mathlib.Logic.Function.Basic

/-!
`create_tls_key`: the first caller creates the key, and the others wait for it.

There are three copies of it: for Windows in `cthread.c`, and for Windows and for POSIX in
`tls.c`. They differ in the call that allocates the key and in whether the key is read back
afterwards. Every access to memory that the callers share is a step of its own, and the
steps of different callers come in any order.
-/
namespace CThread.Once
open Faults GuardedRuns

/-- `DWORD`, `pthread_key_t` and `tls_key_t`. -/
abbrev Key := BitVec 32

def tlsOutOfIndexes : Key := 0xffffffff

/-- What the caller whose compare-and-swap succeeds does, one access at a time. -/
inductive InitStep
  /-- `TlsAlloc`, which fails by its result. -/
  | tlsAlloc
  /-- `pthread_key_create`, which fails by its return code. -/
  | keyCreate
  | storeKey
  /-- The key is read again and compared with `TLS_OUT_OF_INDEXES`. -/
  | checkKey
  /-- The store of 2 to the once word. -/
  | publish
  deriving DecidableEq, Repr

inductive Copy
  | cthreadWindows
  | tlsWindows
  | tlsPosix
  deriving DecidableEq, Repr

/-- `do_init` of `cthread.c`. -/
def doInit : List InitStep := [.tlsAlloc, .storeKey, .checkKey]

def Copy.createTlsKey : Copy → List InitStep
  | .cthreadWindows => doInit ++ [.publish]
  | .tlsWindows => [.tlsAlloc, .storeKey, .checkKey, .publish]
  | .tlsPosix => [.keyCreate, .storeKey, .publish]

/-- Where a thread is. While it creates the key it has the steps that are left, and the key
once that is allocated. -/
inductive Caller
  | idle
  | entered
  | creating (rest : List InitStep) (key : Option Key)
  | spinning
  | returned
  deriving DecidableEq, Repr

structure OnceState (ι : Type) where
  once : Int
  key : Key
  caller : ι → Caller

/-- `next` is the next step of the thread inside of the call; its arguments are what an
allocation returns. `readKey` uses the key, as `cthread_self` does. -/
inductive OnceOp
  | call
  | next (code : Int) (allocated : Key)
  | readKey
  deriving DecidableEq, Repr

inductive OnceOutput
  | called
  | compared (old : Int)
  | allocated (key : Key)
  | stored (key : Key)
  | checked
  | published
  | spins
  | returns
  | key (key : Key)
  deriving DecidableEq, Repr

inductive OnceFault
  | abort
  | control
  deriving DecidableEq, Repr

variable {ι : Type} [DecidableEq ι]

def OnceState.move (s : OnceState ι) (i : ι) (c : Caller) : OnceState ι :=
  { s with caller := Function.update s.caller i c }

/-- One step of the caller that creates the key. -/
def initStep (s : OnceState ι) (i : ι) (rest : List InitStep) (key : Option Key) (code : Int)
    (allocated : Key) : InitStep → Except OnceFault (OnceState ι × OnceOutput)
  | .tlsAlloc => .ok (s.move i (.creating rest (some allocated)), .allocated allocated)
  | .keyCreate =>
      if code ≠ 0 then .error .abort
      else .ok (s.move i (.creating rest (some allocated)), .allocated allocated)
  | .storeKey =>
      match key with
      | none => .error .control
      | some k => .ok ({ s.move i (.creating rest key) with key := k }, .stored k)
  | .checkKey =>
      if s.key = tlsOutOfIndexes then .error .abort
      else .ok (s.move i (.creating rest key), .checked)
  | .publish => .ok ({ s.move i (.creating rest key) with once := 2 }, .published)

/-- The next step of a caller: the compare-and-swap, a step of the creation, a read of the
spin loop, or the return. -/
def nextStep (copy : Copy) (s : OnceState ι) (i : ι) (code : Int) (allocated : Key) :
    Except OnceFault (OnceState ι × OnceOutput) :=
  match s.caller i with
  | .entered =>
      if s.once = 0 then
        .ok ({ s.move i (.creating copy.createTlsKey none) with once := 1 }, .compared s.once)
      else .ok (s.move i .spinning, .compared s.once)
  | .creating (step :: rest) key => initStep s i rest key code allocated step
  | .creating [] _ => .ok (s.move i .returned, .returns)
  | .spinning => if s.once = 1 then .ok (s, .spins) else .ok (s.move i .returned, .returns)
  | .idle | .returned => .error .control

def onceStep (copy : Copy) (s : OnceState ι) :
    ι × OnceOp → Except OnceFault (OnceState ι × OnceOutput)
  | (i, .call) =>
      match s.caller i with
      | .idle | .returned => .ok (s.move i .entered, .called)
      | _ => .error .control
  | (i, .next code allocated) => nextStep copy s i code allocated
  | (i, .readKey) =>
      match s.caller i with
      | .returned => .ok (s, .key s.key)
      | _ => .error .control

def onceMachine (copy : Copy) : Machine (OnceState ι) (ι × OnceOp) OnceOutput OnceFault :=
  ⟨onceStep copy⟩

/-- The once word is zero. What the key cell holds does not matter. -/
def OnceState.init (garbage : Key) : OnceState ι := ⟨0, garbage, fun _ => .idle⟩

end CThread.Once
