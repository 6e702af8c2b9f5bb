import CThread.Lib.CInt
import Mathlib.Logic.Function.Basic

/-!
The functions that `CT_ATOMIC` of `cthread-atomics.h` defines for an integer type, with `p->v`
for the cell.

Threads switch only between operations, so a program is one sequence of operations, each by
some thread. Every thread has an `expected` variable, which its own code may write too. A
function that changes the cell returns its new content next to its result.
-/
namespace CThread.Atomics
open Faults CInt
variable (T : IntType)

def ctInit (_ v : T.Val) : T.Val := v

def ctLoad (p : T.Val) : T.Val := p

def ctStore (_ v : T.Val) : T.Val := v

/-- `*exp` is read and never written. -/
def ctCompareExchange (p exp v : T.Val) : T.Val × Bool :=
  if p = exp then (v, true) else (p, false)

def ctExchange (p v : T.Val) : T.Val × T.Val := (v, p)

/-- `TYPE r = p->v; p->v OP= v; return r;` -/
def ctFetch (assign : T.Val → T.Val → Except ArithFault T.Val) (p v : T.Val) :
    Except ArithFault (T.Val × T.Val) := do
  let r := p
  let p ← assign p v
  return (p, r)

def ctFetchAdd : T.Val → T.Val → Except ArithFault (T.Val × T.Val) :=
  ctFetch T fun a b => T.assign (T.toInt a + T.toInt b)

def ctFetchSub : T.Val → T.Val → Except ArithFault (T.Val × T.Val) :=
  ctFetch T fun a b => T.assign (T.toInt a - T.toInt b)

/-- The bits of a promoted value are those of the value below its sign. -/
def ctFetchOr : T.Val → T.Val → Except ArithFault (T.Val × T.Val) :=
  ctFetch T fun a b => .ok (a ||| b)

def ctFetchXor : T.Val → T.Val → Except ArithFault (T.Val × T.Val) :=
  ctFetch T fun a b => .ok (a ^^^ b)

def ctFetchAnd : T.Val → T.Val → Except ArithFault (T.Val × T.Val) :=
  ctFetch T fun a b => .ok (a &&& b)

inductive FetchOp
  | add
  | sub
  | or
  | xor
  | and
  deriving DecidableEq, Repr

def FetchOp.run : FetchOp → T.Val → T.Val → Except ArithFault (T.Val × T.Val)
  | .add => ctFetchAdd T
  | .sub => ctFetchSub T
  | .or => ctFetchOr T
  | .xor => ctFetchXor T
  | .and => ctFetchAnd T

/-- `ct_atomic_compare_exchange_weak` is defined to be the strong one. The fetch operations
of C11 are not for `atomic_bool`. -/
inductive AtomicOp
  | init (v : T.Val)
  | load
  | store (v : T.Val)
  | exchange (v : T.Val)
  | compareExchange (v : T.Val)
  | fetch (op : FetchOp) (v : T.Val) (number : T ≠ .bool)
  | setExpected (v : T.Val)

inductive AtomicResult
  | done
  | value (v : T.Val)
  | swapped (success : Bool)
  deriving DecidableEq

structure Shared (ι : Type) where
  cell : T.Val
  expected : ι → T.Val

variable {T} {ι : Type} [DecidableEq ι]

def Shared.withCell (s : Shared T ι) (v : T.Val) : Shared T ι := { s with cell := v }

def Shared.expect (s : Shared T ι) (i : ι) (v : T.Val) : Shared T ι :=
  { s with expected := Function.update s.expected i v }

def ctStep (s : Shared T ι) (i : ι) :
    AtomicOp T → Except ArithFault (Shared T ι × AtomicResult T)
  | .init v => .ok (s.withCell (ctInit T s.cell v), .done)
  | .load => .ok (s, .value (ctLoad T s.cell))
  | .store v => .ok (s.withCell (ctStore T s.cell v), .done)
  | .exchange v =>
      let (p, r) := ctExchange T s.cell v
      .ok (s.withCell p, .value r)
  | .compareExchange v =>
      let (p, r) := ctCompareExchange T s.cell (s.expected i) v
      .ok (s.withCell p, .swapped r)
  | .fetch op v _ => do
      let (p, r) ← op.run T s.cell v
      return (s.withCell p, .value r)
  | .setExpected v => .ok (s.expect i v, .done)

def ctRun (s : Shared T ι) :
    List (ι × AtomicOp T) → Except ArithFault (Shared T ι × List (AtomicResult T))
  | [] => .ok (s, [])
  | (i, op) :: rest => do
      let (s, r) ← ctStep s i op
      let (s, rs) ← ctRun s rest
      return (s, r :: rs)

end CThread.Atomics
