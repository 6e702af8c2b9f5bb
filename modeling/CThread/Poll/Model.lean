import CThread.Lib.Faults
import Mathlib.Logic.Function.Basic

/-!
The poll records of `evloop.epoll.c`: `mark_dirty`, `ev_watch`, `ev_unwatch`, `ev_close`
and the dirty-list pass of `evloop_step`.

Records live in a heap from which `xfree` takes them out; using a record that is not in
the heap is a fault. The hash table is a finite map and the kernel an interest list that
`close` clears. `EPOLL_CTL_ADD` of a descriptor the kernel has, and `EPOLL_CTL_MOD` of
one it does not have, are faults. The pass also returns what it calls for.
-/
namespace CThread.Poll
open Faults

inductive PollFault
  | freed
  | doubleFree
  | assertion
  | nullCallback
  | epollExists
  | epollMissing
  | endlessList
  | control
  deriving DecidableEq, Repr

abbrev Flags := BitVec 32

def epollIn : Flags := 0x1
def epollOut : Flags := 0x4
def epollErr : Flags := 0x8
def epollHup : Flags := 0x10
def epollEt : Flags := 0x80000000

/-- `EPOLLERR` marks a record as dirty, `EPOLLET` as known to the kernel. -/
def flagDirty : Flags := epollErr

/-- `enum ev_event`. -/
inductive EvEvent
  | read
  | write
  deriving DecidableEq, Repr

structure EvloopPoll (ρ ω : Type) where
  next : Option ρ
  rd : Option ω
  wr : Option ω
  fd : Int
  flags : Flags

structure Evwatch (ρ φ : Type) where
  fn : Option φ
  pollData : Option ρ

/-- What the kernel remembers of a descriptor. -/
structure EpollEvent (ρ : Type) where
  events : Flags
  ptr : ρ
  deriving DecidableEq, Repr

/-- The descriptors part of `struct evloop`, with the heap, the watchers and the kernel.
`allocated` lists the live blocks. -/
structure Pollers (ρ ω φ : Type) where
  records : ρ → Option (EvloopPoll ρ ω)
  allocated : List ρ
  watches : ω → Evwatch ρ φ
  dirtyList : Option ρ
  table : Int → Option ρ
  kernel : Int → Option (EpollEvent ρ)

variable {ρ ω φ : Type}

/-- `p->rd` or `p->wr`. -/
def EvloopPoll.slot (r : EvloopPoll ρ ω) : EvEvent → Option ω
  | .read => r.rd
  | .write => r.wr

def EvloopPoll.setSlot (r : EvloopPoll ρ ω) (ev : EvEvent) (x : Option ω) : EvloopPoll ρ ω :=
  match ev with
  | .read => { r with rd := x }
  | .write => { r with wr := x }

def EvloopPoll.isDirty (r : EvloopPoll ρ ω) : Bool := r.flags &&& flagDirty ≠ 0

def EvloopPoll.isAdded (r : EvloopPoll ρ ω) : Bool := r.flags &&& epollEt ≠ 0

/-- `ev.events` before `EPOLLET` is added. -/
def EvloopPoll.interest (r : EvloopPoll ρ ω) : Flags :=
  (if r.rd.isSome then epollIn ||| epollHup else 0) ||| (if r.wr.isSome then epollOut else 0)

def Pollers.get (e : Pollers ρ ω φ) (p : ρ) : Except PollFault (EvloopPoll ρ ω) :=
  match e.records p with
  | some r => .ok r
  | none => .error .freed

variable [DecidableEq ρ] [DecidableEq ω]

def Pollers.put (e : Pollers ρ ω φ) (p : ρ) (r : EvloopPoll ρ ω) : Pollers ρ ω φ :=
  { e with records := Function.update e.records p (some r) }

def Pollers.putWatch (e : Pollers ρ ω φ) (w : ω) (x : Evwatch ρ φ) : Pollers ρ ω φ :=
  { e with watches := Function.update e.watches w x }

def dropRecord (e : Pollers ρ ω φ) (p : ρ) : Pollers ρ ω φ :=
  { e with
    records := Function.update e.records p none
    allocated := e.allocated.erase p }

def xfree (e : Pollers ρ ω φ) (p : ρ) : Except PollFault (Pollers ρ ω φ) :=
  match e.records p with
  | some _ => .ok (dropRecord e p)
  | none => .error .doubleFree

def markDirty (e : Pollers ρ ω φ) (p : ρ) : Except PollFault (Pollers ρ ω φ) := do
  let r ← e.get p
  if r.isDirty then return e
  else return { e.put p { r with flags := r.flags ||| flagDirty, next := e.dirtyList } with
    dirtyList := some p }

def emptyPoll (fd : Int) : EvloopPoll ρ ω := ⟨none, none, none, fd, 0⟩

/-- `xcalloc` returned `block`, and the new record goes into the table. -/
def addPoll (e : Pollers ρ ω φ) (fd : Int) (block : ρ) : Pollers ρ ω φ :=
  { e.put block (emptyPoll fd) with
    allocated := block :: e.allocated
    table := Function.update e.table fd (some block) }

/-- `kh_put` and what follows it for a new key. -/
def recordFor (e : Pollers ρ ω φ) (fd : Int) (block : ρ) : Pollers ρ ω φ × ρ :=
  match e.table fd with
  | some p => (e, p)
  | none => (addPoll e fd block, block)

def evWatch (e : Pollers ρ ω φ) (w : ω) (fd : Int) (ev : EvEvent) (block : ρ) :
    Except PollFault (Pollers ρ ω φ) := do
  if (e.watches w).fn.isNone then .error .assertion
  else do
    let (e, p) := recordFor e fd block
    let e := e.putWatch w { e.watches w with pollData := some p }
    let r ← e.get p
    if (r.slot ev).isSome then .error .assertion
    else markDirty (e.put p (r.setSlot ev (some w))) p

def evUnwatch (e : Pollers ρ ω φ) (w : ω) : Except PollFault (Pollers ρ ω φ) :=
  match (e.watches w).pollData with
  | none => .ok e
  | some p => do
      let e := e.putWatch w ⟨none, none⟩
      let r ← e.get p
      if r.rd = some w then markDirty (e.put p (r.setSlot .read none)) p
      else if r.wr = some w then markDirty (e.put p (r.setSlot .write none)) p
      else .error .assertion

/-- `close(fd)`: the kernel forgets the descriptor. -/
def closeFd (e : Pollers ρ ω φ) (fd : Int) : Pollers ρ ω φ :=
  { e with kernel := Function.update e.kernel fd none }

def evClose (e : Pollers ρ ω φ) (fd : Int) : Except PollFault (Pollers ρ ω φ) :=
  match e.table fd with
  | none => .ok (closeFd e fd)
  | some p => do
      let r ← e.get p
      let e := { e with table := Function.update e.table fd none }
      let e ← markDirty (e.put p { r with fd := -1, rd := none, wr := none }) p
      return closeFd e fd

def epollCtlAdd (e : Pollers ρ ω φ) (fd : Int) (ev : EpollEvent ρ) :
    Except PollFault (Pollers ρ ω φ) :=
  match e.kernel fd with
  | none => .ok { e with kernel := Function.update e.kernel fd (some ev) }
  | some _ => .error .epollExists

def epollCtlMod (e : Pollers ρ ω φ) (fd : Int) (ev : EpollEvent ρ) :
    Except PollFault (Pollers ρ ω φ) :=
  match e.kernel fd with
  | some _ => .ok { e with kernel := Function.update e.kernel fd (some ev) }
  | none => .error .epollMissing

/-- `p->flags &= ~FLAG_DIRTY; p->next = NULL;` -/
def cleanPoll (r : EvloopPoll ρ ω) : EvloopPoll ρ ω :=
  { r with flags := r.flags &&& ~~~flagDirty, next := none }

/-- `int kernel = ...`: the mask the kernel is taken to have. -/
def EvloopPoll.kernelMask (r : EvloopPoll ρ ω) : Flags :=
  r.flags &&& (epollHup ||| epollIn ||| epollOut)

/-- A call to the allocator or to the kernel. `xcalloc` is for a descriptor, and `close` takes
its record along if it has one. -/
inductive SysCall (ρ : Type)
  | xcalloc (block : ρ) (fd : Int)
  | xfree (block : ρ)
  | ctlAdd (fd : Int) (ev : EpollEvent ρ)
  | ctlMod (fd : Int) (ev : EpollEvent ρ)
  | close (fd : Int) (record : Option ρ)
  deriving DecidableEq, Repr

/-- What becomes of a record that was cleaned, and the calls for that. -/
def updateKernelCalls (e : Pollers ρ ω φ) (p : ρ) (r : EvloopPoll ρ ω) :
    Except PollFault (Pollers ρ ω φ × List (SysCall ρ)) :=
  let ev : EpollEvent ρ := ⟨r.interest ||| epollEt, p⟩
  if r.fd < 0 then do
    let e ← xfree e p
    return (e, [.xfree p])
  else if r.interest ≠ 0 ∧ r.isAdded = false then do
    let e ← epollCtlAdd e r.fd ev
    return (e.put p { r with flags := r.flags ||| epollEt }, [.ctlAdd r.fd ev])
  else if r.interest ≠ r.kernelMask then do
    let e ← epollCtlMod e r.fd ev
    return (e, [.ctlMod r.fd ev])
  else .ok (e, [])

/-- The body of the dirty-list pass. -/
def flushRecordCalls (e : Pollers ρ ω φ) (p : ρ) (r : EvloopPoll ρ ω) :
    Except PollFault (Pollers ρ ω φ × List (SysCall ρ)) :=
  updateKernelCalls (e.put p (cleanPoll r)) p (cleanPoll r)

/-- The dirty-list pass from `p` on; the bound is the number of iterations allowed. -/
def flushFromCalls :
    Nat → Pollers ρ ω φ → Option ρ → Except PollFault (Pollers ρ ω φ × List (SysCall ρ))
  | _, e, none => .ok ({ e with dirtyList := none }, [])
  | 0, _, some _ => .error .endlessList
  | fuel + 1, e, some p => do
      let r ← e.get p
      let (e, calls) ← flushRecordCalls e p r
      let (e, later) ← flushFromCalls fuel e r.next
      return (e, calls ++ later)

def flushDirtyCalls (e : Pollers ρ ω φ) : Except PollFault (Pollers ρ ω φ × List (SysCall ρ)) :=
  flushFromCalls e.allocated.length e e.dirtyList

/-- The state that these leave. -/
def updateKernel (e : Pollers ρ ω φ) (p : ρ) (r : EvloopPoll ρ ω) :
    Except PollFault (Pollers ρ ω φ) := (updateKernelCalls e p r).map Prod.fst

def flushRecord (e : Pollers ρ ω φ) (p : ρ) (r : EvloopPoll ρ ω) :
    Except PollFault (Pollers ρ ω φ) := (flushRecordCalls e p r).map Prod.fst

def flushFrom (fuel : Nat) (e : Pollers ρ ω φ) (start : Option ρ) :
    Except PollFault (Pollers ρ ω φ) := (flushFromCalls fuel e start).map Prod.fst

def flushDirty (e : Pollers ρ ω φ) : Except PollFault (Pollers ρ ω φ) :=
  (flushDirtyCalls e).map Prod.fst

omit [DecidableEq ω]

theorem updateKernel_eq (e : Pollers ρ ω φ) (p : ρ) (r : EvloopPoll ρ ω) :
    updateKernel e p r =
      if r.fd < 0 then xfree e p
      else if r.interest ≠ 0 ∧ r.isAdded = false then do
        let e ← epollCtlAdd e r.fd ⟨r.interest ||| epollEt, p⟩
        return e.put p { r with flags := r.flags ||| epollEt }
      else if r.interest ≠ r.kernelMask then epollCtlMod e r.fd ⟨r.interest ||| epollEt, p⟩
      else .ok e := by
  unfold updateKernel updateKernelCalls
  dsimp only
  split
  · cases xfree e p <;> rfl
  split
  · cases epollCtlAdd e r.fd ⟨r.interest ||| epollEt, p⟩ <;> rfl
  split
  · cases epollCtlMod e r.fd ⟨r.interest ||| epollEt, p⟩ <;> rfl
  · rfl

theorem flushFrom_some (fuel : Nat) (e : Pollers ρ ω φ) (p : ρ) :
    flushFrom (fuel + 1) e (some p) = (do
      let r ← e.get p
      let e ← flushRecord e p r
      flushFrom fuel e r.next) := by
  simp only [flushFrom, flushFromCalls, flushRecord]
  cases e.get p with
  | error f => rfl
  | ok r =>
      simp only [ok_bind]
      cases flushRecordCalls e p r with
      | error f => rfl
      | ok flushed =>
          simp only [ok_bind, Except.map]
          cases flushFromCalls fuel flushed.1 r.next <;> rfl

end CThread.Poll
