import CThread.Switch.Asm
import CThread.Threads.Model
import CThread.Lib.Runs

/-!
The operations of `cthread.c` at the level of the machine: one processor, one memory, and
the thread-local pointer to the running thread.

A context is named as `cthread_self` names it, by `null` or by its control block. Each C
function is entered with the registers that the running context has at the call of the
assembly routine, and `next` is the instruction after that call. `cthread_join` and
`cthread_exit` write fields of control blocks and then yield or tailcall, so here they are a
step of the running context's own code and then one of these. `num_threads` is not kept.
-/
namespace CThread.Switch
open Faults GuardedRuns X64
open X64.Cpu (callRoutine)
open CThread.Threads (null cthreadAddress)

/-- Where the stacks, the control blocks and the `cthread_main` lie. `morestack` is the
address that thread functions return to. -/
structure Layout where
  m : Word
  morestack : Word
  thread : Word → Prop
  low : Word → Nat
  high : Word → Nat
  main_aligned : Aligned m
  thread_aligned : ∀ t, thread t → Aligned t
  thread_ne_null : ∀ t, thread t → t ≠ null
  block_fits : ∀ t, thread t → t.toNat + 88 ≤ 2 ^ 64
  stack_fits : ∀ c, high c ≤ 2 ^ 64
  stacks_apart : ∀ c d, c ≠ d → high c ≤ low d ∨ high d ≤ low c
  block_off_stack : ∀ t c, thread t → t.toNat + 88 ≤ low c ∨ high c ≤ t.toNat
  main_off_stack : ∀ c, m.toNat + 16 ≤ low c ∨ high c ≤ m.toNat
  blocks_apart : ∀ t u, thread t → thread u → t ≠ u →
    t.toNat + 88 ≤ u.toNat ∨ u.toNat + 88 ≤ t.toNat
  main_off_block : ∀ t, thread t → m.toNat + 16 ≤ t.toNat ∨ t.toNat + 88 ≤ m.toNat

structure Contexts where
  cpu : Cpu
  self : Word

/-- The addresses of the fields of `struct cthread`; `stack` is the first of them. -/
def callerField (t : Word) : Word := slot t 1

def mainField (t : Word) : Word := slot t 4

def yieldToField (t : Word) : Word := slot t 6

/-- The call of `cthread_asm_switch`, with its four arguments. -/
def asmSwitch (cpu : Cpu) (data load psave pcaller next : Word) : Except Fault Cpu :=
  callRoutine id cthreadAsmSwitch next
    ((((cpu.set .rdi data).set .rsi load).set .rdx psave).set .rcx pcaller)

/-- `&from->stack`, or `&to->main->stack` from the main context. -/
def saveCell (cpu : Cpu) (src tgt : Word) : Except Fault Word :=
  if src = null then cpu.read (mainField tgt) else .ok src

def cthreadCall (s : Contexts) (tgt data next : Word) : Except Fault Contexts := do
  let psave ← saveCell s.cpu s.self tgt
  let cpu ← s.cpu.write (yieldToField tgt) s.self
  let load ← cpu.read tgt
  let cpu ← asmSwitch cpu data load psave (callerField tgt) next
  return ⟨cpu, tgt⟩

/-- The `memcpy` of `caller`. -/
def copyCaller (cpu : Cpu) (tgt src : Word) : Except Fault Cpu := do
  let stack ← cpu.read (slot (callerField src) 0)
  let prev ← cpu.read (slot (callerField src) 1)
  let returnAddress ← cpu.read (slot (callerField src) 2)
  cpu.storeAll (callerField tgt) [stack, prev, returnAddress]

def cthreadTailcall (s : Contexts) (tgt data dummy next : Word) : Except Fault Contexts := do
  let yieldTo ← s.cpu.read (yieldToField s.self)
  let cpu ← s.cpu.write (yieldToField tgt) yieldTo
  let cpu ← copyCaller cpu tgt s.self
  let load ← cpu.read tgt
  let cpu ← asmSwitch cpu data load s.self dummy next
  return ⟨cpu, tgt⟩

/-- `to->stack`, or `from->main->stack` when there is no `to`. -/
def loadCell (cpu : Cpu) (src tgt : Word) : Except Fault Word :=
  if tgt = null then cpu.read (mainField src) else .ok tgt

def doYield (s : Contexts) (data src dummy next : Word) : Except Fault Contexts := do
  let tgt ← s.cpu.read (yieldToField src)
  let cell ← loadCell s.cpu src tgt
  let load ← s.cpu.read cell
  let cpu ← asmSwitch s.cpu data load src dummy next
  return ⟨cpu, tgt⟩

def cthreadYield (s : Contexts) (data dummy next : Word) : Except Fault Contexts :=
  doYield s data s.self dummy next

/-- `c` is the address of the control block; the frame of a thread that has not run lies
below it. -/
def createCthread (cpu : Cpu) (m fn c morestack : Word) : Except Fault Cpu := do
  let cpu ← cpu.storeAll c (List.replicate 11 0)
  let cpu ← cpu.storeAll (c - 64) [0, 0, 0, 0, 0, c + 16, fn, morestack]
  let cpu ← cpu.write c (c - 64)
  cpu.write (mainField c) m

def cthreadStart (L : Layout) (s : Contexts) (fn arg stack sz next : Word) :
    Except Fault Contexts := do
  let tgt := cthreadAddress stack sz
  let m ← s.cpu.read (mainField s.self)
  let cpu ← createCthread s.cpu m fn tgt L.morestack
  let cpu ← cpu.write (yieldToField tgt) s.self
  let load ← cpu.read tgt
  let cpu ← asmSwitch cpu arg load s.self (callerField tgt) next
  return ⟨cpu, tgt⟩

def cthreadMainStart (L : Layout) (s : Contexts) (fn arg stack sz next : Word) :
    Except Fault Contexts := do
  if s.self ≠ null then .error .trap
  else do
    let tgt := cthreadAddress stack sz
    let cpu ← createCthread s.cpu L.m fn tgt L.morestack
    let yieldTo ← cpu.read (yieldToField tgt)
    if yieldTo ≠ null then .error .trap
    else do
      let cpu ← cpu.write (yieldToField tgt) null
      let load ← cpu.read tgt
      let cpu ← asmSwitch cpu arg load L.m (callerField tgt) next
      return ⟨cpu, tgt⟩

/-- The call of `cthread_asm_altstack`, with its four arguments. -/
def asmAltstack (body : Cpu → Cpu) (cpu : Cpu) (arg0 arg1 load fn next ret : Word) :
    Except Fault Cpu :=
  callRoutine body (cthreadAsmAltstack ret) next
    ((((cpu.set .rdi arg0).set .rsi arg1).set .rdx load).set .rcx fn)

/-- `body` is what the function at `fn` does, from its entry to its return. -/
def cthreadAltstack (s : Contexts) (body : Cpu → Cpu) (fn arg0 arg1 next ret : Word) :
    Except Fault Contexts := do
  let c := s.self
  if c ≠ null then do
    let s := { s with self := null }
    let m ← s.cpu.read (mainField c)
    let load ← s.cpu.read m
    let cpu ← asmAltstack body s.cpu arg0 arg1 load fn next ret
    return ⟨cpu, c⟩
  else do
    let cpu ← ((s.cpu.set .rdi arg0).set .rsi arg1).callFunction body fn next
    return { s with cpu := cpu }

inductive ContextOp
  /-- Code of the running context that calls no operation. -/
  | own (cpu : Cpu)
  | mainStart (fn arg stack sz next : Word)
  | start (fn arg stack sz next : Word)
  | call (tgt data next : Word)
  | tailcall (tgt data dummy next : Word)
  | yield (data dummy next : Word)
  | altstack (body : Cpu → Cpu) (fn arg0 arg1 next ret : Word)

/-- A switch says which context was left, what it is to get back, and which one runs. -/
inductive ContextOutput
  | stayed
  | switched (src : Word) (left : Context) (tgt : Word)

def switched (s s' : Contexts) (next : Word) : Contexts × ContextOutput :=
  (s', .switched s.self (s.cpu.returning next) s'.self)

def contextStep (L : Layout) (s : Contexts) :
    ContextOp → Except Fault (Contexts × ContextOutput)
  | .own cpu => .ok ({ s with cpu := cpu }, .stayed)
  | .mainStart fn arg stack sz next => do
      let s' ← cthreadMainStart L s fn arg stack sz next
      return switched s s' next
  | .start fn arg stack sz next => do
      let s' ← cthreadStart L s fn arg stack sz next
      return switched s s' next
  | .call tgt data next => do
      let s' ← cthreadCall s tgt data next
      return switched s s' next
  | .tailcall tgt data dummy next => do
      let s' ← cthreadTailcall s tgt data dummy next
      return switched s s' next
  | .yield data dummy next => do
      let s' ← cthreadYield s data dummy next
      return switched s s' next
  | .altstack body fn arg0 arg1 next ret => do
      let s' ← cthreadAltstack s body fn arg0 arg1 next ret
      return (s', .stayed)

def contextMachine (L : Layout) : Machine Contexts ContextOp ContextOutput Fault :=
  ⟨contextStep L⟩

end CThread.Switch
