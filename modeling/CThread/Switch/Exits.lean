import CThread.Switch.Backtrace
import CThread.Threads.Lifetime

/-!
Joins and exits at the level of the machine, and with them the machine of all functions of
`cthread.c` that switch.

`cthread_join` is two steps: up to its switch, and what follows when the joiner is taken up
again. Nothing comes in between, as that is code of one function. A thread that has exited is
left in a switch that nobody is to return from.
-/
namespace CThread.Switch
open Faults GuardedRuns X64
open X64.Cpu
open CThread.Threads (null cthreadAddress ThreadOp)

/-- The addresses of the fields after `yield_to`. -/
def exitToField (t : Word) : Word := slot t 7

def exitDataField (t : Word) : Word := slot t 8

def exitCodeField (t : Word) : Word := slot t 9

def finishedField (t : Word) : Word := slot t 10

/-- A `bool` is the lowest byte of its word. -/
def isSet (w : Word) : Bool := w.setWidth 8 != (0 : BitVec 8)

/-- The word with that byte written. -/
def setByte (w : Word) : Word := (w &&& ~~~255) ||| 1

deriving instance DecidableEq for ContextOutput

inductive CodeOp
  | context (op : ContextOp)
  | join (t dummy next : Word)
  /-- The rest of `cthread_join`, after its switch. -/
  | joinReturn (t : Word)
  | exit (code dummy next : Word)

inductive CodeOutput
  | context (out : ContextOutput)
  /-- `c` has returned from a join of `t`, or is about to, with the registers in `left`. -/
  | joined (c t : Word) (code : Int) (left : Context)
  deriving DecidableEq

/-- Up to the switch, or to the end if there is nothing to wait for. -/
def cthreadJoin (s : Contexts) (t dummy next : Word) : Except Fault (Contexts × CodeOutput) :=
  if s.self = null then .error .trap
  else do
    let finished ← s.cpu.read (finishedField t)
    if isSet finished then do
      let code ← s.cpu.read (exitCodeField t)
      return (s, .joined s.self t (code.setWidth 32).toInt (s.cpu.returning next))
    else do
      let cpu ← s.cpu.write (exitToField t) s.self
      let s' ← doYield { s with cpu := cpu } null s.self dummy next
      return (s', .context (.switched s.self (s.cpu.returning next) s'.self))

def joinReturn (s : Contexts) (t : Word) : Except Fault (Contexts × CodeOutput) := do
  let finished ← s.cpu.read (finishedField t)
  if isSet finished then do
    let cpu ← s.cpu.write (exitToField t) null
    let code ← cpu.read (exitCodeField t)
    return ({ s with cpu := cpu }, .joined s.self t (code.setWidth 32).toInt s.cpu.context)
  else .error .trap

def cthreadExit (s : Contexts) (code dummy next : Word) : Except Fault Contexts :=
  if s.self = null then .error .trap
  else do
    let finished ← s.cpu.read (finishedField s.self)
    if isSet finished then .error .trap
    else do
      let cpu ← s.cpu.write (finishedField s.self) (setByte finished)
      let cpu ← cpu.write (exitCodeField s.self) code
      let exitTo ← cpu.read (exitToField s.self)
      if exitTo ≠ null then do
        let data ← cpu.read (exitDataField s.self)
        cthreadTailcall { s with cpu := cpu } exitTo data dummy next
      else doYield { s with cpu := cpu } null s.self dummy next

def codeStep (L : Layout) (s : Contexts) : CodeOp → Except Fault (Contexts × CodeOutput)
  | .context op => do
      let (s', out) ← contextStep L s op
      return (s', .context out)
  | .join t dummy next => cthreadJoin s t dummy next
  | .joinReturn t => joinReturn s t
  | .exit code dummy next => do
      let s' ← cthreadExit s code dummy next
      return (s', .context (switched s s' next).2)

def codeMachine (L : Layout) : Machine Contexts CodeOp CodeOutput Fault :=
  ⟨codeStep L⟩

/-- The function of `cthread.c` that a step calls. -/
def ContextOp.threadOp : ContextOp → Option ThreadOp
  | .own _ | .altstack .. => none
  | .mainStart fn arg stack sz _ => some (.mainStart fn arg stack sz)
  | .start fn arg stack sz _ => some (.start fn arg stack sz)
  | .call tgt data _ => some (.call tgt data)
  | .tailcall tgt data _ _ => some (.tailcall tgt data)
  | .yield data _ _ => some (.yield data)

def CodeOp.threadOp : CodeOp → Option ThreadOp
  | .context op => op.threadOp
  | .join t _ _ => some (.join t)
  | .joinReturn _ => none
  | .exit code _ _ => some (.exit code)

/-- As `leave`, but a thread that exits is not to be taken up again. -/
def depart (exits : Bool) (saved : Word → Option Context) (src : Word) (left : Context)
    (tgt : Word) : Word → Option Context :=
  if exits then Function.update (leave saved src left tgt) src none else leave saved src left tgt

def CodeOp.exits : CodeOp → Bool
  | .exit .. => true
  | _ => false

def park (saved : Word → Option Context) (op : CodeOp) : CodeOutput → Word → Option Context
  | .context (.switched src left tgt) => depart op.exits saved src left tgt
  | _ => saved

/-- The contexts that wait to be taken up, each with what it is to find then. -/
abbrev parked (tr : Trace CodeOp CodeOutput) : Word → Option Context :=
  monitor park (fun _ => none) tr

def enterJoin (joins : Word → Option Word) : CodeOp → CodeOutput → Word → Option Word
  | .join t _ _, .context (.switched src _ _) => Function.update joins src (some t)
  | .joinReturn _, .joined c _ _ _ => Function.update joins c none
  | _, _ => joins

/-- The thread that each context is inside the join of. -/
abbrev joining (tr : Trace CodeOp CodeOutput) : Word → Option Word :=
  monitor enterJoin (fun _ => none) tr

/-- A thread was created at `t`. -/
def WasCreated (tr : Trace CodeOp CodeOutput) (t : Word) : Prop :=
  ∃ e ∈ tr, e.1.threadOp.bind ThreadOp.creates = some t

/-- There is stack for a switch that leaves no frame details for others. -/
structure Leaving (L : Layout) (s : Contexts) (dummy : Word) : Prop where
  fromThread : s.self ≠ null
  room : Room L s.self (s.cpu.reg .rsp)
  aligned : Aligned dummy
  onStack : L.Stack s.self dummy 3
  apart : ∀ j, j < 3 → s.cpu.reg .rsp - 8 ≠ slot dummy j

/-- A thread is created where none waits; one may have exited there. -/
structure Creating (L : Layout) (tr : Trace CodeOp CodeOutput) (s : Contexts) (t : Word) :
    Prop where
  fresh : FreshStack L s.self t
  unused : parked tr t = none
  room : Room L s.self (s.cpu.reg .rsp)

/-- A thread is called that waits off the chain, and not for a thread to exit. -/
structure Calling (L : Layout) (tr : Trace CodeOp CodeOutput) (s : Contexts) (tgt : Word) :
    Prop where
  notNull : tgt ≠ null
  target : ∃ k, parked tr tgt = some k
  spares : ∀ t, joining tr tgt = some t → isSet (s.cpu.mem (finishedField t)) = true
  off : ¬ s.OnChain tgt
  room : Room L s.self (s.cpu.reg .rsp)

/-- What the running context may do. Code that is not modelled writes only its own memory and
no control block. -/
def Permits (L : Layout) (tr : Trace CodeOp CodeOutput) (s : Contexts) : CodeOp → Prop
  | .context (.own cpu) =>
      (∀ a, ¬ L.Own s.self a → cpu.mem a = s.cpu.mem a) ∧ FieldsKept L null s.cpu.mem cpu.mem
  | .context (.mainStart _ _ stack sz _) =>
      s.self = null ∧ Creating L tr s (cthreadAddress stack sz)
  | .context (.start _ _ stack sz _) => s.self ≠ null ∧ Creating L tr s (cthreadAddress stack sz)
  | .context (.call tgt _ _) => Calling L tr s tgt
  | .context (.tailcall tgt _ dummy _) => Calling L tr s tgt ∧ Leaving L s dummy
  | .context (.yield _ dummy _) => Leaving L s dummy
  | .context (.altstack body fn arg0 arg1 next ret) =>
      AltRoom L s ∧ Obeys L body (altstackCall L s fn arg0 arg1 next ret) ∧
        FieldsKept L null (altstackCall L s fn arg0 arg1 next ret).mem
          (body (altstackCall L s fn arg0 arg1 next ret)).mem
  | .join t dummy _ => WasCreated tr t ∧ Leaving L s dummy
  | .joinReturn _ => False
  | .exit _ dummy _ => Leaving L s dummy

/-- A joiner that is taken up first returns from its join. -/
def CodeAdmits (L : Layout) (tr : Trace CodeOp CodeOutput) (s : Contexts) (op : CodeOp) :
    Prop :=
  match joining tr s.self with
  | some t => op = .joinReturn t
  | none => Permits L tr s op

variable {L : Layout} {saved : Word → Option Context} {s s' : Contexts} {t c code : Word}
  {mem mem' : Word → Word} {chain : List Word}

theorem Leaving.caller {dummy : Word} (leaving : Leaving L s dummy) :
    CallerRoom L s.self (s.cpu.reg .rsp) dummy :=
  ⟨leaving.aligned, fun _ inside => leaving.onStack.own inside, leaving.apart⟩

theorem isSet_setByte (w : Word) : isSet (setByte w) = true := by
  have mask : (~~~(255 : Word)).setWidth 8 = 0 := by decide
  have byte : (setByte w).setWidth 8 = 1 := by
    rw [setByte, BitVec.setWidth_or, BitVec.setWidth_and, mask]
    simp
  rw [isSet, byte]
  rfl

/-- Two different fields of control blocks. -/
theorem field_ne {u : Word} {i j : Nat} (thread : L.thread t) (other : L.thread u)
    (inside : i < 11) (inside' : j < 11) (ne : i ≠ j) : slot t i ≠ slot u j :=
  fun same => ne (Layout.block_inj thread other inside inside' same).2

/-- The running thread has named itself in the thread that it joins. -/
def Contexts.joins (s : Contexts) (t : Word) : Contexts :=
  { s with cpu := s.cpu.stored (exitToField t) s.self }

/-- The running thread has finished. -/
def Contexts.retires (s : Contexts) (code : Word) : Contexts :=
  { s with cpu := (s.cpu.stored (finishedField s.self)
      (setByte (s.cpu.mem (finishedField s.self)))).stored (exitCodeField s.self) code }

section Join
variable {dummy next : Word} (fromThread : s.self ≠ null) (thread : L.thread t)
include fromThread thread

theorem cthreadJoin_waits (unfinished : isSet (s.cpu.mem (finishedField t)) = false) :
    cthreadJoin s t dummy next = do
      let s' ← cthreadYield (s.joins t) null dummy next
      return (s', .context (.switched s.self (s.cpu.returning next) s'.self)) := by
  rw [cthreadJoin, if_neg fromThread]
  simp only [read_ok (show Aligned (finishedField t) from block_aligned thread 10), ok_bind,
    unfinished, Bool.false_eq_true, if_false,
    write_ok (show Aligned (exitToField t) from block_aligned thread 7)]
  rfl

theorem cthreadJoin_returns (finished : isSet (s.cpu.mem (finishedField t)) = true) :
    cthreadJoin s t dummy next = .ok (s, .joined s.self t
      ((s.cpu.mem (exitCodeField t)).setWidth 32).toInt (s.cpu.returning next)) := by
  rw [cthreadJoin, if_neg fromThread]
  simp only [read_ok (show Aligned (finishedField t) from block_aligned thread 10), ok_bind,
    finished, if_true, read_ok (show Aligned (exitCodeField t) from block_aligned thread 9),
    pure_eq_ok]

omit fromThread in
theorem joinReturn_ok (finished : isSet (s.cpu.mem (finishedField t)) = true) :
    joinReturn s t = .ok ({ s with cpu := s.cpu.stored (exitToField t) null }, .joined s.self t
      ((s.cpu.mem (exitCodeField t)).setWidth 32).toInt s.cpu.context) := by
  have apart : exitCodeField t ≠ exitToField t :=
    field_ne thread thread (by decide) (by decide) (by decide)
  simp only [joinReturn, read_ok (show Aligned (finishedField t) from block_aligned thread 10),
    ok_bind, finished, if_true,
    write_ok (show Aligned (exitToField t) from block_aligned thread 7),
    read_ok (show Aligned (exitCodeField t) from block_aligned thread 9),
    stored_mem_of_ne _ apart, pure_eq_ok]

end Join

section Exit
variable {dummy next : Word} (fromThread : s.self ≠ null) (thread : L.thread s.self)
  (unfinished : isSet (s.cpu.mem (finishedField s.self)) = false)

/-- `finished` and `exit_code` of the running thread are written, and nothing else. -/
theorem Contexts.retires_mem_of_ne {a : Word} (notFinished : a ≠ finishedField s.self)
    (notCode : a ≠ exitCodeField s.self) : (s.retires code).cpu.mem a = s.cpu.mem a :=
  (stored_mem_of_ne _ notCode _).trans (stored_mem_of_ne _ notFinished _)

include fromThread thread unfinished

theorem cthreadExit_reads : cthreadExit s code dummy next =
    if s.cpu.mem (exitToField s.self) ≠ null then
      cthreadTailcall (s.retires code) (s.cpu.mem (exitToField s.self))
        (s.cpu.mem (exitDataField s.self)) dummy next
    else cthreadYield (s.retires code) null dummy next := by
  have kept : ∀ i, i = 7 ∨ i = 8 →
      (s.retires code).cpu.mem (slot s.self i) = s.cpu.mem (slot s.self i) := fun i which =>
    Contexts.retires_mem_of_ne (field_ne thread thread (by omega) (by decide) (by omega))
      (field_ne thread thread (by omega) (by decide) (by omega))
  have exitTo : (s.retires code).cpu.mem (exitToField s.self) =
      s.cpu.mem (exitToField s.self) := kept 7 (.inl rfl)
  have exitData : (s.retires code).cpu.mem (exitDataField s.self) =
      s.cpu.mem (exitDataField s.self) := kept 8 (.inr rfl)
  have finishedAligned : Aligned (finishedField s.self) := block_aligned thread 10
  have codeAligned : Aligned (exitCodeField s.self) := block_aligned thread 9
  have exitToAligned : Aligned (exitToField s.self) := block_aligned thread 7
  have exitDataAligned : Aligned (exitDataField s.self) := block_aligned thread 8
  rw [cthreadExit, if_neg fromThread]
  simp only [read_ok finishedAligned, ok_bind, unfinished, Bool.false_eq_true, if_false,
    write_ok finishedAligned, write_ok codeAligned, read_ok exitToAligned,
    read_ok exitDataAligned]
  rw [← exitTo, ← exitData]
  rfl

end Exit

theorem Separated.joins (sep : Separated L saved s.self s.cpu.mem) (thread : L.thread t) :
    Separated L saved s.self (s.joins t).cpu.mem :=
  sep.touch (Touched.update s.self
    (.inr (Layout.field_free thread (by decide) (by decide) (by decide))))

theorem Separated.retires (sep : Separated L saved s.self s.cpu.mem)
    (thread : L.thread s.self) (code : Word) :
    Separated L saved s.self (s.retires code).cpu.mem :=
  have free : ∀ i, i < 11 → i ≠ 0 → i ≠ 4 → L.Own s.self (slot s.self i) :=
    fun _ inside notStack notMain => .inr (Layout.field_free thread inside notStack notMain)
  (sep.touch (Touched.update _ (free 10 (by decide) (by decide) (by decide)))).touch
    (Touched.update code (free 9 (by decide) (by decide) (by decide)))

theorem retires_links (thread : L.thread s.self) (code : Word) :
    BlocksKept L 1 7 s.cpu.mem (s.retires code).cpu.mem :=
  (BlocksKept.field thread (by decide) (by decide) (by decide) _).trans
    (BlocksKept.field thread (by decide) (by decide) (by decide) code)

section Depart
variable {exits : Bool} {src tgt : Word} {left : Context}

/-- A thread that has exited is no longer among those that wait. -/
theorem depart_separated (sep : Separated L (leave saved src left tgt) c mem)
    (notNull : exits = true → src ≠ null) :
    Separated L (depart exits saved src left tgt) c mem := by
  cases exits with
  | false => exact sep
  | true =>
      refine ⟨sep.known, ?_, fun d k at_d => ?_, fun fromThread => ?_⟩
      · by_cases same : c = src
        · exact same ▸ Function.update_self ..
        · exact (Function.update_of_ne same ..).trans sep.running
      · by_cases same : d = src
        · rw [same] at at_d
          exact absurd ((Function.update_self ..).symm.trans at_d) (Option.some_ne_none k).symm
        · exact sep.parked d k ((Function.update_of_ne same ..).symm.trans at_d)
      · obtain ⟨k, at_main⟩ := sep.main fromThread
        exact ⟨k, (Function.update_of_ne (notNull rfl).symm ..).trans at_main⟩

theorem depart_chain (here : Chain L (leave saved src left tgt) s chain)
    (off : exits = true → src ∉ chain.tail ++ [null]) :
    Chain L (depart exits saved src left tgt) s chain := by
  cases exits with
  | false => exact here
  | true =>
      exact ⟨here.self, here.nodup, here.backed.keep (fun _ _ _ _ _ => id) fun _ inside =>
        Function.update_of_ne (fun same : _ = src => off rfl (same ▸ inside)) ..⟩

end Depart

end CThread.Switch
