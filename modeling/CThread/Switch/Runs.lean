import CThread.Switch.Creation
import CThread.Switch.Altstack

/-!
Context preservation over whole runs. The record of who is suspended where is kept outside of
the machine, from what each switch said when it left.
-/
namespace CThread.Switch
open Faults GuardedRuns X64
open X64.Cpu
open CThread.Threads (null cthreadAddress)

variable {L : Layout} {saved : Word → Option Context} {s s' : Contexts} {op : ContextOp}
  {tr : Trace ContextOp ContextOutput} {tgt data next : Word} {k : Context} {c' : Cpu}

def suspend (saved : Word → Option Context) (_ : ContextOp) :
    ContextOutput → Word → Option Context
  | .stayed => saved
  | .switched src left tgt => leave saved src left tgt

/-- The contexts that are suspended, each with what it is to find when it is taken up. -/
abbrev suspended (tr : Trace ContextOp ContextOutput) : Word → Option Context :=
  monitor suspend (fun _ => none) tr

/-- What the running context may do: its own code writes only its own memory, a switch takes
up a context that is suspended, and a function on the alternate stack obeys the ABI. -/
def ContextAdmits (L : Layout) (tr : Trace ContextOp ContextOutput) (s : Contexts) :
    ContextOp → Prop
  | .own cpu => ∀ a, ¬ L.Own s.self a → cpu.mem a = s.cpu.mem a
  | .mainStart _ _ stack sz _ =>
      s.self = null ∧ FreshStack L s.self (cthreadAddress stack sz) ∧
        Room L s.self (s.cpu.reg .rsp)
  | .start _ _ stack sz _ =>
      s.self ≠ null ∧ FreshStack L s.self (cthreadAddress stack sz) ∧
        Room L s.self (s.cpu.reg .rsp)
  | .call tgt _ _ =>
      tgt ≠ null ∧ (∃ k, suspended tr tgt = some k) ∧ Room L s.self (s.cpu.reg .rsp)
  | .tailcall tgt _ dummy _ =>
      s.self ≠ null ∧ tgt ≠ null ∧ (∃ k, suspended tr tgt = some k) ∧
        Room L s.self (s.cpu.reg .rsp) ∧ CallerRoom L s.self (s.cpu.reg .rsp) dummy
  | .yield _ dummy _ =>
      s.self ≠ null ∧ (∃ k, suspended tr (s.cpu.mem (yieldToField s.self)) = some k) ∧
        Room L s.self (s.cpu.reg .rsp) ∧ CallerRoom L s.self (s.cpu.reg .rsp) dummy
  | .altstack body fn arg0 arg1 next ret =>
      AltRoom L s ∧ Obeys L body (altstackCall L s fn arg0 arg1 next ret)

/-- `s.self` is left to go on at `next`, and `tgt` goes on with `data` in `rax`. -/
structure TakesUp (s : Contexts) (next tgt : Word) (k : Context) (data : Word) (s' : Contexts)
    (out : ContextOutput) : Prop where
  left : out = .switched s.self (s.cpu.returning next) tgt
  self : s'.self = tgt
  context : s'.cpu.context = k
  data : s'.cpu.reg .rax = data

/-- The result of the function is there, and the main context still has its frame. -/
structure CallsOn (L : Layout) (s : Contexts) (body : Cpu → Cpu) (e : Cpu) (next : Word)
    (s' : Contexts) : Prop where
  self : s'.self = s.self
  context : s'.cpu.context = s.cpu.returning next
  result : s'.cpu.reg .rax = (body e).reg .rax
  stack : s.self ≠ null → s'.cpu.mem L.m = s.cpu.mem L.m
  frame : s.self ≠ null → ∀ i, i < 7 →
    s'.cpu.mem (slot (s.cpu.mem L.m) i) = s.cpu.mem (slot (s.cpu.mem L.m) i)

def Report (L : Layout) (saved : Word → Option Context) (s s' : Contexts)
    (out : ContextOutput) : ContextOp → Prop
  | .own _ => s'.self = s.self
  | .mainStart fn arg stack sz next | .start fn arg stack sz next =>
      TakesUp s next (cthreadAddress stack sz) (entryContext (cthreadAddress stack sz) fn) arg
        s' out
  | .call tgt data next | .tailcall tgt data _ next =>
      ∃ k, saved tgt = some k ∧ TakesUp s next tgt k data s' out
  | .yield data _ next =>
      ∃ tgt k, saved tgt = some k ∧ TakesUp s next tgt k data s' out
  | .altstack body fn arg0 arg1 next ret =>
      CallsOn L s body (altstackCall L s fn arg0 arg1 next ret) next s'

theorem Entered.takesUp (entered : Entered L saved s.self (s.cpu.returning next) tgt k data c') :
    TakesUp s next tgt k data ⟨c', tgt⟩ (.switched s.self (s.cpu.returning next) tgt) :=
  ⟨rfl, rfl, entered.context, entered.data⟩

/-- A switch that runs is recorded by the monitor and reported. -/
theorem Entered.step
    (entered : Entered L (suspended tr) s.self (s.cpu.returning next) tgt k data c')
    (stepped : contextStep L s op = .ok (switched s ⟨c', tgt⟩ next))
    (report : ∀ s' out, TakesUp s next tgt k data s' out → Report L (suspended tr) s s' out op) :
    ∃ s' out, contextStep L s op = .ok (s', out) ∧
      Separated L (suspended ((op, out) :: tr)) s'.self s'.cpu.mem ∧
      Report L (suspended tr) s s' out op :=
  ⟨_, _, stepped, entered.separated, report _ _ entered.takesUp⟩

theorem altstackStep_ok {body : Cpu → Cpu} {fn arg0 arg1 ret : Word}
    (sep : Separated L saved s.self s.cpu.mem) (room : AltRoom L s)
    (obeys : Obeys L body (altstackCall L s fn arg0 arg1 next ret)) :
    ∃ s', cthreadAltstack s body fn arg0 arg1 next ret = .ok s' ∧
      Separated L saved s'.self s'.cpu.mem ∧
      CallsOn L s body (altstackCall L s fn arg0 arg1 next ret) next s' := by
  by_cases fromMain : s.self = null
  · obtain ⟨c', run, returned, touched⟩ := cthreadAltstack_main_ok fromMain room obeys
    exact ⟨⟨c', s.self⟩, run, sep.touch touched, rfl, returned.context, returned.result,
      fun ne => absurd fromMain ne, fun ne => absurd fromMain ne⟩
  · obtain ⟨c', run, returned⟩ := cthreadAltstack_thread_ok sep fromMain room obeys
    refine ⟨⟨c', s.self⟩, run, ?_, rfl, returned.context, returned.result, fun _ => ?_,
      fun _ i inside => ?_⟩
    · rw [returned.mem]
      exact altstack_separated sep fromMain room obeys
    · rw [returned.mem]
      exact altstack_fixed sep fromMain room obeys (.inl rfl)
    · rw [returned.mem]
      exact altstack_frame sep fromMain room obeys i inside

/-- One step from contexts that do not overlap. -/
theorem contextStep_ok (sep : Separated L (suspended tr) s.self s.cpu.mem)
    (admitted : ContextAdmits L tr s op) :
    ∃ s' out, contextStep L s op = .ok (s', out) ∧
      Separated L (suspended ((op, out) :: tr)) s'.self s'.cpu.mem ∧
      Report L (suspended tr) s s' out op := by
  cases op with
  | own cpu =>
      exact ⟨⟨cpu, s.self⟩, .stayed, rfl, sep.touch fun a notOwn _ => admitted a notOwn, rfl⟩
  | mainStart fn arg stack sz next =>
      obtain ⟨fromMain, fresh, room⟩ := admitted
      obtain ⟨c', run, entered⟩ := cthreadMainStart_ok fn arg next sep fromMain fresh room
      exact entered.step (by rw [contextStep, run]; rfl) fun _ _ taken => taken
  | start fn arg stack sz next =>
      obtain ⟨fromThread, fresh, room⟩ := admitted
      obtain ⟨c', run, entered⟩ := cthreadStart_ok fn arg next sep fromThread fresh room
      exact entered.step (by rw [contextStep, run]; rfl) fun _ _ taken => taken
  | call tgt data next =>
      obtain ⟨ne, ⟨k, target⟩, room⟩ := admitted
      obtain ⟨c', run, entered⟩ := cthreadCall_ok data next sep target ne room
      exact entered.step (by rw [contextStep, run]; rfl) fun _ _ taken => ⟨k, target, taken⟩
  | tailcall tgt data dummy next =>
      obtain ⟨fromThread, ne, ⟨k, target⟩, room, caller⟩ := admitted
      obtain ⟨c', run, entered⟩ := cthreadTailcall_ok data next sep target ne fromThread
        room caller
      exact entered.step (by rw [contextStep, run]; rfl) fun _ _ taken => ⟨k, target, taken⟩
  | yield data dummy next =>
      obtain ⟨fromThread, ⟨k, target⟩, room, caller⟩ := admitted
      obtain ⟨c', run, entered⟩ := doYield_ok data next sep target fromThread room caller
      exact entered.step (by rw [contextStep, run]; rfl) fun _ _ taken => ⟨_, k, target, taken⟩
  | altstack body fn arg0 arg1 next ret =>
      obtain ⟨s', run, sep', calls⟩ := altstackStep_ok sep admitted.1 admitted.2
      exact ⟨s', .stayed, by rw [contextStep, run]; rfl, sep', calls⟩

theorem separated_init (cpu : Cpu) : Separated L (fun _ => none) null cpu.mem :=
  ⟨.inl rfl, rfl, fun _ _ at_c => (nomatch at_c), fun ne => absurd rfl ne⟩

theorem contextRun_separated {cpu : Cpu}
    (run : Run (contextMachine L) (ContextAdmits L) ⟨cpu, null⟩ tr s) :
    Separated L (suspended tr) s.self s.cpu.mem := by
  refine run.invariant (P := fun tr s => Separated L (suspended tr) s.self s.cpu.mem)
    (separated_init cpu) fun tr s op s' out sep admitted stepped => ?_
  obtain ⟨s'', out', run, sep', -⟩ := contextStep_ok sep admitted
  have same := stepped.symm.trans run
  cases same
  exact sep'

/-- In every run a context that is taken up goes on where it was left, with its stack pointer
and its callee-saved registers as they were there and the argument of the switch in `rax`; and
a call on the alternate stack returns to its caller with the result of the function and leaves
the frame of the main context alone. No step faults. -/
theorem contextRun_preserves {cpu : Cpu}
    (run : Run (contextMachine L) (ContextAdmits L) ⟨cpu, null⟩ tr s)
    (admitted : ContextAdmits L tr s op) :
    ∃ s' out, (contextMachine L).step s op = .ok (s', out) ∧
      Report L (suspended tr) s s' out op := by
  obtain ⟨s', out, stepped, -, report⟩ := contextStep_ok (contextRun_separated run) admitted
  exact ⟨s', out, stepped, report⟩

/-- One thread with a stack of a page. -/
def onePage : Layout where
  m := 65536
  morestack := 33
  thread t := t = 8096
  low c := if c = null then 1040384 else if c = 8096 then 4096 else 0
  high c := if c = null then 1048576 else if c = 8096 then 8096 else 0
  main_aligned := by decide
  thread_aligned t thread := by subst thread; decide
  thread_ne_null t thread := by subst thread; decide
  block_fits t thread := by subst thread; decide
  stack_fits c := by
    split
    · decide
    · split <;> decide
  stacks_apart c d ne := by
    by_cases c0 : c = null <;> by_cases d0 : d = null <;> by_cases c1 : c = 8096 <;>
      by_cases d1 : d = 8096 <;> simp_all
  block_off_stack t c thread := by
    subst thread
    by_cases main : c = null
    · rw [if_pos main, if_pos main]
      decide
    · rw [if_neg main, if_neg main]
      split <;> decide
  main_off_stack c := by
    by_cases main : c = null
    · rw [if_pos main, if_pos main]
      decide
    · rw [if_neg main, if_neg main]
      split <;> decide
  blocks_apart t u first second ne := absurd (first.trans second.symm) ne
  main_off_block t thread := by subst thread; decide

def freshCpu : Cpu :=
  ⟨fun r => if r = .rsp then 1048000 else if r = .rbx then 7 else 0, fun _ => 0, 0⟩

/-- The main context starts the thread, whose function then takes some stack. -/
def startOne : ContextOp := .mainStart 64 5 4096 4096 100

def started : Contexts := (contextMachine onePage).after ⟨freshCpu, null⟩ startOne

def deeper : Cpu := { started.cpu with reg := fun r => if r = .rsp then 8000 else 0 }

def yielding : Contexts := (contextMachine onePage).after started (.own deeper)

theorem yielding_run : Run (contextMachine onePage) (ContextAdmits onePage) ⟨freshCpu, null⟩
    [(.own deeper, .stayed),
      (startOne, .switched null ⟨100, 1048000, 0, 7, 0, 0, 0, 0⟩ 8096)] yielding := by
  refine .snoc (.snoc .nil ⟨rfl, ⟨rfl, ?_, ?_⟩, ?_, ?_⟩ (Machine.step_eq rfl)) (fun a _ => rfl)
    (Machine.step_eq rfl)
  · show onePage.Stack 8096 8032 8
    decide
  · decide
  · decide
  · show onePage.Stack null 1047944 7
    decide

theorem contextRun_preserves_yielding : ∃ s' out,
    (contextMachine onePage).step yielding (.yield 9 8040 200) = .ok (s', out) ∧
      Report onePage (suspended [(.own deeper, .stayed),
        (startOne, .switched null ⟨100, 1048000, 0, 7, 0, 0, 0, 0⟩ 8096)]) yielding s' out
        (.yield 9 8040 200) := by
  refine contextRun_preserves yielding_run
    ⟨?_, ⟨⟨100, 1048000, 0, 7, 0, 0, 0, 0⟩, rfl⟩, ⟨?_, ?_⟩, ?_, ?_, ?_⟩
  · show (8096 : Word) ≠ null
    decide
  · show Aligned 8000
    decide
  · show onePage.Stack 8096 7944 7
    decide
  · decide
  · intro j inside
    show onePage.Own 8096 (slot 8040 j)
    have room : onePage.Stack 8096 8040 3 := by decide
    exact room.own inside
  · intro j inside
    show (7992 : Word) ≠ slot 8040 j
    revert j
    decide

end CThread.Switch
