import CThread.Switch.Follows

/-!
Runs of the machine are runs of the model of the C code, and what follows for them: frames that
the unwinder finds, and joins that return what their threads have exited with.
-/
namespace CThread.Switch
open Faults GuardedRuns X64
open X64.Cpu
open CThread.Threads (null World CallSite ThreadOutput Activation Framed threadMachine
  ThreadAllows activationOf)

variable {L : Layout} {s s' : Contexts} {op : CodeOp} {tr : Trace CodeOp CodeOutput}
  {tr' : Trace (CallSite × Threads.ThreadOp) ThreadOutput} {w : World} {t : Word} {l : List Word}

/-- The context that goes on is the one that the machine runs, and its value is in `rax`. -/
def GoesOn (s' : Contexts) : ThreadOutput → Prop
  | .resumes c _ value => c = s'.self ∧ value = s'.cpu.reg .rax
  | .joined c _ _ => c = s'.self

theorem goesOn {o : ThreadOutput} (context : o.context = s'.self)
    (rax : ∀ c p v, o = .resumes c p v → s'.cpu.reg .rax = v) : GoesOn s' o := by
  cases o with
  | resumes c p v => exact ⟨context, (rax c p v rfl).symm⟩
  | joined c t code => exact context

/-- Every join that returns does so after its thread has exited, with the low half of what it
exited with. -/
def JoinsReturnCodes : Trace CodeOp CodeOutput → Prop
  | [] => True
  | (_, out) :: tr => JoinsReturnCodes tr ∧ ∀ c t result left, out = .joined c t result left →
      ∃ code, exitCodeOf t tr = some code ∧ result = (code.setWidth 32).toInt

/-- Two threads, each with a stack of a page. -/
def twoPages : Layout where
  m := 69632
  morestack := 33
  thread t := t = 8096 ∨ t = 20384
  low c := if c = null then 1040384 else if c = 8096 then 4096 else if c = 20384 then 16384 else 0
  high c :=
    if c = null then 1048576 else if c = 8096 then 8096 else if c = 20384 then 20384 else 0
  main_aligned := by decide
  thread_aligned t thread := by rcases thread with rfl | rfl <;> decide
  thread_ne_null t thread := by rcases thread with rfl | rfl <;> decide
  block_fits t thread := by rcases thread with rfl | rfl <;> decide
  stack_fits c := by split_ifs <;> decide
  stacks_apart c d ne := by split_ifs <;> simp_all
  block_off_stack t c thread := by rcases thread with rfl | rfl <;> split_ifs <;> decide
  main_off_stack c := by split_ifs <;> decide
  blocks_apart t u first second ne := by
    rcases first with rfl | rfl <;> rcases second with rfl | rfl
    · exact absurd rfl ne
    · decide
    · decide
    · exact absurd rfl ne
  main_off_block t thread := by rcases thread with rfl | rfl <;> decide

/-- The running context takes stack down to `sp`. -/
def deepened (s : Contexts) (sp : Word) : Contexts :=
  { s with cpu := { s.cpu with reg := fun r => if r = .rsp then sp else 0 } }

/-- A thread starts a second one, which joins it, and exits. -/
def launched : Contexts := (codeMachine twoPages).after ⟨freshCpu, null⟩ (.context startOne)

def startSecond : CodeOp := .context (.start 128 6 16384 4096 200)

def paired : Contexts := (codeMachine twoPages).after (deepened launched 8000) startSecond

def waited : Contexts :=
  (codeMachine twoPages).after (deepened paired 20000) (.join 8096 20040 300)

end CThread.Switch
