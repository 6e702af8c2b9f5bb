import CThread.Switch.Separation

/-!
What one operation of the running context does to the contexts that are suspended, and what
the context that runs afterwards finds in its registers.
-/
namespace CThread.Switch
open Faults GuardedRuns X64
open X64.Cpu
open CThread.Threads (null cthreadAddress)

variable {L : Layout} {saved : Word → Option Context} {src tgt : Word} {k : Context}
  {cpu : Cpu} {s : Contexts}

/-- There is stack for the return address and the six registers. -/
structure Room (L : Layout) (c sp : Word) : Prop where
  aligned : Aligned sp
  stack : L.Stack c (sp - 56) 7

/-- The frame details go to memory of the running context, off its return address. -/
structure CallerRoom (L : Layout) (c sp pcaller : Word) : Prop where
  aligned : Aligned pcaller
  own : ∀ j, j < 3 → L.Own c (slot pcaller j)
  apart : ∀ j, j < 3 → sp - 8 ≠ slot pcaller j

/-- `src` is left with `left` and `tgt` is taken up. -/
def leave (saved : Word → Option Context) (src : Word) (left : Context) (tgt : Word) :
    Word → Option Context :=
  Function.update (Function.update saved src (some left)) tgt none

theorem Room.apart_block (room : Room L src (cpu.reg .rsp)) {t : Word} (thread : L.thread t)
    {i : Nat} (inside : i < 11) : cpu.reg .rsp - 8 ≠ slot t i := fun same => by
  have top : slot (cpu.reg .rsp - 56) 6 = cpu.reg .rsp - 8 := by
    simp only [slot]
    bv_omega
  have here := room.stack.word (show 6 < 7 by decide)
  rw [top, same] at here
  exact Layout.block_off thread inside here

theorem Suspended.touched {next : Word} {mem : Word → Word} (saves : Suspended cpu next mem)
    (cell : cpu.reg .rdx = L.cell src) (room : Room L src (cpu.reg .rsp))
    (caller : CallerRoom L src (cpu.reg .rsp) (cpu.reg .rcx)) :
    Touched L src cpu.mem mem := fun a notOwn notCell => by
  refine saves.kept a (fun i inside same => ?_) (cell ▸ notCell) fun j inside same => ?_
  · exact notOwn (same ▸ room.stack.own inside)
  · exact notOwn (same ▸ caller.own j inside)

theorem Separated.leave {mem mem' : Word → Word} {left : Context}
    (sep : Separated L saved src mem) (target : saved tgt = some k)
    (touched : Touched L src mem mem') (parked : Parked L mem' src left) :
    Separated L (leave saved src left tgt) tgt mem' := by
  have valid := sep.known.valid
  have known : Known L mem' tgt := (sep.parked tgt k target).known.touch touched valid
  refine ⟨known, Function.update_self .., fun c k' at_c => ?_, fun notNull => ?_⟩
  · unfold Switch.leave at at_c
    by_cases atTarget : c = tgt
    · rw [atTarget, Function.update_self] at at_c
      cases at_c
    · rw [Function.update_of_ne atTarget] at at_c
      by_cases atSource : c = src
      · subst atSource
        rw [Function.update_self] at at_c
        cases at_c
        exact parked
      · rw [Function.update_of_ne atSource] at at_c
        exact (sep.parked c k' at_c).touch touched valid atSource
  · unfold Switch.leave
    rw [Function.update_of_ne (Ne.symm notNull)]
    by_cases fromMain : src = null
    · subst fromMain
      exact ⟨left, Function.update_self ..⟩
    · rw [Function.update_of_ne (Ne.symm fromMain)]
      exact sep.main fromMain

/-- The registers and the memory that `asmSwitch` enters the routine with. -/
def switchArgs (cpu : Cpu) (data load psave pcaller : Word) : Cpu :=
  (((cpu.set .rdi data).set .rsi load).set .rdx psave).set .rcx pcaller

theorem asmSwitch_ok (data next : Word) {pcaller : Word} (sep : Separated L saved src cpu.mem)
    (target : saved tgt = some k) (room : Room L src (cpu.reg .rsp))
    (caller : CallerRoom L src (cpu.reg .rsp) pcaller) :
    ∃ c', asmSwitch cpu data (k.rsp - 56) (L.cell src) pcaller next = .ok c' ∧
      c'.context = k ∧ c'.reg .rax = data ∧
      Separated L (leave saved src (cpu.returning next) tgt) tgt c'.mem := by
  have valid := sep.known.valid
  have parked := sep.parked tgt k target
  have ne : tgt ≠ src := fun same => by
    rw [same, sep.running] at target
    cases target
  let c := switchArgs cpu data (k.rsp - 56) (L.cell src) pcaller
  have load : Aligned (c.reg .rsi) := parked.aligned.sub (by decide)
  have sp : k.rsp = c.reg .rsi + 56 := (BitVec.sub_add_cancel ..).symm
  have off : ∀ i, i < 7 → c.reg .rdx ≠ slot (c.reg .rsp - 56) i := fun i inside same =>
    valid.fixed.off (a := L.cell src) (d := src) (by
      have same : L.cell src = slot (cpu.reg .rsp - 56) i := same
      rw [same]
      exact room.stack.word inside)
  have touched : ∀ mem, Suspended c next mem → Touched L src cpu.mem mem := fun mem saves =>
    saves.touched rfl room caller
  obtain ⟨c', run, context, result, _, saves, _⟩ :=
    callSwitch_ok id next (c := c) room.aligned valid.aligned caller.aligned caller.apart
      off load sp fun mem saves =>
        (parked.touch (touched mem saves) valid ne).frame
  refine ⟨c', run, context, result, sep.leave target (touched _ saves) ?_⟩
  exact ⟨sep.known.touch (touched _ saves) valid, room.aligned, saves.stack, room.stack,
    saves.frame⟩

end CThread.Switch
