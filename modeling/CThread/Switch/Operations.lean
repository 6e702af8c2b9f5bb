import CThread.Switch.Preservation

/-!
The C functions that switch: each finds the frame of the context it takes up.
-/
namespace CThread.Switch
open Faults GuardedRuns X64
open X64.Cpu
open CThread.Threads (null cthreadAddress)

variable {L : Layout} {saved : Word → Option Context} {src tgt t : Word} {k : Context}
  {cpu : Cpu} {s : Contexts} {pcaller dummy : Word}

/-- The context that runs after a switch. -/
structure Entered (L : Layout) (saved : Word → Option Context) (src : Word) (left : Context)
    (tgt : Word) (k : Context) (data : Word) (cpu : Cpu) : Prop where
  context : cpu.context = k
  data : cpu.reg .rax = data
  separated : Separated L (leave saved src left tgt) tgt cpu.mem

theorem block_aligned (thread : L.thread t) (i : Nat) : Aligned (slot t i) :=
  (L.thread_aligned t thread).slot i

theorem mainField_aligned (thread : L.thread t) : Aligned (mainField t) := block_aligned thread 4

theorem yieldToField_aligned (thread : L.thread t) : Aligned (yieldToField t) :=
  block_aligned thread 6

theorem Separated.ne_null (sep : Separated L saved src cpu.mem) (ne : src ≠ null) :
    L.thread src ∧ cpu.mem (mainField src) = L.m :=
  sep.known.resolve_left ne

theorem Separated.target (sep : Separated L saved src cpu.mem) (target : saved tgt = some k)
    (ne : tgt ≠ null) : L.thread tgt ∧ cpu.mem (mainField tgt) = L.m :=
  (sep.parked tgt k target).known.resolve_left ne

variable (data next : Word)

/-- The three steps that end every switch: load the stack pointer, switch, return. -/
theorem takeUp_ok (sep : Separated L saved src cpu.mem) (target : saved tgt = some k)
    (room : Room L src (cpu.reg .rsp)) (caller : CallerRoom L src (cpu.reg .rsp) pcaller) :
    ∃ c', (do
        let load ← cpu.read (L.cell tgt)
        let cpu ← asmSwitch cpu data load (L.cell src) pcaller next
        return (⟨cpu, tgt⟩ : Contexts)) = .ok ⟨c', tgt⟩ ∧
      Entered L saved src (cpu.returning next) tgt k data c' := by
  have parked := sep.parked tgt k target
  obtain ⟨c', run, context, result, sep'⟩ :=
    asmSwitch_ok data next sep target room caller
  refine ⟨c', ?_, context, result, sep'⟩
  rw [read_ok parked.known.valid.aligned, ok_bind, parked.stack, run]
  rfl

theorem CallerRoom.block (room : Room L src (cpu.reg .rsp)) (thread : L.thread t) :
    CallerRoom L src (cpu.reg .rsp) (callerField t) := by
  refine ⟨block_aligned thread 1, fun j inside => ?_, fun j inside => ?_⟩
  · rw [callerField, slot_slot]
    exact .inr (Layout.field_free thread (by omega) (by omega) (by omega))
  · rw [callerField, slot_slot]
    exact room.apart_block thread (by omega)

theorem yieldTo_free (thread : L.thread t) : L.Free (yieldToField t) :=
  Layout.field_free thread (by decide) (by decide) (by decide)

theorem saveCell_ok (known : Known L cpu.mem tgt) (ne : tgt ≠ null) :
    saveCell cpu src tgt = .ok (L.cell src) := by
  obtain ⟨thread, main⟩ := known.resolve_left ne
  unfold saveCell Layout.cell
  split
  · rw [read_ok (mainField_aligned thread)]
    exact congrArg _ main
  · rfl

theorem cthreadCall_ok (sep : Separated L saved s.self s.cpu.mem) (target : saved tgt = some k)
    (ne : tgt ≠ null) (room : Room L s.self (s.cpu.reg .rsp)) :
    ∃ c', cthreadCall s tgt data next = .ok ⟨c', tgt⟩ ∧
      Entered L saved s.self (s.cpu.returning next) tgt k data c' := by
  obtain ⟨thread, -⟩ := sep.target target ne
  have sep' : Separated L saved s.self (s.cpu.stored (yieldToField tgt) s.self).mem :=
    sep.touch (Touched.update s.self (.inr (yieldTo_free thread)))
  obtain ⟨c', run, entered⟩ := takeUp_ok data next sep' target room (.block room thread)
  refine ⟨c', ?_, entered⟩
  rw [Layout.cell_of_ne ne] at run
  rw [cthreadCall, saveCell_ok (sep.parked tgt k target).known ne, ok_bind,
    write_ok (yieldToField_aligned thread), ok_bind, run]

theorem copyCaller_ok (cpu : Cpu) (source : L.thread src) (thread : L.thread t) :
    ∃ c', copyCaller cpu t src = .ok c' ∧ c'.reg = cpu.reg ∧ Touched L src cpu.mem c'.mem := by
  obtain ⟨c', run, stored⟩ := storeAll_ok cpu (a := callerField t)
    [cpu.mem (slot (callerField src) 0), cpu.mem (slot (callerField src) 1),
      cpu.mem (slot (callerField src) 2)] (block_aligned thread 1) (by simp)
  have aligned : ∀ j, Aligned (slot (callerField src) j) := (block_aligned source 1).slot
  refine ⟨c', ?_, stored.reg, fun a notOwn _ => stored.kept a fun i inside same => notOwn ?_⟩
  · simp only [copyCaller, read_ok (aligned _), ok_bind, run]
  · have inside : i < 3 := inside
    rw [same, callerField, slot_slot]
    exact .inr (Layout.field_free thread (by omega) (by omega) (by omega))

theorem returning_congr {c c' : Cpu} (same : c'.reg = c.reg) (next : Word) :
    c'.returning next = c.returning next := by
  simp only [Cpu.returning, Cpu.context, same]

theorem cthreadTailcall_ok (sep : Separated L saved s.self s.cpu.mem)
    (target : saved tgt = some k) (ne : tgt ≠ null) (fromThread : s.self ≠ null)
    (room : Room L s.self (s.cpu.reg .rsp))
    (caller : CallerRoom L s.self (s.cpu.reg .rsp) dummy) :
    ∃ c', cthreadTailcall s tgt data dummy next = .ok ⟨c', tgt⟩ ∧
      Entered L saved s.self (s.cpu.returning next) tgt k data c' := by
  obtain ⟨thread, -⟩ := sep.target target ne
  obtain ⟨source, -⟩ := sep.ne_null fromThread
  let c₁ := s.cpu.stored (yieldToField tgt) (s.cpu.mem (yieldToField s.self))
  have sep₁ : Separated L saved s.self c₁.mem :=
    sep.touch (Touched.update _ (.inr (yieldTo_free thread)))
  obtain ⟨c₂, copied, reg, touched⟩ := copyCaller_ok c₁ source thread
  have reg : c₂.reg = s.cpu.reg := reg
  obtain ⟨c', run, entered⟩ := takeUp_ok data next
    (sep₁.touch touched) target (reg ▸ room) (reg ▸ caller)
  rw [returning_congr reg] at entered
  refine ⟨c', ?_, entered⟩
  rw [Layout.cell_of_ne ne, Layout.cell_of_ne fromThread] at run
  rw [cthreadTailcall, read_ok (yieldToField_aligned source), ok_bind,
    write_ok (yieldToField_aligned thread), ok_bind, copied, ok_bind, run]

theorem loadCell_ok (known : Known L cpu.mem src) (ne : src ≠ null) :
    loadCell cpu src tgt = .ok (L.cell tgt) := by
  obtain ⟨thread, main⟩ := known.resolve_left ne
  unfold loadCell Layout.cell
  split
  · rw [read_ok (mainField_aligned thread)]
    exact congrArg _ main
  · rfl

theorem doYield_ok (sep : Separated L saved s.self s.cpu.mem)
    (target : saved (s.cpu.mem (yieldToField s.self)) = some k) (fromThread : s.self ≠ null)
    (room : Room L s.self (s.cpu.reg .rsp))
    (caller : CallerRoom L s.self (s.cpu.reg .rsp) dummy) :
    ∃ c', cthreadYield s data dummy next =
        .ok ⟨c', s.cpu.mem (yieldToField s.self)⟩ ∧
      Entered L saved s.self (s.cpu.returning next) (s.cpu.mem (yieldToField s.self)) k data
        c' := by
  obtain ⟨source, -⟩ := sep.ne_null fromThread
  obtain ⟨c', run, entered⟩ :=
    takeUp_ok data next sep target room caller
  refine ⟨c', ?_, entered⟩
  rw [Layout.cell_of_ne fromThread] at run
  rw [cthreadYield, doYield, read_ok (yieldToField_aligned source), ok_bind,
    loadCell_ok sep.known fromThread, ok_bind, run]

end CThread.Switch
