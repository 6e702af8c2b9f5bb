import CThread.Lib.X64

/-!
The routines of `cthread.sysv64.s`, and what a call of each does to the registers and to
memory.
-/
namespace CThread.Switch
open Faults X64
open X64.Cpu

def cthreadAsmSwitch : List Instr :=
  [.lea 8 .rsp .rax,
   .store .rax 0 .rcx,
   .store .rbp 8 .rcx,
   .load 0 .rsp .rax,
   .store .rax 16 .rcx,
   .push .rbp,
   .push .rbx,
   .push .r12,
   .push .r13,
   .push .r14,
   .push .r15,
   .store .rsp 0 .rdx,
   .mov .rsi .rsp,
   .pop .r15,
   .pop .r14,
   .pop .r13,
   .pop .r12,
   .pop .rbx,
   .pop .rbp,
   .mov .rdi .rax,
   .ret]

/-- `ret` is the address of the instruction after `call *%rcx`. -/
def cthreadAsmAltstack (ret : Word) : List Instr :=
  [.xchg .rdx .rsp,
   .push .rdx,
   .call .rcx ret,
   .pop .rsp,
   .ret]

/-- The words that a suspended context has on its stack, lowest first. -/
def frameWords (k : Context) : List Word :=
  [k.r15, k.r14, k.r13, k.r12, k.rbx, k.rbp, k.rip]

def nonVolatile : List Reg := [.rbp, .rbx, .r12, .r13, .r14, .r15]

def saveFrame : List Instr :=
  [.lea 8 .rsp .rax, .store .rax 0 .rcx, .store .rbp 8 .rcx, .load 0 .rsp .rax,
    .store .rax 16 .rcx]

def switchPoint : List Instr :=
  .mov .rsi .rsp :: (nonVolatile.reverse.map .pop ++ [.mov .rdi .rax, .ret])

theorem cthreadAsmSwitch_eq :
    cthreadAsmSwitch =
      saveFrame ++ (nonVolatile.map .push ++ (.store .rsp 0 .rdx :: switchPoint)) := rfl

/-- None of them carries an argument or the result. -/
theorem nonVolatile_ne {r : Reg} (inside : r ∈ nonVolatile) :
    r ≠ .rsp ∧ r ≠ .rax ∧ r ≠ .rdx ∧ r ≠ .rsi ∧ r ≠ .rdi := by
  revert r
  decide

variable {body : Cpu → Cpu} {c : Cpu} {next : Word}

theorem context_returning {c' : Cpu} (rip : c'.rip = next) (rsp : c'.reg .rsp = c.reg .rsp)
    (kept : ∀ r, r ∈ nonVolatile → c'.reg r = c.reg r) : c'.context = c.returning next :=
  Context.ext rip rsp (kept .rbp (by decide)) (kept .rbx (by decide)) (kept .r12 (by decide))
    (kept .r13 (by decide)) (kept .r14 (by decide)) (kept .r15 (by decide))

/-- The state after the frame details have gone to the three words at `rcx`. -/
def framed (c : Cpu) : Cpu :=
  let named := ((c.set .rax (c.reg .rsp + 8)).stored (c.reg .rcx) (c.reg .rsp + 8)).stored
    (c.reg .rcx + 8) (c.reg .rbp)
  let returned := named.mem (c.reg .rsp)
  (named.set .rax returned).stored (c.reg .rcx + 16) returned

theorem exec_saveFrame (stack : Aligned (c.reg .rsp)) (caller : Aligned (c.reg .rcx))
    (rest : List Instr) : exec body (saveFrame ++ rest) c = exec body rest (framed c) := by
  have second : Aligned (c.reg .rcx + 8) := caller.add (by decide)
  have third : Aligned (c.reg .rcx + 16) := caller.add (by decide)
  simp only [saveFrame, framed, List.cons_append, List.nil_append, exec, step, ok_bind,
    pure_eq_ok, displace_zero, stored_reg, set_reg_self, set_reg_of_ne, ne_eq, reduceCtorEq,
    not_false_eq_true, write_ok caller, write_ok second, write_ok third, read_ok stack]

theorem framed_reg {r : Reg} (ne : r ≠ .rax) : (framed c).reg r = c.reg r := by
  simp only [framed, stored_reg, set_reg_of_ne _ ne]

theorem framed_mem {a : Word} (outside : ∀ j, j < 3 → a ≠ slot (c.reg .rcx) j) :
    (framed c).mem a = c.mem a := by
  have first : a ≠ c.reg .rcx := by simpa [slot] using outside 0 (by decide)
  have second : a ≠ c.reg .rcx + 8 := by simpa [slot] using outside 1 (by decide)
  have third : a ≠ c.reg .rcx + 16 := by simpa [slot] using outside 2 (by decide)
  simp only [framed, stored_mem_of_ne _ first, stored_mem_of_ne _ second,
    stored_mem_of_ne _ third, set_mem]

/-- The frame details, as the unwinder finds them. -/
theorem framed_caller (apart : ∀ j, j < 3 → c.reg .rsp ≠ slot (c.reg .rcx) j) :
    Holds (framed c).mem (c.reg .rcx) [c.reg .rsp + 8, c.reg .rbp, c.mem (c.reg .rsp)] := by
  have first : c.reg .rsp ≠ c.reg .rcx := by simpa [slot] using apart 0 (by decide)
  have second : c.reg .rsp ≠ c.reg .rcx + 8 := by simpa [slot] using apart 1 (by decide)
  have next : c.reg .rcx ≠ c.reg .rcx + 8 := by bv_omega
  have last : c.reg .rcx ≠ c.reg .rcx + 16 := by bv_omega
  have above : c.reg .rcx + 8 ≠ c.reg .rcx + 16 := by bv_omega
  have third : c.reg .rcx + 8 + 8 = c.reg .rcx + 16 := by bv_omega
  simp only [Holds, framed, third, stored_mem_self, stored_mem_of_ne _ next,
    stored_mem_of_ne _ last, stored_mem_of_ne _ above, stored_mem_of_ne _ first,
    stored_mem_of_ne _ second, set_mem, and_self]

/-- What memory holds once the running context is off its stack. -/
structure Suspended (c : Cpu) (next : Word) (mem : Word → Word) : Prop where
  stack : mem (c.reg .rdx) = c.reg .rsp - 56
  frame : Holds mem (c.reg .rsp - 56) (frameWords (c.returning next))
  kept : ∀ a, (∀ i, i < 7 → a ≠ slot (c.reg .rsp - 56) i) → a ≠ c.reg .rdx →
    (∀ j, j < 3 → a ≠ slot (c.reg .rcx) j) → mem a = c.mem a

/-- Nothing that is saved after the frame details lies over them. -/
structure CallerApart (c : Cpu) : Prop where
  stack : ∀ i j, i < 7 → j < 3 → slot (c.reg .rcx) j ≠ slot (c.reg .rsp - 56) i
  save : ∀ j, j < 3 → slot (c.reg .rcx) j ≠ c.reg .rdx

/-- The frame details are named, and the frame is on the stack. -/
structure FramePushed (c : Cpu) (next : Word) (c' : Cpu) : Prop where
  rsp : c'.reg .rsp = c.reg .rsp - 56
  reg : ∀ r, r ≠ .rsp → r ≠ .rax → c'.reg r = c.reg r
  frame : Holds c'.mem (c.reg .rsp - 56) (frameWords (c.returning next))
  kept : ∀ a, (∀ i, i < 7 → a ≠ slot (c.reg .rsp - 56) i) →
    (∀ j, j < 3 → a ≠ slot (c.reg .rcx) j) → c'.mem a = c.mem a
  caller : CallerApart c → Holds c'.mem (c.reg .rcx) [c.reg .rsp, c.reg .rbp, next]

/-- Up to where the stack pointer is saved. The return address is read again for the debugger,
so the frame details must not lie over it. -/
theorem callSwitch_pushes (body : Cpu → Cpu) (next : Word) (stack : Aligned (c.reg .rsp))
    (caller : Aligned (c.reg .rcx)) (apart : ∀ j, j < 3 → c.reg .rsp - 8 ≠ slot (c.reg .rcx) j) :
    ∃ c', callRoutine body cthreadAsmSwitch next c =
        exec body (.store .rsp 0 .rdx :: switchPoint) c' ∧ FramePushed c next c' := by
  let entry := c.pushed next
  have entryStack : Aligned (entry.reg .rsp) := stack.sub (by decide)
  have offStack : Reg.rsp ∉ nonVolatile := by decide
  obtain ⟨c', run, pushes⟩ := exec_pushes body (c := framed entry)
    (by rw [framed_reg (by decide)]; exact entryStack) offStack
    (.store .rsp 0 .rdx :: switchPoint)
  have sp : c'.reg .rsp = c.reg .rsp - 56 := by
    rw [pushes.rsp, framed_reg (by decide), pushed_rsp]
    show c.reg .rsp - 8 - 48 = c.reg .rsp - 56
    bv_omega
  refine ⟨c', ?_, sp, fun r notSp notRax => ?_, ?_, fun a outside notCaller => ?_, fun above => ?_⟩
  · rw [callRoutine, pushWord_ok stack, ok_bind, cthreadAsmSwitch_eq,
      exec_saveFrame entryStack caller, run]
  · exact (pushes.reg r notSp).trans ((framed_reg notRax).trans (pushed_reg c next notSp))
  · have kept : nonVolatile.map (framed entry).reg = nonVolatile.map c.reg := by
      refine List.map_congr_left fun r inside => ?_
      obtain ⟨notRsp, notRax, -⟩ := nonVolatile_ne inside
      exact (framed_reg notRax).trans (pushed_reg c next notRsp)
    have returned : (framed entry).mem (c.reg .rsp - 8) = next :=
      (framed_mem (c := entry) apart).trans (Function.update_self ..)
    have short : [next].length + nonVolatile.length < 2 ^ 60 := by simp [nonVolatile]
    have holds := pushes.holds [next] short (by
      rw [framed_reg (by decide), pushed_rsp]
      exact ⟨returned, trivial⟩)
    rw [kept, sp] at holds
    exact holds
  · have top : a ≠ c.reg .rsp - 8 := by
      have above := outside 6 (by decide)
      simp only [slot] at above
      bv_omega
    rw [pushes.mem a fun i inside => ?_, framed_mem (c := entry) notCaller]
    · exact Function.update_of_ne top ..
    · rw [sp]
      exact outside i (Nat.lt_succ_of_lt inside)
  · have details := framed_caller (c := entry) (by
      rw [pushed_rsp]
      exact apart)
    have returned : entry.mem (c.reg .rsp - 8) = next := Function.update_self ..
    rw [pushed_rsp, BitVec.sub_add_cancel, returned, pushed_reg c next (by decide),
      pushed_reg c next (by decide)] at details
    refine details.congr fun j inside => ?_
    rw [pushes.mem _ fun i low => ?_]
    rw [sp]
    exact above.stack i j (Nat.lt_succ_of_lt low) inside

/-- The save half. -/
theorem callSwitch_saves (body : Cpu → Cpu) (stack : Aligned (c.reg .rsp))
    (save : Aligned (c.reg .rdx)) (caller : Aligned (c.reg .rcx))
    (apart : ∀ j, j < 3 → c.reg .rsp - 8 ≠ slot (c.reg .rcx) j)
    (off : ∀ i, i < 7 → c.reg .rdx ≠ slot (c.reg .rsp - 56) i) :
    ∃ c', callRoutine body cthreadAsmSwitch next c = exec body switchPoint c' ∧
      c'.reg .rdi = c.reg .rdi ∧ c'.reg .rsi = c.reg .rsi ∧ Suspended c next c'.mem ∧
      (CallerApart c → Holds c'.mem (c.reg .rcx) [c.reg .rsp, c.reg .rbp, next]) := by
  obtain ⟨c₁, run, pushed⟩ := callSwitch_pushes body next stack caller apart
  have cell : c₁.reg .rdx = c.reg .rdx := pushed.reg .rdx (by decide) (by decide)
  have save' : Aligned (c₁.reg .rdx) := by rwa [cell]
  refine ⟨c₁.stored (c₁.reg .rdx) (c₁.reg .rsp), ?_, ?_, ?_, ⟨?_, ?_, ?_⟩, fun above => ?_⟩
  · rw [run, exec_cons]
    simp only [step, displace_zero, write_ok save']
  · exact pushed.reg .rdi (by decide) (by decide)
  · exact pushed.reg .rsi (by decide) (by decide)
  · rw [← pushed.rsp, ← cell, stored_mem_self]
  · refine pushed.frame.congr fun i inside => stored_mem_of_ne _ (fun same => ?_) _
    exact off i inside (cell.symm.trans same.symm)
  · intro a outside ne notCaller
    rw [stored_mem_of_ne _ (cell ▸ ne)]
    exact pushed.kept a outside notCaller
  · refine (pushed.caller above).congr fun j inside => stored_mem_of_ne _ ?_ _
    rw [cell]
    exact above.save j inside

/-- The word of a frame that is popped into a register. -/
def frameWord (k : Context) : Reg → Word
  | .rbp => k.rbp
  | .rbx => k.rbx
  | .r12 => k.r12
  | .r13 => k.r13
  | .r14 => k.r14
  | .r15 => k.r15
  | _ => k.rsp

/-- The load half. -/
theorem exec_switchPoint (body : Cpu → Cpu) {k : Context} (load : Aligned (c.reg .rsi))
    (frame : Holds c.mem (c.reg .rsi) (frameWords k)) (sp : k.rsp = c.reg .rsi + 56) :
    ∃ c', exec body switchPoint c = .ok c' ∧ c'.context = k ∧
      c'.reg .rax = c.reg .rdi ∧ c'.reg .rdi = c.reg .rdi ∧ c'.mem = c.mem := by
  let loaded := c.set .rsp (c.reg .rsi)
  have here : loaded.reg .rsp = c.reg .rsi := set_reg_self ..
  have aligned : Aligned (loaded.reg .rsp) := by rwa [here]
  have frame' : Holds loaded.mem (loaded.reg .rsp)
      (nonVolatile.reverse.map (frameWord k) ++ [k.rip]) := by
    rw [here]
    exact frame
  obtain ⟨c₁, run, pops⟩ := exec_pops body aligned (by decide) frame'
    [.mov .rdi .rax, .ret]
  have sp₁ : c₁.reg .rsp = c.reg .rsi + 48 := by
    rw [pops.rsp, here]
    rfl
  have bottom : Aligned (c₁.reg .rsp) := by
    rw [sp₁]
    exact load.add (by decide)
  have word : ∀ r, r ∈ nonVolatile → c₁.reg r = frameWord k r := fun r inside =>
    pops.popped r (List.mem_reverse.mpr inside)
  have data : c₁.reg .rdi = c.reg .rdi := pops.kept _ (by decide) (by decide)
  let c₂ := c₁.set .rax (c₁.reg .rdi)
  have top : Aligned (c₂.reg .rsp) := by
    rw [set_reg_of_ne _ (by decide)]
    exact bottom
  have rip : c₂.mem (c₂.reg .rsp) = k.rip := by
    rw [set_reg_of_ne _ (by decide)]
    exact pops.rest.1
  refine ⟨{ c₂.set .rsp (c₂.reg .rsp + 8) with rip := k.rip }, ?_, ?_, ?_, ?_, pops.mem⟩
  · have first : c.step body (.mov .rsi .rsp) = .ok loaded := rfl
    have second : c₁.step body (.mov .rdi .rax) = .ok c₂ := rfl
    rw [switchPoint, exec_cons first, run, exec_cons second]
    simp only [exec, step, popWord_ok top, ok_bind, pure_eq_ok, rip]
  · have kept : ∀ r, r ∈ nonVolatile →
        (c₂.set .rsp (c₂.reg .rsp + 8)).reg r = frameWord k r := fun r inside => by
      obtain ⟨notRsp, notRax, -⟩ := nonVolatile_ne inside
      rw [set_reg_of_ne _ notRsp, set_reg_of_ne _ notRax, word r inside]
    have rsp : (c₂.set .rsp (c₂.reg .rsp + 8)).reg .rsp = k.rsp := by
      rw [set_reg_self, set_reg_of_ne _ (by decide), sp₁, sp]
      bv_omega
    exact Context.ext rfl rsp (kept .rbp (by decide)) (kept .rbx (by decide))
      (kept .r12 (by decide)) (kept .r13 (by decide)) (kept .r14 (by decide))
      (kept .r15 (by decide))
  · rw [set_reg_of_ne _ (by decide), set_reg_self, data]
  · rw [set_reg_of_ne _ (by decide), set_reg_of_ne _ (by decide), data]

/-- A whole call, when the frame that is loaded is there after the save half. -/
theorem callSwitch_ok (body : Cpu → Cpu) (next : Word) {k : Context} (stack : Aligned (c.reg .rsp))
    (save : Aligned (c.reg .rdx)) (caller : Aligned (c.reg .rcx))
    (apart : ∀ j, j < 3 → c.reg .rsp - 8 ≠ slot (c.reg .rcx) j)
    (off : ∀ i, i < 7 → c.reg .rdx ≠ slot (c.reg .rsp - 56) i) (load : Aligned (c.reg .rsi))
    (sp : k.rsp = c.reg .rsi + 56)
    (frame : ∀ mem, Suspended c next mem → Holds mem (c.reg .rsi) (frameWords k)) :
    ∃ c', callRoutine body cthreadAsmSwitch next c = .ok c' ∧ c'.context = k ∧
      c'.reg .rax = c.reg .rdi ∧ c'.reg .rdi = c.reg .rdi ∧ Suspended c next c'.mem ∧
      (CallerApart c → Holds c'.mem (c.reg .rcx) [c.reg .rsp, c.reg .rbp, next]) := by
  obtain ⟨c₁, run, data, target, saved⟩ := callSwitch_saves body stack save caller apart off
  rw [← target] at load sp frame
  obtain ⟨c', loaded, context, result, argument, same⟩ :=
    exec_switchPoint body load (frame _ saved.1) sp
  rw [← same] at saved
  exact ⟨c', run.trans loaded, context, result.trans data, argument.trans data, saved⟩

/-- The state in which `cthread_asm_altstack` enters the function. -/
def altstackEntry (c : Cpu) (next ret : Word) : Cpu :=
  let called := c.pushed next
  let swapped := (called.set .rdx (called.reg .rsp)).set .rsp (called.reg .rdx)
  { (swapped.pushed (swapped.reg .rdx)).pushed ret with rip := c.reg .rcx }

section Entry
variable (c : Cpu) (next ret : Word)

theorem altstackEntry_rsp : (altstackEntry c next ret).reg .rsp = c.reg .rdx - 16 := by
  simp only [altstackEntry, pushed_rsp, set_reg_self, pushed_reg, ne_eq, reduceCtorEq,
    not_false_eq_true]
  bv_omega

theorem altstackEntry_reg {r : Reg} (notRsp : r ≠ .rsp) (notRdx : r ≠ .rdx) :
    (altstackEntry c next ret).reg r = c.reg r := by
  simp only [altstackEntry, pushed_reg _ _ notRsp, set_reg_of_ne _ notRsp,
    set_reg_of_ne _ notRdx]

theorem altstackEntry_mem :
    (altstackEntry c next ret).mem =
      Function.update (Function.update (Function.update c.mem (c.reg .rsp - 8) next)
        (c.reg .rdx - 8) (c.reg .rsp - 8)) (c.reg .rdx - 16) ret := by
  have below : c.reg .rdx - 8 - 8 = c.reg .rdx - 16 := by bv_omega
  simp only [altstackEntry, pushed, Cpu.set, Function.update_self,
    Function.update_of_ne, ne_eq, reduceCtorEq, not_false_eq_true, below]

end Entry

/-- A function that obeys the calling convention when it is entered at `e`. -/
structure Returns (body : Cpu → Cpu) (e : Cpu) : Prop where
  rip : (body e).rip = e.mem (e.reg .rsp)
  rsp : (body e).reg .rsp = e.reg .rsp + 8
  kept : ∀ r, r ∈ nonVolatile → (body e).reg r = e.reg r

theorem callAltstack_ok {ret : Word} (stack : Aligned (c.reg .rsp))
    (load : Aligned (c.reg .rdx)) (apart : c.reg .rdx ≠ c.reg .rsp ∧ c.reg .rdx - 8 ≠ c.reg .rsp)
    (returns : Returns body (altstackEntry c next ret))
    (onStack : (body (altstackEntry c next ret)).mem (c.reg .rsp - 8) =
      (altstackEntry c next ret).mem (c.reg .rsp - 8))
    (onAltstack : (body (altstackEntry c next ret)).mem (c.reg .rdx - 8) =
      (altstackEntry c next ret).mem (c.reg .rdx - 8)) :
    ∃ c', callRoutine body (cthreadAsmAltstack ret) next c = .ok c' ∧
      c'.context = c.returning next ∧
      c'.reg .rax = (body (altstackEntry c next ret)).reg .rax ∧
      c'.mem = (body (altstackEntry c next ret)).mem := by
  let e := altstackEntry c next ret
  let c₁ := body e
  have rip : c₁.rip = ret := by
    rw [returns.rip, altstackEntry_rsp, altstackEntry_mem, Function.update_self]
  have entered : callRoutine body (cthreadAsmAltstack ret) next c =
      exec body [.pop .rsp, .ret] c₁ := by
    let called := c.pushed next
    let swapped := (called.set .rdx (called.reg .rsp)).set .rsp (called.reg .rdx)
    have sp : swapped.reg .rsp = c.reg .rdx := by
      rw [set_reg_self, pushed_reg _ _ (by decide)]
    have exchanged : called.step body (.xchg .rdx .rsp) = .ok swapped := rfl
    have pushed : swapped.step body (.push .rdx) = .ok (swapped.pushed (swapped.reg .rdx)) :=
      pushWord_ok (sp ▸ load)
    have below : Aligned ((swapped.pushed (swapped.reg .rdx)).reg .rsp) := by
      rw [pushed_rsp, sp]
      exact load.sub (by decide)
    have returned : (swapped.pushed (swapped.reg .rdx)).step body (.call .rcx ret) = .ok c₁ :=
      callFunction_ok below rip
    rw [callRoutine, pushWord_ok stack, ok_bind, cthreadAsmAltstack,
      exec_cons exchanged, exec_cons pushed, exec_cons returned]
  have rsp : c₁.reg .rsp = c.reg .rdx - 8 := by
    rw [returns.rsp, altstackEntry_rsp]
    bv_omega
  have top : Aligned (c₁.reg .rsp) := by
    rw [rsp]
    exact load.sub (by decide)
  have caller : c₁.mem (c₁.reg .rsp) = c.reg .rsp - 8 := by
    rw [rsp, onAltstack, altstackEntry_mem, Function.update_of_ne (by bv_omega),
      Function.update_self]
  let c₂ := (c₁.set .rsp (c₁.reg .rsp + 8)).set .rsp (c.reg .rsp - 8)
  have rsp₂ : c₂.reg .rsp = c.reg .rsp - 8 := set_reg_self ..
  have top₂ : Aligned (c₂.reg .rsp) := by
    rw [rsp₂]
    exact stack.sub (by decide)
  have returned : c₂.mem (c₂.reg .rsp) = next := by
    rw [rsp₂]
    refine onStack.trans ?_
    rw [altstackEntry_mem, Function.update_of_ne (by bv_omega),
      Function.update_of_ne (by bv_omega), Function.update_self]
  refine ⟨{ c₂.set .rsp (c₂.reg .rsp + 8) with rip := next }, ?_, ?_, ?_, rfl⟩
  · have popped : c₁.step body (.pop .rsp) = .ok c₂ := by
      simp only [step, popWord_ok top, ok_bind, pure_eq_ok, caller, c₂]
    rw [entered, exec_cons popped]
    simp only [exec, step, popWord_ok top₂, ok_bind, pure_eq_ok, returned]
  · have kept : ∀ r, r ∈ nonVolatile →
        (c₂.set .rsp (c₂.reg .rsp + 8)).reg r = c.reg r := fun r inside => by
      obtain ⟨notRsp, -, notRdx, -⟩ := nonVolatile_ne inside
      rw [set_reg_of_ne _ notRsp, set_reg_of_ne _ notRsp, set_reg_of_ne _ notRsp,
        returns.kept r inside, altstackEntry_reg _ _ _ notRsp notRdx]
    refine context_returning rfl ?_ kept
    rw [set_reg_self, rsp₂, BitVec.sub_add_cancel]
  · rw [set_reg_of_ne _ (by decide), set_reg_of_ne _ (by decide), set_reg_of_ne _ (by decide)]

end CThread.Switch
