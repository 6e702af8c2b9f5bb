import CThread.Switch.Runs

/-!
How the function of a new thread is entered and left.

The control block lies at the top of the stack buffer, as low as its alignment asks for, and
the frame that the first `cthread_asm_switch` pops lies right below it. The function is
entered as if `__morestack` had called it, and returns there, past the `nop`.
-/
namespace CThread.Switch
open Faults GuardedRuns X64
open X64.Cpu
open CThread.Threads (null cthreadAddress)

/-- A buffer for the control block, the frame and what the alignment may take, that does not
wrap around. -/
structure Buffer where
  stack : Word
  sz : Word
  large : 88 + 64 + 15 ≤ sz.toNat
  fits : stack.toNat + sz.toNat ≤ 2 ^ 64

theorem alignDown_toNat (a : Word) : (a &&& ~~~15).toNat = a.toNat / 16 * 16 := by
  have mask : ~~~(15 : Word) = BitVec.allOnes 64 <<< 4 := by decide
  rw [mask, ← BitVec.shiftLeft_ushiftRight, BitVec.toNat_shiftLeft, BitVec.toNat_ushiftRight,
    Nat.shiftLeft_eq, Nat.shiftRight_eq_div_pow]
  have := a.isLt
  omega

namespace Buffer
variable (b : Buffer)

/-- The address of the control block. -/
def control : Word := cthreadAddress b.stack b.sz

/-- `n` words from `a` upwards lie outside of the buffer. -/
def Apart (a : Word) (n : Nat) : Prop :=
  a.toNat + 8 * n ≤ 2 ^ 64 ∧
    (a.toNat + 8 * n ≤ b.stack.toNat ∨ b.stack.toNat + b.sz.toNat ≤ a.toNat)

/-- The frame and then the control block, aligned and inside of the buffer. -/
structure Placed (c : Word) : Prop where
  aligned : c.toNat % 16 = 0
  frame : b.stack.toNat ≤ (c - 64).toNat
  below : (c - 64).toNat + 64 = c.toNat
  block : c.toNat + 88 ≤ b.stack.toNat + b.sz.toNat

theorem placed : b.Placed b.control := by
  have large := b.large
  have fits := b.fits
  have top : (b.stack + b.sz - 88).toNat = b.stack.toNat + b.sz.toNat - 88 := by
    rw [BitVec.toNat_sub, BitVec.toNat_add]
    have : (88 : Word).toNat = 88 := rfl
    omega
  have control : b.control.toNat = (b.stack.toNat + b.sz.toNat - 88) / 16 * 16 := by
    rw [Buffer.control, cthreadAddress, alignDown_toNat, top]
  have below : (b.control - 64).toNat = b.control.toNat - 64 := by
    rw [BitVec.toNat_sub]
    have : (64 : Word).toNat = 64 := rfl
    omega
  constructor <;> omega

theorem aligned : Aligned b.control := by
  have := b.placed.aligned
  unfold Aligned
  omega

/-- The words of the frame and of the control block. -/
theorem slot_toNat {i : Nat} (inside : i < 19) :
    (slot (b.control - 64) i).toNat = (b.control - 64).toNat + 8 * i := by
  have placed := b.placed
  have fits := b.fits
  have block := placed.block
  have below := placed.below
  exact X64.slot_toNat (by omega)

variable {b}

theorem Apart.ne {a : Word} {n i k : Nat} (apart : b.Apart a n) (inside : i < n) (word : k < 19) :
    slot a i ≠ slot (b.control - 64) k := by
  intro same
  have here := X64.slot_toNat (a := a) (i := i) (by have := apart.1; omega)
  have there := b.slot_toNat word
  have placed := b.placed
  have frame := placed.frame
  have below := placed.below
  have block := placed.block
  have sides := apart.2
  rw [same] at here
  omega

end Buffer

variable {b : Buffer}

/-- The context that starts the thread: what it pushes and where its stack pointer is kept lie
outside of the buffer. -/
structure Starter (b : Buffer) (cpu : Cpu) (cell : Word) : Prop where
  aligned : Aligned (cpu.reg .rsp)
  cell_aligned : Aligned cell
  stack : b.Apart (cpu.reg .rsp - 56) 7
  kept : b.Apart cell 1
  off : ∀ i, i < 7 → cell ≠ slot (cpu.reg .rsp - 56) i

/-- What the starter pushes lies outside of the frame and the control block. -/
theorem Starter.stack_ne {cpu : Cpu} {cell : Word} (starter : Starter b cpu cell) {i k : Nat}
    (low : i < 7) (word : k < 19) : slot (b.control - 64) k ≠ slot (cpu.reg .rsp - 56) i :=
  (starter.stack.ne low word).symm

theorem Starter.cell_ne {cpu : Cpu} {cell : Word} (starter : Starter b cpu cell) {k : Nat}
    (word : k < 19) : slot (b.control - 64) k ≠ cell := by
  rw [← slot_zero cell]
  exact (starter.kept.ne (by decide) word).symm

/-- The state in which the thread function is entered: the frame is popped, the argument is
there, the stack is aligned as after a call, with `__morestack` to return to, and the frame
details of the starter are in the control block. -/
structure ThreadEntry (starter : Cpu) (next t fn arg morestack : Word) (cpu : Cpu) : Prop where
  context : cpu.context = entryContext t fn
  arg : cpu.reg .rdi = arg
  aligned : (cpu.reg .rsp).toNat % 16 = 8
  below : (cpu.reg .rsp).toNat < t.toNat
  returns : cpu.mem (cpu.reg .rsp) = morestack
  caller : Holds cpu.mem (callerField t) [starter.reg .rsp, starter.reg .rbp, next]

theorem callerField_slot (t : Word) (j : Nat) : slot (callerField t) j = slot (t - 64) (9 + j) := by
  rw [callerField, slot_slot, ← slot_block, ← Nat.add_assoc]

section Switched
variable {cpu cpu₁ : Cpu} {m fn morestack cell src : Word}

/-- The save half of the switch leaves the frame alone, and the word above it. -/
theorem frame_kept (prepared : Prepared cpu m fn b.control morestack cpu₁)
    (starter : Starter b cpu cell) {arg next : Word} {mem : Word → Word}
    (suspended : Suspended (switchArgs (cpu₁.stored (yieldToField b.control) src) arg
      (b.control - 64) cell (callerField b.control)) next mem) :
    Holds mem (b.control - 64) (frameWords (entryContext b.control fn) ++ [morestack]) := by
  have rsp : cpu₁.reg .rsp = cpu.reg .rsp := congrFun prepared.reg .rsp
  refine prepared.frame.congr fun i inside => ?_
  have inside : i < 8 := inside
  refine (suspended.kept _ (fun k low => ?_) ?_ fun j low => ?_).trans ?_
  · show _ ≠ slot (cpu₁.reg .rsp - 56) k
    rw [rsp]
    exact starter.stack_ne low (by omega)
  · exact starter.cell_ne (by omega)
  · show _ ≠ slot (callerField b.control) j
    rw [callerField_slot]
    intro same
    have := slot_inj (by omega) (by omega) same
    omega
  · refine stored_mem_of_ne cpu₁ ?_ src
    rw [yieldToField, ← slot_block b.control 6]
    intro same
    have := slot_inj (by omega) (by omega) same
    omega

/-- The switch to a thread that is new. -/
theorem ThreadEntry.switched (prepared : Prepared cpu m fn b.control morestack cpu₁)
    (starter : Starter b cpu cell) (src arg next : Word) :
    ∃ cpu', asmSwitch (cpu₁.stored (yieldToField b.control) src) arg (b.control - 64) cell
        (callerField b.control) next = .ok cpu' ∧
      ThreadEntry cpu next b.control fn arg morestack cpu' := by
  let c := switchArgs (cpu₁.stored (yieldToField b.control) src) arg (b.control - 64) cell
    (callerField b.control)
  have rsp : c.reg .rsp = cpu.reg .rsp := congrFun prepared.reg .rsp
  have rbp : c.reg .rbp = cpu.reg .rbp := congrFun prepared.reg .rbp
  have details : ∀ i j, i < 7 → j < 3 →
      slot (callerField b.control) j ≠ slot (c.reg .rsp - 56) i := by
    intro i j low inside
    rw [callerField_slot, rsp]
    exact starter.stack_ne low (by omega)
  have top : c.reg .rsp - 8 = slot (c.reg .rsp - 56) 6 := by
    simp only [slot]
    bv_omega
  have apart : CallerApart c := by
    refine ⟨details, fun j inside => ?_⟩
    show slot (callerField b.control) j ≠ cell
    rw [callerField_slot]
    exact starter.cell_ne (by omega)
  obtain ⟨cpu', run, context, _, argument, suspended, caller⟩ :=
    callSwitch_ok id next (c := c) (k := entryContext b.control fn) (rsp ▸ starter.aligned)
      starter.cell_aligned (b.aligned.slot 1)
      (fun j inside => top ▸ (details 6 j (by decide) inside).symm)
      (rsp ▸ starter.off) (b.aligned.sub (by decide)) (by
        show b.control - 8 = b.control - 64 + 56
        bv_omega)
      fun mem suspended => (frame_kept prepared starter suspended).left
  have placed := b.placed
  have below := placed.below
  have sp : cpu'.reg .rsp = b.control - 8 := congrArg Context.rsp context
  have entry : (b.control - 8).toNat + 8 = b.control.toNat := by
    rw [BitVec.toNat_sub]
    have : (8 : Word).toNat = 8 := rfl
    omega
  refine ⟨cpu', run, context, argument, ?_, ?_, ?_, ?_⟩
  · have aligned := placed.aligned
    rw [sp]
    omega
  · rw [sp]
    omega
  · have word := (frame_kept prepared starter suspended).get 7 (by simp [frameWords])
    have address : slot (b.control - 64) 7 = b.control - 8 := by
      simp only [slot]
      bv_omega
    rw [sp, ← address, word]
    rfl
  · rw [← rsp, ← rbp]
    exact caller apart

end Switched

/-- The operation that starts a thread in the buffer. -/
def startIn (s : Contexts) (b : Buffer) (fn arg next : Word) : ContextOp :=
  if s.self = null then .mainStart fn arg b.stack b.sz next
  else .start fn arg b.stack b.sz next

theorem startIn_enters {L : Layout} {s : Contexts}
    (starter : Starter b s.cpu (L.cell s.self)) (fn arg next : Word) :
    ∃ s' o, contextStep L s (startIn s b fn arg next) = .ok (s', o) ∧ s'.self = b.control ∧
      ThreadEntry s.cpu next b.control fn arg L.morestack s'.cpu := by
  have address : cthreadAddress b.stack b.sz = b.control := rfl
  have yieldTo : Aligned (yieldToField b.control) := b.aligned.slot 6
  have apart : b.control ≠ yieldToField b.control := by
    simp only [yieldToField, slot]
    bv_omega
  have load : ∀ {m cpu₁} src, Prepared s.cpu m fn b.control L.morestack cpu₁ →
      (cpu₁.stored (yieldToField b.control) src).read b.control = .ok (b.control - 64) := by
    intro m cpu₁ src prepared
    rw [read_ok b.aligned, stored_mem_of_ne cpu₁ apart, prepared.stack]
  by_cases main : s.self = null
  · obtain ⟨cpu₁, created, prepared⟩ :=
      createCthread_prepares s.cpu L.m fn L.morestack b.aligned
    rw [main, Layout.cell_null] at starter
    obtain ⟨cpu', run, entry⟩ := ThreadEntry.switched prepared starter null arg next
    have clear : cpu₁.mem (yieldToField b.control) = null :=
      prepared.zero 6 (by decide) (by decide) (by decide)
    have started : cthreadMainStart L s fn arg b.stack b.sz next = .ok ⟨cpu', b.control⟩ := by
      simp only [cthreadMainStart, address, main, ne_eq, not_true_eq_false, if_false, created,
        ok_bind, read_ok yieldTo, clear, write_ok yieldTo, load null prepared, run, pure_eq_ok]
    rw [startIn, if_pos main]
    refine ⟨⟨cpu', b.control⟩, (switched s ⟨cpu', b.control⟩ next).2, ?_, rfl, entry⟩
    rw [contextStep, started]
    rfl
  · obtain ⟨cpu₁, created, prepared⟩ :=
      createCthread_prepares s.cpu (s.cpu.mem (mainField s.self)) fn L.morestack b.aligned
    rw [Layout.cell_of_ne main] at starter
    obtain ⟨cpu', run, entry⟩ := ThreadEntry.switched prepared starter s.self arg next
    have mainAligned : Aligned (mainField s.self) := starter.cell_aligned.slot 4
    have started : cthreadStart L s fn arg b.stack b.sz next = .ok ⟨cpu', b.control⟩ := by
      simp only [cthreadStart, address, read_ok mainAligned, created, ok_bind, write_ok yieldTo,
        load s.self prepared, run, pure_eq_ok]
    rw [startIn, if_neg main]
    refine ⟨⟨cpu', b.control⟩, (switched s ⟨cpu', b.control⟩ next).2, ?_, rfl, entry⟩
    rw [contextStep, started]
    rfl

/-- The instructions of `__morestack`. -/
inductive MorestackInstr
  | nop
  | movRaxRdi
  | callExit
  | hlt
  deriving DecidableEq, Repr

/-- Each with its offset. -/
def morestackCode : Nat → Option MorestackInstr
  | 0 => some .nop
  | 1 => some .movRaxRdi
  | 4 => some .callExit
  | 9 => some .hlt
  | _ => none

/-- One instruction of `__morestack`, which lies at `base`; `exit` is the address of
`cthread_exit`. -/
def morestackStep (base exit : Word) (c : Cpu) : Except Fault Cpu :=
  match morestackCode (c.rip - base).toNat with
  | some .nop => .ok { c with rip := c.rip + 1 }
  | some .movRaxRdi => .ok { c.set .rdi (c.reg .rax) with rip := c.rip + 3 }
  | some .callExit => do
      let c' ← c.pushWord (c.rip + 5)
      return { c' with rip := exit }
  | some .hlt => .error .trap
  | none => .error .wildReturn

/-- `unwinder.py` at a frame of `__morestack`: the stack pointer, the frame pointer and the
program counter of the caller. -/
def unwinder (base pc rbp : Word) (mem : Word → Word) : Option (Word × Word × Word) :=
  if (pc - base).toNat ≤ 9 then some (mem (rbp - 8), mem rbp, mem (rbp + 8)) else none

/-- `caller` in the control block. -/
def callerDetails (mem : Word → Word) (t : Word) : Word × Word × Word :=
  (mem (slot (callerField t) 0), mem (slot (callerField t) 1), mem (slot (callerField t) 2))

/-- A function that was entered at `entered` has returned, with the stack pointer and the frame
pointer of its caller. -/
structure Left (entered returned : Cpu) : Prop where
  rip : returned.rip = entered.mem (entered.reg .rsp)
  rsp : returned.reg .rsp = entered.reg .rsp + 8
  rbp : returned.reg .rbp = entered.reg .rbp

/-- What becomes of a thread function that returns: `__morestack` calls `cthread_exit`. The
instruction before the call finds the stack as `call` does, and `entry` is the state in which
`cthread_exit` is entered. -/
structure ThreadExit (t code base exit : Word) (returned call entry : Cpu) : Prop where
  pastNop : returned.rip = base + 1
  stack : returned.reg .rsp = t
  moved : morestackStep base exit returned = .ok call
  called : morestackStep base exit call = .ok entry
  aligned : call.reg .rsp = t ∧ t.toNat % 16 = 0
  rip : entry.rip = exit
  code : entry.reg .rdi = code
  returns : entry.reg .rsp = t - 8 ∧ entry.mem (t - 8) = base + 9
  frame : entry.reg .rbp = t + 16
  unwinds : unwinder base (base + 9) (entry.reg .rbp) entry.mem = some (callerDetails entry.mem t)

section Exit
variable {returned : Cpu} {base exit t : Word}

theorem add_sub_base (base k : Word) : base + k - base = k := by
  rw [BitVec.add_comm, BitVec.add_sub_cancel]

theorem unwinder_callerDetails (base : Word) (t : Word) (mem : Word → Word) :
    unwinder base (base + 9) (t + 16) mem = some (callerDetails mem t) := by
  have offset : (base + 9 - base).toNat ≤ 9 := by
    rw [add_sub_base]
    decide
  have first : t + 16 - 8 = slot (callerField t) 0 := by
    simp only [callerField, slot]
    bv_omega
  have second : t + 16 = slot (callerField t) 1 := by
    simp only [callerField, slot]
    bv_omega
  have third : t + 16 + 8 = slot (callerField t) 2 := by
    simp only [callerField, slot]
    bv_omega
  rw [unwinder, if_pos offset, first, third, second]
  rfl

theorem morestack_exits (pastNop : returned.rip = base + 1) (stack : returned.reg .rsp = t)
    (frame : returned.reg .rbp = t + 16) (aligned : t.toNat % 16 = 0) :
    ∃ call entry, ThreadExit t (returned.reg .rax) base exit returned call entry := by
  let call : Cpu := { returned.set .rdi (returned.reg .rax) with rip := base + 1 + 3 }
  let called := call.pushed (base + 1 + 3 + 5)
  let entry : Cpu := { called with rip := exit }
  have keeps : ∀ r, r ≠ .rdi → call.reg r = returned.reg r := fun r ne =>
    set_reg_of_ne returned ne _
  have sp : call.reg .rsp = t := (keeps .rsp (by decide)).trans stack
  have bp : call.reg .rbp = t + 16 := (keeps .rbp (by decide)).trans frame
  have word : Aligned (call.reg .rsp) := by
    rw [sp]
    unfold Aligned
    omega
  have entryFrame : entry.reg .rbp = t + 16 :=
    (pushed_reg call (base + 1 + 3 + 5) (by decide)).trans bp
  refine ⟨call, entry, pastNop, stack, ?_, ?_, ⟨sp, aligned⟩, rfl, ?_, ⟨?_, ?_⟩, entryFrame, ?_⟩
  · have offset : (base + 1 - base).toNat = 1 := by
      rw [add_sub_base]
      rfl
    simp only [morestackStep, pastNop, offset, morestackCode, call]
  · have offset : (base + 1 + 3 - base).toNat = 4 := by
      rw [BitVec.add_assoc, add_sub_base]
      rfl
    have rip : call.rip = base + 1 + 3 := rfl
    simp only [morestackStep, rip, offset, morestackCode, pushWord_ok word, ok_bind, pure_eq_ok,
      entry, called]
  · exact (pushed_reg call (base + 1 + 3 + 5) (by decide)).trans (set_reg_self ..)
  · show called.reg .rsp = t - 8
    rw [pushed_rsp, sp]
  · show Function.update call.mem (call.reg .rsp - 8) (base + 1 + 3 + 5) (t - 8) = base + 9
    rw [sp, Function.update_self]
    bv_omega
  · rw [entryFrame]
    exact unwinder_callerDetails base t entry.mem

end Exit

/-- For every buffer that is large enough: the control block and the frame lie in it,
disjoint and aligned, and besides `num_threads` nothing else is written to create them; a
start enters the function through that frame, with its argument; and when the function
returns, `cthread_exit` is called with the result. -/
theorem thread_entered_and_left (b : Buffer) (fn arg : Word) :
    b.Placed b.control ∧
      (∀ cpu m morestack, ∃ cpu', createCthread cpu m fn b.control morestack = .ok cpu' ∧
        Prepared cpu m fn b.control morestack cpu') ∧
      ∀ (L : Layout) (s : Contexts) (next : Word), Starter b s.cpu (L.cell s.self) →
        ∃ s' o, contextStep L s (startIn s b fn arg next) = .ok (s', o) ∧ s'.self = b.control ∧
          ThreadEntry s.cpu next b.control fn arg L.morestack s'.cpu ∧
          ∀ (returned : Cpu) (base exit : Word), Left s'.cpu returned →
            L.morestack = base + 1 → ∃ call entry,
              ThreadExit b.control (returned.reg .rax) base exit returned call entry := by
  refine ⟨b.placed, fun cpu m morestack => createCthread_prepares cpu m fn morestack b.aligned,
    fun L s next starter => ?_⟩
  obtain ⟨s', o, run, self, entry⟩ := startIn_enters starter fn arg next
  refine ⟨s', o, run, self, entry, fun returned base exit left morestack => ?_⟩
  have sp : s'.cpu.reg .rsp = b.control - 8 := congrArg Context.rsp entry.context
  have bp : s'.cpu.reg .rbp = b.control + 16 := congrArg Context.rbp entry.context
  refine morestack_exits ?_ ?_ ?_ b.placed.aligned
  · rw [left.rip, entry.returns, morestack]
  · rw [left.rsp, sp, BitVec.sub_add_cancel]
  · rw [left.rbp, bp]

/-- The function returns 9 at once. -/
def returnNine (c : Cpu) : Cpu :=
  { (c.set .rax 9).set .rsp (c.reg .rsp + 8) with rip := c.mem (c.reg .rsp) }

theorem returnNine_left (c : Cpu) : Left c (returnNine c) where
  rip := rfl
  rsp := set_reg_self (c.set .rax 9) .rsp _
  rbp := rfl

def oneBuffer : Buffer := ⟨4096, 4096, by decide, by decide⟩

theorem oneBuffer_starter : Starter oneBuffer freshCpu onePage.m where
  aligned := by decide
  cell_aligned := by decide
  stack := ⟨by decide, .inr (by decide)⟩
  kept := ⟨by decide, .inr (by decide)⟩
  off := by decide

theorem thread_entered_and_left_onePage :
    ∃ s' o call entry, contextStep onePage ⟨freshCpu, null⟩ startOne = .ok (s', o) ∧
      ThreadEntry freshCpu 100 8096 64 5 33 s'.cpu ∧
      ThreadExit 8096 9 32 4000 (returnNine s'.cpu) call entry := by
  obtain ⟨s', o, run, _, entered, leaves⟩ := (thread_entered_and_left oneBuffer 64 5).2.2
    onePage ⟨freshCpu, null⟩ 100 oneBuffer_starter
  obtain ⟨call, entry, exits⟩ := leaves (returnNine s'.cpu) 32 4000 (returnNine_left s'.cpu) rfl
  exact ⟨s', o, call, entry, run, entered, exits⟩

end CThread.Switch
