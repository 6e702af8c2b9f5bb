import CThread.Switch.Operations

/-!
`cthread_altstack` borrows the stack of the main context, right below the frame that the main
context is suspended in.
-/
namespace CThread.Switch
open Faults GuardedRuns X64
open X64.Cpu
open CThread.Threads (null)

variable {L : Layout} {saved : Word → Option Context} {s : Contexts} {body : Cpu → Cpu}
  {a : Word}

/-- The function obeys the ABI, and of what others rely on it writes only its stack. -/
structure Obeys (L : Layout) (body : Cpu → Cpu) (e : Cpu) : Prop extends Returns body e where
  writes : ∀ a, ¬ (L.Stack null a 1 ∧ a.toNat < (e.reg .rsp).toNat) → ¬ L.Free a →
    (body e).mem a = e.mem a

/-- The state in which the function is entered. -/
def altstackCall (L : Layout) (s : Contexts) (fn arg0 arg1 next ret : Word) : Cpu :=
  if s.self = null then
    { ((s.cpu.set .rdi arg0).set .rsi arg1).pushed next with rip := fn }
  else
    altstackEntry ((((s.cpu.set .rdi arg0).set .rsi arg1).set .rdx (s.cpu.mem L.m)).set .rcx fn)
      next ret

/-- There is stack for the return address, and below the frame of the main context for two
words. -/
structure AltRoom (L : Layout) (s : Contexts) : Prop where
  aligned : Aligned (s.cpu.reg .rsp)
  stack : L.Stack s.self (s.cpu.reg .rsp - 8) 1
  below : s.self ≠ null → L.low null + 16 ≤ (s.cpu.mem L.m).toNat

/-- The call is over and the caller finds its registers as they were. -/
structure Returned (s : Contexts) (body : Cpu → Cpu) (e : Cpu) (next : Word) (cpu : Cpu) :
    Prop where
  context : cpu.context = s.cpu.returning next
  result : cpu.reg .rax = (body e).reg .rax
  mem : cpu.mem = (body e).mem

section Thread
variable (fn arg0 arg1 next ret : Word)

theorem altstackCall_rsp (fromThread : s.self ≠ null) :
    (altstackCall L s fn arg0 arg1 next ret).reg .rsp = s.cpu.mem L.m - 16 := by
  rw [altstackCall, if_neg fromThread]
  exact altstackEntry_rsp ..

theorem altstackCall_mem (fromThread : s.self ≠ null) :
    (altstackCall L s fn arg0 arg1 next ret).mem =
      Function.update (Function.update (Function.update s.cpu.mem (s.cpu.reg .rsp - 8) next)
        (s.cpu.mem L.m - 8) (s.cpu.reg .rsp - 8)) (s.cpu.mem L.m - 16) ret := by
  rw [altstackCall, if_neg fromThread]
  exact altstackEntry_mem ..

end Thread

theorem Separated.mainFrame (sep : Separated L saved s.self s.cpu.mem)
    (fromThread : s.self ≠ null) :
    ∃ k, saved null = some k ∧ s.cpu.mem L.m = k.rsp - 56 ∧ Parked L s.cpu.mem null k := by
  obtain ⟨k, at_main⟩ := sep.main fromThread
  have parked := sep.parked null k at_main
  exact ⟨k, at_main, by rw [← Layout.cell_null, parked.stack], parked⟩

section Thread
variable (sep : Separated L saved s.self s.cpu.mem) (fromThread : s.self ≠ null)
  (room : AltRoom L s)
include sep fromThread

/-- The seven words of the frame. -/
theorem altstack_above : L.Stack null (s.cpu.mem L.m) 7 := by
  obtain ⟨k, -, load, parked⟩ := sep.mainFrame fromThread
  rw [load]
  exact parked.room

theorem altstack_aligned : Aligned (s.cpu.mem L.m) := by
  obtain ⟨k, -, load, parked⟩ := sep.mainFrame fromThread
  rw [load]
  exact parked.aligned.sub (by decide)

include room

/-- The two words below the frame. -/
theorem altstack_below (n : Nat) (two : n = 8 ∨ n = 16) :
    L.Stack null (s.cpu.mem L.m - BitVec.ofNat 64 n) 1 ∧
      (s.cpu.mem L.m - BitVec.ofNat 64 n).toNat = (s.cpu.mem L.m).toNat - n := by
  have below := room.below fromThread
  have above := altstack_above sep fromThread
  have down : (s.cpu.mem L.m - BitVec.ofNat 64 n).toNat = (s.cpu.mem L.m).toNat - n := by
    obtain rfl | rfl := two <;> bv_omega
  unfold Layout.Stack at *
  omega

variable {fn arg0 arg1 next ret : Word}
  (obeys : Obeys L body (altstackCall L s fn arg0 arg1 next ret))
include obeys

/-- The function leaves what does not lie below its entry. -/
theorem altstack_body_kept (notFree : ¬ L.Free a)
    (notBelow : ¬ (L.Stack null a 1 ∧ a.toNat < (s.cpu.mem L.m).toNat - 16)) :
    (body (altstackCall L s fn arg0 arg1 next ret)).mem a =
      (altstackCall L s fn arg0 arg1 next ret).mem a := by
  refine obeys.writes a ?_ notFree
  rw [altstackCall_rsp _ _ _ _ _ fromThread]
  obtain ⟨-, down⟩ := altstack_below sep fromThread room 16 (.inr rfl)
  have down : (s.cpu.mem L.m - 16).toNat = (s.cpu.mem L.m).toNat - 16 := down
  rwa [down]

/-- What the call leaves as it was. -/
theorem altstack_kept (notOwn : ¬ L.Own s.self a)
    (notBelow : ¬ (L.Stack null a 1 ∧ a.toNat < (s.cpu.mem L.m).toNat)) :
    (body (altstackCall L s fn arg0 arg1 next ret)).mem a = s.cpu.mem a := by
  obtain ⟨first, firstNat⟩ := altstack_below sep fromThread room 8 (.inl rfl)
  obtain ⟨second, secondNat⟩ := altstack_below sep fromThread room 16 (.inr rfl)
  have below := room.below fromThread
  have offFirst : a ≠ s.cpu.mem L.m - 8 := fun same => notBelow ⟨same ▸ first, by
    rw [same]
    exact firstNat ▸ (by omega)⟩
  have offSecond : a ≠ s.cpu.mem L.m - 16 := fun same => notBelow ⟨same ▸ second, by
    rw [same]
    exact secondNat ▸ (by omega)⟩
  have offReturn : a ≠ s.cpu.reg .rsp - 8 := fun same => notOwn (same ▸ .inl room.stack)
  rw [altstack_body_kept sep fromThread room obeys (fun free => notOwn (.inr free))
      fun under => notBelow ⟨under.1, by omega⟩,
    altstackCall_mem _ _ _ _ _ fromThread, Function.update_of_ne offSecond,
    Function.update_of_ne offFirst, Function.update_of_ne offReturn]

/-- The frame of the main context is still there, and so is the pointer to it. -/
theorem altstack_frame (i : Nat) (inside : i < 7) :
    (body (altstackCall L s fn arg0 arg1 next ret)).mem (slot (s.cpu.mem L.m) i) =
      s.cpu.mem (slot (s.cpu.mem L.m) i) := by
  have above := altstack_above sep fromThread
  refine altstack_kept sep fromThread room obeys ?_ fun under => ?_
  · exact (above.word inside).not_own (Ne.symm fromThread)
  · have fits := L.stack_fits null
    unfold Layout.Stack at above
    rw [slot_toNat (by omega)] at under
    omega

theorem altstack_fixed (fixed : L.Fixed a) :
    (body (altstackCall L s fn arg0 arg1 next ret)).mem a = s.cpu.mem a :=
  altstack_kept sep fromThread room obeys fixed.not_own fun under => fixed.off under.1

theorem altstack_separated :
    Separated L saved s.self (body (altstackCall L s fn arg0 arg1 next ret)).mem := by
  have main : ∀ c, L.thread c →
      (body (altstackCall L s fn arg0 arg1 next ret)).mem (mainField c) =
        s.cpu.mem (mainField c) := fun c thread =>
    altstack_fixed sep fromThread room obeys (.inr ⟨c, thread, .inr rfl⟩)
  refine ⟨sep.known.congr (main _), sep.running, fun c k at_c => ?_, sep.main⟩
  have parked := sep.parked c k at_c
  have valid := parked.known.valid
  have ne : c ≠ s.self := fun same => by
    rw [same, sep.running] at at_c
    cases at_c
  refine parked.congr (main c) (altstack_fixed sep fromThread room obeys valid.fixed)
    fun i inside => ?_
  by_cases isMain : c = null
  · subst isMain
    have load : s.cpu.mem L.m = k.rsp - 56 := by rw [← Layout.cell_null, parked.stack]
    rw [← load]
    exact altstack_frame sep fromThread room obeys i inside
  · refine altstack_kept sep fromThread room obeys ?_ fun under => ?_
    · exact (parked.room.word inside).not_own ne
    · exact (parked.room.word inside).off isMain under.1

theorem cthreadAltstack_thread_ok :
    ∃ c', cthreadAltstack s body fn arg0 arg1 next ret = .ok ⟨c', s.self⟩ ∧
      Returned s body (altstackCall L s fn arg0 arg1 next ret) next c' := by
  obtain ⟨thread, main⟩ := sep.ne_null fromThread
  obtain ⟨first, firstNat⟩ := altstack_below sep fromThread room 8 (.inl rfl)
  obtain ⟨second, -⟩ := altstack_below sep fromThread room 16 (.inr rfl)
  have entered : altstackCall L s fn arg0 arg1 next ret = altstackEntry
      ((((s.cpu.set .rdi arg0).set .rsi arg1).set .rdx (s.cpu.mem L.m)).set .rcx fn) next ret :=
    if_neg fromThread
  have offAltstack : ∀ b, L.Stack null b 1 → b ≠ s.cpu.reg .rsp - 8 := fun b onMain same =>
    (same ▸ onMain).off (Ne.symm fromThread) room.stack
  have apart : s.cpu.mem L.m ≠ s.cpu.reg .rsp ∧ s.cpu.mem L.m - 8 ≠ s.cpu.reg .rsp := by
    refine ⟨fun same => offAltstack _ first (same ▸ rfl), fun same => ?_⟩
    refine offAltstack _ second ?_
    rw [← same]
    bv_omega
  have onStack := altstack_body_kept (a := s.cpu.reg .rsp - 8) sep fromThread room obeys
    (fun free => free.1 _ room.stack) fun under => offAltstack _ under.1 rfl
  have onAltstack := altstack_body_kept (a := s.cpu.mem L.m - 8) sep fromThread room obeys
    (fun free => free.1 _ first) fun under => by
      have under := under.2
      have firstNat : (s.cpu.mem L.m - 8).toNat = (s.cpu.mem L.m).toNat - 8 := firstNat
      omega
  have returns : Returns body (altstackCall L s fn arg0 arg1 next ret) := obeys.toReturns
  rw [entered] at returns onStack onAltstack
  obtain ⟨c', run, context, result, mem⟩ := callAltstack_ok
    (c := (((s.cpu.set .rdi arg0).set .rsi arg1).set .rdx (s.cpu.mem L.m)).set .rcx fn)
    room.aligned (altstack_aligned sep fromThread) apart returns onStack onAltstack
  refine ⟨c', ?_, context, entered ▸ result, entered ▸ mem⟩
  have run : asmAltstack body s.cpu arg0 arg1 (s.cpu.mem L.m) fn next ret = .ok c' := run
  rw [cthreadAltstack, if_pos fromThread]
  simp only [read_ok (mainField_aligned thread), main, read_ok L.main_aligned, ok_bind, run]
  rfl

end Thread

section Main
variable {fn arg0 arg1 next ret : Word}

/-- Without a thread the function runs right on the stack of the caller. -/
theorem cthreadAltstack_main_ok (fromMain : s.self = null) (room : AltRoom L s)
    (obeys : Obeys L body (altstackCall L s fn arg0 arg1 next ret)) :
    ∃ c', cthreadAltstack s body fn arg0 arg1 next ret = .ok ⟨c', s.self⟩ ∧
      Returned s body (altstackCall L s fn arg0 arg1 next ret) next c' ∧
      Touched L s.self s.cpu.mem c'.mem := by
  let args := (s.cpu.set .rdi arg0).set .rsi arg1
  let e : Cpu := { args.pushed next with rip := fn }
  have entered : altstackCall L s fn arg0 arg1 next ret = e := if_pos fromMain
  have stack : L.Stack null (s.cpu.reg .rsp - 8) 1 := fromMain ▸ room.stack
  rw [entered] at obeys ⊢
  have sp : e.reg .rsp = s.cpu.reg .rsp - 8 := pushed_rsp args next
  have rip : (body e).rip = next := by
    rw [obeys.rip, sp]
    exact Function.update_self ..
  have rsp : (body e).reg .rsp = s.cpu.reg .rsp := by
    rw [obeys.rsp, sp, BitVec.sub_add_cancel]
  have kept : ∀ r, r ∈ nonVolatile → (body e).reg r = s.cpu.reg r := fun r inside => by
    obtain ⟨notRsp, -, -, notRsi, notRdi⟩ := nonVolatile_ne inside
    rw [obeys.kept r inside]
    show (args.pushed next).reg r = s.cpu.reg r
    rw [pushed_reg _ _ notRsp, set_reg_of_ne _ notRsi, set_reg_of_ne _ notRdi]
  refine ⟨body e, ?_, ⟨?_, rfl, rfl⟩, fun a notOwn _ => ?_⟩
  · have run : args.callFunction body fn next = .ok (body e) := callFunction_ok room.aligned rip
    rw [cthreadAltstack, if_neg (not_not_intro fromMain), run]
    rfl
  · exact context_returning rip rsp kept
  · rw [fromMain] at notOwn
    rw [obeys.writes a (fun under => notOwn (.inl under.1)) fun free => notOwn (.inr free)]
    have off : a ≠ s.cpu.reg .rsp - 8 := fun same => notOwn (.inl (same ▸ stack))
    exact Function.update_of_ne off ..

end Main

end CThread.Switch
