import CThread.Switch.Operations

/-!
A thread that is created is suspended at the entry of its function, in a frame that no
`cthread_asm_switch` has pushed.
-/
namespace CThread.Switch
open Faults GuardedRuns X64
open X64.Cpu
open CThread.Threads (null cthreadAddress)

variable {L : Layout} {saved : Word → Option Context} {src t : Word} {k : Context}
  {mem mem' : Word → Word} {cpu : Cpu} {s : Contexts} {stack sz : Word}

/-- What the thread function is entered with. -/
def entryContext (t fn : Word) : Context := ⟨fn, t - 8, t + 16, 0, 0, 0, 0, 0⟩

/-- There is stack for the frame of the thread function and its return address, and the
running context is not on it. -/
structure FreshStack (L : Layout) (src t : Word) : Prop where
  thread : L.thread t
  room : L.Stack t (t - 64) 8
  idle : t ≠ src

/-- Only the stack and the control block of `t` have been written. -/
def Built (L : Layout) (t : Word) (mem mem' : Word → Word) : Prop :=
  ∀ a, ¬ L.Own t a → a ≠ L.cell t → a ≠ mainField t → mem' a = mem a

theorem Separated.create (sep : Separated L saved src mem) (fresh : FreshStack L src t)
    (built : Built L t mem mem') (parked : Parked L mem' t k) :
    Separated L (Function.update saved t (some k)) src mem' := by
  have notNull : t ≠ null := L.thread_ne_null t fresh.thread
  have same : ∀ c, L.Valid c → c ≠ t → ∀ a, Relies L c a → mem' a = mem a :=
    fun c valid ne a relies => built a (relies.not_own valid ne)
      (relies.ne_cell valid ne (.inr fresh.thread)) (relies.ne_mainField valid ne fresh.thread)
  refine ⟨sep.known.congr fun thread => ?_, ?_, fun c k' at_c => ?_, fun ne => ?_⟩
  · exact same src sep.known.valid fresh.idle.symm _ (.inr (.inr ⟨thread, rfl⟩))
  · rw [Function.update_of_ne fresh.idle.symm, sep.running]
  · by_cases new : c = t
    · subst new
      rw [Function.update_self] at at_c
      cases at_c
      exact parked
    · rw [Function.update_of_ne new] at at_c
      have old := sep.parked c k' at_c
      exact old.of_relies (same c old.known.valid new)
  · rw [Function.update_of_ne notNull.symm]
    exact sep.main ne

/-- What `create_cthread` leaves, wherever the control block lies. -/
structure Prepared (cpu : Cpu) (m fn t morestack : Word) (c' : Cpu) : Prop where
  reg : c'.reg = cpu.reg
  frame : Holds c'.mem (t - 64) (frameWords (entryContext t fn) ++ [morestack])
  stack : c'.mem t = t - 64
  main : c'.mem (mainField t) = m
  zero : ∀ i, i < 11 → i ≠ 0 → i ≠ 4 → c'.mem (slot t i) = 0
  kept : ∀ a, (∀ i, i < 19 → a ≠ slot (t - 64) i) → c'.mem a = cpu.mem a

/-- The control block follows its frame. -/
theorem slot_block (t : Word) (i : Nat) : slot (t - 64) (8 + i) = slot t i := by
  simp only [slot]
  bv_omega

theorem slot_inj {a : Word} {i j : Nat} (left : i < 2 ^ 60) (right : j < 2 ^ 60)
    (same : slot a i = slot a j) : i = j := by
  simp only [slot] at same
  bv_omega

theorem createCthread_prepares (cpu : Cpu) (m fn morestack : Word) (aligned : Aligned t) :
    ∃ c', createCthread cpu m fn t morestack = .ok c' ∧ Prepared cpu m fn t morestack c' := by
  have below : Aligned (t - 64) := aligned.sub (by decide)
  have apart : ∀ i j, i < 8 → j < 11 → slot (t - 64) i ≠ slot t j := by
    intro i j inside inside' same
    rw [← slot_block t j] at same
    have := slot_inj (by omega) (by omega) same
    omega
  obtain ⟨c₁, cleared, block⟩ := storeAll_ok cpu (List.replicate 11 0) aligned (by simp)
  obtain ⟨c₂, filled, frame⟩ :=
    storeAll_ok c₁ [0, 0, 0, 0, 0, t + 16, fn, morestack] below (by simp)
  let c₃ := c₂.stored t (t - 64)
  let c₄ := c₃.stored (mainField t) m
  have kept : ∀ a, a ≠ slot t 0 → a ≠ slot t 4 → c₄.mem a = c₂.mem a := fun a ne₀ ne₄ => by
    rw [slot_zero] at ne₀
    exact (stored_mem_of_ne _ ne₄ _).trans (stored_mem_of_ne _ ne₀ _)
  have zero : ∀ i, i < 11 → i ≠ 0 → i ≠ 4 → c₄.mem (slot t i) = 0 := fun i inside ne₀ ne₄ => by
    have apart₀ : slot t i ≠ slot t 0 := fun same => ne₀ (slot_inj (by omega) (by omega) same)
    have apart₄ : slot t i ≠ slot t 4 := fun same => ne₄ (slot_inj (by omega) (by omega) same)
    rw [kept _ apart₀ apart₄, frame.kept _ fun j inside' => (apart j i inside' inside).symm,
      block.holds.get i (by simpa using inside), List.getElem_replicate]
  refine ⟨c₄, ?_, frame.reg.trans block.reg, ?_, ?_, stored_mem_self .., zero, fun a outside => ?_⟩
  · rw [createCthread, cleared, ok_bind, filled, ok_bind, write_ok aligned, ok_bind,
      write_ok (show Aligned (mainField t) from aligned.slot 4)]
  · have holds : Holds c₂.mem (t - 64) (frameWords (entryContext t fn) ++ [morestack]) :=
      frame.holds
    refine holds.congr fun i inside => ?_
    exact kept _ (apart i 0 inside (by decide)) (apart i 4 inside (by decide))
  · have ne : t ≠ mainField t := by
      simp only [mainField, slot]
      bv_omega
    exact (stored_mem_of_ne _ ne _).trans (stored_mem_self ..)
  · have off : ∀ i, i < 11 → a ≠ slot t i := fun i inside => by
      rw [← slot_block]
      exact outside (8 + i) (by omega)
    rw [kept a (off 0 (by decide)) (off 4 (by decide)),
      frame.kept a fun i inside => outside i (Nat.lt_trans inside (by simp)),
      block.kept a fun i inside => off i (by simpa using inside)]

/-- What `create_cthread` leaves. -/
structure Created (L : Layout) (cpu : Cpu) (t fn : Word) (c' : Cpu) : Prop where
  reg : c'.reg = cpu.reg
  main : c'.mem (mainField t) = L.m
  stack : c'.mem t = t - 64
  frame : Holds c'.mem (t - 64) (frameWords (entryContext t fn))
  yieldTo : c'.mem (yieldToField t) = null
  built : Built L t cpu.mem c'.mem

theorem createCthread_creates (cpu : Cpu) (fn : Word) (fresh : FreshStack L src t) :
    ∃ c', createCthread cpu L.m fn t L.morestack = .ok c' ∧ Created L cpu t fn c' := by
  have thread := fresh.thread
  obtain ⟨c', run, prepared⟩ :=
    createCthread_prepares cpu L.m fn L.morestack (L.thread_aligned t thread)
  refine ⟨c', run, prepared.reg, prepared.main, prepared.stack, prepared.frame.left,
    prepared.zero 6 (by decide) (by decide) (by decide), fun a notOwn notCell notMain => ?_⟩
  refine prepared.kept a fun i inside same => ?_
  subst same
  by_cases low : i < 8
  · exact notOwn (fresh.room.own low)
  · obtain ⟨j, rfl⟩ : ∃ j, i = 8 + j := ⟨i - 8, by omega⟩
    rw [slot_block] at notOwn notCell notMain
    rw [Layout.cell_eq_block thread] at notCell
    refine notOwn (.inr (Layout.field_free thread (by omega) (fun zero => ?_) fun four => ?_))
    · exact notCell (zero ▸ rfl)
    · exact notMain (four ▸ rfl)

theorem createCthread_ok (fn : Word) (sep : Separated L saved src cpu.mem)
    (fresh : FreshStack L src t) :
    ∃ c', createCthread cpu L.m fn t L.morestack = .ok c' ∧ c'.reg = cpu.reg ∧
      c'.mem (yieldToField t) = null ∧
      Separated L (Function.update saved t (some (entryContext t fn))) src c'.mem := by
  obtain ⟨c', run, created⟩ := createCthread_creates cpu fn fresh
  have notNull : t ≠ null := L.thread_ne_null t fresh.thread
  have sp : (entryContext t fn).rsp - 56 = t - 64 := by
    show t - 8 - 56 = t - 64
    bv_omega
  refine ⟨c', run, created.reg, created.yieldTo, sep.create fresh created.built ?_⟩
  refine ⟨.inr ⟨fresh.thread, created.main⟩, ?_, ?_, ?_, ?_⟩
  · exact (L.thread_aligned t fresh.thread).sub (by decide)
  · rw [sp, Layout.cell_of_ne notNull]
    exact created.stack
  · rw [sp]
    exact fresh.room.short (by decide)
  · rw [sp]
    exact created.frame

/-- A thread that is taken up at once is not among the suspended ones. -/
theorem leave_created (left : Context) (x : Option Context) :
    leave (Function.update saved t x) src left t = leave saved src left t := by
  funext c
  unfold leave
  by_cases new : c = t
  · rw [new, Function.update_self, Function.update_self]
  · rw [Function.update_of_ne new, Function.update_of_ne new]
    by_cases old : c = src
    · rw [old, Function.update_self, Function.update_self]
    · rw [Function.update_of_ne old, Function.update_of_ne old, Function.update_of_ne new]

/-- The thread is created and taken up at once. -/
theorem createAndTakeUp_ok (fn arg next : Word) (sep : Separated L saved src cpu.mem)
    (fresh : FreshStack L src t) (room : Room L src (cpu.reg .rsp)) :
    ∃ c₁, createCthread cpu L.m fn t L.morestack = .ok c₁ ∧ c₁.mem (yieldToField t) = null ∧
      ∃ c', (do
        let cpu ← c₁.write (yieldToField t) src
        let load ← cpu.read t
        let cpu ← asmSwitch cpu arg load (L.cell src) (callerField t) next
        return (⟨cpu, t⟩ : Contexts)) = .ok ⟨c', t⟩ ∧
      Entered L saved src (cpu.returning next) t (entryContext t fn) arg c' := by
  have thread := fresh.thread
  obtain ⟨c₁, created, reg, yieldTo, sep₁⟩ := createCthread_ok fn sep fresh
  let c₂ := c₁.stored (yieldToField t) src
  have sep₂ : Separated L (Function.update saved t (some (entryContext t fn))) src c₂.mem :=
    sep₁.touch (Touched.update src (.inr (yieldTo_free thread)))
  have reg₂ : c₂.reg = cpu.reg := reg
  have room₂ : Room L src (c₂.reg .rsp) := reg₂ ▸ room
  obtain ⟨c', run, context, result, sep'⟩ := takeUp_ok arg next sep₂
    (Function.update_self ..) room₂ (.block room₂ thread)
  rw [leave_created, returning_congr reg₂] at sep'
  refine ⟨c₁, created, yieldTo, c', ?_, context, result, sep'⟩
  rw [Layout.cell_of_ne (L.thread_ne_null t thread)] at run
  rw [write_ok (yieldToField_aligned thread), ok_bind, run]

theorem cthreadStart_ok (fn arg next : Word) (sep : Separated L saved s.self s.cpu.mem)
    (fromThread : s.self ≠ null)
    (fresh : FreshStack L s.self (cthreadAddress stack sz))
    (room : Room L s.self (s.cpu.reg .rsp)) :
    ∃ c', cthreadStart L s fn arg stack sz next = .ok ⟨c', cthreadAddress stack sz⟩ ∧
      Entered L saved s.self (s.cpu.returning next) (cthreadAddress stack sz)
        (entryContext (cthreadAddress stack sz) fn) arg c' := by
  obtain ⟨source, main⟩ := sep.ne_null fromThread
  obtain ⟨c₁, created, -, c', run, entered⟩ :=
    createAndTakeUp_ok fn arg next sep fresh room
  refine ⟨c', ?_, entered⟩
  rw [Layout.cell_of_ne fromThread] at run
  rw [cthreadStart, read_ok (mainField_aligned source), main]
  simp only [ok_bind, created]
  exact run

theorem cthreadMainStart_ok (fn arg next : Word) (sep : Separated L saved s.self s.cpu.mem)
    (fromMain : s.self = null)
    (fresh : FreshStack L s.self (cthreadAddress stack sz))
    (room : Room L s.self (s.cpu.reg .rsp)) :
    ∃ c', cthreadMainStart L s fn arg stack sz next = .ok ⟨c', cthreadAddress stack sz⟩ ∧
      Entered L saved s.self (s.cpu.returning next) (cthreadAddress stack sz)
        (entryContext (cthreadAddress stack sz) fn) arg c' := by
  obtain ⟨c₁, created, yieldTo, c', run, entered⟩ :=
    createAndTakeUp_ok fn arg next sep fresh room
  refine ⟨c', ?_, entered⟩
  rw [fromMain, Layout.cell_null] at run
  rw [cthreadMainStart, if_neg (not_not_intro fromMain)]
  simp only [ok_bind, created, read_ok (yieldToField_aligned fresh.thread), yieldTo, ne_eq,
    not_true_eq_false, if_false]
  exact run

end CThread.Switch
