import CThread.Switch.Creation

/-!
What the operations do to the fields of control blocks that say who called whom: `yield_to`,
and the frame details in `caller`. Each operation links one thread anew at most, and leaves
the fields of all others alone.
-/
namespace CThread.Switch
open Faults GuardedRuns X64
open X64.Cpu
open CThread.Threads (null cthreadAddress)

variable {L : Layout} {saved : Word → Option Context} {src tgt t c x : Word} {k : Context}
  {mem mem' : Word → Word} {cpu c' : Cpu} {s s' : Contexts}
  {pcaller dummy data next fn arg stack sz : Word}

/-- The fields after `stack` are as they were, but for those of `x`. -/
def FieldsKept (L : Layout) (x : Word) (mem mem' : Word → Word) : Prop :=
  ∀ t i, L.thread t → t ≠ x → i ≠ 0 → i < 11 → mem' (slot t i) = mem (slot t i)

theorem FieldsKept.trans {mem'' : Word → Word} (first : FieldsKept L x mem mem')
    (second : FieldsKept L x mem' mem'') : FieldsKept L x mem mem'' :=
  fun t i thread ne notStack inside =>
    (second t i thread ne notStack inside).trans (first t i thread ne notStack inside)

theorem FieldsKept.weaken (kept : FieldsKept L null mem mem') : FieldsKept L x mem mem' :=
  fun t i thread _ => kept t i thread (L.thread_ne_null t thread)

theorem FieldsKept.field {i : Nat} (thread : L.thread t) (inside : i < 11) (v : Word) :
    FieldsKept L t mem (Function.update mem (slot t i) v) := fun _ _ other ne _ inside' =>
  Function.update_of_ne
    (fun same => ne (Layout.block_inj other thread inside' inside same).1) ..

/-- The fields from `lo` to `hi` are as they were in every control block. -/
def BlocksKept (L : Layout) (lo hi : Nat) (mem mem' : Word → Word) : Prop :=
  ∀ t i, L.thread t → lo ≤ i → i < hi → mem' (slot t i) = mem (slot t i)

namespace BlocksKept
variable {lo hi i : Nat}

theorem trans {mem'' : Word → Word} (first : BlocksKept L lo hi mem mem')
    (second : BlocksKept L lo hi mem' mem'') : BlocksKept L lo hi mem mem'' :=
  fun t i thread low high => (second t i thread low high).trans (first t i thread low high)

theorem mono {lo' : Nat} (kept : BlocksKept L lo hi mem mem') (fewer : lo ≤ lo') :
    BlocksKept L lo' hi mem mem' := fun t i thread low high => kept t i thread (by omega) high

theorem field (thread : L.thread t) (inside : i < 11) (off : i < lo ∨ hi ≤ i) (short : hi ≤ 11)
    (v : Word) : BlocksKept L lo hi mem (Function.update mem (slot t i) v) :=
  fun _ j other low high => Function.update_of_ne (fun same => by
    have := (Layout.block_inj other thread (by omega) inside same).2
    omega) ..

end BlocksKept

theorem FieldsKept.blocks {lo hi : Nat} (kept : FieldsKept L null mem mem') (notStack : 1 ≤ lo)
    (short : hi ≤ 11) : BlocksKept L lo hi mem mem' := fun t i thread low high =>
  kept t i thread (L.thread_ne_null t thread) (by omega) (by omega)

/-- The thread `t` is linked to the context `c`, where control goes on as `k` says. -/
structure Linked (mem : Word → Word) (t c : Word) (k : Context) : Prop where
  yieldTo : mem (yieldToField t) = c
  caller : Holds mem (callerField t) [k.rsp, k.rbp, k.rip]

theorem Linked.congr (linked : Linked mem t c k)
    (same : ∀ i, 1 ≤ i → i < 7 → mem' (slot t i) = mem (slot t i)) : Linked mem' t c k := by
  refine ⟨(same 6 (by decide) (by decide)).trans linked.yieldTo, ?_⟩
  refine linked.caller.congr fun j inside => ?_
  have inside : j < 3 := inside
  rw [callerField, slot_slot]
  exact same (1 + j) (by omega) (by omega)

theorem Linked.kept (linked : Linked mem t c k) (kept : FieldsKept L x mem mem')
    (thread : L.thread t) (ne : t ≠ x) : Linked mem' t c k :=
  linked.congr fun i notStack inside => kept t i thread ne (by omega) (by omega)

/-- What a switch writes into control blocks: the frame details, when they go there. -/
structure Details (L : Layout) (src pcaller next : Word) (cpu : Cpu) (mem : Word → Word) :
    Prop where
  kept : ∀ t i, L.thread t → i ≠ 0 → i < 11 → (∀ j, j < 3 → slot t i ≠ slot pcaller j) →
    mem (slot t i) = cpu.mem (slot t i)
  caller : (∀ j a, j < 3 → L.Stack src a 1 ∨ a = L.cell src → slot pcaller j ≠ a) →
    Holds mem pcaller [cpu.reg .rsp, cpu.reg .rbp, next]

/-- The details go to a dummy on the stack. -/
theorem Details.on_stack (details : Details L src dummy next cpu mem)
    (stack : L.Stack src dummy 3) : FieldsKept L null cpu.mem mem := fun t i thread _ notStack inside =>
  details.kept t i thread notStack inside fun _ low same =>
    Layout.block_off thread inside (same ▸ stack.word low)

/-- The details go to the control block of `t`. -/
theorem Details.block (details : Details L src (callerField t) next cpu mem)
    (valid : L.Valid src) (thread : L.thread t) :
    FieldsKept L t cpu.mem mem ∧
      Linked mem t (cpu.mem (yieldToField t)) (cpu.returning next) := by
  refine ⟨fun u i other ne notStack inside => ?_, ?_, ?_⟩
  · refine details.kept u i other notStack inside fun j low same => ?_
    rw [callerField, slot_slot] at same
    exact ne (Layout.block_inj other thread inside (by omega) same).1
  · refine details.kept t 6 thread (by decide) (by decide) fun j low same => ?_
    rw [callerField, slot_slot] at same
    have := (Layout.block_inj thread thread (by decide) (by omega) same).2
    omega
  · refine details.caller fun j a low there => ?_
    rw [callerField, slot_slot]
    rcases there with stack | rfl
    · exact fun same => Layout.block_off thread (by omega) (same ▸ stack)
    · exact valid.field_ne_cell thread (by omega) (by omega)

theorem Details.ends (details : Details L src (callerField t) next cpu mem)
    (thread : L.thread t) : BlocksKept L 7 11 cpu.mem mem := fun u i other low high => by
  refine details.kept u i other (by omega) high fun j inside same => ?_
  rw [callerField, slot_slot] at same
  have := (Layout.block_inj other thread high (by omega) same).2
  omega

theorem asmSwitch_details (sep : Separated L saved src cpu.mem) (target : saved tgt = some k)
    (room : Room L src (cpu.reg .rsp)) (caller : CallerRoom L src (cpu.reg .rsp) pcaller)
    (run : asmSwitch cpu data (k.rsp - 56) (L.cell src) pcaller next = .ok c') :
    Details L src pcaller next cpu c'.mem := by
  have valid := sep.known.valid
  have parked := sep.parked tgt k target
  have ne : tgt ≠ src := fun same => by
    rw [same, sep.running] at target
    cases target
  let c := switchArgs cpu data (k.rsp - 56) (L.cell src) pcaller
  have load : Aligned (c.reg .rsi) := parked.aligned.sub (by decide)
  have sp : k.rsp = c.reg .rsi + 56 := (BitVec.sub_add_cancel ..).symm
  have offCell : ∀ i, i < 7 → c.reg .rdx ≠ slot (c.reg .rsp - 56) i := fun i inside same =>
    valid.fixed.off (a := L.cell src) (d := src) (by
      have same : L.cell src = slot (cpu.reg .rsp - 56) i := same
      rw [same]
      exact room.stack.word inside)
  obtain ⟨c₁, run₁, _, _, _, saves, names⟩ :=
    callSwitch_ok id next (c := c) room.aligned valid.aligned caller.aligned caller.apart
      offCell load sp fun mem saves =>
        (parked.touch (saves.touched rfl room caller) valid ne).frame
  have same : c₁ = c' := by
    have run₁ : asmSwitch cpu data (k.rsp - 56) (L.cell src) pcaller next = .ok c₁ := run₁
    rw [run] at run₁
    cases run₁
    rfl
  subst same
  refine ⟨fun t i thread notStack inside off => ?_, fun apart => names ⟨fun i j low inside => ?_,
    fun j inside => ?_⟩⟩
  · refine saves.kept _ (fun j low same => ?_) ?_ off
    · exact Layout.block_off thread inside (same ▸ room.stack.word low)
    · exact valid.field_ne_cell thread inside notStack
  · exact apart j _ inside (.inl (room.stack.word low))
  · exact apart j _ inside (.inr rfl)

/-- The end of every switch. -/
theorem takeUp_details (data next : Word) (s' : Contexts)
    (sep : Separated L saved src cpu.mem) (target : saved tgt = some k)
    (room : Room L src (cpu.reg .rsp)) (caller : CallerRoom L src (cpu.reg .rsp) pcaller)
    (run : (do
      let load ← cpu.read (L.cell tgt)
      let cpu ← asmSwitch cpu data load (L.cell src) pcaller next
      return (⟨cpu, tgt⟩ : Contexts)) = .ok s') :
    s'.self = tgt ∧ Details L src pcaller next cpu s'.cpu.mem := by
  have parked := sep.parked tgt k target
  rw [read_ok parked.known.valid.aligned, ok_bind, parked.stack] at run
  obtain ⟨c', switch, rest⟩ := bind_eq_ok.mp run
  cases rest
  exact ⟨rfl, asmSwitch_details sep target room caller switch⟩

/-- The running context was left below `tgt`, which is linked to it. -/
structure LinksOver (L : Layout) (s : Contexts) (tgt next : Word) (s' : Contexts) : Prop where
  self : s'.self = tgt
  kept : FieldsKept L tgt s.cpu.mem s'.cpu.mem
  linked : Linked s'.cpu.mem tgt s.self (s.cpu.returning next)

/-- The thread `t` has been given `yield_to`, and the switch names the running context in it. -/
theorem Details.links {pre : Cpu} (details : Details L s.self (callerField t) next
      (pre.stored (yieldToField t) s.self) s'.cpu.mem) (valid : L.Valid s.self)
    (thread : L.thread t) (reg : pre.reg = s.cpu.reg)
    (before : FieldsKept L t s.cpu.mem pre.mem) (self : s'.self = t) :
    LinksOver L s t next s' := by
  obtain ⟨kept, linked⟩ := details.block valid thread
  have written : FieldsKept L t pre.mem (pre.stored (yieldToField t) s.self).mem :=
    .field thread (by decide) s.self
  refine ⟨self, before.trans (written.trans kept), ?_⟩
  rw [stored_mem_self, returning_congr (show (pre.stored _ _).reg = s.cpu.reg from reg)] at linked
  exact linked

theorem cthreadCall_details (sep : Separated L saved s.self s.cpu.mem)
    (target : saved tgt = some k) (ne : tgt ≠ null) (room : Room L s.self (s.cpu.reg .rsp))
    (run : cthreadCall s tgt data next = .ok s') :
    s'.self = tgt ∧ Details L s.self (callerField tgt) next
      (s.cpu.stored (yieldToField tgt) s.self) s'.cpu.mem := by
  obtain ⟨thread, -⟩ := sep.target target ne
  have sep' : Separated L saved s.self (s.cpu.stored (yieldToField tgt) s.self).mem :=
    sep.touch (Touched.update s.self (.inr (yieldTo_free thread)))
  have taken := takeUp_details data next s' sep' target room (.block room thread)
  rw [Layout.cell_of_ne ne] at taken
  rw [cthreadCall, saveCell_ok (sep.parked tgt k target).known ne, ok_bind,
    write_ok (yieldToField_aligned thread), ok_bind] at run
  exact taken run

theorem cthreadCall_links (sep : Separated L saved s.self s.cpu.mem)
    (target : saved tgt = some k) (ne : tgt ≠ null) (room : Room L s.self (s.cpu.reg .rsp))
    (run : cthreadCall s tgt data next = .ok s') : LinksOver L s tgt next s' := by
  obtain ⟨self, details⟩ := cthreadCall_details sep target ne room run
  exact details.links sep.known.valid (sep.target target ne).1 rfl (fun _ _ _ _ _ _ => rfl) self

theorem cthreadCall_ends (sep : Separated L saved s.self s.cpu.mem)
    (target : saved tgt = some k) (ne : tgt ≠ null) (room : Room L s.self (s.cpu.reg .rsp))
    (run : cthreadCall s tgt data next = .ok s') : BlocksKept L 7 11 s.cpu.mem s'.cpu.mem := by
  obtain ⟨thread, -⟩ := sep.target target ne
  obtain ⟨-, details⟩ := cthreadCall_details sep target ne room run
  exact (BlocksKept.field thread (by decide) (by decide) (by decide) s.self).trans
    (details.ends thread)

/-- What `create_cthread` leaves of the other control blocks. -/
theorem Prepared.fields {m morestack : Word} (prepared : Prepared cpu m fn t morestack c')
    (fresh : FreshStack L src t) : FieldsKept L t cpu.mem c'.mem := by
  intro u i other ne notStack inside
  refine prepared.kept _ fun j low same => ?_
  by_cases below : j < 8
  · exact Layout.block_off other inside (same ▸ fresh.room.word below)
  · obtain ⟨n, rfl⟩ : ∃ n, j = 8 + n := ⟨j - 8, by omega⟩
    rw [slot_block] at same
    exact ne (Layout.block_inj other fresh.thread inside (by omega) same).1

/-- The thread `t` was created, and the switch names the running context in it. -/
structure Launches (L : Layout) (s : Contexts) (t next : Word) (s' : Contexts) : Prop where
  self : s'.self = t
  created : ∃ c fn, Prepared s.cpu L.m fn t L.morestack c ∧
    Details L s.self (callerField t) next (c.stored (yieldToField t) s.self) s'.cpu.mem

theorem createAndTakeUp_launches (fn arg : Word) (sep : Separated L saved s.self s.cpu.mem)
    (fresh : FreshStack L s.self t) (room : Room L s.self (s.cpu.reg .rsp))
    (run : (do
      let cpu ← createCthread s.cpu L.m fn t L.morestack
      let cpu ← cpu.write (yieldToField t) s.self
      let load ← cpu.read t
      let cpu ← asmSwitch cpu arg load (L.cell s.self) (callerField t) next
      return (⟨cpu, t⟩ : Contexts)) = .ok s') : Launches L s t next s' := by
  have thread := fresh.thread
  obtain ⟨c₁, created, reg, -, sep₁⟩ := createCthread_ok fn sep fresh
  obtain ⟨c₂, again, prepared⟩ :=
    createCthread_prepares s.cpu L.m fn L.morestack (L.thread_aligned t thread)
  rw [created] at again
  cases again
  let c₂ := c₁.stored (yieldToField t) s.self
  have sep₂ : Separated L (Function.update saved t (some (entryContext t fn))) s.self c₂.mem :=
    sep₁.touch (Touched.update s.self (.inr (yieldTo_free thread)))
  have reg₂ : c₂.reg = s.cpu.reg := reg
  have room₂ : Room L s.self (c₂.reg .rsp) := reg₂ ▸ room
  have taken := takeUp_details arg next s' sep₂ (Function.update_self ..) room₂
    (.block room₂ thread)
  rw [Layout.cell_of_ne (L.thread_ne_null t thread)] at taken
  rw [created, ok_bind, write_ok (yieldToField_aligned thread), ok_bind] at run
  obtain ⟨self, details⟩ := taken run
  exact ⟨self, c₁, fn, prepared, details⟩

theorem cthreadStart_launches (sep : Separated L saved s.self s.cpu.mem)
    (fromThread : s.self ≠ null) (fresh : FreshStack L s.self (cthreadAddress stack sz))
    (room : Room L s.self (s.cpu.reg .rsp))
    (run : cthreadStart L s fn arg stack sz next = .ok s') :
    Launches L s (cthreadAddress stack sz) next s' := by
  obtain ⟨source, main⟩ := sep.ne_null fromThread
  rw [cthreadStart, read_ok (mainField_aligned source), main, ok_bind] at run
  refine createAndTakeUp_launches fn arg sep fresh room ?_
  rw [Layout.cell_of_ne fromThread]
  exact run

theorem cthreadMainStart_launches (sep : Separated L saved s.self s.cpu.mem)
    (fromMain : s.self = null) (fresh : FreshStack L s.self (cthreadAddress stack sz))
    (room : Room L s.self (s.cpu.reg .rsp))
    (run : cthreadMainStart L s fn arg stack sz next = .ok s') :
    Launches L s (cthreadAddress stack sz) next s' := by
  refine createAndTakeUp_launches fn arg sep fresh room ?_
  rw [fromMain, Layout.cell_null]
  rw [cthreadMainStart, if_neg (not_not_intro fromMain)] at run
  obtain ⟨c₁, created, rest⟩ := bind_eq_ok.mp run
  obtain ⟨yieldTo, _, rest⟩ := bind_eq_ok.mp rest
  split at rest
  · cases rest
  · rw [created, ok_bind]
    exact rest

namespace Launches

theorem links (launches : Launches L s t next s') (sep : Separated L saved s.self s.cpu.mem)
    (fresh : FreshStack L s.self t) : LinksOver L s t next s' := by
  obtain ⟨self, c, fn, prepared, details⟩ := launches
  exact details.links sep.known.valid fresh.thread prepared.reg (prepared.fields fresh) self

/-- The fields of the new thread after `yield_to` are zero. -/
theorem ends (launches : Launches L s t next s') (fresh : FreshStack L s.self t) :
    (∀ i, 7 ≤ i → i < 11 → s'.cpu.mem (slot t i) = 0) ∧
      ∀ u i, L.thread u → u ≠ t → 7 ≤ i → i < 11 →
        s'.cpu.mem (slot u i) = s.cpu.mem (slot u i) := by
  obtain ⟨-, c, fn, prepared, details⟩ := launches
  have thread := fresh.thread
  have kept : BlocksKept L 7 11 c.mem s'.cpu.mem :=
    (BlocksKept.field thread (by decide) (by decide) (by decide) s.self).trans
      (details.ends thread)
  refine ⟨fun i low high => ?_, fun u i other ne low high => ?_⟩
  · rw [kept t i thread low high]
    exact prepared.zero i high (by omega) (by omega)
  · rw [kept u i other low high]
    exact prepared.fields fresh u i other ne (by omega) high

end Launches

/-- A tailcall links its target where the running context was linked. -/
structure LinksInstead (L : Layout) (s : Contexts) (tgt : Word) (s' : Contexts) : Prop where
  self : s'.self = tgt
  kept : FieldsKept L tgt s.cpu.mem s'.cpu.mem
  linked : ∀ c k, Linked s.cpu.mem s.self c k → Linked s'.cpu.mem tgt c k

theorem copyCaller_stored (source : L.thread src) (thread : L.thread t)
    (run : copyCaller cpu t src = .ok c') : Stored cpu c' (callerField t)
      [cpu.mem (slot (callerField src) 0), cpu.mem (slot (callerField src) 1),
        cpu.mem (slot (callerField src) 2)] := by
  have aligned : ∀ j, Aligned (slot (callerField src) j) := (block_aligned source 1).slot
  obtain ⟨c₁, stores, stored⟩ := storeAll_ok cpu (a := callerField t)
    [cpu.mem (slot (callerField src) 0), cpu.mem (slot (callerField src) 1),
      cpu.mem (slot (callerField src) 2)] (block_aligned thread 1) (by simp)
  simp only [copyCaller, read_ok (aligned _), ok_bind, stores] at run
  cases run
  exact stored

theorem copyCaller_blocks (source : L.thread src) (thread : L.thread t)
    (run : copyCaller cpu t src = .ok c') : BlocksKept L 4 11 cpu.mem c'.mem :=
  fun u i other low high => (copyCaller_stored source thread run).kept _ fun j inside same => by
    have inside : j < 3 := inside
    rw [callerField, slot_slot] at same
    have := (Layout.block_inj other thread high (by omega) same).2
    omega

theorem copyCaller_links (source : L.thread src) (thread : L.thread t)
    (run : copyCaller cpu t src = .ok c') :
    FieldsKept L t cpu.mem c'.mem ∧ c'.mem (yieldToField t) = cpu.mem (yieldToField t) ∧
      ∀ x y z, Holds cpu.mem (callerField src) [x, y, z] →
        Holds c'.mem (callerField t) [x, y, z] := by
  have stored := copyCaller_stored source thread run
  refine ⟨fun u i other ne notStack inside => ?_, ?_, fun x y z holds => ?_⟩
  · refine stored.kept _ fun j low same => ?_
    have low : j < 3 := low
    rw [callerField, slot_slot] at same
    exact ne (Layout.block_inj other thread inside (by omega) same).1
  · exact copyCaller_blocks source thread run t 6 thread (by decide) (by decide)
  · have word := fun j (inside : j < 3) => holds.get j inside
    have first := word 0 (by decide)
    have second := word 1 (by decide)
    have third := word 2 (by decide)
    rw [← show _ = x from first, ← show _ = y from second, ← show _ = z from third]
    exact stored.holds

section Tailcall
variable (sep : Separated L saved s.self s.cpu.mem) (target : saved tgt = some k)
  (ne : tgt ≠ null) (fromThread : s.self ≠ null) (room : Room L s.self (s.cpu.reg .rsp))
  (caller : CallerRoom L s.self (s.cpu.reg .rsp) dummy) (onStack : L.Stack s.self dummy 3)
  (run : cthreadTailcall s tgt data dummy next = .ok s')
include sep target ne fromThread room caller onStack run

/-- The target gets `yield_to` and `caller`, and then the switch writes no control block. -/
theorem cthreadTailcall_copies : s'.self = tgt ∧ ∃ c,
    copyCaller (s.cpu.stored (yieldToField tgt) (s.cpu.mem (yieldToField s.self))) tgt s.self =
      .ok c ∧ FieldsKept L null c.mem s'.cpu.mem := by
  obtain ⟨thread, -⟩ := sep.target target ne
  obtain ⟨source, -⟩ := sep.ne_null fromThread
  let c₁ := s.cpu.stored (yieldToField tgt) (s.cpu.mem (yieldToField s.self))
  have sep₁ : Separated L saved s.self c₁.mem :=
    sep.touch (Touched.update _ (.inr (yieldTo_free thread)))
  obtain ⟨c₂, copied, reg, touched⟩ := copyCaller_ok c₁ source thread
  have reg : c₂.reg = s.cpu.reg := reg
  have taken := takeUp_details data next s' (sep₁.touch touched) target (reg ▸ room)
    (reg ▸ caller)
  rw [Layout.cell_of_ne ne, Layout.cell_of_ne fromThread] at taken
  rw [cthreadTailcall, read_ok (yieldToField_aligned source), ok_bind,
    write_ok (yieldToField_aligned thread), ok_bind, copied, ok_bind] at run
  obtain ⟨self, details⟩ := taken run
  exact ⟨self, c₂, copied, details.on_stack onStack⟩

theorem cthreadTailcall_links : LinksInstead L s tgt s' := by
  obtain ⟨thread, -⟩ := sep.target target ne
  obtain ⟨source, -⟩ := sep.ne_null fromThread
  have other : s.self ≠ tgt := fun same => by
    rw [← same, sep.running] at target
    cases target
  let c₁ := s.cpu.stored (yieldToField tgt) (s.cpu.mem (yieldToField s.self))
  have written : FieldsKept L tgt s.cpu.mem c₁.mem := .field thread (by decide) _
  obtain ⟨self, c₂, copied, dummyKept⟩ :=
    cthreadTailcall_copies sep target ne fromThread room caller onStack run
  obtain ⟨kept, yieldTo, words⟩ := copyCaller_links source thread copied
  refine ⟨self, written.trans (kept.trans dummyKept.weaken), fun c k linked => ?_⟩
  have moved : Linked c₂.mem tgt c k := by
    have before := linked.kept written source other
    refine ⟨?_, words _ _ _ before.caller⟩
    rw [yieldTo, stored_mem_self]
    exact linked.yieldTo
  exact moved.kept dummyKept thread ne

theorem cthreadTailcall_ends : BlocksKept L 7 11 s.cpu.mem s'.cpu.mem := by
  obtain ⟨thread, -⟩ := sep.target target ne
  obtain ⟨source, -⟩ := sep.ne_null fromThread
  obtain ⟨-, c₂, copied, dummyKept⟩ :=
    cthreadTailcall_copies sep target ne fromThread room caller onStack run
  have copies : BlocksKept L 7 11 _ c₂.mem :=
    (copyCaller_blocks source thread copied).mono (by decide)
  exact (BlocksKept.field thread (by decide) (by decide) (by decide) _).trans
    (copies.trans (dummyKept.blocks (by decide) (by decide)))

end Tailcall

theorem doYield_links (sep : Separated L saved s.self s.cpu.mem)
    (target : saved (s.cpu.mem (yieldToField s.self)) = some k) (fromThread : s.self ≠ null)
    (room : Room L s.self (s.cpu.reg .rsp))
    (caller : CallerRoom L s.self (s.cpu.reg .rsp) dummy) (onStack : L.Stack s.self dummy 3)
    (run : cthreadYield s data dummy next = .ok s') :
    s'.self = s.cpu.mem (yieldToField s.self) ∧ FieldsKept L null s.cpu.mem s'.cpu.mem := by
  obtain ⟨source, -⟩ := sep.ne_null fromThread
  have taken := takeUp_details data next s' sep target room caller
  rw [Layout.cell_of_ne fromThread] at taken
  rw [cthreadYield, doYield, read_ok (yieldToField_aligned source), ok_bind,
    loadCell_ok sep.known fromThread, ok_bind] at run
  obtain ⟨self, details⟩ := taken run
  exact ⟨self, details.on_stack onStack⟩

end CThread.Switch
