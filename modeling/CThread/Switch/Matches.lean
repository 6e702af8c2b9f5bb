import CThread.Switch.Exits
import CThread.Threads.Reloads

/-!
What the machine and the model of the C code have in common between two operations.

That model keeps frames where the machine has words on stacks, and knows no registers. Both
know who is alive and who is suspended where, the frame details, who joins whom and who has
exited with which code. The proof that the model does not fault is taken from its refinement.
-/
namespace CThread.Switch
open Faults GuardedRuns X64
open X64.Cpu
open CThread.Threads (null World CallSite ThreadOp ThreadOutput Activation Tracks Reloads
  threadMachine threadStep ThreadAllows activationOf lastSite)

variable {L : Layout} {saved : Word → Option Context} {s s' : Contexts}
  {tr' : Trace (CallSite × ThreadOp) ThreadOutput} {w w' : World} {call : ThreadOp}
  {k left : Context} {c t tgt load sp next code : Word} {p : Threads.Pending}
  {mem mem' : Word → Word} {a a' : Activation} {exits : Bool}

/-- The call of `cthread_asm_switch` has pushed its return address. -/
def siteOf (left : Context) : CallSite := ⟨left.rsp - 8, left.rbp, left.rip⟩

theorem siteOf_frame (k : Context) : (siteOf k).rsp - 48 = k.rsp - 56 := by
  show k.rsp - 8 - 48 = k.rsp - 56
  bv_omega

theorem depart_of_ne {src : Word} (notSource : c ≠ src) (notTarget : c ≠ tgt) :
    depart exits saved src left tgt c = saved c := by
  unfold depart
  split
  · rw [Function.update_of_ne notSource, leave_of_ne notSource notTarget]
  · exact leave_of_ne notSource notTarget

theorem depart_source {src : Word} (ne : tgt ≠ src) :
    depart exits saved src left tgt src = if exits then none else some left := by
  unfold depart
  split
  · exact Function.update_self ..
  · rw [leave, Function.update_of_ne ne.symm, Function.update_self]

theorem depart_target {src : Word} (ne : tgt ≠ src) :
    depart exits saved src left tgt tgt = none := by
  unfold depart
  split
  · rw [Function.update_of_ne ne]
    exact Function.update_self ..
  · exact Function.update_self ..

/-- What both levels know of the contexts. The frame of a thread that has exited is not one
that is to be taken up. -/
structure Matches (saved : Word → Option Context) (src : Word) (a : Activation) (w : World)
    (sites : Word → CallSite) : Prop where
  alive : ∀ c, (∃ k, saved c = some k) ↔ c ≠ src ∧ (c = null ∨ c ∈ a.live)
  frames : ∀ sp f, w.saved sp = some f → f.pending ≠ .exit →
    ∃ k, saved f.owner = some k ∧ sp = k.rsp - 56
  sites : ∀ c k, saved c = some k → sites c = siteOf k

/-- Few calls create a thread. -/
theorem creates_none {P : Word → Prop} (creates : call.creates = none) :
    ∀ t, call.creates = some t → P t := fun t new =>
  absurd (creates.symm.trans new) (Option.some_ne_none t).symm

/-- The running context leaves for `tgt` as `call` says. -/
structure Goes (saved : Word → Option Context) (src : Word) (a : Activation) (call : ThreadOp)
    (tgt : Word) : Prop where
  idle : saved src = none
  top : src = a.top
  alive : src = null ∨ src ∈ a.live
  exits : call.code ≠ none → src ≠ null
  ne : tgt ≠ src
  creates : ∀ c, call.creates = some c → c = tgt

namespace Matches
variable {sites : Word → CallSite} {src : Word}

/-- The frame that is left belongs to `src`, and the one at `load` belonged to `tgt`. -/
theorem switch (same : Matches saved src a w sites) (settled : a.Settled null)
    (goes : Goes saved src a call tgt) (running : w.running = src)
    (reloads : Reloads w w' (siteOf left) p load) (exit : call.code ≠ none → p = .exit)
    (at_load : ∀ k, saved tgt = some k → load = k.rsp - 56) :
    Matches (depart call.code.isSome saved src left tgt) tgt (a.step call).1 w'
      (Function.update sites src (siteOf left)) where
  alive c := by
    by_cases isTarget : c = tgt
    · rw [isTarget, depart_target goes.ne]
      simp
    have live : c ∈ (a.step call).1.live ↔ c ∈ a.live ∧ ¬ (call.code ≠ none ∧ c = src) := by
      have old : call.creates ≠ some c := fun new => isTarget (goes.creates c new)
      rw [settled.live_step, goes.top]
      simp only [old, false_or]
    rw [live]
    by_cases isSource : c = src
    · subst isSource
      rw [depart_source goes.ne]
      cases ends : call.code with
      | none => simpa [isTarget] using goes.alive
      | some code => simpa [isTarget] using goes.exits (by rw [ends]; exact Option.some_ne_none _)
    · rw [depart_of_ne isSource isTarget, same.alive c]
      simp [isSource, isTarget]
  frames sp f at_sp waits := by
    obtain ⟨notLoad, ⟨here, rfl⟩ | there⟩ := reloads.cases at_sp
    · have stays : call.code = none := by
        by_contra ends
        exact waits (exit ends)
      refine ⟨left, ?_, here.trans (siteOf_frame left)⟩
      show depart _ saved src left tgt w.running = _
      rw [running, depart_source goes.ne, stays]
      rfl
    · obtain ⟨k, at_owner, rfl⟩ := same.frames sp f there waits
      refine ⟨k, ?_, rfl⟩
      rw [depart_of_ne ?_ ?_, at_owner]
      · intro isSource
        rw [isSource, goes.idle] at at_owner
        cases at_owner
      · intro isTarget
        rw [isTarget] at at_owner
        exact notLoad (at_load k at_owner).symm
  sites c k at_c := by
    have notTarget : c ≠ tgt := fun isTarget => by
      rw [isTarget, depart_target goes.ne] at at_c
      cases at_c
    by_cases isSource : c = src
    · subst isSource
      rw [depart_source goes.ne] at at_c
      split at at_c
      · cases at_c
      · cases at_c
        exact Function.update_self ..
    · rw [depart_of_ne isSource notTarget] at at_c
      rw [Function.update_of_ne isSource]
      exact same.sites c k at_c

/-- No frame that will be resumed lies on the stack of a context that is not suspended. -/
theorem free (same : Matches saved src a w sites) (sep : Separated L saved src mem)
    (stack : L.Stack c sp 1) (idle : saved c = none) : w.Free sp := by
  intro f at_sp
  by_contra waits
  obtain ⟨k, at_owner, rfl⟩ := same.frames sp f at_sp waits
  have other : f.owner ≠ c := fun isC => by
    rw [isC, idle] at at_owner
    cases at_owner
  have frame : L.Stack f.owner (k.rsp - 56) 1 := (sep.parked _ k at_owner).room.short (by decide)
  exact absurd stack (frame.off other)

/-- Both levels have the same stack pointer for a suspended context. -/
theorem slot (same : Matches saved src a w sites) (tracks : Tracks w a) (running : src = a.top)
    (at_c : saved c = some k) :
    w.slot c = some (k.rsp - 56) ∧ w.saved (k.rsp - 56) = some ⟨c, a.waiting c⟩ ∧
      a.waiting c ≠ .exit := by
  obtain ⟨notSource, alive⟩ := (same.alive c).mp ⟨k, at_c⟩
  have other : c ≠ a.top := running ▸ notSource
  have waits := tracks.settled.alive other alive
  obtain ⟨sp, at_slot, at_sp⟩ := tracks.suspended c other alive
  obtain ⟨k', again, rfl⟩ := same.frames sp _ at_sp waits
  rw [at_c] at again
  cases again
  exact ⟨at_slot, at_sp, waits⟩

end Matches

/-- What both levels know of the ends of threads. -/
structure Ends (L : Layout) (mem : Word → Word) (a : Activation) : Prop where
  live : ∀ t, t ∈ a.live → L.thread t ∧ isSet (mem (finishedField t)) = false ∧
    mem (exitToField t) = (a.joiner t).getD null ∧ mem (exitDataField t) = null
  exited : ∀ t code, a.exited t = some code →
    L.thread t ∧ isSet (mem (finishedField t)) = true ∧ mem (exitCodeField t) = code

namespace Ends

theorem keep (ends : Ends L mem a) (kept : BlocksKept L 7 11 mem mem') (live : a'.live = a.live)
    (exited : a'.exited = a.exited) (joiner : a'.joiner = a.joiner) : Ends L mem' a' where
  live t inside := by
    obtain ⟨thread, finished, exitTo, exitData⟩ := ends.live t (live ▸ inside)
    refine ⟨thread, ?_, ?_, ?_⟩
    · rwa [finishedField, kept t 10 thread (by decide) (by decide)]
    · rwa [joiner, exitToField, kept t 7 thread (by decide) (by decide)]
    · rwa [exitDataField, kept t 8 thread (by decide) (by decide)]
  exited t code done := by
    obtain ⟨thread, finished, result⟩ := ends.exited t code (exited ▸ done)
    refine ⟨thread, ?_, ?_⟩
    · rwa [finishedField, kept t 10 thread (by decide) (by decide)]
    · rwa [exitCodeField, kept t 9 thread (by decide) (by decide)]

/-- A new thread takes the place of nobody who lives. -/
theorem spawn (ends : Ends L mem a) (thread : L.thread t) (unjoined : a.joiner t = none)
    (zero : ∀ i, 7 ≤ i → i < 11 → mem' (slot t i) = 0)
    (others : ∀ u i, L.thread u → u ≠ t → 7 ≤ i → i < 11 → mem' (slot u i) = mem (slot u i)) :
    Ends L mem' ((a.spawn t).push t p) where
  live u inside := by
    by_cases new : u = t
    · subst new
      refine ⟨thread, ?_, ?_, zero 8 (by decide) (by decide)⟩
      · rw [finishedField, zero 10 (by decide) (by decide)]
        rfl
      · show mem' (exitToField u) = (a.joiner u).getD null
        rw [unjoined]
        exact zero 7 (by decide) (by decide)
    · have old : u ∈ a.live := (List.mem_cons.mp inside).resolve_left new
      obtain ⟨other, finished, exitTo, exitData⟩ := ends.live u old
      refine ⟨other, ?_, ?_, ?_⟩
      · rwa [finishedField, others u 10 other new (by decide) (by decide)]
      · exact (others u 7 other new (by decide) (by decide)).trans exitTo
      · exact (others u 8 other new (by decide) (by decide)).trans exitData
  exited u code done := by
    by_cases new : u = t
    · subst new
      exact absurd done (by simp [Activation.spawn, Activation.push])
    · have done : a.exited u = some code := by
        simpa [Activation.spawn, Activation.push, new] using done
      obtain ⟨other, finished, result⟩ := ends.exited u code done
      refine ⟨other, ?_, ?_⟩
      · rwa [finishedField, others u 10 other new (by decide) (by decide)]
      · exact (others u 9 other new (by decide) (by decide)).trans result

/-- Another field of a control block is written, or another control block. -/
theorem written {i j : Nat} {v u : Word} (thread : L.thread t) (other : L.thread u)
    (inside : i < 11) (inside' : j < 11) (ne : u ≠ t ∨ j ≠ i) :
    Function.update mem (slot t i) v (slot u j) = mem (slot u j) := by
  refine Function.update_of_ne (fun same => ?_) ..
  obtain ⟨sameThread, sameField⟩ := Layout.block_inj other thread inside' inside same
  exact ne.elim (absurd sameThread) (absurd sameField)

/-- `exit_to` is written where the thread has a new joiner, or none to care. -/
theorem names {v : Word} (ends : Ends L mem a) (thread : L.thread t) (live : a'.live = a.live)
    (exited : a'.exited = a.exited) (joiner : ∀ u, u ∈ a.live →
      (a'.joiner u).getD null = if u = t then v else (a.joiner u).getD null) :
    Ends L (Function.update mem (exitToField t) v) a' := by
  have kept : ∀ u j, L.thread u → j < 11 → j ≠ 7 →
      Function.update mem (exitToField t) v (slot u j) = mem (slot u j) :=
    fun u j other inside ne => written thread other (by decide) inside (.inr ne)
  constructor
  · intro u inside
    rw [live] at inside
    obtain ⟨other, finished, exitTo, exitData⟩ := ends.live u inside
    refine ⟨other, (congrArg isSet (kept u 10 other (by decide) (by decide))).trans finished, ?_,
      (kept u 8 other (by decide) (by decide)).trans exitData⟩
    rw [joiner u inside]
    split
    · next same =>
        subst same
        exact Function.update_self ..
    · next ne => exact (written thread other (by decide) (by decide) (.inl ne)).trans exitTo
  · intro u result done
    rw [exited] at done
    obtain ⟨other, finished, value⟩ := ends.exited u result done
    exact ⟨other, (congrArg isSet (kept u 10 other (by decide) (by decide))).trans finished,
      (kept u 9 other (by decide) (by decide)).trans value⟩

/-- The running thread waits for `t`. -/
theorem block (ends : Ends L s.cpu.mem a) (live : t ∈ a.live) (top : s.self = a.top) :
    Ends L (s.joins t).cpu.mem ((a.pop (.join t)).block t a.top) := by
  refine ends.names (ends.live t live).1 rfl rfl fun u _ => ?_
  show (Function.update a.joiner t (some a.top) u).getD null = _
  by_cases same : u = t
  · rw [same, Function.update_self, if_pos rfl, top]
    rfl
  · rw [Function.update_of_ne same, if_neg same]

/-- The joiner of a thread that has exited takes its name back. -/
theorem clear (ends : Ends L mem a) (settled : a.Settled null) (done : a.exited t = some code) :
    Ends L (Function.update mem (exitToField t) null) a := by
  refine ends.names (ends.exited t code done).1 rfl rfl fun u inside => (if_neg ?_).symm
  rintro rfl
  exact absurd (done.symm.trans (settled.unfinished u inside)) (Option.some_ne_none code)

/-- The running thread has finished. -/
theorem retire (ends : Ends L s.cpu.mem a) (settled : a.Settled null) (alive : s.self ∈ a.live)
    (top : s.self = a.top) (code : Word) : Ends L (s.retires code).cpu.mem (a.exit code).1 := by
  obtain ⟨live, exited, joiner⟩ := a.exit_fields code
  obtain ⟨thread, -⟩ := ends.live s.self alive
  have kept : ∀ u j, L.thread u → u ≠ s.self → j < 11 →
      (s.retires code).cpu.mem (slot u j) = s.cpu.mem (slot u j) := fun u j other ne inside =>
    (written thread other (by decide) inside (.inl ne)).trans
      (written thread other (by decide) inside (.inl ne))
  constructor
  · intro u inside
    rw [live, ← top] at inside
    have ne : u ≠ s.self := fun same => settled.live_nodup.not_mem_erase (same ▸ inside)
    obtain ⟨other, finished, exitTo, exitData⟩ := ends.live u (List.mem_of_mem_erase inside)
    refine ⟨other, (congrArg isSet (kept u 10 other ne (by decide))).trans finished, ?_,
      (kept u 8 other ne (by decide)).trans exitData⟩
    rw [joiner u (top ▸ ne)]
    exact (kept u 7 other ne (by decide)).trans exitTo
  · intro u result done
    rw [exited, ← top] at done
    by_cases same : u = s.self
    · subst same
      rw [Function.update_self] at done
      cases done
      refine ⟨thread, ?_, Function.update_self ..⟩
      have last : (s.retires code).cpu.mem (finishedField s.self) =
          setByte (s.cpu.mem (finishedField s.self)) :=
        (written thread thread (by decide) (by decide) (.inr (by decide))).trans
          (Function.update_self ..)
      rw [last]
      exact isSet_setByte _
    · rw [Function.update_of_ne same] at done
      obtain ⟨other, finished, value⟩ := ends.exited u result done
      exact ⟨other, (congrArg isSet (kept u 10 other same (by decide))).trans finished,
        (kept u 9 other same (by decide)).trans value⟩

end Ends

/-- The machine in `s`, with the contexts `saved` suspended, has come as far as the model of
the C code in `w`. -/
structure Simulates (L : Layout) (saved : Word → Option Context) (s : Contexts)
    (tr' : Trace (CallSite × ThreadOp) ThreadOutput) (w : World) : Prop where
  run : Run threadMachine ThreadAllows World.init tr' w
  separated : Separated L saved s.self s.cpu.mem
  chain : Chain L saved s (activationOf tr').stack
  same : Matches saved s.self (activationOf tr') w (lastSite tr')
  ends : Ends L s.cpu.mem (activationOf tr')

/-- The running context has left with `site`, and the model has made the step `call`. -/
structure Performs (L : Layout) (saved : Word → Option Context) (s : Contexts) (next : Word)
    (call : ThreadOp) (tr' : Trace (CallSite × ThreadOp) ThreadOutput) (w : World)
    (s' : Contexts) : Prop where
  allowed : (activationOf tr').Allows call
  ne : s'.self ≠ s.self
  restores : ∀ k, saved s'.self = some k → s'.cpu.context = k
  rax : ∀ c p v, (activationOf tr').answer call = .resumes c p v → s'.cpu.reg .rax = v
  step : ∃ w', threadStep w (siteOf (s.cpu.returning next), call) =
      .ok (w', (activationOf tr').answer call) ∧
    Simulates L (depart call.code.isSome saved s.self (s.cpu.returning next) s'.self) s'
      (((siteOf (s.cpu.returning next), call), (activationOf tr').answer call) :: tr') w'

namespace Simulates

theorem tracks (sim : Simulates L saved s tr' w) : Tracks w (activationOf tr') :=
  (Threads.threads_track.run Threads.init_tracks sim.run).2

theorem settled (sim : Simulates L saved s tr' w) : (activationOf tr').Settled null :=
  sim.tracks.settled

theorem top (sim : Simulates L saved s tr' w) : s.self = (activationOf tr').top :=
  sim.chain.self

theorem self (sim : Simulates L saved s tr' w) : w.self = s.self :=
  sim.tracks.self.trans sim.top.symm

theorem running (sim : Simulates L saved s tr' w) : w.running = s.self :=
  sim.tracks.running.trans sim.top.symm

theorem runs (sim : Simulates L saved s tr' w) : Threads.runner tr' = s.self :=
  (Threads.threadRun_lives sim.run).runs.trans sim.top.symm

theorem above (sim : Simulates L saved s tr' w) (fromThread : s.self ≠ null) :
    (activationOf tr').stack ≠ [] := by
  rw [sim.chain.stack_eq fromThread]
  exact List.cons_ne_nil _ _

theorem self_live (sim : Simulates L saved s tr' w) (fromThread : s.self ≠ null) :
    s.self ∈ (activationOf tr').live := by
  refine sim.settled.onstack _ ?_
  rw [sim.top]
  exact Activation.top_mem (sim.above fromThread)

theorem source_alive (sim : Simulates L saved s tr' w) :
    s.self = null ∨ s.self ∈ (activationOf tr').live :=
  (eq_or_ne s.self null).imp_right sim.self_live

theorem goes (sim : Simulates L saved s tr' w) (exits : call.code ≠ none → s.self ≠ null)
    (ne : tgt ≠ s.self) (creates : ∀ c, call.creates = some c → c = tgt) :
    Goes saved s.self (activationOf tr') call tgt :=
  ⟨sim.separated.running, sim.top, sim.source_alive, exits, ne, creates⟩

/-- The model makes the same switch as the machine. -/
theorem switch (sim : Simulates L saved s tr' w)
    (allowed : ThreadAllows tr' w (siteOf (s.cpu.returning next), call))
    (goes : Goes saved s.self (activationOf tr') call s'.self)
    (sep : Separated L (leave saved s.self (s.cpu.returning next) s'.self) s'.self s'.cpu.mem)
    (chain : Chain L (leave saved s.self (s.cpu.returning next) s'.self) s'
      ((activationOf tr').step call).1.stack)
    (ends : Ends L s'.cpu.mem ((activationOf tr').step call).1)
    (loads : ∀ w' o, threadStep w (siteOf (s.cpu.returning next), call) = .ok (w', o) →
      ∃ p load, Reloads w w' (siteOf (s.cpu.returning next)) p load ∧
        (call.code ≠ none → p = .exit) ∧ ∀ k, saved s'.self = some k → load = k.rsp - 56)
    (restores : ∀ k, saved s'.self = some k → s'.cpu.context = k)
    (rax : ∀ c p v, (activationOf tr').answer call = .resumes c p v → s'.cpu.reg .rax = v) :
    Performs L saved s next call tr' w s' := by
  refine ⟨allowed.1, goes.ne, restores, rax, ?_⟩
  obtain ⟨w', o, stepped, answers, tracks⟩ :=
    Threads.threads_track.step tr' w _ sim.tracks allowed
  have answers : o = (activationOf tr').answer call := answers
  subst answers
  obtain ⟨p, load, reloads, exit, at_load⟩ := loads w' _ stepped
  have settled : ((activationOf tr').step call).1.Settled null := tracks.settled
  have resumed : ((activationOf tr').answer call).context = s'.self := by
    rw [Activation.answer_context]
    exact chain.self.symm
  have sites : lastSite (((siteOf (s.cpu.returning next), call),
      (activationOf tr').answer call) :: tr') =
      Function.update (lastSite tr') s.self (siteOf (s.cpu.returning next)) := by
    rw [lastSite, resumed, sim.runs, if_neg goes.ne]
  have notNull : call.code.isSome = true → s.self ≠ null := fun exits =>
    goes.exits (Option.isSome_iff_ne_none.mp exits)
  refine ⟨w', stepped, .snoc sim.run allowed stepped, depart_separated sep notNull,
    depart_chain chain fun exits inside => ?_, ?_, ends⟩
  · rcases List.mem_append.mp inside with inside | bottom
    · have live := settled.onstack _ (List.mem_of_mem_tail inside)
      rw [sim.settled.live_step, ← goes.top] at live
      rcases live with new | old
      · exact goes.ne (goes.creates _ new).symm
      · exact old.2 ⟨Option.isSome_iff_ne_none.mp exits, rfl⟩
    · exact notNull exits (List.mem_singleton.mp bottom)
  · rw [sites]
    exact sim.same.switch sim.settled goes sim.running reloads exit at_load

theorem stay (sim : Simulates L saved s tr' w)
    (sep : Separated L saved s'.self s'.cpu.mem) (self : s'.self = s.self)
    (kept : FieldsKept L null s.cpu.mem s'.cpu.mem) : Simulates L saved s' tr' w :=
  ⟨sim.run, sep, sim.chain.stay self (kept.blocks (by decide) (by decide)), self.symm ▸ sim.same,
    sim.ends.keep (kept.blocks (by decide) (by decide)) rfl rfl rfl⟩

/-- There is room for the frame of the running context in the model as well. -/
theorem free_own (sim : Simulates L saved s tr' w) (room : Room L s.self (s.cpu.reg .rsp))
    (next : Word) : w.Free ((siteOf (s.cpu.returning next)).rsp - 48) := by
  rw [siteOf_frame]
  exact sim.same.free sim.separated (room.stack.short (by decide)) sim.separated.running

/-- The stack pointer that the model loads is where the frame of `c` is. -/
theorem load_eq (sim : Simulates L saved s tr' w) (at_slot : w.slot c = some load)
    (at_c : saved c = some k) : load = k.rsp - 56 := by
  rw [(sim.same.slot sim.tracks sim.top at_c).1] at at_slot
  exact (Option.some.inj at_slot).symm

theorem loads {site : CallSite} (sim : Simulates L saved s tr' w)
    (exit : call.code ≠ none → p = .exit) (at_slot : w.slot tgt = some load)
    (reloads : Reloads w w' site p load) :
    ∃ p load, Reloads w w' site p load ∧ (call.code ≠ none → p = .exit) ∧
      ∀ k, saved tgt = some k → load = k.rsp - 56 :=
  ⟨p, load, reloads, exit, fun _ at_tgt => sim.load_eq at_slot at_tgt⟩

end Simulates
end CThread.Switch
