import CThread.Switch.Matches

/-!
The machine does what the model of the C code says.

Each switch of the machine is the step of the same function there: the same context goes on
with the same value. A join that has waited ends one step later on the machine than in the
model, where the context that is taken up returns from its call at once.
-/
namespace CThread.Switch
open Faults GuardedRuns X64
open X64.Cpu
open CThread.Threads (null cthreadAddress World CallSite ThreadOp ThreadOutput Activation Reloads
  threadMachine threadStep ThreadAllows activationOf)

variable {L : Layout} {saved : Word → Option Context} {s s' : Contexts}
  {tr' : Trace (CallSite × ThreadOp) ThreadOutput} {w : World} {k : Context}
  {t tgt data dummy next fn arg stack sz code : Word} {l : List Word} {c₁ : Cpu}

/-- The running context has left for `tgt`, with the chain `l` and `data` in `rax`; control
blocks are as `c₁` has them, but for their links. -/
structure Lands (L : Layout) (saved : Word → Option Context) (s : Contexts) (next data : Word)
    (c₁ : Cpu) (tgt : Word) (l : List Word) (s' : Contexts) : Prop where
  self : s'.self = tgt
  restores : ∀ k, saved tgt = some k → s'.cpu.context = k
  rax : s'.cpu.reg .rax = data
  separated : Separated L (leave saved s.self (s.cpu.returning next) tgt) tgt s'.cpu.mem
  chain : Chain L (leave saved s.self (s.cpu.returning next) tgt) s' l
  ends : BlocksKept L 7 11 c₁.mem s'.cpu.mem

/-- The running context has written fields of control blocks, and is about to switch. -/
structure Ready (L : Layout) (saved : Word → Option Context) (s : Contexts) (c₁ : Cpu) :
    Prop where
  reg : c₁.reg = s.cpu.reg
  separated : Separated L saved s.self c₁.mem
  links : BlocksKept L 1 7 s.cpu.mem c₁.mem

theorem reply_value {a : Activation} {c c' : Word} {p p' : Threads.Pending} {v : Word}
    (replies : a.reply c p data = .resumes c' p' v) : v = data := by
  cases p with
  | join t => cases replies
  | _ =>
      cases replies
      rfl

namespace Simulates

theorem ready (sim : Simulates L saved s tr' w) : Ready L saved s s.cpu :=
  ⟨rfl, sim.separated, fun _ _ _ _ _ => rfl⟩

theorem suspended_ne (sim : Simulates L saved s tr' w) (target : saved tgt = some k) :
    tgt ≠ s.self := ((sim.same.alive tgt).mp ⟨k, target⟩).1

section Leaving
variable (sim : Simulates L saved s tr' w) (leaving : Leaving L s dummy)
  (ready : Ready L saved s c₁)
include sim leaving ready

theorem yields (data next : Word) : ∃ s', cthreadYield ⟨c₁, s.self⟩ data dummy next = .ok s' ∧
    Lands L saved s next data c₁ (activationOf tr').below (activationOf tr').stack.tail s' := by
  let s₁ : Contexts := ⟨c₁, s.self⟩
  have room : Room L s₁.self (s₁.cpu.reg .rsp) := ready.reg ▸ leaving.room
  have caller : CallerRoom L s₁.self (s₁.cpu.reg .rsp) dummy := ready.reg ▸ leaving.caller
  have chain₁ : Chain L saved s₁ (activationOf tr').stack := sim.chain.stay rfl ready.links
  obtain ⟨k, at_below, linked⟩ := chain₁.below leaving.fromThread
  rw [← linked.yieldTo] at at_below
  obtain ⟨c', run, entered⟩ :=
    doYield_ok (s := s₁) data next ready.separated at_below leaving.fromThread room caller
  obtain ⟨self, kept⟩ := doYield_links (s := s₁) ready.separated at_below leaving.fromThread
    room caller leaving.onStack run
  have same : (activationOf tr').below = s₁.cpu.mem (yieldToField s₁.self) :=
    linked.yieldTo.symm
  have left : s₁.cpu.returning next = s.cpu.returning next := returning_congr ready.reg next
  have popped := chain₁.pop leaving.fromThread self kept (s₁.cpu.returning next)
  have separated := entered.separated
  rw [left] at popped separated
  refine ⟨_, run, same.symm, fun k' at_below' => ?_, entered.data, same ▸ separated,
    same ▸ popped, kept.blocks (by decide) (by decide)⟩
  rw [same, at_below] at at_below'
  cases at_below'
  exact entered.context

theorem tailcalls (target : saved tgt = some k) (notNull : tgt ≠ null)
    (off : tgt ∉ (activationOf tr').stack) (data next : Word) :
    ∃ s', cthreadTailcall ⟨c₁, s.self⟩ tgt data dummy next = .ok s' ∧
      Lands L saved s next data c₁ tgt (tgt :: (activationOf tr').stack.tail) s' := by
  let s₁ : Contexts := ⟨c₁, s.self⟩
  have room : Room L s₁.self (s₁.cpu.reg .rsp) := ready.reg ▸ leaving.room
  have caller : CallerRoom L s₁.self (s₁.cpu.reg .rsp) dummy := ready.reg ▸ leaving.caller
  have chain₁ : Chain L saved s₁ (activationOf tr').stack := sim.chain.stay rfl ready.links
  have fresh : tgt ∉ (activationOf tr').stack ++ [null] := by simp [off, notNull]
  obtain ⟨c', run, entered⟩ := cthreadTailcall_ok (s := s₁) data next ready.separated target
    notNull leaving.fromThread room caller
  have links := cthreadTailcall_links (s := s₁) ready.separated target notNull
    leaving.fromThread room caller leaving.onStack run
  have left : s₁.cpu.returning next = s.cpu.returning next := returning_congr ready.reg next
  have replaced := chain₁.replace leaving.fromThread (ready.separated.target target notNull).1
    fresh links (s₁.cpu.returning next)
  have separated := entered.separated
  rw [left] at replaced separated
  refine ⟨_, run, rfl, fun k' again => ?_, entered.data, separated, replaced,
    cthreadTailcall_ends (s := s₁) ready.separated target notNull leaving.fromThread room caller
      leaving.onStack run⟩
  rw [target] at again
  cases again
  exact entered.context

end Leaving

/-- The running thread as the model has it. -/
theorem source (sim : Simulates L saved s tr' w) (fromThread : s.self ≠ null) :
    ∃ c, w.threads w.self = some c ∧ c.yieldTo = (activationOf tr').below ∧
      c.exitTo = ((activationOf tr').joiner s.self).getD null := by
  obtain ⟨c, thread, _, exitTo, _⟩ := sim.tracks.thread (sim.self_live fromThread)
  obtain ⟨d, again, spells⟩ := sim.tracks.self_thread (sim.above fromThread)
  rw [← sim.top, thread] at again
  cases again
  exact ⟨c, sim.self ▸ thread, spells.head, exitTo⟩

theorem call (sim : Simulates L saved s tr' w) (target : saved tgt = some k)
    (notNull : tgt ≠ null) (resumable : (activationOf tr').Resumable tgt)
    (room : Room L s.self (s.cpu.reg .rsp)) (data next : Word) :
    ∃ s', cthreadCall s tgt data next = .ok s' ∧
      Performs L saved s next (.call tgt data) tr' w s' := by
  obtain ⟨c', run, entered⟩ := cthreadCall_ok data next sim.separated target notNull room
  have fresh : tgt ∉ (activationOf tr').stack ++ [null] := by simp [resumable.off, notNull]
  have links := cthreadCall_links sim.separated target notNull room run
  refine ⟨_, run, sim.switch ⟨resumable, sim.free_own room next⟩
    (sim.goes (fun ends => absurd rfl ends) (sim.suspended_ne target) (creates_none rfl))
    entered.separated (sim.chain.push (sim.separated.target target notNull).1 fresh links)
    (sim.ends.keep (cthreadCall_ends sim.separated target notNull room run) rfl rfl rfl)
    (fun w' o stepped => ?_) (fun k' again => ?_) fun c p v replies => ?_⟩
  · obtain ⟨load, at_slot, reloads⟩ := Threads.cthreadCall_reloads notNull stepped
    exact sim.loads (fun ends => absurd rfl ends) at_slot reloads
  · cases target.symm.trans again
    exact entered.context
  · rw [reply_value replies]
    exact entered.data

theorem tailcall (sim : Simulates L saved s tr' w) (leaving : Leaving L s dummy)
    (target : saved tgt = some k) (notNull : tgt ≠ null)
    (resumable : (activationOf tr').Resumable tgt) (data next : Word) :
    ∃ s', cthreadTailcall s tgt data dummy next = .ok s' ∧
      Performs L saved s next (.tailcall tgt data) tr' w s' := by
  obtain ⟨s', run, self, restores, rax, separated, chain, ends⟩ :=
    sim.tailcalls leaving sim.ready target notNull resumable.off data next
  subst self
  refine ⟨s', run, sim.switch
    ⟨⟨sim.above leaving.fromThread, resumable⟩, sim.free_own leaving.room next⟩
    (sim.goes (fun ends => absurd rfl ends) (sim.suspended_ne target) (creates_none rfl))
    separated chain (sim.ends.keep ends rfl rfl rfl) (fun w' o stepped => ?_) restores
    fun c p v replies => ?_⟩
  · obtain ⟨load, at_slot, reloads⟩ := Threads.cthreadTailcall_reloads notNull stepped
    exact sim.loads (fun ends => absurd rfl ends) at_slot reloads
  · rw [reply_value replies]
    exact rax

theorem below_ne (sim : Simulates L saved s tr' w) (fromThread : s.self ≠ null) :
    (activationOf tr').below ≠ s.self := by
  obtain ⟨k, at_below, -⟩ := sim.chain.below fromThread
  exact sim.suspended_ne at_below

theorem yield (sim : Simulates L saved s tr' w) (leaving : Leaving L s dummy)
    (data next : Word) : ∃ s', cthreadYield s data dummy next = .ok s' ∧
      Performs L saved s next (.yield data) tr' w s' := by
  obtain ⟨s', run, self, restores, rax, separated, chain, ends⟩ :=
    sim.yields leaving sim.ready data next
  have ne := sim.below_ne leaving.fromThread
  rw [← self] at restores separated chain ne
  refine ⟨s', run, sim.switch
    ⟨sim.above leaving.fromThread, sim.free_own leaving.room next⟩
    (sim.goes (fun ends => absurd rfl ends) ne (creates_none rfl))
    separated chain (sim.ends.keep ends rfl rfl rfl) (fun w' o stepped => ?_) restores
    fun c p v replies => ?_⟩
  · obtain ⟨c, source, yieldTo, -⟩ := sim.source leaving.fromThread
    obtain ⟨load, at_slot, reloads⟩ := Threads.doYield_reloads source stepped
    rw [yieldTo, ← self] at at_slot
    exact sim.loads (fun ends => absurd rfl ends) at_slot reloads
  · cases replies
    exact rax

theorem ready_joins (sim : Simulates L saved s tr' w) (thread : L.thread t) :
    Ready L saved s (s.joins t).cpu :=
  ⟨rfl, sim.separated.joins thread,
    BlocksKept.field thread (by decide) (by decide) (by decide) s.self⟩

theorem join (sim : Simulates L saved s tr' w) (leaving : Leaving L s dummy)
    (live : t ∈ (activationOf tr').live) (next : Word) :
    ∃ s', cthreadYield (s.joins t) null dummy next = .ok s' ∧
      Performs L saved s next (.join t) tr' w s' := by
  obtain ⟨thread, -⟩ := sim.ends.live t live
  have running := sim.above leaving.fromThread
  have unfinished := sim.settled.unfinished t live
  have step : (activationOf tr').step (.join t) =
      (((activationOf tr').pop (.join t)).block t (activationOf tr').top,
        (activationOf tr').returnTo (activationOf tr').below null) := by
    simp [Activation.step, unfinished]
  obtain ⟨s', run, self, restores, rax, separated, chain, ends⟩ :=
    sim.yields leaving (sim.ready_joins thread) null next
  have ne := sim.below_ne leaving.fromThread
  rw [← self] at restores separated chain ne
  refine ⟨s', run, sim.switch ⟨⟨running, .inl live⟩, sim.free_own leaving.room next⟩
    (sim.goes (fun ends => absurd rfl ends) ne (creates_none rfl))
    separated ?_ ?_ (fun w' o stepped => ?_) restores fun c p v replies => ?_⟩
  · rw [step]
    exact chain
  · rw [step]
    exact (sim.ends.block live sim.top).keep ends rfl rfl rfl
  · obtain ⟨c, source, yieldTo, -⟩ := sim.source leaving.fromThread
    obtain ⟨d, target, finished, -⟩ := sim.tracks.thread live
    obtain ⟨load, at_slot, reloads⟩ := Threads.cthreadJoin_reloads target finished source stepped
    rw [yieldTo, ← self] at at_slot
    exact sim.loads (fun ends => absurd rfl ends) at_slot reloads
  · rw [show (activationOf tr').answer (.join t) = _ from congrArg Prod.snd step] at replies
    cases replies
    exact rax

theorem ready_retires (sim : Simulates L saved s tr' w) (fromThread : s.self ≠ null)
    (code : Word) : Ready L saved s (s.retires code).cpu := by
  obtain ⟨thread, -⟩ := sim.separated.ne_null fromThread
  exact ⟨rfl, sim.separated.retires thread code, retires_links thread code⟩

/-- What a thread that exits finds in its control block. -/
theorem exiting (sim : Simulates L saved s tr' w) (fromThread : s.self ≠ null) :
    isSet (s.cpu.mem (finishedField s.self)) = false ∧
      s.cpu.mem (exitToField s.self) = ((activationOf tr').joiner s.self).getD null ∧
      s.cpu.mem (exitDataField s.self) = null :=
  (sim.ends.live _ (sim.self_live fromThread)).2

theorem exit_loads (sim : Simulates L saved s tr' w) (fromThread : s.self ≠ null)
    (target : (if ((activationOf tr').joiner s.self).getD null = null then
      (activationOf tr').below else ((activationOf tr').joiner s.self).getD null) = tgt)
    {site : CallSite} {w' : World} {o : ThreadOutput}
    (stepped : threadStep w (site, .exit code) = .ok (w', o)) :
    ∃ p load, Reloads w w' site p load ∧ (ThreadOp.code (.exit code) ≠ none → p = .exit) ∧
      ∀ k, saved tgt = some k → load = k.rsp - 56 := by
  obtain ⟨c, source, yieldTo, exitTo⟩ := sim.source fromThread
  obtain ⟨load, at_slot, reloads⟩ := Threads.cthreadExit_reloads source stepped
  rw [exitTo, yieldTo, target] at at_slot
  exact sim.loads (fun _ => rfl) at_slot reloads

/-- Nobody joins the thread that exits. -/
theorem exit_alone (sim : Simulates L saved s tr' w) (leaving : Leaving L s dummy)
    (nobody : (activationOf tr').joiner s.self = none) (code next : Word) :
    ∃ s', cthreadExit s code dummy next = .ok s' ∧
      Performs L saved s next (.exit code) tr' w s' := by
  obtain ⟨finished, exitTo, -⟩ := sim.exiting leaving.fromThread
  obtain ⟨thread, -⟩ := sim.separated.ne_null leaving.fromThread
  have step : (activationOf tr').step (.exit code) =
      (((activationOf tr').pop .exit).finish (activationOf tr').top code,
        (activationOf tr').returnTo (activationOf tr').below null) := by
    simp [Activation.step, Activation.exit, ← sim.top, nobody]
  obtain ⟨s', run, self, restores, rax, separated, chain, ends⟩ :=
    sim.yields leaving (sim.ready_retires leaving.fromThread code) null next
  have ne := sim.below_ne leaving.fromThread
  have unnamed : s.cpu.mem (exitToField s.self) = null := by
    rw [exitTo, nobody]
    rfl
  rw [← self] at restores separated chain ne
  refine ⟨s', ?_, sim.switch ⟨sim.above leaving.fromThread, sim.free_own leaving.room next⟩
    (sim.goes (fun _ => leaving.fromThread) ne (creates_none rfl))
    separated ?_ ?_ (fun w' o stepped => ?_) restores fun c p v replies => ?_⟩
  · rw [cthreadExit_reads leaving.fromThread thread finished, if_neg (not_not_intro unnamed)]
    exact run
  · rw [step]
    exact chain
  · exact (sim.ends.retire sim.settled (sim.self_live leaving.fromThread) sim.top code).keep ends
      rfl rfl rfl
  · refine sim.exit_loads leaving.fromThread ?_ stepped
    rw [nobody]
    exact (if_pos rfl).trans self.symm
  · rw [show (activationOf tr').answer (.exit code) = _ from congrArg Prod.snd step] at replies
    cases replies
    exact rax

/-- The joiner takes the place of the thread that exits. -/
theorem exit_joined (sim : Simulates L saved s tr' w) (leaving : Leaving L s dummy)
    (joiner : (activationOf tr').joiner s.self = some tgt) (code next : Word) :
    ∃ s', cthreadExit s code dummy next = .ok s' ∧
      Performs L saved s next (.exit code) tr' w s' := by
  obtain ⟨finished, exitTo, exitData⟩ := sim.exiting leaving.fromThread
  obtain ⟨thread, -⟩ := sim.separated.ne_null leaving.fromThread
  obtain ⟨-, live, off, -⟩ := sim.settled.joined _ _ joiner
  have notNull : tgt ≠ null := fun same => sim.settled.null_dead (same ▸ live)
  have ne : tgt ≠ s.self := sim.top ▸ sim.settled.ne_top live off
  obtain ⟨k, target⟩ := (sim.same.alive tgt).mpr ⟨ne, .inr live⟩
  have step : (activationOf tr').step (.exit code) =
      ((((activationOf tr').release (activationOf tr').top).replace tgt .exit).finish
        (activationOf tr').top code,
        .joined tgt (activationOf tr').top (Activation.codeOf code)) := by
    simp [Activation.step, Activation.exit, ← sim.top, joiner]
  obtain ⟨s', run, self, restores, rax, separated, chain, ends⟩ := sim.tailcalls leaving
    (sim.ready_retires leaving.fromThread code) target notNull off null next
  rw [joiner] at exitTo
  subst self
  refine ⟨s', ?_, sim.switch ⟨sim.above leaving.fromThread, sim.free_own leaving.room next⟩
    (sim.goes (fun _ => leaving.fromThread) ne (creates_none rfl))
    separated ?_ ?_ (fun w' o stepped => ?_) restores fun c p v replies => ?_⟩
  · rw [cthreadExit_reads leaving.fromThread thread finished, exitTo, exitData,
      if_pos (show (some s'.self).getD null ≠ null from notNull)]
    exact run
  · rw [step]
    exact chain
  · exact (sim.ends.retire sim.settled (sim.self_live leaving.fromThread) sim.top code).keep ends
      rfl rfl rfl
  · refine sim.exit_loads leaving.fromThread ?_ stepped
    rw [joiner]
    exact if_neg notNull
  · rw [show (activationOf tr').answer (.exit code) = _ from congrArg Prod.snd step] at replies
    cases replies

theorem exit (sim : Simulates L saved s tr' w) (leaving : Leaving L s dummy)
    (code next : Word) : ∃ s', cthreadExit s code dummy next = .ok s' ∧
      Performs L saved s next (.exit code) tr' w s' := by
  cases joiner : (activationOf tr').joiner s.self with
  | none => exact sim.exit_alone leaving joiner code next
  | some j => exact sim.exit_joined leaving joiner code next

/-- A thread may be created in the model where none waits on the machine. -/
theorem starts (sim : Simulates L saved s tr' w) (fresh : FreshStack L s.self t)
    (room : Room L s.self (s.cpu.reg .rsp)) (unused : saved t = none) (next : Word) :
    (activationOf tr').Fresh t ∧ w.Free ((siteOf (s.cpu.returning next)).rsp - 48) ∧
      w.Free (t - 64) ∧ (siteOf (s.cpu.returning next)).rsp - 48 ≠ t - 64 := by
  refine ⟨⟨L.thread_ne_null t fresh.thread, fun live => ?_⟩, sim.free_own room next,
    sim.same.free sim.separated (fresh.room.short (by decide)) unused, fun here => ?_⟩
  · obtain ⟨k, at_t⟩ := (sim.same.alive t).mpr ⟨fresh.idle, .inr live⟩
    rw [unused] at at_t
    cases at_t
  · rw [siteOf_frame] at here
    have own : L.Stack s.self (t - 64) 1 := here ▸ room.stack.short (by decide)
    exact (fresh.room.short (by decide)).off fresh.idle own

/-- A thread is created below the running context and entered. -/
theorem enters (sim : Simulates L saved s tr' w) {call : ThreadOp} {c' : Cpu}
    (created : call.creates = some t) (quiet : call.code = none)
    (fresh : FreshStack L s.self t) (unused : saved t = none)
    (entered : Entered L saved s.self (s.cpu.returning next) t k data c')
    (launches : Launches L s t next ⟨c', t⟩) {p q : Threads.Pending}
    (step : (activationOf tr').step call =
      (((activationOf tr').spawn t).push t p, .resumes t q data))
    (answer : (activationOf tr').answer call = .resumes t q data)
    (allowed : ThreadAllows tr' w (siteOf (s.cpu.returning next), call))
    (isFresh : (activationOf tr').Fresh t)
    (reloads : ∀ w' o, threadStep w (siteOf (s.cpu.returning next), call) = .ok (w', o) →
      Reloads w w' (siteOf (s.cpu.returning next)) p (t - 64)) :
    Performs L saved s next call tr' w ⟨c', t⟩ := by
  have off : t ∉ (activationOf tr').stack ++ [null] := by
    have dead : t ∉ (activationOf tr').stack := fun inside =>
      isFresh.2 (sim.settled.onstack t inside)
    simp [dead, isFresh.1]
  have unjoined : (activationOf tr').joiner t = none := by
    cases joiner : (activationOf tr').joiner t with
    | none => rfl
    | some j => exact absurd (sim.settled.joined t j joiner).1 isFresh.2
  obtain ⟨zero, others⟩ := launches.ends fresh
  refine sim.switch allowed (sim.goes (fun ends => absurd quiet ends) fresh.idle fun c new => ?_)
    entered.separated ?_ ?_ (fun w' o stepped => ?_) (fun k' at_t => ?_) fun c p v replies => ?_
  · exact Option.some.inj (new.symm.trans created)
  · rw [step]
    exact sim.chain.push fresh.thread off (launches.links sim.separated fresh)
  · rw [step]
    exact sim.ends.spawn fresh.thread unjoined zero others
  · refine ⟨_, _, reloads w' o stepped, fun ends => absurd quiet ends, fun k at_t => ?_⟩
    exact absurd (unused.symm.trans at_t) (Option.some_ne_none k).symm
  · exact absurd (unused.symm.trans at_t) (Option.some_ne_none k').symm
  · rw [answer] at replies
    cases replies
    exact entered.data

theorem start (sim : Simulates L saved s tr' w) (fromThread : s.self ≠ null)
    (fresh : FreshStack L s.self (cthreadAddress stack sz))
    (unused : saved (cthreadAddress stack sz) = none) (room : Room L s.self (s.cpu.reg .rsp))
    (fn arg next : Word) : ∃ s', cthreadStart L s fn arg stack sz next = .ok s' ∧
      Performs L saved s next (.start fn arg stack sz) tr' w s' := by
  obtain ⟨c', run, entered⟩ := cthreadStart_ok fn arg next sim.separated fromThread fresh room
  obtain ⟨new, rooms⟩ := sim.starts fresh room unused next
  exact ⟨_, run, sim.enters rfl rfl fresh unused entered
    (cthreadStart_launches sim.separated fromThread fresh room run) rfl rfl
    ⟨⟨sim.above fromThread, new⟩, rooms⟩ new
    fun w' o stepped => Threads.cthreadStart_reloads stepped⟩

theorem mainStart (sim : Simulates L saved s tr' w) (fromMain : s.self = null)
    (fresh : FreshStack L s.self (cthreadAddress stack sz))
    (unused : saved (cthreadAddress stack sz) = none) (room : Room L s.self (s.cpu.reg .rsp))
    (fn arg next : Word) : ∃ s', cthreadMainStart L s fn arg stack sz next = .ok s' ∧
      Performs L saved s next (.mainStart fn arg stack sz) tr' w s' := by
  obtain ⟨c', run, entered⟩ := cthreadMainStart_ok fn arg next sim.separated fromMain fresh room
  obtain ⟨new, rooms⟩ := sim.starts fresh room unused next
  have bottom : (activationOf tr').stack = [] := by
    cases stack : (activationOf tr').stack with
    | nil => rfl
    | cons u rest =>
        have inside : u ∈ (activationOf tr').stack := by
          rw [stack]
          exact .head _
        exact absurd fromMain (sim.chain.onChain inside).running
  exact ⟨_, run, sim.enters rfl rfl fresh unused entered
    (cthreadMainStart_launches sim.separated fromMain fresh room run) rfl rfl
    ⟨⟨bottom, new⟩, rooms⟩ new fun w' o stepped =>
      Threads.cthreadMainStart_reloads (sim.self.trans fromMain) stepped⟩

end Simulates
end CThread.Switch
