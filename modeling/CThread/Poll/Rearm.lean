import CThread.Poll.Journal

/-!
Watchers are armed anew whenever they register.

Under `EPOLLET` the kernel reports an edge once, and looks again only when it is told about
the descriptor. A registration puts the record on the dirty list, and the pass tells the
kernel about every record there that somebody watches, whatever the mask was before: so a
watcher that takes the place of another is told about too, even when nothing has changed.
-/
namespace CThread.Poll
open Faults GuardedRuns Chains Timers
variable {ρ ω τ φ : Type} {e e' : Pollers ρ ω φ} {slot : Int → EvEvent → Option ω}
  {fd : Int} {ev : EvEvent} {p : ρ} {r : EvloopPoll ρ ω} {w : ω}

/-- The kernel is told about the descriptor, with the bits of the direction. -/
def SysCall.Arms (fd : Int) (ev : EvEvent) : SysCall ρ → Prop
  | .ctlAdd fd' k | .ctlMod fd' k => fd' = fd ∧ k.events &&& ev.wakeup = ev.wakeup
  | _ => False

def LoopOp.Registers (fd : Int) (ev : EvEvent) : LoopOp ρ ω τ φ → Prop
  | .watch _ fd' ev' _ => fd' = fd ∧ ev' = ev
  | _ => False

/-- Since the latest registration for it the direction was armed. -/
def ArmedSince (fd : Int) (ev : EvEvent) :
    Trace (LoopOp ρ ω τ φ) (LoopOutput ρ ω τ φ × List (SysCall ρ)) → Prop
  | [] => False
  | (op, _, calls) :: tr =>
      (∃ call ∈ calls, call.Arms fd ev) ∨ (¬ op.Registers fd ev ∧ ArmedSince fd ev tr)

structure Armed (tr : Trace (LoopOp ρ ω τ φ) (LoopOutput ρ ω τ φ × List (SysCall ρ)))
    (e : Pollers ρ ω φ) (fd : Int) (ev : EvEvent) : Prop where
  since : ArmedSince fd ev tr
  mask : ∃ k, e.kernel fd = some k ∧ k.events &&& ev.wakeup = ev.wakeup

/-- The record of the descriptor is on `dirty_list`. -/
def AwaitsPass (e : Pollers ρ ω φ) (fd : Int) : Prop :=
  ∃ p ds, e.table fd = some p ∧ Chain (links e) e.dirtyList ds ∧ p ∈ ds

theorem interest_and_wakeup (taken : r.slot ev = some w) :
    r.interest &&& ev.wakeup = ev.wakeup := by
  cases ev with
  | read =>
      have rd : r.rd = some w := taken
      simp only [EvloopPoll.interest, rd, Option.isSome_some]
      cases r.wr.isSome <;> decide
  | write =>
      have wr : r.wr = some w := taken
      simp only [EvloopPoll.interest, wr, Option.isSome_some]
      cases r.rd.isSome <;> decide

theorem told_and_wakeup (taken : r.slot ev = some w) :
    (r.interest ||| epollEt) &&& ev.wakeup = ev.wakeup := by
  have other : epollEt &&& ev.wakeup = 0 := by cases ev <;> decide
  rw [BitVec.and_comm, BitVec.and_or_distrib_left, BitVec.and_comm _ epollEt, other,
    BitVec.and_comm, interest_and_wakeup taken]
  exact BitVec.or_zero

theorem EpollEvent.and_wakeup {k : EpollEvent ρ} (mask : k.mask = r.interest)
    (taken : r.slot ev = some w) : k.events &&& ev.wakeup = ev.wakeup := by
  have other : ~~~epollEt &&& ev.wakeup = ev.wakeup := by cases ev <;> decide
  calc k.events &&& ev.wakeup = k.mask &&& ev.wakeup := by
        rw [EpollEvent.mask, BitVec.and_assoc, other]
    _ = ev.wakeup := by rw [mask, interest_and_wakeup taken]

theorem interest_ne_zero (taken : r.slot ev = some w) : r.interest ≠ 0 := by
  intro zero
  have bits := interest_and_wakeup taken
  rw [zero] at bits
  revert bits
  cases ev <;> decide

/-- Whoever watches through a clean record was armed since it registered. -/
def Rearming (tr : Trace (LoopOp ρ ω τ φ) (LoopOutput ρ ω τ φ × List (SysCall ρ)))
    (e : Pollers ρ ω φ) (slot : Int → EvEvent → Option ω) : Prop :=
  ∀ fd ev w p r, slot fd ev = some w → e.table fd = some p → e.records p = some r →
    r.isDirty = false → ArmedSince fd ev tr

variable [DecidableEq ρ]

theorem flushFrom_empties (fuel : Nat) :
    ∀ {e e' : Pollers ρ ω φ} {start : Option ρ}, flushFrom fuel e start = .ok e' →
      e'.dirtyList = none := by
  induction fuel with
  | zero =>
      intro e e' start run
      cases start <;> cases run
      rfl
  | succ fuel ih =>
      intro e e' start run
      cases start with
      | none =>
          cases run
          rfl
      | some p =>
          rw [flushFrom_some] at run
          obtain ⟨r, _, run⟩ := bind_eq_ok.mp run
          obtain ⟨e₁, _, run⟩ := bind_eq_ok.mp run
          exact ih run

/-- The pass arms whoever watches through a dirty record. -/
theorem Sound.pass_arms (sound : Sound e slot) (taken : slot fd ev = some w)
    (inside : e.table fd = some p) (record : e.records p = some r) (dirty : r.isDirty = true) :
    ∃ call ∈ passCalls e, call.Arms fd ev := by
  obtain ⟨ds, exactly, calls⟩ := sound.passCalls_eq
  have member : p ∈ ds := (exactly.2.2 p).mpr ⟨r, record, dirty⟩
  have home : r.fd = fd := sound.life.home inside record
  have opened : ¬ r.fd < 0 := by
    have nonneg := (sound.life.table fd p inside).1
    omega
  have watched : r.slot ev = some w := (sound.life.slots fd p r ev inside record).trans taken
  have found : ∀ call, callsAt e p = [call] → call.Arms fd ev →
      ∃ call ∈ passCalls e, call.Arms fd ev := by
    intro call only arms
    refine ⟨call, ?_, arms⟩
    rw [calls]
    exact List.mem_flatMap.mpr ⟨p, member, only ▸ List.mem_singleton_self call⟩
  have here := callsAt_eq sound.life record
  rw [if_neg opened, if_neg (interest_ne_zero watched)] at here
  cases known : r.isAdded with
  | true =>
      rw [known, if_pos rfl] at here
      exact found _ here ⟨home, told_and_wakeup watched⟩
  | false =>
      rw [known, if_neg Bool.false_ne_true] at here
      exact found _ here ⟨home, told_and_wakeup watched⟩

variable [DecidableEq ω] {s s' : LoopState ρ ω τ φ} {op : LoopOp ρ ω τ φ}
  {out : LoopOutput ρ ω τ φ} {g : Registry ρ ω} {calls : List (SysCall ρ)}
  {tr : Trace (LoopOp ρ ω τ φ) (LoopOutput ρ ω τ φ × List (SysCall ρ))}

omit [DecidableEq ρ] [DecidableEq ω] in
/-- A step after which a clean record is as it was, with the watchers it had. -/
theorem Rearming.later (armed : Rearming tr e slot) {slot' : Int → EvEvent → Option ω}
    (same : ∀ fd ev w p r, slot' fd ev = some w → e'.table fd = some p →
      e'.records p = some r → r.isDirty = false → ¬ op.Registers fd ev ∧
        slot fd ev = some w ∧ e.table fd = some p ∧ e.records p = some r) :
    Rearming ((op, out, calls) :: tr) e' slot' := by
  intro fd ev w p r taken inside record clean
  obtain ⟨other, taken, inside, record⟩ := same fd ev w p r taken inside record clean
  exact .inr ⟨other, armed fd ev w p r taken inside record clean⟩

omit [DecidableEq ω] in
theorem Rearming.flush (armed : Rearming tr e slot) (sound : Sound e slot)
    (run : flushDirty e = .ok e') {timeout : Int} : Rearming ((.evloopStep, .waits timeout,
      passCalls e) :: tr) e' slot := by
  intro fd ev w p r taken inside record clean
  have before : e.table fd = some p := (congrFun (sound.flushed run).1 fd).symm.trans inside
  obtain ⟨_, r₀, record₀, _⟩ := sound.life.table fd p before
  cases dirty : r₀.isDirty with
  | true => exact .inl (sound.pass_arms taken before record₀ dirty)
  | false => exact .inr ⟨id, armed fd ev w p r₀ taken before record₀ dirty⟩

theorem Rearming.watch (armed : Rearming tr e slot) (sound : Sound e slot) (nonneg : 0 ≤ fd)
    (unregistered : Unregistered slot w) (free : slot fd ev = none) {f : φ}
    (fn : (e.watches w).fn = some f) {block : ρ} (unused : e.records block = none)
    (run : evWatch e w fd ev block = .ok e') :
    Rearming ((.watch w fd ev block, out, calls) :: tr) e' (watchAt slot fd ev w) := by
  obtain ⟨e₁, p₀, run₁, _, _, touched⟩ :=
    evWatch_ok sound.life sound.reg nonneg free unregistered fn unused
  cases run.symm.trans run₁
  refine armed.later fun fd' ev' u p r taken inside record clean => ?_
  obtain ⟨away, before⟩ := touched.clean inside record clean
  refine ⟨fun registers => away registers.1.symm, ?_, before⟩
  exact ((watchAt_eq_some.mp taken).resolve_left fun here => away here.1).2

theorem Rearming.unwatch (armed : Rearming tr e slot) (sound : Sound e slot)
    (free : (∃ fd ev, slot fd ev = some w) ∨ (e.watches w).pollData = none)
    (run : evUnwatch e w = .ok e') :
    Rearming ((.unwatch w, out, calls) :: tr) e' (releaseAt slot w) := by
  by_cases registered : ∃ fd ev, slot fd ev = some w
  · obtain ⟨fd, ev, watching⟩ := registered
    obtain ⟨e₁, p₀, run₁, _, _, touched⟩ := evUnwatch_ok sound.life sound.reg watching
    cases run.symm.trans run₁
    refine armed.later fun fd' ev' u p r taken inside record clean => ?_
    exact ⟨id, (releaseAt_eq_some.mp taken).1, (touched.clean inside record clean).2⟩
  · have null := free.resolve_left registered
    have same : e = e' := by simpa [evUnwatch, null] using run
    subst same
    refine armed.later fun fd' ev' u p r taken inside record clean => ?_
    exact ⟨id, (releaseAt_eq_some.mp taken).1, inside, record⟩

omit [DecidableEq ω] in
theorem Rearming.close (armed : Rearming tr e slot) (sound : Sound e slot)
    (run : evClose e fd = .ok e') :
    Rearming ((.close fd, out, calls) :: tr) e' (closeAt slot fd) := by
  obtain ⟨e₁, run₁, life, _, closed⟩ := evClose_ok sound.life sound.reg fd
  cases run.symm.trans run₁
  refine armed.later fun fd' ev' u p r taken inside record clean => ?_
  obtain ⟨away, before⟩ := closeAt_eq_some taken
  have kept : e'.table fd' = e.table fd' := by
    rw [closed.table, Function.update_of_ne away]
  exact ⟨id, before, kept ▸ inside, closed.old p r record (life.not_both inside record)⟩

variable [DecidableEq τ]

theorem Rearming.step (armed : Rearming tr s.loop.polls g.slot)
    (sound : Sound s.loop.polls g.slot) (admitted : g.Admits s.loop.polls op)
    (stepped : loopStep s op = .ok (s', out)) :
    Rearming ((op, out, stepCalls s.loop.polls op out) :: tr) s'.loop.polls
      (g.next op out).slot := by
  -- A step that is no registration and leaves the slots, the table and the records alone.
  have still : (∀ w fd ev block, op ≠ .watch w fd ev block) →
      (g.next op out).slot = g.slot → s'.loop.polls.table = s.loop.polls.table →
        s'.loop.polls.records = s.loop.polls.records →
          Rearming ((op, out, stepCalls s.loop.polls op out) :: tr) s'.loop.polls
            (g.next op out).slot := by
    intro other slots table records
    refine armed.later fun fd ev w p r taken inside record clean => ?_
    rw [slots] at taken
    rw [table] at inside
    rw [records] at record
    refine ⟨?_, taken, inside, record⟩
    cases op with
    | watch w fd ev block => exact absurd rfl (other w fd ev block)
    | _ => exact id
  have move := loopStep_move s op
  generalize loopStep s op = result at move stepped
  cases move with
  | watch =>
      obtain ⟨e', run, rfl, rfl⟩ := withPolls_eq_ok stepped
      obtain ⟨nonneg, unregistered, free, ⟨f, fn⟩, unused⟩ := admitted
      exact armed.watch sound nonneg unregistered free fn unused run
  | unwatch =>
      obtain ⟨e', run, rfl, rfl⟩ := withPolls_eq_ok stepped
      exact armed.unwatch sound admitted run
  | close =>
      obtain ⟨e', run, rfl, rfl⟩ := withPolls_eq_ok stepped
      exact armed.close sound run
  | setWatch =>
      cases stepped
      exact still (fun w fd ev block same => by cases same) rfl rfl rfl
  | pass =>
      obtain ⟨e', run, rest⟩ := bind_eq_ok.mp stepped
      cases rest
      exact armed.flush sound (inPolls_eq_ok.mp run)
  | dispatched source polls =>
      have kept := (dispatchFrom_effect stepped).1
      refine still ?_ ?_ (by rw [kept, polls]) (by rw [kept, polls])
      · intro w fd ev block same
        subst same
        cases source
      · cases source <;> rfl
  | quiet polls pending waiting calls answers =>
      cases stepped
      refine still ?_ (by rw [g.next_quiet calls]) (by rw [polls]) (by rw [polls])
      intro w fd ev block same
      subst same
      exact calls
  | stop other => cases stepped

/-- The dirty list is empty when the loop waits. -/
theorem loopStep_waits {timeout : Int} (stepped : loopStep s op = .ok (s', .waits timeout)) :
    s'.loop.polls.dirtyList = none := by
  have move := loopStep_move s op
  generalize loopStep s op = result at move stepped
  cases move with
  | watch | unwatch | close =>
      obtain ⟨_, _, _, absurd⟩ := withPolls_eq_ok stepped
      cases absurd
  | setWatch => cases stepped
  | pass =>
      obtain ⟨e', run, rest⟩ := bind_eq_ok.mp stepped
      cases rest
      exact flushFrom_empties _ (inPolls_eq_ok.mp run)
  | dispatched source polls => exact absurd rfl ((dispatchFrom_effect stepped).2.2.ne_waits timeout)
  | quiet polls pending waiting calls answers =>
      cases stepped
      exact answers.elim
  | stop other => cases stepped

variable {timers : EvTimers τ φ} {watches : ω → Evwatch ρ φ}

theorem run_rearming
    (run : Run journalMachine JournalOffers (LoopState.init timers watches) tr s) :
    Rearming tr s.loop.polls (registry (loopTrace tr)).slot := by
  induction run with
  | nil =>
      intro fd ev w p r absurd
      cases absurd
  | snoc run offered stepped ih =>
      obtain ⟨stepped, same⟩ := journalStep_eq_ok.mp stepped
      have sound := run_sound (journalRun_loopRun run)
      have armed := ih.step sound (offered.admits sound stepped) stepped
      rw [← same] at armed
      exact armed

theorem run_armed
    (run : Run journalMachine JournalOffers (LoopState.init timers watches) tr s)
    (taken : (registry (loopTrace tr)).slot fd ev = some w) :
    AwaitsPass s.loop.polls fd ∨ Armed tr s.loop.polls fd ev := by
  obtain ⟨sound, told⟩ := run_lastTold (journalRun_loopRun run)
  obtain ⟨p, f, inside, _⟩ := sound.reg.watch fd ev w taken
  obtain ⟨_, r, record, _⟩ := sound.life.table fd p inside
  have watched : r.slot ev = some w := (sound.life.slots fd p r ev inside record).trans taken
  cases dirty : r.isDirty with
  | true =>
      obtain ⟨ds, chain, _, exactly⟩ := sound.life.chain
      exact .inl ⟨p, ds, inside, chain, (exactly p).mpr ⟨r, record, dirty⟩⟩
  | false =>
      obtain ⟨k, known, mask⟩ :=
        told.clean fd p r inside record dirty (interest_ne_zero watched)
      exact .inr ⟨run_rearming run fd ev w p r taken inside record dirty, k, known,
        k.and_wakeup mask watched⟩

/-- Every registered watcher has its record on the dirty list, or since it registered the
kernel was told about its descriptor with its bits and has them now. A pass leaves only the
second. -/
theorem journalRun_rearms
    (run : Run journalMachine JournalOffers (LoopState.init timers watches) tr s) :
    Replays (LoopState.init timers watches).loop.polls s.loop.polls (journal tr) ∧
      (∀ fd ev w, (registry (loopTrace tr)).slot fd ev = some w →
        AwaitsPass s.loop.polls fd ∨ Armed tr s.loop.polls fd ev) ∧
      ∀ s' timeout calls, journalMachine.step s .evloopStep = .ok (s', .waits timeout, calls) →
        ∀ fd ev w, (registry (loopTrace tr)).slot fd ev = some w →
          Armed ((.evloopStep, .waits timeout, calls) :: tr) s'.loop.polls fd ev := by
  refine ⟨journalRun_replays run, fun fd ev w taken => run_armed run taken, ?_⟩
  intro s' timeout calls stepped fd ev w taken
  have offered : JournalOffers tr s .evloopStep := trivial
  refine (run_armed (.snoc run offered stepped) taken).resolve_left ?_
  intro ⟨p, ds, _, chain, member⟩
  rw [loopStep_waits (journalStep_eq_ok.mp stepped).1] at chain
  rw [chain.eq_nil] at member
  cases member

/-- Watcher 0 has had its edge and leaves; watcher 1 takes its place on descriptor 5. -/
def replacing : LoopState Nat Nat Nat Nat :=
  journalMachine.afterAll quietLoop [.watch 0 5 .read 0, .evloopStep,
    .epollWait (.events [⟨5, 0, epollIn⟩] 1), .unwatch 0, .watch 1 5 .read 1, .callbackReturn]

def replacingTrace :
    Trace (LoopOp Nat Nat Nat Nat) (LoopOutput Nat Nat Nat Nat × List (SysCall Nat)) :=
  [(.callbackReturn, .returns 0, []), (.watch 1 5 .read 1, .done, []), (.unwatch 0, .done, []),
    (.epollWait (.events [⟨5, 0, epollIn⟩] 1), .watchCall ⟨5, 0, epollIn⟩ .read 0 7, []),
    (.evloopStep, .waits (-1), [.ctlAdd 5 ⟨epollIn ||| epollHup ||| epollEt, 0⟩]),
    (.watch 0 5 .read 0, .done, [.xcalloc 0 5])]

theorem replacing_run : Run journalMachine JournalOffers quietLoop replacingTrace replacing := by
  have other : Unregistered (watchAt (fun _ _ => none) 5 .read 0) 1 :=
    (Unregistered.of_none 1).of_watch (by decide)
  refine .snoc (.snoc (.snoc (.snoc (.snoc (.snoc .nil
    ⟨by decide, .of_none 0, rfl⟩ (Machine.step_eq rfl)) trivial (Machine.step_eq rfl)) ?_
    (Machine.step_eq rfl)) trivial (Machine.step_eq rfl)) ⟨by decide, other.of_release, rfl⟩
    (Machine.step_eq rfl)) trivial (Machine.step_eq rfl)
  intro event inside
  cases List.mem_singleton.mp inside
  rfl

theorem journalRun_rearms_replacing :
    Armed ((.evloopStep, .waits (-1), [.ctlMod 5 ⟨epollIn ||| epollHup ||| epollEt, 0⟩]) ::
      replacingTrace) (journalMachine.after replacing .evloopStep).loop.polls 5 .read :=
  (journalRun_rearms replacing_run).2.2 _ _ _ (Machine.step_eq rfl) 5 .read 1 rfl

end CThread.Poll
