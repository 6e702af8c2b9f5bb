import CThread.Sleep.Runs
import CThread.Threads.Deadlock

/-!
The loop of `main`, `while (m.num_threads) evloop_step(&ev)`.

When the main context runs, every thread that has not finished is off its stack: it is inside
of `do_sleep`, with its timer armed, or in a join. So the joins decide what the loop comes
to: a thread whose chain of joins ends at a sleeper may go on, and one on a cycle of joins
keeps the loop going for ever.
-/
namespace CThread.Sleep
open Faults GuardedRuns SerialOrder Threads Timers WaitsFor

variable {tr : Trace (CallSite × SleepOp) SleepOutput} {s s' : SleepState} {site : CallSite}
  {c d t u : Word} {M : Word → Option (BitVec 32)} {x : BitVec 32}

theorem threadEvent_no_tailcall {i : CallSite × SleepOp} {out : SleepOutput}
    {j : CallSite × ThreadOp} {o : ThreadOutput} (event : threadEvent i out = some (j, o))
    (tgt data : Word) : j.2 ≠ .tailcall tgt data := by
  obtain ⟨site, op⟩ := i
  cases out with
  | switched o' =>
      obtain ⟨op', found, same⟩ := Option.map_eq_some_iff.mp event
      cases same
      cases op <;> cases found <;> exact ThreadOp.noConfusion
  | woke t thread arg o' =>
      cases event
      exact ThreadOp.noConfusion
  | waits timeout => cases event
  | returns result => cases event

/-- Nobody tailcalls in `main.c`. -/
theorem sleepActivation_no_tailcall (tr : Trace (CallSite × SleepOp) SleepOutput) (c : Word) :
    (sleepActivation tr).waiting c ≠ .tailcall := by
  induction tr generalizing c with
  | nil => exact Pending.noConfusion
  | cons step tr ih =>
      unfold sleepActivation at ih ⊢
      cases event : threadEvent step.1 step.2 with
      | none =>
          have same : threadTrace (step :: tr) = threadTrace tr := List.filterMap_cons_none event
          rw [same]
          exact ih c
      | some next =>
          have same : threadTrace (step :: tr) = next :: threadTrace tr :=
            List.filterMap_cons_some event
          rw [same]
          intro waits
          rcases Activation.step_waits waits with before | ⟨tailcall, _⟩
          · exact ih c before
          · obtain ⟨tgt, data, isTailcall⟩ := tailcall rfl
            exact threadEvent_no_tailcall event tgt data isTailcall

namespace SleepInvariant
variable (inv : SleepInvariant tr s)
include inv

theorem asleep_iff :
    (∃ t, s.asleep c = some t) ↔
      c ∈ s.world.unfinished ∧ c ∉ (sleepActivation tr).stack ∧
        (sleepActivation tr).waiting c = .yield := by
  rw [inv.sleepers.asleep c, ← inv.rel.mem_live_iff]
  exact ⟨fun asleep => ⟨asleep.live, asleep.off, asleep.yields⟩,
    fun ⟨live, off, yields⟩ => ⟨live, off, yields⟩⟩

theorem sleeper_joins_nobody (asleep : s.asleep c = some t) : ¬ s.world.Joins c u := fun joins => by
  have yields := (inv.asleep_iff.mp ⟨t, asleep⟩).2.2
  rw [(inv.rel.joining_iff.mp joins).waits] at yields
  cases yields

/-- While the main context runs, a thread that has not finished sleeps or joins. -/
theorem sleeps_or_joins (main : s.world.running = null) (unfinished : c ∈ s.world.unfinished) :
    (∃ t, s.asleep c = some t) ∨ ∃ u, s.world.Joins c u := by
  have rel := inv.rel
  have live := rel.mem_live_iff.mpr unfinished
  have off : c ∉ (sleepActivation tr).stack := by
    rw [inv.main_iff.mp main]
    exact List.not_mem_nil
  have notNull : c ≠ null := fun same => rel.settled.null_dead (same ▸ live)
  rcases rel.settled.parked c live off notNull with yields | tailcall | ⟨u, joins⟩
  · exact .inl (inv.asleep_iff.mpr ⟨unfinished, off, yields⟩)
  · exact absurd tailcall (sleepActivation_no_tailcall tr c)
  · exact .inr ⟨u, rel.joining_iff.mpr ⟨live, off, joins⟩⟩

theorem leads_to_sleeper (main : s.world.running = null) (there : d ∈ s.world.unfinished)
    (leads : LeadsTo s.world.Joins c d) : ∃ t, s.asleep d = some t :=
  (inv.sleeps_or_joins main there).resolve_right fun ⟨u, joins⟩ => leads.free u joins

/-- All threads are on cycles of joins exactly when none of them sleeps. -/
theorem all_deadlocked_iff (main : s.world.running = null) :
    (∀ c, c ∈ s.world.unfinished → Deadlocked s.world.Joins c) ↔ ∀ c, s.asleep c = none := by
  constructor
  · intro dead c
    cases found : s.asleep c with
    | none => rfl
    | some t =>
        obtain ⟨u, joins⟩ := (dead c (inv.asleep_iff.mp ⟨t, found⟩).1).waits
        exact absurd joins (inv.sleeper_joins_nobody found)
  · intro awake c unfinished
    have rel := inv.rel
    refine (deadlocked_or_leads rel.unfinished_finite
      (fun _ _ _ joins => rel.joined_unfinished joins) rel.joins_injective
      unfinished).resolve_right ?_
    intro ⟨d, there, leads⟩
    obtain ⟨t, asleep⟩ := inv.leads_to_sleeper main there leads
    rw [awake d] at asleep
    cases asleep

end SleepInvariant

theorem timerWakeup_woke {out : SleepOutput} (run : timerWakeup s site t = .ok (s', out)) :
    ∃ o, out = .woke t (s.ct t).thread (s.ct t).arg o := by
  obtain ⟨⟨w, o⟩, _, rest⟩ := bind_eq_ok.mp run
  cases rest
  exact ⟨o, rfl⟩

theorem evloopStep_eq (main : s.world.running = null) (between : s.place = .idle) :
    sleepMachine.step s (site, .evloopStep) =
      (do
        let outcome ← inTimers (evStepTimers s.timers)
        afterTimers s site outcome) := by
  show sleepStep s (site, .evloopStep) = _
  rw [sleepStep, if_pos main]
  show evloopStep s site = _
  unfold evloopStep
  rw [between]

/-- A due timer at the head of the heap wakes its thread. -/
theorem SleepInvariant.evloopStep_wakes (inv : SleepInvariant tr s)
    (main : s.world.running = null) (between : s.place = .idle)
    (room : s.world.Free (site.rsp - 48)) (hold : Holds s.timers M)
    (armed : ∀ t, M t ≠ none ↔ ∃ c, s.asleep c = some t) (head : Head s.timers M t x)
    (due : signedDiff x s.timers.now ≤ 0) :
    ∃ s' c arg o, sleepMachine.step s (site, .evloopStep) = .ok (s', .woke t c arg o) ∧
      Wakes s s' t c o := by
  rcases evStepTimers_ok hold with ⟨none_armed, _⟩ | ⟨u, y, head', early, _⟩ |
    ⟨u, y, f, e', head', _, run, fired⟩
  · have armed := head.armed
    rw [none_armed t] at armed
    cases armed
  · have same := head.entry.symm.trans head'.entry
    cases same
    omega
  · have same := head.entry.symm.trans head'.entry
    cases same
    cases f
    obtain ⟨s', out, step, _, report⟩ := inv.wake .evloopStep main room hold armed head fired
    obtain ⟨o, woke⟩ := timerWakeup_woke step
    subst woke
    refine ⟨s', (s.ct t).thread, (s.ct t).arg, o, ?_, report⟩
    rw [evloopStep_eq main between, run]
    exact step

/-- The wait for the time that is left, and `late` ticks more, has passed the deadline. -/
theorem signedDiff_late {x now : BitVec 32} {late : Nat} (bound : late ≤ 2 ^ 31) :
    signedDiff x (now + BitVec.ofInt 32 (signedDiff x now) + BitVec.ofNat 32 late) ≤ 0 := by
  have past : now + BitVec.ofInt 32 (signedDiff x now) + BitVec.ofNat 32 late =
      BitVec.ofInt 32 (x.toInt + late) := by
    rw [signedDiff, BitVec.ofInt_toInt, BitVec.ofInt_add, BitVec.ofInt_toInt,
      BitVec.ofInt_natCast, BitVec.add_comm now, BitVec.sub_add_cancel]
  have exact := signedDiff_ofInt (BitVec.ofInt_toInt (x := x)).symm past (by omega) (by omega)
  omega

/-- When `epoll_wait` returns at `now`, the next step of the loop wakes a thread. -/
def WakesAt (s : SleepState) (site : CallSite) (now : BitVec 32) : Prop :=
  ∃ s₁ s₂ t c arg o, sleepMachine.step s (site, .epollWait (some now)) = .ok (s₁, .returns 0) ∧
    sleepMachine.step s₁ (site, .evloopStep) = .ok (s₂, .woke t c arg o) ∧ Wakes s₁ s₂ t c o

/-- A step of the loop wakes a thread, or waits for as long as it takes until the next one
does, however late `epoll_wait` is, up to half the range of the clock. -/
inductive GoesOn (s : SleepState) (site : CallSite) (s' : SleepState) : SleepOutput → Prop
  | woke {t c arg : Word} {o : ThreadOutput} (wakes : Wakes s s' t c o) :
      GoesOn s site s' (.woke t c arg o)
  | waits {timeout : Int} (positive : 0 < timeout)
      (wakes : ∀ late, late ≤ 2 ^ 31 → WakesAt s' site
        (s.timers.now + BitVec.ofInt 32 timeout + BitVec.ofNat 32 late)) :
      GoesOn s site s' (.waits timeout)

namespace SleepInvariant
variable (inv : SleepInvariant tr s) (main : s.world.running = null) (between : s.place = .idle)
  (room : s.world.Free (site.rsp - 48))
include inv main between room

/-- The head of the heap is not due: the loop waits until it is. -/
theorem evloopStep_waits (hold : Holds s.timers M)
    (armed : ∀ t, M t ≠ none ↔ ∃ c, s.asleep c = some t) (head : Head s.timers M t x)
    (early : signedDiff x s.timers.now > 0)
    (run : evStepTimers s.timers = .ok (s.timers, .returns (signedDiff x s.timers.now))) :
    ∃ s', sleepMachine.step s (site, .evloopStep) =
        .ok (s', .waits (signedDiff x s.timers.now)) ∧
      GoesOn s site s' (.waits (signedDiff x s.timers.now)) := by
  refine ⟨{ s with place := .waiting }, ?_, .waits early fun late bound => ?_⟩
  · rw [evloopStep_eq main between, run]
    exact if_neg (Int.ne_of_gt early)
  · let now := s.timers.now + BitVec.ofInt 32 (signedDiff x s.timers.now) + BitVec.ofNat 32 late
    let s₁ : SleepState := { s with timers := { s.timers with now := now }, place := .idle }
    have waited : sleepMachine.step { s with place := .waiting } (site, .epollWait (some now)) =
        .ok (s₁, .returns 0) := by
      show sleepStep { s with place := .waiting } (site, .epollWait (some now)) = _
      rw [sleepStep, if_pos main]
      rfl
    have hold₁ : Holds s₁.timers M := ⟨hold.represents, hold.callback⟩
    have inv₁ : SleepInvariant (((site, .epollWait (some now)), .returns 0) :: tr) s₁ :=
      inv.stay main (.epollWait (some now)) rfl .idle ⟨M, hold₁, armed⟩
    have head₁ : Head s₁.timers M t x := ⟨head.nonempty, head.entry, head.armed⟩
    obtain ⟨s₂, c, arg, o, step, wakes⟩ :=
      inv₁.evloopStep_wakes main rfl room hold₁ armed head₁ (signedDiff_late bound)
    exact ⟨s₁, s₂, t, c, arg, o, waited, step, wakes⟩

theorem evloopStep_goes_on :
    ∃ s' out, sleepMachine.step s (site, .evloopStep) = .ok (s', out) ∧
      (out = .waits (-1) ↔ ∀ c, s.asleep c = none) ∧
      (out ≠ .waits (-1) → GoesOn s site s' out) := by
  obtain ⟨M, hold, armed⟩ := inv.sleepers.queue
  have sleeper : ∀ t x, Head s.timers M t x → ¬ ∀ c, s.asleep c = none := by
    intro t x head awake
    obtain ⟨c, asleep⟩ := (armed t).mp (by rw [head.armed]; exact Option.some_ne_none x)
    rw [awake c] at asleep
    cases asleep
  rcases evStepTimers_ok hold with ⟨none_armed, run⟩ | ⟨t, x, head, early, run⟩ |
    ⟨t, x, _, _, head, due, _, _⟩
  · refine ⟨{ s with place := .waiting }, .waits (-1), ?_, ⟨fun _ c => ?_, fun _ => rfl⟩,
      fun other => absurd rfl other⟩
    · rw [evloopStep_eq main between, run]
      rfl
    · cases found : s.asleep c with
      | none => rfl
      | some t => exact absurd (none_armed t) ((armed t).mpr ⟨c, found⟩)
  · obtain ⟨s', step, goes⟩ := inv.evloopStep_waits main between room hold armed head early run
    refine ⟨s', _, step, ⟨fun same => ?_, fun awake => absurd awake (sleeper t x head)⟩,
      fun _ => goes⟩
    have same := SleepOutput.waits.inj same
    omega
  · obtain ⟨s', c, arg, o, step, wakes⟩ :=
      inv.evloopStep_wakes main between room hold armed head due
    exact ⟨s', _, step, ⟨SleepOutput.noConfusion, fun awake => absurd awake (sleeper t x head)⟩,
      fun _ => .woke wakes⟩

end SleepInvariant

variable {garbage : Nat → BitVec 32} {index : Word → Nat} {fn : Word → Option EvtimerFn}
  {now : BitVec 32} {ct : Word → CthreadTimer}

/-- The chain of joins from `c` ends at a thread inside of `do_sleep`, whose timer is armed. -/
structure LeadsToSleeper (s : SleepState) (c d t : Word) : Prop where
  leads : LeadsTo s.world.Joins c d
  asleep : s.asleep d = some t
  armed : ∃ x, InQueue s.timers t x

theorem sleepRun_deadlocked {later : Trace (CallSite × SleepOp) SleepOutput}
    (run : Run sleepMachine SleepAdmits (SleepState.init garbage index fn now ct) tr s)
    (dead : Deadlocked s.world.Joins c)
    (run' : Run sleepMachine SleepAdmits (SleepState.init garbage index fn now ct)
      (later ++ tr) s') :
    Deadlocked s'.world.Joins c ∧ 0 < s'.world.main.numThreads := by
  have before := threadRun_singleJoins (sleepRun_invariant run).run
  have after := threadRun_singleJoins (sleepRun_invariant run').run
  have same : threadTrace (later ++ tr) = threadTrace later ++ threadTrace tr :=
    List.filterMap_append
  rw [same] at after
  obtain ⟨u, joins⟩ := dead.waits
  obtain ⟨lasts, _, more⟩ := (joinRun_deadlocks before joins.unfinished).2 dead _ _ after
  exact ⟨lasts, more⟩

/-- Between two steps of the loop of `main` each thread that has not finished either waits in
the end for a sleeping thread with an armed timer, or is on a cycle of joins, for ever, and
the loop does not end. The next step waits without a timeout exactly when all of them are on
cycles; otherwise it wakes a thread, or waits until a thread is woken by the step that
follows. When the loop ends no timer is armed. -/
theorem sleepRun_goes_on
    (run : Run sleepMachine SleepAdmits (SleepState.init garbage index fn now ct) tr s)
    (main : s.world.running = null) (between : s.place = .idle)
    (room : s.world.Free (site.rsp - 48)) :
    (∀ c, c ∈ s.world.unfinished →
      Xor (Deadlocked s.world.Joins c) (∃ d t, LeadsToSleeper s c d t)) ∧
    (∀ c, Deadlocked s.world.Joins c → ∀ later s',
      Run sleepMachine SleepAdmits (SleepState.init garbage index fn now ct) (later ++ tr) s' →
        Deadlocked s'.world.Joins c ∧ 0 < s'.world.main.numThreads) ∧
    (s.world.main.numThreads = 0 → ∀ t x, ¬ InQueue s.timers t x) ∧
    ∃ s' out, sleepMachine.step s (site, .evloopStep) = .ok (s', out) ∧
      (out = .waits (-1) ↔ ∀ c, c ∈ s.world.unfinished → Deadlocked s.world.Joins c) ∧
      (out ≠ .waits (-1) → GoesOn s site s' out) := by
  have inv := sleepRun_invariant run
  have rel := inv.rel
  have functional := rel.joins_functional
  refine ⟨fun c unfinished => ?_, fun c dead later s' run' => sleepRun_deadlocked run dead run',
    fun none_left t x queued => ?_, ?_⟩
  · rcases deadlocked_or_leads rel.unfinished_finite
      (fun _ _ _ joins => rel.joined_unfinished joins) rel.joins_injective unfinished with
      dead | ⟨d, there, leads⟩
    · exact .inl ⟨dead, fun ⟨d, t, chain⟩ => dead.not_leads functional chain.leads⟩
    · obtain ⟨t, asleep⟩ := inv.leads_to_sleeper main there leads
      have armed := (inv.queued.queued t).mpr ⟨d, asleep⟩
      exact .inr ⟨⟨d, t, leads, asleep, armed⟩, fun dead => dead.not_leads functional leads⟩
  · obtain ⟨c, asleep⟩ := (inv.queued.queued t).mp ⟨x, queued⟩
    have live := rel.mem_live_iff.mpr (inv.asleep_iff.mp ⟨t, asleep⟩).1
    have counted := rel.numThreads.symm.trans none_left
    have positive := List.length_pos_of_mem live
    omega
  · obtain ⟨s', out, step, stuck, goes⟩ := inv.evloopStep_goes_on main between room
    exact ⟨s', out, step, stuck.trans (inv.all_deadlocked_iff main).symm, goes⟩

theorem sleepRun_goes_on_napping :
    ∃ s', Wakes napping s' 7960 8096 (.resumes 8096 .yield 0) := by
  have room : napping.world.Free ((⟨1048576, 0, 0⟩ : CallSite).rsp - 48) :=
    World.free_of_none rfl
  obtain ⟨_, _, _, s', out, step, _, goes⟩ := sleepRun_goes_on napping_run rfl rfl room
  cases woken_step.symm.trans step
  cases goes SleepOutput.noConfusion with
  | woke wakes => exact ⟨_, wakes⟩

end CThread.Sleep
