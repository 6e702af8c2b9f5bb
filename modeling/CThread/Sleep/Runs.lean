import CThread.Sleep.Correspondence

/-!
Runs of sleeping threads: in every reachable state the heap of timers and the frames of
`do_sleep` are in one-to-one correspondence.
-/
namespace CThread.Sleep
open Faults GuardedRuns Threads Timers

variable {tr : Trace (CallSite × SleepOp) SleepOutput} {s : SleepState}
  {site : CallSite}

variable {garbage : Nat → BitVec 32} {index : Word → Nat} {fn : Word → Option EvtimerFn}
  {now : BitVec 32} {ct : Word → CthreadTimer}

theorem init_sleepInvariant :
    SleepInvariant [] (SleepState.init garbage index fn now ct) := by
  refine ⟨.nil, ?_, ?_, ⟨_, init_holds garbage index fn now, ?_⟩, ?_⟩
  · intro c
    refine ⟨fun ⟨t, owns⟩ => (by cases owns), fun asleep => ?_⟩
    cases asleep.live
  · exact fun c t owns => by cases owns
  · exact fun t => ⟨fun absurd => (absurd rfl).elim, fun ⟨c, owns⟩ => (by cases owns)⟩
  · exact fun running => absurd rfl running

theorem sleepRun_invariant
    (run : Run sleepMachine SleepAdmits (SleepState.init garbage index fn now ct) tr s) :
    SleepInvariant tr s := by
  refine Run.invariant init_sleepInvariant ?_ run
  intro tr s i s' out inv admitted stepped
  have stepped : sleepStep s i = .ok (s', out) := stepped
  obtain ⟨s₁, out₁, stepped₁, inv', _⟩ := sleepStep_ok inv admitted
  rw [stepped] at stepped₁
  cases stepped₁
  exact inv'

/-- One entry of the heap for each thread inside `do_sleep`: its own variable, in a frame
that is still there, with the thread in it. -/
structure SleepersQueued (s : SleepState) (live : List Word) : Prop where
  queued : ∀ t, (∃ x, InQueue s.timers t x) ↔ ∃ c, s.asleep c = some t
  once : ∀ j k, 1 ≤ j → j ≤ s.timers.timers.size → 1 ≤ k → k ≤ s.timers.timers.size →
    (s.timers.timers.v j).node = (s.timers.timers.v k).node → j = k
  owner : ∀ c t, s.asleep c = some t → (s.ct t).thread = c
  suspended : ∀ c t, s.asleep c = some t → c ∈ live ∧ s.world.Suspended c .yield ∧
    ∃ k, s.world.threads c = some k ∧ k.finished = false
  everyone : ∀ c, c ∈ live → c ≠ s.world.running → s.world.Suspended c .yield →
    ∃ t, s.asleep c = some t

theorem SleepInvariant.queued (inv : SleepInvariant tr s) :
    SleepersQueued s (sleepActivation tr).live := by
  obtain ⟨M, hold, armed⟩ := inv.sleepers.queue
  have rel := inv.rel
  constructor
  · intro t
    rw [← armed t, Option.ne_none_iff_exists']
    exact exists_congr fun x => hold.inQueue_iff t x
  · intro j k one inside one' inside' same
    exact hold.represents.slot_inj one inside one' inside' same
  · exact inv.sleepers.owner
  · intro c t owns
    have asleep := (inv.sleepers.asleep c).mp ⟨t, owns⟩
    obtain ⟨k, known, unfinished, _⟩ := rel.thread asleep.live
    have suspended := rel.suspended c (asleep.ne_top rel.settled) (.inr asleep.live)
    rw [asleep.yields] at suspended
    exact ⟨asleep.live, suspended, k, known, unfinished⟩
  · intro c live other suspended
    rw [rel.running] at other
    have waits := (rel.suspended c other (.inr live)).unique suspended
    refine (inv.sleepers.asleep c).mpr ⟨live, ?_, waits⟩
    intro inside
    have pushes := rel.settled.pushed inside other
    rw [waits] at pushes
    exact pushes

/-- In every run the heap holds exactly the timers of the threads inside `do_sleep`, and
`cthread_self()` is the running context. An operation that the running context may make does
not fault; each timer that fires resumes the thread that owns it, out of `do_sleep`; nothing
else does; and when the callback returns, the main context runs again. -/
theorem sleepRun_matches_timers
    (run : Run sleepMachine SleepAdmits (SleepState.init garbage index fn now ct) tr s) :
    SleepersQueued s (sleepActivation tr).live ∧ s.world.self = s.world.running ∧
      ∀ i, SleepAdmits tr s i →
        ∃ s' out, sleepMachine.step s i = .ok (s', out) ∧ StepReport s s' out := by
  have inv := sleepRun_invariant run
  refine ⟨inv.queued, inv.rel.self.trans inv.rel.running.symm, fun i admitted => ?_⟩
  obtain ⟨s', out, stepped, _, report⟩ := sleepStep_ok inv admitted
  exact ⟨s', out, stepped, report⟩

def freshSleep : SleepState :=
  SleepState.init (fun _ => 0) (fun _ => 0) (fun _ => none) 0 fun _ => ⟨0, 0⟩

/-- Two threads sleep, for two seconds and for three, and the loop has waited for the first. -/
def napping : SleepState :=
  sleepMachine.afterAll freshSleep
    [(⟨1048576, 0, 0⟩, .mainStart 64 0 4096 4096), (⟨7900, 0, 0⟩, .sleep 7960 2000),
      (⟨1048576, 0, 0⟩, .mainStart 64 0 16384 4096), (⟨20188, 0, 0⟩, .sleep 20248 3000),
      (⟨1048576, 0, 0⟩, .evloopStep), (⟨1048576, 0, 0⟩, .epollWait (some 2000))]

def nappingTrace : Trace (CallSite × SleepOp) SleepOutput :=
  [((⟨1048576, 0, 0⟩, .epollWait (some 2000)), .returns 0),
    ((⟨1048576, 0, 0⟩, .evloopStep), .waits 2000),
    ((⟨20188, 0, 0⟩, .sleep 20248 3000), .switched (.resumes null (.mainStart 20384) 0)),
    ((⟨1048576, 0, 0⟩, .mainStart 64 0 16384 4096), .switched (.resumes 20384 (.entry 64) 0)),
    ((⟨7900, 0, 0⟩, .sleep 7960 2000), .switched (.resumes null (.mainStart 8096) 0)),
    ((⟨1048576, 0, 0⟩, .mainStart 64 0 4096 4096), .switched (.resumes 8096 (.entry 64) 0))]

theorem SleepAdmits.of_loop {op : SleepOp} (loop : op.threadOp = none) (turn : op.Turn s)
    (room : s.world.saved (site.rsp - 48) = none) : SleepAdmits tr s (site, op) := by
  refine ⟨turn, fun op' same => ?_, World.free_of_none room, fun ct msecs same => ?_⟩
  · have same : op.threadOp = some op' := same
    rw [loop] at same
    cases same
  · have same : op = .sleep ct msecs := same
    rw [same] at loop
    cases loop

theorem SleepAdmits.of_mainStart {fn arg stack sz : Word}
    (turn : (SleepOp.mainStart fn arg stack sz).Turn s)
    (fresh : (sleepActivation tr).stack = [] ∧
      (sleepActivation tr).Fresh (cthreadAddress stack sz))
    (room : Room s.world site (.mainStart fn arg stack sz))
    (here : s.world.saved (site.rsp - 48) = none) :
    SleepAdmits tr s (site, .mainStart fn arg stack sz) := by
  refine ⟨turn, fun op same => ?_, World.free_of_none here, fun ct msecs same => ?_⟩
  · cases same
    exact ⟨fresh, room⟩
  · cases same

theorem SleepAdmits.of_sleep {ct : Word} {msecs : Int} (awake : s.world.running ≠ null)
    (inside : (sleepActivation tr).stack ≠ []) (room : s.world.saved (site.rsp - 48) = none)
    (apart : ∀ c, s.asleep c ≠ some ct) : SleepAdmits tr s (site, .sleep ct msecs) := by
  refine ⟨awake, fun op same => ?_, World.free_of_none room, fun ct' msecs' same => ?_⟩
  · cases same
    exact ⟨inside, World.free_of_none room⟩
  · cases same
    exact apart

theorem napping_run : Run sleepMachine SleepAdmits freshSleep nappingTrace napping := by
  refine .snoc (.snoc (.snoc (.snoc (.snoc (.snoc .nil
    (.of_mainStart ⟨rfl, rfl⟩ ⟨rfl, by decide +kernel, by decide +kernel⟩
      ⟨World.free_of_none rfl, World.free_of_none rfl, by decide +kernel⟩ rfl)
      (Machine.step_eq rfl))
    (.of_sleep ?_ (List.cons_ne_nil (8096 : Word) []) rfl ?_) (Machine.step_eq rfl))
    (.of_mainStart ⟨rfl, rfl⟩ ⟨rfl, ?_⟩
      ⟨World.free_of_none rfl, World.free_of_none rfl, by decide +kernel⟩ rfl)
      (Machine.step_eq rfl))
    (.of_sleep ?_ (List.cons_ne_nil (20384 : Word) []) rfl ?_) (Machine.step_eq rfl))
    (.of_loop rfl ⟨rfl, rfl⟩ rfl) (Machine.step_eq rfl))
    (.of_loop rfl ⟨rfl, rfl⟩ rfl) (Machine.step_eq rfl)
  · show (8096 : Word) ≠ null
    decide
  · intro c owns
    have owns : none = some (7960 : Word) := owns
    cases owns
  · show (20384 : Word) ≠ null ∧ (20384 : Word) ∉ [(8096 : Word)]
    decide
  · show (20384 : Word) ≠ null
    decide
  · intro c owns
    have owns : Function.update (fun _ => none) (8096 : Word) (some 7960) c = some (20248 : Word) :=
      owns
    by_cases first : c = 8096
    · rw [first, Function.update_self] at owns
      exact absurd owns (by decide)
    · rw [Function.update_of_ne first] at owns
      cases owns

/-- The first timer fires. -/
def woken : SleepState := sleepMachine.after napping (⟨1048576, 0, 0⟩, .evloopStep)

theorem woken_step : sleepMachine.step napping (⟨1048576, 0, 0⟩, .evloopStep) =
    .ok (woken, .woke 7960 8096 0 (.resumes 8096 .yield 0)) := Machine.step_eq rfl

/-- Both timers are in the heap, and the one that fires takes the first thread out of its sleep
and leaves the second one asleep. -/
theorem sleepRun_matches_timers_napping :
    napping.asleep 8096 = some 7960 ∧ napping.asleep 20384 = some 20248 ∧
      SleepersQueued napping [20384, 8096] ∧
      Wakes napping woken 7960 8096 (.resumes 8096 .yield 0) ∧
      woken.asleep 20384 = some 20248 := by
  obtain ⟨queued, -, steps⟩ := sleepRun_matches_timers napping_run
  obtain ⟨s', out, step, report⟩ :=
    steps (⟨1048576, 0, 0⟩, .evloopStep) (.of_loop rfl ⟨rfl, rfl⟩ rfl)
  cases woken_step.symm.trans step
  exact ⟨rfl, rfl, queued, report, rfl⟩

end CThread.Sleep
