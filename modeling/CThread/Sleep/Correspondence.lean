import CThread.Sleep.Model
import CThread.Sleep.Asleep
import CThread.Threads.Refinement
import CThread.Timers.Spec

/-!
Sleeping threads and armed timers correspond. Every run of the sleeping program is a run of
the thread operations, so the activation stack is there to say which threads sleep; the
timers that are armed are those that the sleeping threads own. The order of the heap plays
no part in it: only the head is ever taken off, whichever timer that is, so neither the
length of a sleep nor the lateness of the clock is bounded here.
-/
namespace CThread.Sleep
open Faults GuardedRuns Threads Timers

/-- The thread operation inside an operation. -/
def SleepOp.threadOp : SleepOp → Option ThreadOp
  | .mainStart fn arg stack sz => some (.mainStart fn arg stack sz)
  | .start fn arg stack sz => some (.start fn arg stack sz)
  | .sleep _ _ => some (.yield null)
  | .join t => some (.join t)
  | .exit code => some (.exit code)
  | .fnReturn rax => some (.fnReturn rax)
  | .evloopStep | .epollWait _ | .callbackReturn => none

def threadEvent : CallSite × SleepOp → SleepOutput →
    Option ((CallSite × ThreadOp) × ThreadOutput)
  | (site, op), .switched o => op.threadOp.map fun op => ((site, op), o)
  | (site, _), .woke _ thread arg o => some ((site, .call thread arg), o)
  | _, _ => none

/-- The operations of `cthread.c` in a run. -/
def threadTrace (tr : Trace (CallSite × SleepOp) SleepOutput) :
    Trace (CallSite × ThreadOp) ThreadOutput :=
  tr.filterMap fun step => threadEvent step.1 step.2

def sleepActivation (tr : Trace (CallSite × SleepOp) SleepOutput) : Activation :=
  activationOf (threadTrace tr)

/-- The running context may make the operation. -/
def SleepOp.Turn (s : SleepState) : SleepOp → Prop
  | .mainStart .. | .evloopStep => s.world.running = null ∧ s.place = .idle
  | .epollWait _ => s.world.running = null ∧ s.place = .waiting
  | .callbackReturn => s.world.running = null ∧ s.place = .inCallback
  | .start .. | .sleep .. | .join _ | .exit _ | .fnReturn _ => s.world.running ≠ null

/-- The thread operations are admitted, the running context has room for a frame on its
stack, and the variable of a new `do_sleep` is not that of another one. -/
structure SleepAdmits (tr : Trace (CallSite × SleepOp) SleepOutput) (s : SleepState)
    (i : CallSite × SleepOp) : Prop where
  turn : i.2.Turn s
  thread : ∀ op, i.2.threadOp = some op → ThreadAdmits (threadTrace tr) s.world (i.1, op)
  room : s.world.Free (i.1.rsp - 48)
  apart : ∀ ct msecs, i.2 = .sleep ct msecs → ∀ c, s.asleep c ≠ some ct

structure Sleepers (s : SleepState) (a : Activation) : Prop where
  asleep : ∀ c, (∃ t, s.asleep c = some t) ↔ a.Asleep c
  owner : ∀ c t, s.asleep c = some t → (s.ct t).thread = c
  queue : ∃ M, Holds s.timers M ∧ ∀ t, M t ≠ none ↔ ∃ c, s.asleep c = some t
  bottom : a.stack ≠ [] → (s.place = .inCallback ∧ a.waiting null = .call) ∨
    (s.place = .idle ∧ ∃ t, a.waiting null = .mainStart t)

structure SleepInvariant (tr : Trace (CallSite × SleepOp) SleepOutput) (s : SleepState) :
    Prop where
  run : Run threadMachine ThreadAdmits World.init (threadTrace tr) s.world
  sleepers : Sleepers s (sleepActivation tr)

/-- The timer `t` resumes the thread whose frame owns it, out of `do_sleep`, and is gone. -/
structure Wakes (s s' : SleepState) (t c : Word) (o : ThreadOutput) : Prop where
  owner : s.asleep c = some t
  resumed : ∃ v, o = .resumes c .yield v
  running : s'.world.running = c
  returned : s'.asleep c = none
  removed : ∀ x, ¬ InQueue s'.timers t x

/-- No other operation resumes a sleeping thread, and the callback that a switch returns to
is that of the main context. -/
structure Switches (s s' : SleepState) (o : ThreadOutput) : Prop where
  awake : ∀ c v, o ≠ .resumes c .yield v
  returns : ∀ p v, o = .resumes null p v → s'.world.running = null ∧
    (s.place = .inCallback → p = .call)

def StepReport (s s' : SleepState) : SleepOutput → Prop
  | .woke t c _ o => Wakes s s' t c o
  | .switched o => Switches s s' o
  | .waits _ | .returns _ => s'.world = s.world ∧ s'.asleep = s.asleep

theorem leaveSleep_awake {o : ThreadOutput} (awake : ∀ c v, o ≠ .resumes c .yield v)
    (asleep : Word → Option Word) : leaveSleep asleep o = asleep := by
  cases o with
  | joined c t code => rfl
  | resumes c p v =>
      cases p with
      | yield => exact absurd rfl (awake c v)
      | _ => rfl

variable {tr : Trace (CallSite × SleepOp) SleepOutput} {s : SleepState}
  {i : CallSite × SleepOp} {site : CallSite}

theorem SleepInvariant.rel (inv : SleepInvariant tr s) :
    ActivationRel s.world (sleepActivation tr) :=
  (threads_refine.run init_activationRel inv.run).2

/-- One thread operation, seen by the activation stack. -/
theorem SleepInvariant.thread_step (inv : SleepInvariant tr s) {op : ThreadOp}
    (admitted : ThreadAdmits (threadTrace tr) s.world (site, op)) :
    ∃ w o, threadStep s.world (site, op) = .ok (w, o) ∧
      o = ((sleepActivation tr).step op).2 ∧
      Run threadMachine ThreadAdmits World.init (((site, op), o) :: threadTrace tr) w ∧
      w.running = ((sleepActivation tr).step op).1.top := by
  obtain ⟨w, o, stepped, legal, rel⟩ :=
    threads_refine.step (threadTrace tr) s.world (site, op) inv.rel admitted
  exact ⟨w, o, stepped, legal, .snoc inv.run admitted stepped, rel.running⟩

/-- The main context runs exactly when no thread is on the stack. -/
theorem SleepInvariant.main_iff (inv : SleepInvariant tr s) :
    s.world.running = null ↔ (sleepActivation tr).stack = [] := by
  rw [inv.rel.running]
  constructor
  · intro same
    by_cases empty : (sleepActivation tr).stack = []
    · exact empty
    · exact absurd same (Activation.top_ne_null inv.rel.formed empty)
  · intro empty
    simp [Activation.top, empty]

theorem Sleepers.top_awake {a : Activation} (sleepers : Sleepers s a)
    (wf : a.WellFormed null) : s.asleep a.top = none := by
  cases found : s.asleep a.top with
  | none => rfl
  | some t => exact absurd rfl (((sleepers.asleep a.top).mp ⟨t, found⟩).ne_top wf.toSettled)

theorem threadTrace_switched {op : SleepOp} {op' : ThreadOp} (same : op.threadOp = some op')
    (o : ThreadOutput) :
    threadTrace (((site, op), .switched o) :: tr) = ((site, op'), o) :: threadTrace tr := by
  have event : threadEvent (site, op) (.switched o) = some ((site, op'), o) := by
    simp [threadEvent, same]
  exact List.filterMap_cons_some event

/-- What the report of an operation says about the context it resumes. -/
theorem SleepInvariant.switches (inv : SleepInvariant tr s) {op : ThreadOp}
    (admitted : (sleepActivation tr).Admits op) (noCall : ∀ tgt data, op ≠ .call tgt data)
    (noTailcall : ∀ tgt data, op ≠ .tailcall tgt data)
    (first : (sleepActivation tr).stack = [] → s.place = .idle) {s' : SleepState}
    (running : s'.world.running = ((sleepActivation tr).step op).1.top) :
    Switches s s' ((sleepActivation tr).step op).2 := by
  constructor
  · intro c v resumed
    exact Activation.step_resumes_pushes inv.rel.formed admitted noCall noTailcall resumed rfl
  · intro p v resumed
    obtain ⟨top, goes⟩ := Activation.step_resumes_top admitted resumed
    refine ⟨running.trans top, fun place => ?_⟩
    cases goes with
    | inl new => exact absurd rfl new.choose_spec.2.1
    | inr waits =>
        by_cases empty : (sleepActivation tr).stack = []
        · rw [first empty] at place
          cases place
        · cases inv.sleepers.bottom empty with
          | inl call => exact waits.trans call.2
          | inr idle =>
              rw [idle.1] at place
              cases place

theorem Sleepers.bottom_step {a : Activation} (sleepers : Sleepers s a)
    (wf : a.WellFormed null) (inside : a.stack ≠ []) (op : ThreadOp) :
    (s.place = .inCallback ∧ (a.step op).1.waiting null = .call) ∨
      (s.place = .idle ∧ ∃ t, (a.step op).1.waiting null = .mainStart t) := by
  rw [Activation.step_waiting_null wf inside op]
  exact sleepers.bottom inside

/-- An operation that switches without putting a thread to sleep. -/
theorem SleepInvariant.switch (inv : SleepInvariant tr s) {op : SleepOp} {op' : ThreadOp}
    (same : op.threadOp = some op')
    (admitted : ThreadAdmits (threadTrace tr) s.world (site, op'))
    (noYield : ∀ data, op' ≠ .yield data) (noCall : ∀ tgt data, op' ≠ .call tgt data)
    (noTailcall : ∀ tgt data, op' ≠ .tailcall tgt data)
    (first : (sleepActivation tr).stack = [] → s.place = .idle ∧
      ∃ t, ((sleepActivation tr).step op').1.waiting null = .mainStart t) :
    ∃ s' out, switched s (threadStep s.world (site, op')) = .ok (s', out) ∧
      SleepInvariant (((site, op), out) :: tr) s' ∧ StepReport s s' out := by
  obtain ⟨w, o, stepped, legal, run, running⟩ := inv.thread_step admitted
  have formed := inv.rel.formed
  have switches : Switches s (s.switch w o) o := by
    have moved : (s.switch w o).world.running = ((sleepActivation tr).step op').1.top := running
    rw [legal] at moved ⊢
    exact inv.switches admitted.1 noCall noTailcall (fun empty => (first empty).1) moved
  have step : sleepActivation (((site, op), .switched o) :: tr) =
      ((sleepActivation tr).step op').1 := by
    rw [sleepActivation, threadTrace_switched same]
    rfl
  refine ⟨s.switch w o, .switched o, by rw [switched, stepped]; rfl, ⟨?_, ?_⟩, switches⟩
  · rw [threadTrace_switched same]
    exact run
  · rw [step]
    have asleep : (s.switch w o).asleep = s.asleep := leaveSleep_awake switches.awake s.asleep
    refine ⟨?_, ?_, ?_, ?_⟩
    · intro c
      rw [asleep]
      exact (inv.sleepers.asleep c).trans
        (Activation.asleep_step formed admitted.1 noYield noCall noTailcall).symm
    · rw [asleep]
      exact inv.sleepers.owner
    · rw [asleep]
      exact inv.sleepers.queue
    · intro _
      by_cases empty : (sleepActivation tr).stack = []
      · exact .inr (first empty)
      · exact inv.sleepers.bottom_step formed empty op'

/-- `do_sleep` before it yields. -/
def dozing (s : SleepState) (ct : Word) (timers : EvTimers Word EvtimerFn) : SleepState :=
  { s with
    ct := Function.update s.ct ct { s.ct ct with thread := s.world.self }
    asleep := Function.update s.asleep s.world.self (some ct)
    timers := timers }

theorem doSleep_eq {ct : Word} {msecs : Int} {timers : EvTimers Word EvtimerFn}
    (alarm : evAlarm s.timers ct (evTimeout s.timers msecs) .timerWakeup = .ok timers) :
    doSleep s site ct msecs =
      switched (dozing s ct timers) (threadStep s.world (site, .yield null)) := by
  simp only [doSleep, alarm, inTimers, ok_bind]
  rfl

/-- The timer of the new sleeper is armed, and no other one. -/
theorem Sleepers.doze {a : Activation} (sleepers : Sleepers s a) (wf : a.WellFormed null)
    (inside : a.stack ≠ []) (self : s.world.self = a.top) {ct : Word}
    (apart : ∀ c, s.asleep c ≠ some ct) (msecs : Int) :
    ∃ timers, evAlarm s.timers ct (evTimeout s.timers msecs) .timerWakeup = .ok timers ∧
      Sleepers (dozing s ct timers) (a.pop .yield) := by
  obtain ⟨M, hold, armed⟩ := sleepers.queue
  have unarmed : M ct = none := by
    cases found : M ct with
    | none => rfl
    | some x =>
        obtain ⟨c, owns⟩ := (armed ct).mp (by simp [found])
        exact absurd owns (apart c)
  have topAwake := sleepers.top_awake wf
  obtain ⟨timers, alarm, _, hold', _⟩ :=
    evAlarm_ok hold unarmed (evTimeout s.timers msecs) EvtimerFn.timerWakeup
  have here : (dozing s ct timers).asleep a.top = some ct := by
    rw [← self]
    exact Function.update_self ..
  have there : ∀ c, c ≠ a.top → (dozing s ct timers).asleep c = s.asleep c := by
    intro c ne
    rw [← self] at ne
    exact Function.update_of_ne ne ..
  refine ⟨timers, alarm, ?_, ?_, ?_, ?_⟩
  · intro c
    rw [Activation.asleep_pop wf.toSettled inside, ← sleepers.asleep c]
    by_cases top : c = a.top
    · subst top
      simp [here]
    · simp [there c top, top]
  · intro c t owns
    by_cases top : c = a.top
    · subst top
      rw [here] at owns
      cases owns
      show (Function.update s.ct ct _ ct).thread = a.top
      rw [Function.update_self, ← self]
    · rw [there c top] at owns
      have other : t ≠ ct := fun same => apart c (same ▸ owns)
      rw [← sleepers.owner c t owns]
      exact congrArg CthreadTimer.thread (Function.update_of_ne other ..)
  · refine ⟨_, hold', fun t => ?_⟩
    by_cases mine : t = ct
    · subst mine
      exact ⟨fun _ => ⟨_, here⟩, fun _ => by simp⟩
    · rw [Function.update_of_ne mine, armed t]
      constructor
      · intro ⟨c, owns⟩
        have ne : c ≠ a.top := by
          intro top
          rw [top, topAwake] at owns
          cases owns
        exact ⟨c, (there c ne).trans owns⟩
      · intro ⟨c, owns⟩
        by_cases top : c = a.top
        · subst top
          rw [here] at owns
          cases owns
          exact absurd rfl mine
        · exact ⟨c, (there c top).symm.trans owns⟩
  · exact fun _ => sleepers.bottom_step wf inside (.yield null)

/-- `do_sleep` arms its timer and yields. -/
theorem SleepInvariant.sleep (inv : SleepInvariant tr s) {ct : Word}
    (admitted : ThreadAdmits (threadTrace tr) s.world (site, .yield null))
    (apart : ∀ c, s.asleep c ≠ some ct) (msecs : Int) :
    ∃ s' out, doSleep s site ct msecs = .ok (s', out) ∧
      SleepInvariant (((site, .sleep ct msecs), out) :: tr) s' ∧ StepReport s s' out := by
  obtain ⟨w, o, stepped, legal, run, running⟩ := inv.thread_step admitted
  obtain ⟨timers, alarm, sleepers⟩ :=
    inv.sleepers.doze inv.rel.formed admitted.1 inv.rel.self apart msecs
  have switches : Switches s ((dozing s ct timers).switch w o) o := by
    have moved : ((dozing s ct timers).switch w o).world.running =
        ((sleepActivation tr).step (.yield null)).1.top := running
    rw [legal] at moved ⊢
    exact inv.switches admitted.1 (fun _ _ => ThreadOp.noConfusion)
      (fun _ _ => ThreadOp.noConfusion) (fun empty => absurd empty admitted.1) moved
  have same : (SleepOp.sleep ct msecs).threadOp = some (.yield null) := rfl
  refine ⟨(dozing s ct timers).switch w o, .switched o, ?_, ⟨?_, ?_⟩, switches⟩
  · rw [doSleep_eq alarm, switched, stepped]
    rfl
  · rw [threadTrace_switched same]
    exact run
  · rw [sleepActivation, threadTrace_switched same]
    have asleep : ((dozing s ct timers).switch w o).asleep = (dozing s ct timers).asleep :=
      leaveSleep_awake switches.awake _
    refine ⟨?_, ?_, ?_, sleepers.bottom⟩
    · rw [asleep]
      exact sleepers.asleep
    · rw [asleep]
      exact sleepers.owner
    · rw [asleep]
      exact sleepers.queue

/-- The callback of a timer that fires resumes its owner, who leaves `do_sleep`. -/
theorem SleepInvariant.wake (inv : SleepInvariant tr s) (op : SleepOp)
    (main : s.world.running = null) (room : s.world.Free (site.rsp - 48))
    {M : Word → Option (BitVec 32)} (hold : Holds s.timers M)
    (armed : ∀ t, M t ≠ none ↔ ∃ c, s.asleep c = some t) {t : Word} {x : BitVec 32}
    (head : Head s.timers M t x) {timers : EvTimers Word EvtimerFn}
    (fired : Fired M t s.timers timers) :
    ∃ s' out, afterTimers s site (timers, .calls t .timerWakeup) = .ok (s', out) ∧
      SleepInvariant (((site, op), out) :: tr) s' ∧ StepReport s s' out := by
  obtain ⟨c, owns⟩ := (armed t).mp (by simp [head.armed])
  have owner := inv.sleepers.owner c t owns
  have asleep := (inv.sleepers.asleep c).mp ⟨t, owns⟩
  have formed := inv.rel.formed
  have admitted : ThreadAdmits (threadTrace tr) s.world (site, .call c (s.ct t).arg) :=
    ⟨asleep.callable formed, room⟩
  obtain ⟨w, o, stepped, legal, run, running⟩ := inv.thread_step admitted
  have resumed : o = .resumes c .yield (s.ct t).arg := by
    rw [legal]
    show ThreadOutput.resumes c ((sleepActivation tr).waiting c) _ = _
    rw [asleep.yields]
  subst resumed
  have alone : ∀ d u, Function.update s.asleep c none d = some u ↔
      s.asleep d = some u ∧ d ≠ c := by
    intro d u
    by_cases same : d = c
    · subst same
      simp
    · simp [same]
  refine ⟨({ s with timers := timers, place := .inCallback } : SleepState).switch w
    (.resumes c .yield (s.ct t).arg), .woke t c (s.ct t).arg (.resumes c .yield (s.ct t).arg),
    ?_, ⟨run, ?_⟩, ?_⟩
  · have called : cthreadCall s.world site c (s.ct t).arg =
        .ok (w, .resumes c .yield (s.ct t).arg) := stepped
    simp only [afterTimers, timerWakeup, owner, called, inThreads, ok_bind, pure_eq_ok]
  · refine ⟨?_, ?_, ?_, ?_⟩
    · intro d
      show (∃ u, Function.update s.asleep c none d = some u) ↔
        ((sleepActivation tr).push c .call).Asleep d
      rw [Activation.asleep_push formed.toSettled, ← inv.sleepers.asleep d]
      simp only [alone, exists_and_right]
    · intro d u owns'
      exact inv.sleepers.owner d u ((alone d u).mp owns').1
    · refine ⟨_, fired.holds hold, fun u => ?_⟩
      show _ ↔ ∃ d, Function.update s.asleep c none d = some u
      simp only [alone]
      by_cases mine : u = t
      · subst mine
        refine ⟨fun armed => absurd (Function.update_self ..) armed, fun ⟨d, owns', ne⟩ => ?_⟩
        rw [← owner] at ne
        exact absurd (inv.sleepers.owner d u owns').symm ne
      · rw [Function.update_of_ne mine, armed u]
        refine ⟨fun ⟨d, owns'⟩ => ⟨d, owns', ?_⟩, fun ⟨d, owns', _⟩ => ⟨d, owns'⟩⟩
        intro same
        rw [same, owns] at owns'
        cases owns'
        exact mine rfl
    · intro _
      have top : (sleepActivation tr).top = null := inv.rel.running.symm.trans main
      refine .inl ⟨rfl, ?_⟩
      show Function.update (sleepActivation tr).waiting (sleepActivation tr).top .call null = _
      rw [top, Function.update_self]
  · refine ⟨owns, ⟨_, rfl⟩, running, Function.update_self .., fun y queued => ?_⟩
    have queued : InQueue timers t y := queued
    rw [(fired.holds hold).inQueue_iff t y, Function.update_self] at queued
    cases queued

/-- The main context goes on without a switch. -/
theorem SleepInvariant.stay (inv : SleepInvariant tr s) (main : s.world.running = null)
    (op : SleepOp) {out : SleepOutput} (silent : threadEvent (site, op) out = none)
    {timers : EvTimers Word EvtimerFn} (place : LoopPlace)
    (queue : ∃ M, Holds timers M ∧ ∀ t, M t ≠ none ↔ ∃ c, s.asleep c = some t) :
    SleepInvariant (((site, op), out) :: tr) { s with timers := timers, place := place } := by
  have same : threadTrace (((site, op), out) :: tr) = threadTrace tr :=
    List.filterMap_cons_none silent
  refine ⟨?_, ?_⟩
  · rw [same]
    exact inv.run
  · rw [sleepActivation, same]
    refine ⟨inv.sleepers.asleep, inv.sleepers.owner, queue, fun running => ?_⟩
    exact absurd (inv.main_iff.mp main) running

/-- `ev_step_timers` has returned. -/
theorem SleepInvariant.returned (inv : SleepInvariant tr s) (main : s.world.running = null)
    (op : SleepOp) (timeout : Int) :
    ∃ s' out, afterTimers s site (s.timers, .returns timeout) = .ok (s', out) ∧
      SleepInvariant (((site, op), out) :: tr) s' ∧ StepReport s s' out := by
  by_cases zero : timeout = 0
  · refine ⟨_, _, if_pos zero, inv.stay main op rfl .idle inv.sleepers.queue, rfl, rfl⟩
  · refine ⟨_, _, if_neg zero, inv.stay main op rfl .waiting inv.sleepers.queue, rfl, rfl⟩

/-- One of the two ways into `ev_step_timers`. -/
theorem SleepInvariant.step_timers (inv : SleepInvariant tr s) (main : s.world.running = null)
    (room : s.world.Free (site.rsp - 48)) (op : SleepOp) {M : Word → Option (BitVec 32)}
    (hold : Holds s.timers M) (armed : ∀ t, M t ≠ none ↔ ∃ c, s.asleep c = some t)
    (outcome : EvTimers Word EvtimerFn × TimerOutcome Word EvtimerFn)
    (cases : (∃ timeout, outcome = (s.timers, .returns timeout)) ∨
      ∃ t x e', Head s.timers M t x ∧ outcome = (e', .calls t .timerWakeup) ∧
        Fired M t s.timers e') :
    ∃ s' out, afterTimers s site outcome = .ok (s', out) ∧
      SleepInvariant (((site, op), out) :: tr) s' ∧ StepReport s s' out := by
  cases cases with
  | inl returns =>
      obtain ⟨timeout, same⟩ := returns
      rw [same]
      exact inv.returned main op timeout
  | inr calls =>
      obtain ⟨t, x, e', head, same, fired⟩ := calls
      rw [same]
      exact inv.wake op main room hold armed head fired

theorem evloopStep_ok (inv : SleepInvariant tr s) (main : s.world.running = null)
    (place : s.place = .idle) (room : s.world.Free (site.rsp - 48)) :
    ∃ s' out, evloopStep s site = .ok (s', out) ∧
      SleepInvariant (((site, .evloopStep), out) :: tr) s' ∧ StepReport s s' out := by
  obtain ⟨M, hold, armed⟩ := inv.sleepers.queue
  have go := inv.step_timers main room .evloopStep hold armed
  unfold evloopStep
  rw [place]
  rcases evStepTimers_ok hold with ⟨_, run⟩ | ⟨t, x, _, _, run⟩ |
    ⟨t, x, f, e', head, _, run, fired⟩
  · rw [run]
    exact go (s.timers, .returns (-1)) (.inl ⟨_, rfl⟩)
  · rw [run]
    exact go (s.timers, .returns _) (.inl ⟨_, rfl⟩)
  · cases f
    rw [run]
    exact go _ (.inr ⟨t, x, e', head, rfl, fired⟩)

theorem callbackReturn_ok (inv : SleepInvariant tr s) (main : s.world.running = null)
    (place : s.place = .inCallback) (room : s.world.Free (site.rsp - 48)) :
    ∃ s' out, callbackReturn s site = .ok (s', out) ∧
      SleepInvariant (((site, .callbackReturn), out) :: tr) s' ∧ StepReport s s' out := by
  obtain ⟨M, hold, armed⟩ := inv.sleepers.queue
  have go := inv.step_timers main room .callbackReturn hold armed
  unfold callbackReturn
  rw [place]
  rcases evStepTimersResume_ok hold with ⟨_, run⟩ | ⟨t, x, _, _, run⟩ |
    ⟨t, x, f, e', head, _, run, fired⟩
  · rw [run]
    exact go (s.timers, .returns 0) (.inl ⟨_, rfl⟩)
  · rw [run]
    exact go (s.timers, .returns 0) (.inl ⟨_, rfl⟩)
  · cases f
    rw [run]
    exact go _ (.inr ⟨t, x, e', head, rfl, fired⟩)

theorem epollWait_ok (inv : SleepInvariant tr s) (main : s.world.running = null)
    (place : s.place = .waiting) (now : Option (BitVec 32)) :
    ∃ s' out, epollWait s now = .ok (s', out) ∧
      SleepInvariant (((site, .epollWait now), out) :: tr) s' ∧ StepReport s s' out := by
  obtain ⟨M, hold, armed⟩ := inv.sleepers.queue
  unfold epollWait
  rw [place]
  cases now with
  | none =>
      refine ⟨_, .returns (-1), rfl, ?_, rfl, rfl⟩
      exact inv.stay main (.epollWait none) rfl .idle inv.sleepers.queue
  | some now =>
      refine ⟨_, .returns 0, rfl, ?_, rfl, rfl⟩
      exact inv.stay main (.epollWait (some now)) rfl .idle
        ⟨M, ⟨hold.represents, hold.callback⟩, armed⟩

theorem mainStart_ok (inv : SleepInvariant tr s) (main : s.world.running = null)
    (place : s.place = .idle) {fn arg stack sz : Word}
    (admitted : ThreadAdmits (threadTrace tr) s.world (site, .mainStart fn arg stack sz)) :
    ∃ s' out, mainStart s site fn arg stack sz = .ok (s', out) ∧
      SleepInvariant (((site, .mainStart fn arg stack sz), out) :: tr) s' ∧
      StepReport s s' out := by
  have top : (sleepActivation tr).top = null := inv.rel.running.symm.trans main
  have first : ((sleepActivation tr).step (.mainStart fn arg stack sz)).1.waiting null =
      .mainStart (cthreadAddress stack sz) := by
    show Function.update (sleepActivation tr).waiting (sleepActivation tr).top _ null = _
    rw [top, Function.update_self]
  unfold mainStart
  rw [place]
  exact inv.switch rfl admitted (fun _ => ThreadOp.noConfusion)
    (fun _ _ => ThreadOp.noConfusion) (fun _ _ => ThreadOp.noConfusion)
    fun _ => ⟨place, _, first⟩

/-- An admitted operation does not fault and keeps the invariant. -/
theorem sleepStep_ok (inv : SleepInvariant tr s) (admitted : SleepAdmits tr s i) :
    ∃ s' out, sleepStep s i = .ok (s', out) ∧
      SleepInvariant ((i, out) :: tr) s' ∧ StepReport s s' out := by
  obtain ⟨site, op⟩ := i
  obtain ⟨turn, thread, room, apart⟩ := admitted
  have mine : ∀ {r : Except SleepFault (SleepState × SleepOutput)},
      s.world.running = null → mainStep s site op = r → sleepStep s (site, op) = r := by
    intro r main same
    rw [sleepStep, if_pos main, same]
  have theirs : ∀ {r : Except SleepFault (SleepState × SleepOutput)},
      s.world.running ≠ null → sleeperStep s site op = r → sleepStep s (site, op) = r := by
    intro r other same
    rw [sleepStep, if_neg other, same]
  have switch : ∀ {op' : ThreadOp}, s.world.running ≠ null → op.threadOp = some op' →
      (∀ data, op' ≠ .yield data) → (∀ tgt data, op' ≠ .call tgt data) →
      (∀ tgt data, op' ≠ .tailcall tgt data) →
      ∃ s' out, switched s (threadStep s.world (site, op')) = .ok (s', out) ∧
        SleepInvariant (((site, op), out) :: tr) s' ∧ StepReport s s' out := by
    intro op' running same noYield noCall noTailcall
    exact inv.switch same (thread op' same) noYield noCall noTailcall
      fun empty => absurd (inv.main_iff.mpr empty) running
  cases op with
  | mainStart fn arg stack sz =>
      rw [mine turn.1 rfl]
      exact mainStart_ok inv turn.1 turn.2 (thread _ rfl)
  | evloopStep =>
      rw [mine turn.1 rfl]
      exact evloopStep_ok inv turn.1 turn.2 room
  | epollWait now =>
      rw [mine turn.1 rfl]
      exact epollWait_ok inv turn.1 turn.2 now
  | callbackReturn =>
      rw [mine turn.1 rfl]
      exact callbackReturn_ok inv turn.1 turn.2 room
  | sleep ct msecs =>
      rw [theirs turn rfl]
      exact inv.sleep (thread _ rfl) (apart ct msecs rfl) msecs
  | start fn arg stack sz =>
      rw [theirs turn rfl]
      exact switch turn rfl (fun _ => ThreadOp.noConfusion) (fun _ _ => ThreadOp.noConfusion)
        fun _ _ => ThreadOp.noConfusion
  | join t =>
      rw [theirs turn rfl]
      exact switch turn rfl (fun _ => ThreadOp.noConfusion) (fun _ _ => ThreadOp.noConfusion)
        fun _ _ => ThreadOp.noConfusion
  | exit code =>
      rw [theirs turn rfl]
      exact switch turn rfl (fun _ => ThreadOp.noConfusion) (fun _ _ => ThreadOp.noConfusion)
        fun _ _ => ThreadOp.noConfusion
  | fnReturn rax =>
      rw [theirs turn rfl]
      exact switch turn rfl (fun _ => ThreadOp.noConfusion) (fun _ _ => ThreadOp.noConfusion)
        fun _ _ => ThreadOp.noConfusion

end CThread.Sleep
