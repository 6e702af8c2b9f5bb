import CThread.Timers.Spec

/-!
`ev_stop` over whole runs.

Firing leaves the node of the timer with index 1, the slot it was popped from.
Until that timer is armed again its index is stale: `ev_stop` would remove
whatever timer is at the head by then, or pop an empty heap. The history of a run
says which timers are in that state, and everything else about `ev_stop` holds.
-/
namespace CThread.Timers
open SerialOrder Faults Heap GuardedRuns
variable {τ φ : Type}

inductive Status
  | never
  | armed (deadline : BitVec 32)
  | fired
  | stopped
  deriving DecidableEq, Repr

def Status.deadline : Status → Option (BitVec 32)
  | .armed deadline => some deadline
  | _ => none

def deadlines (status : τ → Status) : τ → Option (BitVec 32) :=
  fun t => (status t).deadline

variable [DecidableEq τ]

def statusNext (status : τ → Status) (op : TimerOp τ φ) (o : TimerOutput τ φ) :
    τ → Status :=
  match o, op with
  | .outcome (.calls t _), _ => Function.update status t .fired
  | .outcome (.returns _), _ => status
  | .done, .alarm t wakeup _ => Function.update status t (.armed wakeup)
  | .done, .stop t => Function.update status t .stopped
  | .done, _ => status

def statusOf (tr : Trace (TimerOp τ φ) (TimerOutput τ φ)) : τ → Status :=
  monitor statusNext (fun _ => .never) tr

theorem deadlines_armed (status : τ → Status) (t : τ) (x : BitVec 32) :
    deadlines (Function.update status t (.armed x)) =
      Function.update (deadlines status) t (some x) := by
  funext u
  by_cases same : u = t
  · subst same
    simp [deadlines, Status.deadline]
  · simp [deadlines, same]

theorem deadlines_gone (status : τ → Status) (t : τ) (new : Status)
    (gone : new.deadline = none) :
    deadlines (Function.update status t new) =
      Function.update (deadlines status) t none := by
  funext u
  by_cases same : u = t
  · subst same
    simp [deadlines, gone]
  · simp [deadlines, same]

/-- `ev_alarm` is called on timers that are not armed, `ev_stop` on any timer that
was armed once, and the armed deadlines keep spanning at most `2^31 - 1`. -/
def StopAdmits : Guard (TimerState τ φ) (TimerOp τ φ) (TimerOutput τ φ) :=
  fun tr s op => match op with
    | .alarm t wakeup _ => deadlines (statusOf tr) t = none ∧
        Windowed (Function.update (deadlines (statusOf tr)) t (some wakeup))
    | .stop t => statusOf tr t ≠ .never
    | .getTicks _ => s.control = .idle
    | .stepTimers => s.control = .idle
    | .callbackReturn => s.control = .inCallback

/-- No timer is stopped between its firing and its next `ev_alarm`. -/
def SparesFired : Guard (TimerState τ φ) (TimerOp τ φ) (TimerOutput τ φ) :=
  fun tr _ op => ∀ t, op = .stop t → statusOf tr t ≠ .fired

/-- The index of a timer is invalid or the slot that holds this very timer. -/
def IndexExact (tr : Trace (TimerOp τ φ) (TimerOutput τ φ)) (s : TimerState τ φ) : Prop :=
  ∀ t, statusOf tr t ≠ .never →
    s.loop.timers.index t = heapInvalid ∨
      (1 ≤ s.loop.timers.index t ∧ s.loop.timers.index t ≤ s.loop.timers.size ∧
        (s.loop.timers.v (s.loop.timers.index t)).node = some t)

/-- `ev_stop(t)` takes `t` out if it is armed, changes nothing if it is not, and
leaves every other timer armed with its deadline. -/
def StopExact (s : TimerState τ φ) (t : τ) : Prop :=
  ∃ s', timerStep s (.stop t) = .ok (s', .done) ∧
    (∀ x, ¬ InQueue s'.loop t x) ∧
    ((∀ x, ¬ InQueue s.loop t x) → s' = s) ∧
    ∀ u x, u ≠ t → (InQueue s'.loop u x ↔ InQueue s.loop u x)

structure StopInvariant (tr : Trace (TimerOp τ φ) (TimerOutput τ φ))
    (s : TimerState τ φ) : Prop where
  hold : Holds s.loop (deadlines (statusOf tr))
  order : HeapOrdered s.loop.timers
  windowed : Windowed (deadlines (statusOf tr))
  fired : ∀ t, statusOf tr t = .fired → s.loop.timers.index t = 1
  stopped : ∀ t, statusOf tr t = .stopped → s.loop.timers.index t = heapInvalid
  spare : (s.loop.timers.v 0).node = none

theorem init_stopInvariant (garbage : Nat → BitVec 32) (index : τ → Nat)
    (fn : τ → Option φ) (now : BitVec 32) :
    StopInvariant [] (TimerState.init garbage index fn now) where
  hold := init_holds garbage index fn now
  order := init_ordered garbage index fn now
  windowed := ⟨0, fun _ _ armed => by cases armed⟩
  fired t status := by cases status
  stopped t status := by cases status
  spare := rfl

variable {tr : Trace (TimerOp τ φ) (TimerOutput τ φ)} {s : TimerState τ φ}

theorem alarm_step (inv : StopInvariant tr s) {t : τ} {x : BitVec 32} (f : φ)
    (unarmed : deadlines (statusOf tr) t = none)
    (windowed : Windowed (Function.update (deadlines (statusOf tr)) t (some x))) :
    ∃ s', timerStep s (.alarm t x f) = .ok (s', .done) ∧
      StopInvariant ((.alarm t x f, .done) :: tr) s' := by
  obtain ⟨e, run, inserted, hold, _, order⟩ := evAlarm_ok inv.hold unarmed x f
  have status : statusOf ((TimerOp.alarm t x f, TimerOutput.done) :: tr) =
      Function.update (statusOf tr) t (.armed x) := rfl
  have others : ∀ u, statusOf ((TimerOp.alarm t x f, TimerOutput.done) :: tr) u ≠ .armed x →
      u ≠ t := by
    intro u other same
    subst same
    simp [status] at other
  refine ⟨{ s with loop := e }, by simp [timerStep, run], ?_⟩
  constructor
  · rw [status, deadlines_armed]
    exact hold
  · exact order windowed inv.order
  · rw [status, deadlines_armed]
    exact windowed
  · intro u fired
    have ne := others u (by simp [fired])
    rw [status, Function.update_of_ne ne] at fired
    have absent : deadlines (statusOf tr) u = none := by simp [deadlines, fired, Status.deadline]
    exact (inserted.outside u ne absent).trans (inv.fired u fired)
  · intro u stopped
    have ne := others u (by simp [stopped])
    rw [status, Function.update_of_ne ne] at stopped
    have absent : deadlines (statusOf tr) u = none := by
      simp [deadlines, stopped, Status.deadline]
    exact (inserted.outside u ne absent).trans (inv.stopped u stopped)
  · show (e.timers.v 0).node = none
    rw [inserted.spare]
    exact inv.spare

theorem stop_step (inv : StopInvariant tr s) {t : τ} (seen : statusOf tr t ≠ .never)
    (live : statusOf tr t ≠ .fired) :
    ∃ s', timerStep s (.stop t) = .ok (s', .done) ∧
      StopInvariant ((.stop t, .done) :: tr) s' ∧
      (deadlines (statusOf tr) t = none → s' = s) := by
  have status : statusOf ((TimerOp.stop t, TimerOutput.done) :: tr) =
      Function.update (statusOf tr) t .stopped := rfl
  have map := deadlines_gone (statusOf tr) t .stopped rfl
  cases now : statusOf tr t with
  | never => exact absurd now seen
  | fired => exact absurd now live
  | stopped =>
      have same : Function.update (statusOf tr) t .stopped = statusOf tr := by
        rw [← now, Function.update_eq_self]
      have run := evStop_invalid (inv.stopped t now)
      refine ⟨s, by simp [timerStep, run], ?_, fun _ => rfl⟩
      rw [same] at status
      exact ⟨by rw [status]; exact inv.hold, inv.order, by rw [status]; exact inv.windowed,
        by rw [status]; exact inv.fired, by rw [status]; exact inv.stopped, inv.spare⟩
  | armed x =>
      have armed : deadlines (statusOf tr) t = some x := by
        simp [deadlines, now, Status.deadline]
      obtain ⟨e, run, hold, order, _, index, spare, outside⟩ :=
        evStop_armed inv.hold inv.windowed inv.order armed
      refine ⟨{ s with loop := e }, by simp [timerStep, run], ?_, ?_⟩
      · have kept : ∀ u, u ≠ t → deadlines (statusOf tr) u = none →
            e.timers.index u = s.loop.timers.index u := outside
        constructor
        · rw [status, map]
          exact hold
        · exact order
        · rw [status, map]
          exact inv.windowed.erase t
        · intro u fired
          have ne : u ≠ t := by
            intro same
            subst same
            simp [status] at fired
          rw [status, Function.update_of_ne ne] at fired
          exact (kept u ne (by simp [deadlines, fired, Status.deadline])).trans
            (inv.fired u fired)
        · intro u stopped
          by_cases same : u = t
          · subst same
            exact index
          · rw [status, Function.update_of_ne same] at stopped
            exact (kept u same (by simp [deadlines, stopped, Status.deadline])).trans
              (inv.stopped u stopped)
        · show (e.timers.v 0).node = none
          rw [spare]
          exact inv.spare
      · intro unarmed
        rw [armed] at unarmed
        cases unarmed

theorem returns_step (inv : StopInvariant tr s) (op : TimerOp τ φ) (k : Int) :
    StopInvariant ((op, .outcome (.returns k)) :: tr) ⟨s.loop, .idle⟩ := by
  have status : statusOf ((op, TimerOutput.outcome (.returns k)) :: tr) = statusOf tr := by
    cases op <;> rfl
  refine ⟨?_, inv.order, ?_, ?_, ?_, inv.spare⟩
  · rw [status]
    exact inv.hold
  · rw [status]
    exact inv.windowed
  · rw [status]
    exact inv.fired
  · rw [status]
    exact inv.stopped

theorem calls_step (inv : StopInvariant tr s) (op : TimerOp τ φ) {t : τ} {f : φ}
    {e' : EvTimers τ φ} (fired : Fired (deadlines (statusOf tr)) t s.loop e') :
    StopInvariant ((op, .outcome (.calls t f)) :: tr) ⟨e', .inCallback⟩ := by
  have status : statusOf ((op, TimerOutput.outcome (.calls t f)) :: tr) =
      Function.update (statusOf tr) t .fired := by
    cases op <;> rfl
  have map := deadlines_gone (statusOf tr) t .fired rfl
  have kept : ∀ u, u ≠ t → deadlines (statusOf tr) u = none →
      e'.timers.index u = s.loop.timers.index u := fired.removed.outside
  constructor
  · rw [status, map]
    exact fired.holds inv.hold
  · exact fired.order inv.windowed inv.order
  · rw [status, map]
    exact inv.windowed.erase t
  · intro u now
    by_cases same : u = t
    · subst same
      exact fired.stale
    · rw [status, Function.update_of_ne same] at now
      exact (kept u same (by simp [deadlines, now, Status.deadline])).trans (inv.fired u now)
  · intro u now
    have ne : u ≠ t := by
      intro same
      subst same
      simp [status] at now
    rw [status, Function.update_of_ne ne] at now
    exact (kept u ne (by simp [deadlines, now, Status.deadline])).trans (inv.stopped u now)
  · show (e'.timers.v 0).node = none
    rw [fired.removed.spare]
    exact inv.spare

/-- Entering `ev_step_timers` and returning from a callback both end with a result,
or with the head popped and its callback called. -/
theorem settle_step (inv : StopInvariant tr s) (op : TimerOp τ φ)
    {r : Except TimerFault (EvTimers τ φ × TimerOutcome τ φ)}
    (split : (∃ k, r = .ok (s.loop, .returns k)) ∨
      ∃ t f e', r = .ok (e', .calls t f) ∧ Fired (deadlines (statusOf tr)) t s.loop e') :
    ∃ s' o, settle r = .ok (s', o) ∧ StopInvariant ((op, o) :: tr) s' := by
  cases split with
  | inl returned =>
      obtain ⟨k, run⟩ := returned
      exact ⟨_, _, by rw [run]; rfl, returns_step inv op k⟩
  | inr called =>
      obtain ⟨t, f, e', run, fired⟩ := called
      exact ⟨_, _, by rw [run]; rfl, calls_step inv op fired⟩

theorem stopStep_ok (inv : StopInvariant tr s) {op : TimerOp τ φ}
    (admitted : StopAdmits tr s op) (spares : SparesFired tr s op) :
    ∃ s' o, timerStep s op = .ok (s', o) ∧ StopInvariant ((op, o) :: tr) s' := by
  cases op with
  | alarm t x f =>
      obtain ⟨s', run, inv'⟩ := alarm_step inv f admitted.1 admitted.2
      exact ⟨s', .done, run, inv'⟩
  | stop t =>
      obtain ⟨s', run, inv', _⟩ := stop_step inv admitted (spares t rfl)
      exact ⟨s', .done, run, inv'⟩
  | getTicks now =>
      have idle : s.control = .idle := admitted
      exact ⟨{ s with loop := { s.loop with now := now } }, .done, by simp [timerStep, idle],
        ⟨inv.hold.represents, inv.hold.callback⟩, inv.order, inv.windowed, inv.fired,
        inv.stopped, inv.spare⟩
  | stepTimers =>
      have idle : s.control = .idle := admitted
      have split := evStepTimers_ok inv.hold
      simp only [timerStep, idle]
      apply settle_step inv .stepTimers
      rcases split with ⟨_, run⟩ | ⟨t, x, _, _, run⟩ | ⟨t, x, f, e', head, _, run, fired⟩
      · exact .inl ⟨-1, run⟩
      · exact .inl ⟨_, run⟩
      · exact .inr ⟨t, f, e', run, fired⟩
  | callbackReturn =>
      have inside : s.control = .inCallback := admitted
      have split := evStepTimersResume_ok inv.hold
      simp only [timerStep, inside]
      apply settle_step inv .callbackReturn
      rcases split with ⟨_, run⟩ | ⟨t, x, _, _, run⟩ | ⟨t, x, f, e', head, _, run, fired⟩
      · exact .inl ⟨0, run⟩
      · exact .inl ⟨0, run⟩
      · exact .inr ⟨t, f, e', run, fired⟩

theorem stopRun_invariant {garbage : Nat → BitVec 32} {index : τ → Nat}
    {fn : τ → Option φ} {now : BitVec 32}
    (run : Run timerMachine (fun tr s op => StopAdmits tr s op ∧ SparesFired tr s op)
      (TimerState.init garbage index fn now) tr s) : StopInvariant tr s := by
  refine Run.invariant (P := StopInvariant) (init_stopInvariant garbage index fn now) ?_ run
  intro tr s op s' o inv admitted stepped
  obtain ⟨t, o', stepped', inv'⟩ := stopStep_ok inv admitted.1 admitted.2
  have same : (.ok (s', o) : Except TimerFault _) = .ok (t, o') :=
    stepped.symm.trans stepped'
  cases same
  exact inv'

/-- A timer that is not stale has an exact index. -/
theorem StopInvariant.index (inv : StopInvariant tr s) {t : τ}
    (seen : statusOf tr t ≠ .never) (live : statusOf tr t ≠ .fired) :
    s.loop.timers.index t = heapInvalid ∨
      (1 ≤ s.loop.timers.index t ∧ s.loop.timers.index t ≤ s.loop.timers.size ∧
        (s.loop.timers.v (s.loop.timers.index t)).node = some t) := by
  cases now : statusOf tr t with
  | never => exact absurd now seen
  | fired => exact absurd now live
  | stopped => exact .inl (inv.stopped t now)
  | armed x =>
      obtain ⟨one, inside, entry⟩ :=
        inv.hold.represents.back t x (by simp [deadlines, now, Status.deadline])
      exact .inr ⟨one, inside, by rw [entry]⟩

/-- A stale index is wrong: slot 1 holds another timer or nothing. -/
theorem StopInvariant.stale (inv : StopInvariant tr s) {t : τ}
    (fired : statusOf tr t = .fired) :
    ¬ (s.loop.timers.index t = heapInvalid ∨
      (1 ≤ s.loop.timers.index t ∧ s.loop.timers.index t ≤ s.loop.timers.size ∧
        (s.loop.timers.v (s.loop.timers.index t)).node = some t)) := by
  have index := inv.fired t fired
  have absent : deadlines (statusOf tr) t = none := by
    simp [deadlines, fired, Status.deadline]
  intro exact
  cases exact with
  | inl invalid => simp [index] at invalid
  | inr slot =>
      obtain ⟨n, node, _, member⟩ := inv.hold.represents.slot _ slot.1 slot.2.1
      rw [slot.2.2] at node
      cases node
      rw [absent] at member
      cases member

theorem StopInvariant.stopExact (inv : StopInvariant tr s) {t : τ}
    (seen : statusOf tr t ≠ .never) (live : statusOf tr t ≠ .fired) : StopExact s t := by
  obtain ⟨s', run, inv', noop⟩ := stop_step inv seen live
  have map : deadlines (statusOf ((TimerOp.stop t, TimerOutput.done) :: tr)) =
      Function.update (deadlines (statusOf tr)) t none :=
    deadlines_gone (statusOf tr) t .stopped rfl
  have hold := inv'.hold
  rw [map] at hold
  refine ⟨s', run, ?_, ?_, ?_⟩
  · intro x queued
    rw [hold.inQueue_iff] at queued
    simp at queued
  · intro out
    apply noop
    cases armed : deadlines (statusOf tr) t with
    | none => rfl
    | some x => exact absurd ((inv.hold.inQueue_iff t x).mpr armed) (out x)
  · intro u x ne
    rw [hold.inQueue_iff, inv.hold.inQueue_iff, Function.update_of_ne ne]

/-- Stopping a stale timer removes the head of the queue, or pops an empty one. -/
theorem StopInvariant.not_stopExact (inv : StopInvariant tr s) {t : τ}
    (fired : statusOf tr t = .fired) : ¬ StopExact s t := by
  have index := inv.fired t fired
  have absent : deadlines (statusOf tr) t = none := by
    simp [deadlines, fired, Status.deadline]
  intro ⟨s', run, _, _, others⟩
  by_cases empty : s.loop.timers.size = 0
  · obtain ⟨f, popped⟩ := heapRemove_empty empty inv.spare
    simp [timerStep, evStop, index, popped, inHeap] at run
  · obtain ⟨u, x, head⟩ := inv.hold.head empty
    have ne : u ≠ t := by
      intro same
      subst same
      have armed := head.armed
      rw [absent] at armed
      cases armed
    obtain ⟨h, popped, removed, _⟩ := heapRemove_head_ok inv.hold.represents head.nonempty
      (n := u) (by rw [head.entry])
    have queued := (others u x ne).mpr ⟨1, Nat.le_refl 1, head.nonempty, head.entry⟩
    simp [timerStep, evStop, index, popped] at run
    subst run
    obtain ⟨k, one, inside, entry⟩ := queued
    obtain ⟨n, node, _, member⟩ := removed.represents.slot k one inside
    have entry' : h.v k = ⟨x, some u⟩ := entry
    rw [entry'] at node
    cases node
    simp at member

/-- In every run that stops no timer between its firing and its next `ev_alarm`:
nothing faults, the index statement holds of a state exactly when no timer is in
between, and `ev_stop` touches only its own timer exactly for the others. -/
theorem evStop_touches_own_timer {garbage : Nat → BitVec 32} {index : τ → Nat}
    {fn : τ → Option φ} {now : BitVec 32}
    (run : Run timerMachine (fun tr s op => StopAdmits tr s op ∧ SparesFired tr s op)
      (TimerState.init garbage index fn now) tr s) :
    (IndexExact tr s ↔ ∀ t, statusOf tr t ≠ .fired) ∧
      (∀ t, statusOf tr t ≠ .never → (StopExact s t ↔ statusOf tr t ≠ .fired)) ∧
      ∀ op, StopAdmits tr s op → SparesFired tr s op →
        ∃ s' o, timerMachine.step s op = .ok (s', o) := by
  have inv := stopRun_invariant run
  refine ⟨⟨?_, ?_⟩, ?_, ?_⟩
  · intro exact t fired
    exact inv.stale fired (exact t (by simp [fired]))
  · intro live t seen
    exact inv.index seen (live t)
  · intro t seen
    constructor
    · intro exact fired
      exact inv.not_stopExact fired exact
    · exact inv.stopExact seen
  · intro op admitted spares
    obtain ⟨s', o, stepped, _⟩ := stopStep_ok inv admitted spares
    exact ⟨s', o, stepped⟩

/-- Timer 0 is due at 5 and timer 1 at 10; at 5 timer 0 fires. -/
def firedOnce : TimerState Nat Unit :=
  timerMachine.afterAll (TimerState.init (fun _ => 0) (fun _ => 0) (fun _ => none) 0)
    [.alarm 0 5 (), .alarm 1 10 (), .getTicks 5, .stepTimers]

theorem firedOnce_run :
    Run timerMachine (fun tr s op => StopAdmits tr s op ∧ SparesFired tr s op)
      (TimerState.init (fun _ => 0) (fun _ => 0) (fun _ => none) 0)
      [(.stepTimers, .outcome (.calls 0 ())), (.getTicks 5, .done), (.alarm 1 10 (), .done),
        (.alarm 0 5 (), .done)] firedOnce := by
  have window : ∀ M : Nat → Option (BitVec 32),
      (∀ t x, M t = some x → x = 5 ∨ x = 10) → Windowed M := by
    intro M values
    refine ⟨5, fun t x member => ?_⟩
    rcases values t x member with rfl | rfl <;> simp [InWindow, offset]
  refine .snoc (.snoc (.snoc (.snoc .nil ⟨⟨rfl, window _ ?_⟩, ?_⟩ (Machine.step_eq ?_))
    ⟨⟨rfl, window _ ?_⟩, ?_⟩ (Machine.step_eq ?_)) ⟨?_, ?_⟩ (Machine.step_eq ?_))
    ⟨?_, ?_⟩ (Machine.step_eq ?_)
  · intro t x armed
    by_cases zero : t = 0 <;> simp_all [statusOf, deadlines, Status.deadline]
  · intro t same
    cases same
  · decide +kernel
  · intro t x armed
    by_cases one : t = 1 <;> by_cases zero : t = 0 <;>
      simp_all [statusOf, deadlines, Status.deadline, statusNext]
  · intro t same
    cases same
  · decide +kernel
  · show TimerState.control _ = .idle
    decide +kernel
  · intro t same
    cases same
  · decide +kernel
  · show TimerState.control _ = .idle
    decide +kernel
  · intro t same
    cases same
  · decide +kernel

theorem stop_after_firing :
    ∃ tr, Run timerMachine StopAdmits
        (TimerState.init (fun _ => 0) (fun _ => 0) (fun _ => none) 0) tr firedOnce ∧
      ¬ IndexExact tr firedOnce ∧ ¬ StopExact firedOnce 0 := by
  refine ⟨_, firedOnce_run.mono (fun _ _ _ admitted => admitted.1), ?_, ?_⟩
  · intro exact
    have := exact 0 (by decide)
    revert this
    decide +kernel
  · intro ⟨s', run, _, _, others⟩
    have queued := (others 1 10 (by decide)).mpr
      ⟨1, by decide, by decide +kernel, by decide +kernel⟩
    have last : s' = timerMachine.after firedOnce (.stop 0) := by
      simp only [Machine.after, timerMachine, run]
    obtain ⟨k, one, inside, _⟩ := queued
    have empty : s'.loop.timers.size = 0 := by
      rw [last]
      decide +kernel
    omega

theorem evStop_touches_own_timer_firedOnce :
    StopExact firedOnce 1 ∧ ¬ StopExact firedOnce 0 := by
  obtain ⟨_, stops, _⟩ := evStop_touches_own_timer firedOnce_run
  exact ⟨(stops 1 (by decide)).mpr (by decide),
    fun exact => (stops 0 (by decide)).mp exact rfl⟩

end CThread.Timers
