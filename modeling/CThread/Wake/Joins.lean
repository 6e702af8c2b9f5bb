import CThread.Wake.Model
import CThread.Threads.JoinResult

/-!
Joins beside the loop.

Whatever wakes a thread does it with a switch of the threads machine, so a run of both is a
run of the threads with steps between that they do not see. A timer or a watcher stores the
thread it wakes before that thread joins, and nothing takes it back when it does: the
wakeup that then fires resumes a joiner whose thread still runs.
-/
namespace CThread.Wake
open Faults GuardedRuns Threads Poll

variable {s s' : WakeState} {i : CallSite × WakeOp} {o : WakeOutput}
  {j : CallSite × ThreadOp} {tr : Trace (CallSite × WakeOp) WakeOutput}

/-- Until it switches, `stepLoop` is a step of the loop. -/
theorem stepLoop_eq (s : WakeState) (site : CallSite) (op : LoopOp Word Word Word Wakeup) :
    stepLoop s site op =
      match loopStep s.loop op with
      | .error f => .error (.loop f)
      | .ok (l, r) =>
          match s.wakeup r with
          | none => .ok ({ s with loop := l }, .looped r)
          | some (thread, arg) =>
              match threadStep s.world (site, .call thread arg) with
              | .error f => .error (.thread f)
              | .ok (w, q) => .ok ({ s with loop := l, world := w }, .woke r thread arg q) := by
  unfold stepLoop
  cases loopStep s.loop op with
  | error f => rfl
  | ok p =>
      obtain ⟨l, r⟩ := p
      show (match s.wakeup r with
        | none => _
        | some (thread, arg) => _) = _
      cases called : s.wakeup r with
      | none => simp only [called]; rfl
      | some call =>
          obtain ⟨thread, arg⟩ := call
          simp only [called]
          show (inThreads (threadStep s.world (site, .call thread arg)) >>= _) = _
          cases threadStep s.world (site, .call thread arg) <;> rfl

theorem stepThread_eq (free : s.loop.waiting = none) (site : CallSite) (op : ThreadOp) :
    stepThread s site op =
      match threadStep s.world (site, op) with
      | .error f => .error (.thread f)
      | .ok (w, r) => .ok ({ s with world := w }, .switched r) := by
  unfold stepThread
  rw [free]
  show (inThreads (threadStep s.world (site, op)) >>= _) = _
  cases threadStep s.world (site, op) <;> rfl

theorem writeLoop_cases (s : WakeState) (op : LoopOp Word Word Word Wakeup) :
    (∃ l, writeLoop s op = .ok ({ s with loop := l }, .done)) ∨
      ∃ f, writeLoop s op = .error (.loop f) := by
  unfold writeLoop
  cases loopStep s.loop op with
  | error f => exact .inr ⟨f, rfl⟩
  | ok p => exact .inl ⟨p.1, rfl⟩

/-- A step that gets to a switch does what the threads machine does. -/
theorem wakeStep_call (called : s.callOf i = some j) :
    (∃ w r s' o, threadStep s.world j = .ok (w, r) ∧ wakeStep s i = .ok (s', o) ∧
        s'.world = w ∧ threadPart (i, o) = some (j, r)) ∨
      ∃ f, threadStep s.world j = .error f ∧ wakeStep s i = .error (.thread f) := by
  obtain ⟨site, op⟩ := i
  cases op with
  | thread op =>
      simp only [WakeState.callOf] at called
      cases free : s.loop.waiting with
      | some timeout =>
          rw [free] at called
          cases called
      | none =>
          rw [free] at called
          cases called
          simp only [wakeStep, stepThread_eq free]
          cases threadStep s.world (site, op) with
          | error f => exact .inr ⟨f, rfl, rfl⟩
          | ok p => exact .inl ⟨p.1, p.2, _, _, rfl, rfl, rfl, rfl⟩
  | loop op =>
      cases stepped : loopStep s.loop op with
      | error f =>
          simp only [WakeState.callOf, stepped] at called
          cases called
      | ok p =>
          simp only [WakeState.callOf, stepped] at called
          obtain ⟨⟨thread, arg⟩, woke, rfl⟩ := Option.map_eq_some_iff.mp called
          simp only [wakeStep, stepLoop_eq, stepped, woke]
          cases threadStep s.world (site, .call thread arg) with
          | error f => exact .inr ⟨f, rfl, rfl⟩
          | ok q => exact .inl ⟨q.1, q.2, _, _, rfl, rfl, rfl, rfl⟩
  | _ => cases called

/-- Any other step leaves the threads alone. -/
theorem wakeStep_other (quiet : s.callOf i = none) :
    (∀ s' o, wakeStep s i = .ok (s', o) → threadPart (i, o) = none ∧ s'.world = s.world) ∧
      ∀ f, wakeStep s i ≠ .error (.thread f) := by
  have failed : ∀ {g : WakeFault}, wakeStep s i = .error g → (∀ f, g ≠ .thread f) →
      (∀ s' o, wakeStep s i = .ok (s', o) → threadPart (i, o) = none ∧ s'.world = s.world) ∧
        ∀ f, wakeStep s i ≠ .error (.thread f) := by
    intro g run other
    rw [run]
    refine ⟨fun s' o same => ?_, fun f same => ?_⟩
    · cases same
    · cases same
      exact other f rfl
  have moved : ∀ {s₁ : WakeState} {o₁ : WakeOutput}, wakeStep s i = .ok (s₁, o₁) →
      threadPart (i, o₁) = none → s₁.world = s.world →
      (∀ s' o, wakeStep s i = .ok (s', o) → threadPart (i, o) = none ∧ s'.world = s.world) ∧
        ∀ f, wakeStep s i ≠ .error (.thread f) := by
    intro s₁ o₁ run part kept
    rw [run]
    refine ⟨fun s' o same => ?_, fun f same => ?_⟩
    · cases same
      exact ⟨part, kept⟩
    · cases same
  obtain ⟨site, op⟩ := i
  cases op with
  | thread op =>
      cases waits : s.loop.waiting with
      | some timeout =>
          refine failed (g := .control) ?_ fun f => WakeFault.noConfusion
          simp only [wakeStep, stepThread, waits]
      | none =>
          simp only [WakeState.callOf, waits] at quiet
          cases quiet
  | loop op =>
      cases stepped : loopStep s.loop op with
      | error f =>
          refine failed (g := .loop f) ?_ fun f' => WakeFault.noConfusion
          simp only [wakeStep, stepLoop_eq, stepped]
      | ok p =>
          simp only [WakeState.callOf, stepped] at quiet
          have asleep : s.wakeup p.2 = none := Option.map_eq_none_iff.mp quiet
          refine @moved { s with loop := p.1 } (.looped p.2) ?_ rfl rfl
          simp only [wakeStep, stepLoop_eq, stepped, asleep]
  | cthreadAlarm t wakeup arg =>
      rcases writeLoop_cases _ (.alarm t wakeup .timerWakeup) with ⟨l, run⟩ | ⟨f, run⟩
      · exact moved run rfl rfl
      · exact failed run fun f' => WakeFault.noConfusion
  | cthreadRecv w =>
      rcases writeLoop_cases _ (.setWatch w _) with ⟨l, run⟩ | ⟨f, run⟩
      · exact moved run rfl rfl
      · exact failed run fun f' => WakeFault.noConfusion
  | writeTimer t x => exact moved rfl rfl rfl
  | writeWatch w x => exact moved rfl rfl rfl

/-- A switch keeps to the rules of the interface: the thread that is called lives and is off
the chain, and the stacks have room. -/
def WakeContract : Guard WakeState (CallSite × WakeOp) WakeOutput :=
  fun tr s i => ∀ j, s.callOf i = some j →
    (activationOf (threadTrace tr)).Contract j.2 ∧ Room s.world j.1 j.2

/-- No thread that is inside the join of an unfinished thread is woken. -/
def WakeSpares (s : WakeState) (i : CallSite × WakeOp) : Prop :=
  ∀ j, s.callOf i = some j → SparesJoiners s.world j.2

def WakeAllows : Guard WakeState (CallSite × WakeOp) WakeOutput :=
  fun tr s i => WakeContract tr s i ∧ WakeSpares s i

section
variable {s₀ : WakeState}

/-- What the threads see of a run is a run of theirs. -/
theorem wakeRun_threadRun (fresh : s₀.world = World.init)
    (run : Run wakeMachine WakeAllows s₀ tr s) :
    Run threadMachine ThreadAllows World.init (threadTrace tr) s.world := by
  rw [← fresh]
  refine Run.project WakeState.world threadPart ?_ run
  intro tr s i s' o seen allowed stepped
  rw [fresh] at seen
  have joins := threadRun_joinResults seen
  cases called : s.callOf i with
  | none => exact .inl ((wakeStep_other called).1 s' o stepped)
  | some j =>
      obtain ⟨contract, room⟩ := allowed.1 j called
      have admitted := (joins.lives.rel.allows_iff joins.created).mpr
        ⟨contract, allowed.2 j called⟩
      rcases wakeStep_call called with ⟨w, r, s₁, o₁, ran, stepped₁, same, part⟩ |
        ⟨f, _, failed⟩
      · have both := stepped.symm.trans stepped₁
        cases both
        exact .inr ⟨j, r, part, ⟨admitted, room⟩, same ▸ ran⟩
      · cases stepped.symm.trans failed

/-- While no joiner is woken, every join returns what its thread exited with; and it is
exactly the wakeup of a joiner that makes the threads fail. -/
theorem wakeRun_joins (fresh : s₀.world = World.init)
    (run : Run wakeMachine WakeAllows s₀ tr s) :
    JoinsReturnCodes (threadTrace tr) ∧ ∀ i, WakeContract tr s i →
      ((∀ f, wakeStep s i ≠ .error (.thread f)) ↔ WakeSpares s i) := by
  have seen := wakeRun_threadRun fresh run
  have joins := threadRun_joinResults seen
  refine ⟨joins.returns, fun i contract => ?_⟩
  cases called : s.callOf i with
  | none =>
      refine ⟨fun _ j same => ?_, fun _ => (wakeStep_other called).2⟩
      rw [called] at same
      cases same
  | some j =>
      obtain ⟨kept, room⟩ := contract j called
      have spares : WakeSpares s i ↔ SparesJoiners s.world j.2 := by
        refine ⟨fun spares => spares j called, fun spares j' same => ?_⟩
        rw [called] at same
        cases same
        exact spares
      rw [spares]
      constructor
      · intro sound
        by_contra spoiled
        have failed := joins.lives.rel.joiner_faults kept room spoiled
        rcases wakeStep_call called with ⟨w, r, s₁, o₁, ran, _⟩ | ⟨f, ran, failed'⟩
        · cases ran.symm.trans failed
        · exact sound f failed'
      · intro spared f failed
        have admitted := (joins.lives.rel.allows_iff joins.created).mpr ⟨kept, spared⟩
        obtain ⟨w', r', ran', _⟩ := threads_track.step _ _ j joins.lives.rel ⟨admitted, room⟩
        rcases wakeStep_call called with ⟨w, r, s₁, o₁, ran, stepped, _⟩ | ⟨f', ran, _⟩
        · cases stepped.symm.trans failed
        · cases ran.symm.trans ran'

end

theorem WakeAllows.of_call (called : s.callOf i = some j)
    (contract : (activationOf (threadTrace tr)).Contract j.2) (room : Room s.world j.1 j.2)
    (spares : SparesJoiners s.world j.2) : WakeAllows tr s i := by
  refine ⟨fun j' same => ?_, fun j' same => ?_⟩
  · rw [called] at same
    cases same
    exact ⟨contract, room⟩
  · rw [called] at same
    cases same
    exact spares

theorem WakeAllows.of_quiet (quiet : s.callOf i = none) : WakeAllows tr s i := by
  refine ⟨fun j same => ?_, fun j same => ?_⟩
  · rw [quiet] at same
    cases same
  · rw [quiet] at same
    cases same

def freshWake : WakeState :=
  .init (fun _ => 0) (fun _ => 0) (fun _ => none) 0 (fun _ => ⟨none, none⟩) (fun _ => ⟨0, 0⟩)
    fun _ => ⟨0, 0⟩

/-- A thread arms a timer for itself and joins another one. -/
def armedJoiner : WakeState :=
  wakeMachine.afterAll freshWake
    [(⟨1048576, 0, 0⟩, .thread (.mainStart 64 0 4096 4096)),
      (⟨8000, 0, 0⟩, .thread (.start 128 0 16384 4096)),
      (⟨20000, 0, 0⟩, .thread (.yield 0)), (⟨8000, 0, 0⟩, .cthreadAlarm 500 0 0),
      (⟨8000, 0, 0⟩, .thread (.join 20384))]

def armedJoinerTrace : Trace (CallSite × WakeOp) WakeOutput :=
  [((⟨8000, 0, 0⟩, .thread (.join 20384)), .switched (.resumes null (.mainStart 8096) 0)),
    ((⟨8000, 0, 0⟩, .cthreadAlarm 500 0 0), .done),
    ((⟨20000, 0, 0⟩, .thread (.yield 0)), .switched (.resumes 8096 (.start 20384) 0)),
    ((⟨8000, 0, 0⟩, .thread (.start 128 0 16384 4096)),
      .switched (.resumes 20384 (.entry 128) 0)),
    ((⟨1048576, 0, 0⟩, .thread (.mainStart 64 0 4096 4096)),
      .switched (.resumes 8096 (.entry 64) 0))]

theorem armedJoiner_run : Run wakeMachine WakeAllows freshWake armedJoinerTrace armedJoiner := by
  refine .snoc (.snoc (.snoc (.snoc (.snoc .nil
    (.of_call rfl ⟨rfl, ?_, ?_⟩ ⟨World.free_of_none rfl, World.free_of_none rfl, ?_⟩
      (sparesJoiners_of_none rfl)) (Machine.step_eq ?_))
    (.of_call rfl ⟨?_, ?_, ?_⟩ ⟨World.free_of_none ?_, World.free_of_none ?_, ?_⟩
      (sparesJoiners_of_none rfl)) (Machine.step_eq ?_))
    (.of_call rfl ?_ (World.free_of_none ?_) (sparesJoiners_of_none rfl)) (Machine.step_eq ?_))
    (.of_quiet rfl) (Machine.step_eq ?_))
    (.of_call rfl ⟨?_, .inl ?_⟩ (World.free_of_none ?_) (sparesJoiners_of_none rfl))
      (Machine.step_eq ?_)
  all_goals first
    | exact List.cons_ne_nil _ _
    | rfl
    | decide +kernel

/-- The thread that is joined runs to its end before the timer fires. The upper half of the
return register is arbitrary. -/
def returnedJoin : WakeState :=
  wakeMachine.afterAll armedJoiner
    [(⟨1048576, 0, 0⟩, .thread (.call 20384 0)),
      (⟨20000, 0, 0⟩, .thread (.fnReturn 0xFFFFFFFF00000003))]

def returnedJoinTrace : Trace (CallSite × WakeOp) WakeOutput :=
  ((⟨20000, 0, 0⟩, .thread (.fnReturn 0xFFFFFFFF00000003)), .switched (.joined 8096 20384 3)) ::
    ((⟨1048576, 0, 0⟩, .thread (.call 20384 0)), .switched (.resumes 20384 .yield 0)) ::
    armedJoinerTrace

theorem returnedJoin_run :
    Run wakeMachine WakeAllows freshWake returnedJoinTrace returnedJoin := by
  have yields : armedJoiner.world.Suspended 20384 .yield := ⟨_, rfl, by decide +kernel⟩
  refine .snoc (.snoc armedJoiner_run
    (.of_call rfl ⟨?_, ?_⟩ (World.free_of_none ?_) (sparesJoiners_of_yield rfl yields))
      (Machine.step_eq ?_))
    (.of_call rfl ?_ (World.free_of_none ?_) (sparesJoiners_of_none rfl)) (Machine.step_eq ?_)
  · show (20384 : Word) ∈ (activationOf _).live
    decide +kernel
  · show (20384 : Word) ∉ (activationOf _).stack
    decide +kernel
  · rfl
  · rfl
  · exact List.cons_ne_nil _ _
  · rfl
  · rfl

theorem wakeRun_joins_returnedJoin :
    ∃ code, exitOf 20384 (threadTrace returnedJoinTrace) = some code ∧
      (3 : Int) = (code.setWidth 32).toInt :=
  (wakeRun_joins rfl returnedJoin_run).1.2 8096 20384 3 rfl

/-- The timer that a thread armed before it joined fires while the other one still runs. -/
theorem alarm_wakes_joiner :
    ∃ tr s i, Run wakeMachine WakeContract freshWake tr s ∧ WakeContract tr s i ∧
      s.world.Suspended 8096 (.join 20384) ∧
      (s.world.threads 20384).map Cthread.finished = some false ∧
      wakeStep s i = .error (.thread .assertion) := by
  refine ⟨_, _, (⟨1048576, 0, 0⟩, .loop .evloopStep), armedJoiner_run.mono fun _ _ _ => And.left,
    fun j called => ?_, ⟨_, rfl, ?_⟩, ?_, ?_⟩
  · have woken : armedJoiner.callOf (⟨1048576, 0, 0⟩, .loop .evloopStep) =
        some (⟨1048576, 0, 0⟩, .call 8096 0) := rfl
    cases woken.symm.trans called
    refine ⟨⟨?_, ?_⟩, World.free_of_none rfl⟩
    · show (8096 : Word) ∈ (activationOf _).live
      decide +kernel
    · show (8096 : Word) ∉ (activationOf _).stack
      decide +kernel
  · decide +kernel
  · decide +kernel
  · rfl

end CThread.Wake
