import CThread.Threads.Lifetime

/-!
Which joiners a thread will wake.

`cthread_join` stores the joiner in the single field `exit_to` of its target. A thread
that waits in a join is recorded there as long as nobody joins a thread whose `exit_to`
is taken; the first join that does so overwrites a record, and its owner is lost.
-/
namespace CThread.Threads
open GuardedRuns World

/-- The thread `c` has not finished and is suspended inside `cthread_join(t)`. -/
structure World.Joins (w : World) (c t : Word) : Prop where
  other : c ≠ w.running
  suspended : w.Suspended c (.join t)
  unfinished : c ∈ w.unfinished

/-- Every joiner waits for a thread that has not finished and that will wake it. -/
def JoinersRecorded (w : World) : Prop :=
  ∀ c t, w.Joins c t → ∃ k, w.threads t = some k ∧ k.finished = false ∧ k.exitTo = c

/-- A join of a thread that has not finished finds its `exit_to` empty. -/
def JoinsAlone (w : World) (op : ThreadOp) : Prop :=
  ∀ t k, op = .join t → w.threads t = some k → k.finished = false → k.exitTo = null

def SingleJoins : Guard World (CallSite × ThreadOp) ThreadOutput :=
  fun tr w i => ThreadAllows tr w i ∧ JoinsAlone w i.2

namespace Activation
variable {a : Activation} {t : Word}

/-- A second joiner takes the place of the first. -/
theorem Settled.overwritten (settled : a.Settled null) (running : a.stack ≠ []) {j : Word}
    (joiner : a.joiner t = some j) : ¬ ((a.pop (.join t)).block t a.top).Recorded null := by
  intro recorded
  obtain ⟨_, live, off, waits⟩ := settled.joined t j joiner
  have other := settled.joiner_ne_top running joiner
  have notNull : j ≠ null := fun same => settled.null_dead (same ▸ live)
  have offstack : j ∉ a.stack.tail := fun inside => off (List.mem_of_mem_tail inside)
  have waits' : ((a.pop (.join t)).block t a.top).waiting j = .join t := by
    simpa [Activation.block, Activation.pop, other] using waits
  have found := recorded j t live offstack notNull waits'
  have same : a.top = j := by simpa [Activation.block] using found
  exact other same.symm

/-- A step forgets a joiner exactly when it is a second join. -/
theorem Recorded.step_iff (recorded : a.Recorded null) (settled : a.Settled null)
    {op : ThreadOp} (allowed : a.Allows op) :
    (a.step op).1.Recorded null ↔ a.JoinsOnce op := by
  refine ⟨fun kept => ?_, recorded.step settled allowed⟩
  intro t join exited
  subst join
  cases joiner : a.joiner t with
  | none => rfl
  | some j =>
      simp only [Activation.step, exited] at kept
      exact absurd kept (settled.overwritten allowed.1 joiner)

end Activation

namespace Tracks
variable {w : World} {a : Activation} {c t : Word}

theorem joins_iff (rel : Tracks w a) :
    w.Joins c t ↔ c ∈ a.live ∧ c ∉ a.stack ∧ a.waiting c = .join t := by
  constructor
  · intro joins
    have live := rel.mem_live_iff.mpr joins.unfinished
    have other : c ≠ a.top := rel.running ▸ joins.other
    have waits := (rel.suspended c other (.inr live)).unique joins.suspended
    refine ⟨live, fun inside => ?_, waits⟩
    have pushes := rel.settled.pushed inside other
    rw [waits] at pushes
    exact pushes
  · intro ⟨live, off, waits⟩
    have other := rel.settled.ne_top live off
    refine ⟨rel.running ▸ other, ?_, rel.mem_live_iff.mp live⟩
    have suspended := rel.suspended c other (.inr live)
    rw [waits] at suspended
    exact suspended

theorem joinersRecorded_iff (rel : Tracks w a) : JoinersRecorded w ↔ a.Recorded null := by
  constructor
  · intro recorded c t live off _ waits
    obtain ⟨k, known, unfinished, exitTo⟩ := recorded c t (rel.joins_iff.mpr ⟨live, off, waits⟩)
    obtain ⟨l, found, _, joiner, _⟩ := rel.thread (rel.mem_live_iff.mpr ⟨k, known, unfinished⟩)
    rw [known] at found
    cases found
    have notNull : c ≠ null := fun same => rel.settled.null_dead (same ▸ live)
    exact Activation.joiner_eq notNull (joiner.symm.trans exitTo)
  · intro recorded c t joins
    obtain ⟨live, off, waits⟩ := rel.joins_iff.mp joins
    have notNull : c ≠ null := fun same => rel.settled.null_dead (same ▸ live)
    have joiner := recorded c t live off notNull waits
    obtain ⟨k, known, unfinished, exitTo, _⟩ := rel.thread (rel.settled.joined t c joiner).1
    refine ⟨k, known, unfinished, ?_⟩
    rw [exitTo, joiner]
    rfl

theorem joinsAlone_iff (rel : Tracks w a) {op : ThreadOp} (allowed : a.Allows op) :
    JoinsAlone w op ↔ a.JoinsOnce op := by
  constructor
  · intro alone t join exited
    subst join
    have live : t ∈ a.live := allowed.2.resolve_right fun done => done exited
    obtain ⟨k, known, unfinished, exitTo, _⟩ := rel.thread live
    exact rel.settled.unjoined (exitTo.symm.trans (alone t k rfl known unfinished))
  · intro once t k join known unfinished
    have live := rel.mem_live_iff.mpr ⟨k, known, unfinished⟩
    have joiner := once t join (rel.settled.unfinished t live)
    obtain ⟨l, found, _, exitTo, _⟩ := rel.thread live
    rw [known] at found
    cases found
    rw [exitTo, joiner]
    rfl

end Tracks

theorem joinRun_tracks {tr : Trace (CallSite × ThreadOp) ThreadOutput} {w : World}
    (run : Run threadMachine SingleJoins World.init tr w) : ActivationRel w (activationOf tr) := by
  refine Run.invariant (P := fun tr w => ActivationRel w (activationOf tr))
    init_activationRel ?_ run
  intro tr w i w' o rel admitted stepped
  obtain ⟨w₁, o₁, stepped₁, _, rel'⟩ := threads_track.step tr w i rel.toTracks admitted.1
  rw [stepped] at stepped₁
  cases stepped₁
  have once := (rel.joinsAlone_iff admitted.1.1).mp admitted.2
  exact ⟨rel', rel.recorded.step rel.settled admitted.1.1 once⟩

theorem ActivationRel.exit_wakes {w : World} {a : Activation} (rel : ActivationRel w a)
    {c code : Word} {op : ThreadOp} (joins : w.Joins c w.self) (ends : op.code = some code) :
    a.answer op = .joined c w.self (Activation.codeOf code) := by
  have joiner : a.joiner a.top = some c := by
    obtain ⟨live, off, waits⟩ := rel.joins_iff.mp joins
    have notNull : c ≠ null := fun same => rel.settled.null_dead (same ▸ live)
    have found := rel.recorded c w.self live off notNull waits
    rwa [rel.self] at found
  cases op with
  | exit _ | fnReturn _ =>
      cases ends
      simp [Activation.answer, Activation.step, Activation.exit, joiner, rel.self]
  | _ => cases ends

/-- As long as every join of an unfinished thread finds its `exit_to` empty, each thread
suspended in a join is recorded in its target, which has not finished, and the target wakes
it when it ends. The next operation keeps that exactly when it is such a join, or none. -/
theorem joinRun_keeps_joiners {tr : Trace (CallSite × ThreadOp) ThreadOutput} {w : World}
    (run : Run threadMachine SingleJoins World.init tr w) :
    JoinersRecorded w ∧
      (∀ c code site op, w.Joins c w.self → op.code = some code →
        ThreadAllows tr w (site, op) → ∃ w', threadMachine.step w (site, op) =
          .ok (w', .joined c w.self (Activation.codeOf code))) ∧
      ∀ i, ThreadAllows tr w i → ∃ w' o, threadMachine.step w i = .ok (w', o) ∧
        (JoinersRecorded w' ↔ JoinsAlone w i.2) := by
  have rel := joinRun_tracks run
  refine ⟨rel.joinersRecorded_iff.mpr rel.recorded, ?_, ?_⟩
  · intro c code site op joins ends allowed
    obtain ⟨w', o, stepped, answers, _⟩ :=
      threads_track.step tr w (site, op) rel.toTracks allowed
    have answers : o = (activationOf tr).answer op := answers
    rw [rel.exit_wakes joins ends] at answers
    subst answers
    exact ⟨w', stepped⟩
  · intro i allowed
    obtain ⟨w', o, stepped, _, rel'⟩ := threads_track.step tr w i rel.toTracks allowed
    refine ⟨w', o, stepped, ?_⟩
    rw [rel'.joinersRecorded_iff, rel.joinsAlone_iff allowed.1]
    exact rel.recorded.step_iff rel.settled allowed.1

/-- Two threads are started by a third one, and the second joins the first. -/
def joinedOnce : World :=
  threadMachine.afterAll World.init
    [(⟨1048576, 0, 0⟩, .mainStart 64 0 4096 4096), (⟨8000, 0, 0⟩, .start 128 0 16384 4096),
      (⟨20000, 0, 0⟩, .yield 0), (⟨8000, 0, 0⟩, .start 192 0 32768 4096),
      (⟨36000, 0, 0⟩, .join 20384)]

def joinedOnceTrace : Trace (CallSite × ThreadOp) ThreadOutput :=
  [((⟨36000, 0, 0⟩, .join 20384), .resumes 8096 (.start 36768) 0),
    ((⟨8000, 0, 0⟩, .start 192 0 32768 4096), .resumes 36768 (.entry 192) 0),
    ((⟨20000, 0, 0⟩, .yield 0), .resumes 8096 (.start 20384) 0),
    ((⟨8000, 0, 0⟩, .start 128 0 16384 4096), .resumes 20384 (.entry 128) 0),
    ((⟨1048576, 0, 0⟩, .mainStart 64 0 4096 4096), .resumes 8096 (.entry 64) 0)]

theorem joinsAlone_of_ne {w : World} {op : ThreadOp} (other : ∀ t, op ≠ .join t) :
    JoinsAlone w op := fun t _ join => absurd join (other t)

theorem joinsAlone_of_empty {w : World} {t : Word}
    (empty : (w.threads t).map Cthread.exitTo = some null) : JoinsAlone w (.join t) := by
  intro u k join known _
  cases join
  simpa [known] using empty

theorem joinedOnce_run : Run threadMachine SingleJoins World.init joinedOnceTrace joinedOnce := by
  refine .snoc (.snoc (.snoc (.snoc (.snoc .nil
    ⟨⟨⟨rfl, ?_, ?_⟩, free_of_none rfl, free_of_none rfl, ?_⟩, joinsAlone_of_ne ?_⟩
      (Machine.step_eq ?_))
    ⟨⟨⟨?_, ?_, ?_⟩, free_of_none ?_, free_of_none ?_, ?_⟩, joinsAlone_of_ne ?_⟩
      (Machine.step_eq ?_))
    ⟨⟨?_, free_of_none ?_⟩, joinsAlone_of_ne ?_⟩ (Machine.step_eq ?_))
    ⟨⟨⟨?_, ?_, ?_⟩, free_of_none ?_, free_of_none ?_, ?_⟩, joinsAlone_of_ne ?_⟩
      (Machine.step_eq ?_))
    ⟨⟨⟨?_, ?_⟩, free_of_none ?_⟩, ?_⟩ (Machine.step_eq ?_)
  all_goals first
    | exact fun t => ThreadOp.noConfusion
    | exact joinsAlone_of_empty (by decide +kernel)
    | exact List.cons_ne_nil _ _
    | decide +kernel

theorem joinRun_keeps_joiners_joinedOnce :
    ∃ k, joinedOnce.threads 20384 = some k ∧ k.finished = false ∧ k.exitTo = 36768 := by
  refine (joinRun_keeps_joiners joinedOnce_run).1 36768 20384 ?_
  exact ⟨by decide +kernel, ⟨_, rfl, by decide +kernel⟩, _, rfl, by decide +kernel⟩

/-- The first thread joins it as well, and the main context lets it exit. -/
def joinedTwice : World :=
  threadMachine.afterAll joinedOnce
    [(⟨8000, 0, 0⟩, .join 20384), (⟨1048576, 0, 0⟩, .call 20384 0), (⟨20000, 0, 0⟩, .exit 7)]

def joinedTwiceTrace : Trace (CallSite × ThreadOp) ThreadOutput :=
  ((⟨20000, 0, 0⟩, .exit 7), .joined 8096 20384 7) ::
    ((⟨1048576, 0, 0⟩, .call 20384 0), .resumes 20384 .yield 0) ::
    ((⟨8000, 0, 0⟩, .join 20384), .resumes null (.mainStart 8096) 0) :: joinedOnceTrace

theorem joinedTwice_run :
    Run threadMachine ThreadAllows World.init joinedTwiceTrace joinedTwice := by
  refine .snoc (.snoc (.snoc (joinedOnce_run.mono fun _ _ _ allowed => allowed.1)
    ⟨⟨?_, ?_⟩, free_of_none ?_⟩ (Machine.step_eq ?_))
    ⟨⟨?_, ?_, fun u waits => ?_⟩, free_of_none ?_⟩ (Machine.step_eq ?_))
    ⟨?_, free_of_none ?_⟩ (Machine.step_eq ?_)
  · exact List.cons_ne_nil _ _
  · exact .inl (by decide +kernel)
  · decide +kernel
  · decide +kernel
  · show (20384 : Word) ∈ (activationOf _).live
    decide +kernel
  · show (20384 : Word) ∉ (activationOf _).stack
    decide +kernel
  · have yields : (activationOf (joinedTwiceTrace.drop 2)).waiting 20384 = .yield := by
      decide +kernel
    exact absurd (yields.symm.trans waits) Pending.noConfusion
  · decide +kernel
  · decide +kernel
  · exact List.cons_ne_nil _ _
  · decide +kernel
  · decide +kernel

/-- A joiner is lost: the thread it waits for has exited, and only the other one woke. -/
theorem second_join_loses_first :
    ∃ tr w, Run threadMachine ThreadAllows World.init tr w ∧ w.Joins 36768 20384 ∧
      (w.threads 20384).map Cthread.finished = some true ∧ ¬ JoinersRecorded w := by
  have joins : joinedTwice.Joins 36768 20384 :=
    ⟨by decide +kernel, ⟨_, rfl, by decide +kernel⟩, _, rfl, by decide +kernel⟩
  have finished : (joinedTwice.threads 20384).map Cthread.finished = some true := by
    decide +kernel
  refine ⟨_, _, joinedTwice_run, joins, finished, fun recorded => ?_⟩
  obtain ⟨k, known, unfinished, _⟩ := recorded 36768 20384 joins
  rw [known] at finished
  exact absurd (unfinished.symm.trans (Option.some.inj finished)) Bool.false_ne_true

end CThread.Threads
