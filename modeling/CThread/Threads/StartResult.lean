import CThread.Threads.Refinement

/-!
What `cthread_start` and `cthread_main_start` return.

The value is the data word of the operation through which control first comes back to
the starter. Only `cthread_yield` carries a word of its caller there; exits and joins
carry `NULL`. So the handle of the new thread comes back exactly when it is yielded.
-/
namespace CThread.Threads
open GuardedRuns World

/-- The thread whose creation a context waits for. -/
def Pending.created : Pending → Option Word
  | .start t | .mainStart t => some t
  | _ => none

/-- Every return of `cthread_start` and `cthread_main_start` gives the new thread. -/
def StartsReturnHandles (tr : Trace (CallSite × ThreadOp) ThreadOutput) : Prop :=
  ∀ i c p v t, (i, .resumes c p v) ∈ tr → p.created = some t → v = t

/-- Control first comes back to each starter by a `cthread_yield` of the new handle. -/
def HandlesYielded (tr : Trace (CallSite × ThreadOp) ThreadOutput) : Prop :=
  ∀ i c p v t, (i, .resumes c p v) ∈ tr → p.created = some t → i.2 = .yield t

namespace Activation
variable {a : Activation} {c t v : Word} {p : Pending}

/-- Whoever waits for a creation waits for a real handle. -/
def Named (a : Activation) : Prop :=
  ∀ c t, (a.waiting c).created = some t → t ≠ null

theorem Named.update (named : a.Named) {a' : Activation}
    (waiting : a'.waiting = Function.update a.waiting a.top p)
    (real : ∀ t, p.created = some t → t ≠ null) : a'.Named := by
  intro c t creation
  rw [waiting] at creation
  by_cases same : c = a.top
  · subst same
    rw [Function.update_self] at creation
    exact real t creation
  · rw [Function.update_of_ne same] at creation
    exact named c t creation

theorem Named.exit (named : a.Named) (code : Word) : (a.exit code).1.Named := by
  unfold Activation.exit
  cases a.joiner a.top with
  | none => exact named.update rfl fun t creation => by cases creation
  | some j => exact named.update rfl fun t creation => by cases creation

theorem Named.step (named : a.Named) {op : ThreadOp} (allowed : a.Allows op) :
    (a.step op).1.Named := by
  cases op with
  | mainStart fn arg stack sz | start fn arg stack sz =>
      refine named.update rfl fun t creation => ?_
      cases creation
      exact allowed.2.1
  | call tgt data => exact named.update rfl fun t creation => by cases creation
  | tailcall tgt data => exact named.update rfl fun t creation => by cases creation
  | yield data => exact named.update rfl fun t creation => by cases creation
  | join t =>
      simp only [Activation.step]
      cases a.exited t with
      | some code => exact named
      | none => exact named.update rfl fun t creation => by cases creation
  | exit code => exact named.exit code
  | fnReturn rax => exact named.exit rax

/-- A thread that may be called does not wait for a creation. -/
theorem Settled.resumable_created (settled : a.Settled null) (resumable : a.Resumable t) :
    (a.waiting t).created = none := by
  have notNull : t ≠ null := fun same => settled.null_dead (same ▸ resumable.live)
  rcases settled.parked t resumable.live resumable.off notNull with waits | waits | ⟨u, waits⟩ <;>
    · rw [waits]
      rfl

/-- Who is called returns from the call that it waits in, and that is no creation. -/
theorem Settled.reply_created (settled : a.Settled null) (resumable : a.Resumable t)
    {data : Word} (resumed : a.reply t (a.waiting t) data = .resumes c p v) :
    p.created = none := by
  have created := settled.resumable_created resumable
  cases waits : a.waiting t with
  | join u =>
      rw [waits] at resumed
      cases resumed
  | _ =>
      rw [waits] at resumed created
      cases resumed
      exact created

theorem exit_resumes {code : Word} (named : a.Named)
    (resumed : (a.exit code).2 = .resumes c p v) (creation : p.created = some t) : v ≠ t := by
  unfold Activation.exit at resumed
  cases joiner : a.joiner a.top with
  | some j => simp [joiner] at resumed
  | none =>
      simp only [joiner, returnTo, ThreadOutput.resumes.injEq] at resumed
      obtain ⟨_, waits, value⟩ := resumed
      rw [← waits] at creation
      rw [← value]
      exact (named _ t creation).symm

/-- The operation that resumes a starter decides what the starter gets. -/
theorem answer_resumes (settled : a.Settled null) (named : a.Named) {op : ThreadOp}
    (allowed : a.Allows op) (resumed : a.answer op = .resumes c p v)
    (creation : p.created = some t) : v = t ↔ op = .yield t := by
  cases op with
  | mainStart fn arg stack sz | start fn arg stack sz =>
      cases resumed
      cases creation
  | call tgt data =>
      rw [settled.reply_created allowed resumed] at creation
      cases creation
  | tailcall tgt data =>
      rw [settled.reply_created allowed.2 resumed] at creation
      cases creation
  | yield data =>
      cases resumed
      exact ⟨fun same => by rw [same], fun same => by cases same; rfl⟩
  | join u =>
      refine ⟨fun same => ?_, fun same => by cases same⟩
      simp only [Activation.answer, Activation.step] at resumed
      cases exited : a.exited u with
      | some code => simp [exited] at resumed
      | none =>
          simp only [exited, returnTo, ThreadOutput.resumes.injEq] at resumed
          obtain ⟨_, waits, value⟩ := resumed
          rw [← waits] at creation
          exact absurd (value.trans same).symm (named _ t creation)
  | exit code =>
      exact ⟨fun same => absurd same (exit_resumes named resumed creation),
        fun same => by cases same⟩
  | fnReturn rax =>
      exact ⟨fun same => absurd same (exit_resumes named resumed creation),
        fun same => by cases same⟩

end Activation

structure StartInvariant (tr : Trace (CallSite × ThreadOp) ThreadOutput) (w : World) :
    Prop where
  rel : Tracks w (activationOf tr)
  named : (activationOf tr).Named
  exact : ∀ i c p v t, (i, .resumes c p v) ∈ tr → p.created = some t →
    (v = t ↔ i.2 = .yield t)

theorem startRun_invariant {tr : Trace (CallSite × ThreadOp) ThreadOutput} {w : World}
    (run : Run threadMachine ThreadAllows World.init tr w) : StartInvariant tr w := by
  refine Run.invariant (P := StartInvariant) ⟨init_tracks, ?_, ?_⟩ ?_ run
  · intro c t creation
    cases creation
  · intro i c p v t inside
    cases inside
  · intro tr w i w' o inv allowed stepped
    obtain ⟨w₁, o₁, stepped₁, answers, rel⟩ := threads_track.step tr w i inv.rel allowed
    rw [stepped] at stepped₁
    cases stepped₁
    refine ⟨rel, inv.named.step allowed.1, ?_⟩
    intro j c p v t inside creation
    cases inside with
    | head =>
        exact Activation.answer_resumes inv.rel.settled inv.named allowed.1 answers.symm
          creation
    | tail _ inside => exact inv.exact j c p v t inside creation

/-- In every run, with any number of joins on a thread, the starters all get the handle of the
thread they created exactly when each of them is first resumed by a yield of that handle. -/
theorem start_returns_handle_iff {tr : Trace (CallSite × ThreadOp) ThreadOutput} {w : World}
    (run : Run threadMachine ThreadAllows World.init tr w) :
    StartsReturnHandles tr ↔ HandlesYielded tr := by
  have inv := startRun_invariant run
  constructor
  · intro returns i c p v t inside creation
    exact (inv.exact i c p v t inside creation).mp (returns i c p v t inside creation)
  · intro yielded i c p v t inside creation
    exact (inv.exact i c p v t inside creation).mpr (yielded i c p v t inside creation)

/-- The main context starts a thread, which yields `data`. -/
def yielded (data : Word) : World :=
  threadMachine.afterAll World.init
    [(⟨1048576, 0, 0⟩, .mainStart 64 0 4096 4096), (⟨8000, 0, 0⟩, .yield data)]

theorem yielded_run (data : Word) :
    Run threadMachine ThreadAdmits World.init
      [((⟨8000, 0, 0⟩, .yield data), .resumes null (.mainStart 8096) data),
        ((⟨1048576, 0, 0⟩, .mainStart 64 0 4096 4096), .resumes 8096 (.entry 64) 0)]
      (yielded data) := by
  refine .snoc
    (.snoc .nil ⟨⟨rfl, ?_, ?_⟩, free_of_none rfl, free_of_none rfl, ?_⟩ (Machine.step_eq ?_))
    ⟨?_, free_of_none ?_⟩ (Machine.step_eq ?_)
  · decide +kernel
  · decide +kernel
  · decide +kernel
  · decide +kernel
  · exact List.cons_ne_nil _ _
  · show World.saved (threadMachine.after _ _) (8000 - 48) = none
    decide +kernel
  · rfl

theorem start_returns_handle_iff_yielded :
    StartsReturnHandles
      [((⟨8000, 0, 0⟩, .yield 8096), .resumes null (.mainStart 8096) 8096),
        ((⟨1048576, 0, 0⟩, .mainStart 64 0 4096 4096), .resumes 8096 (.entry 64) 0)] := by
  apply (start_returns_handle_iff (threadRun_allows (yielded_run 8096))).mpr
  intro i c p v t inside creation
  rcases List.mem_cons.mp inside with first | inside
  · cases first
    cases creation
    rfl
  · cases List.mem_singleton.mp inside
    cases creation

/-- A new thread that yields `NULL` first makes `cthread_main_start` return `NULL`. -/
theorem mainStart_returns_null :
    ∃ tr w, Run threadMachine ThreadAdmits World.init tr w ∧ ¬ StartsReturnHandles tr := by
  refine ⟨_, _, yielded_run 0, ?_⟩
  intro returns
  have same : (0 : Word) = 8096 := returns _ _ _ _ _ (.head _) rfl
  revert same
  decide

end CThread.Threads
