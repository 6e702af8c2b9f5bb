import CThread.Threads.Lifetime

/-!
When `cthread_join` returns, and what.

The code after the switch of `cthread_join` takes for granted that its thread has exited:
whoever resumes a joiner has to see to that. As long as no call resumes a thread inside the
join of an unfinished one, the assertion there holds and the join returns the low half of
the word its thread exited with. A call that does resume one breaks the assertion.
-/
namespace CThread.Threads
open Faults GuardedRuns World

/-- The word with which the thread that lives or lived at `t` last has exited. -/
def exitOf (t : Word) : Trace (CallSite × ThreadOp) ThreadOutput → Option Word
  | [] => none
  | (i, _) :: tr =>
      if i.2.creates = some t then none
      else if i.2.code ≠ none ∧ t = runner tr then i.2.code
      else exitOf t tr

/-- Every join that returns does so after its thread has exited, with the low half of what
it exited with. -/
def JoinsReturnCodes : Trace (CallSite × ThreadOp) ThreadOutput → Prop
  | [] => True
  | (i, o) :: tr => JoinsReturnCodes tr ∧ ∀ c t result, o = .joined c t result →
      ∃ code, exitOf t ((i, o) :: tr) = some code ∧ result = (code.setWidth 32).toInt

def ThreadOp.target : ThreadOp → Option Word
  | .call tgt _ | .tailcall tgt _ => some tgt
  | _ => none

/-- The thread that is called is not inside the join of an unfinished thread. -/
def SparesJoiners (w : World) (op : ThreadOp) : Prop :=
  ∀ tgt, op.target = some tgt → ∀ u k, w.Suspended tgt (.join u) → w.threads u = some k →
    k.finished = true

theorem sparesJoiners_of_none {w : World} {op : ThreadOp} (none : op.target = none) :
    SparesJoiners w op := by
  intro tgt same
  rw [none] at same
  cases same

theorem sparesJoiners_of_yield {w : World} {op : ThreadOp} {tgt : Word}
    (target : op.target = some tgt) (suspended : w.Suspended tgt .yield) :
    SparesJoiners w op := by
  intro t same u k joining _
  rw [target] at same
  cases same
  cases suspended.unique joining

namespace Activation
variable {a : Activation} {t : Word}

/-- What may be called by the rules of the interface: any unfinished thread off the chain. -/
def Contract (a : Activation) : ThreadOp → Prop
  | .call tgt _ => tgt ∈ a.live ∧ tgt ∉ a.stack
  | .tailcall tgt _ => a.stack ≠ [] ∧ tgt ∈ a.live ∧ tgt ∉ a.stack
  | op => a.Allows op

/-- A thread that is joined has been created. -/
def JoinsCreated (a : Activation) : Prop :=
  ∀ t u, a.waiting t = .join u → u ∈ a.live ∨ a.exited u ≠ none

theorem exited_step (a : Activation) (op : ThreadOp) (t : Word) :
    (a.step op).1.exited t =
      if op.creates = some t then none
      else if op.code ≠ none ∧ t = a.top then op.code
      else a.exited t := by
  have created : ∀ u, Function.update a.exited u none t =
      if some u = some t then none else a.exited t := by
    intro u
    by_cases same : t = u
    · simp [same]
    · simp [same, Ne.symm same]
  have ended : ∀ code, (a.exit code).1.exited t =
      if some code ≠ none ∧ t = a.top then some code else a.exited t := by
    intro code
    have written : (a.exit code).1.exited = Function.update a.exited a.top (some code) := by
      unfold Activation.exit
      cases a.joiner a.top <;> rfl
    rw [written]
    by_cases same : t = a.top
    · simp [same]
    · simp [same]
  cases op with
  | mainStart fn arg stack sz => exact created _
  | start fn arg stack sz => exact created _
  | call tgt data => rfl
  | tailcall tgt data => rfl
  | yield data => rfl
  | join u =>
      simp only [Activation.step]
      cases a.exited u <;> rfl
  | exit code => exact ended code
  | fnReturn rax => exact ended rax

theorem Settled.created_step (settled : a.Settled null) {op : ThreadOp}
    (created : t ∈ a.live ∨ a.exited t ≠ none) :
    t ∈ (a.step op).1.live ∨ (a.step op).1.exited t ≠ none := by
  rw [settled.live_step, exited_step]
  by_cases creates : op.creates = some t
  · exact .inl (.inl creates)
  · by_cases ending : op.code ≠ none ∧ t = a.top
    · refine .inr ?_
      rw [if_neg creates, if_pos ending]
      exact ending.1
    · rw [if_neg creates, if_neg ending]
      exact created.imp (fun live => .inr ⟨live, ending⟩) id

theorem JoinsCreated.step (joins : a.JoinsCreated) (settled : a.Settled null) {op : ThreadOp}
    (allowed : a.Allows op) : (a.step op).1.JoinsCreated := by
  have left : ∀ {a' : Activation} {p : Pending},
      (∀ u, u ∈ a.live ∨ a.exited u ≠ none → u ∈ a'.live ∨ a'.exited u ≠ none) →
        a'.waiting = Function.update a.waiting a.top p →
          (∀ u, p = .join u → u ∈ a.live ∨ a.exited u ≠ none) → a'.JoinsCreated := by
    intro a' p kept waiting target t u waits
    rw [waiting] at waits
    by_cases same : t = a.top
    · subst same
      rw [Function.update_self] at waits
      exact kept u (target u waits)
    · rw [Function.update_of_ne same] at waits
      exact kept u (joins t u waits)
  have kept : ∀ u, u ∈ a.live ∨ a.exited u ≠ none →
      u ∈ (a.step op).1.live ∨ (a.step op).1.exited u ≠ none :=
    fun u created => settled.created_step created
  have none : ∀ {p : Pending}, (∀ u, p ≠ .join u) → ∀ u, p = .join u →
      u ∈ a.live ∨ a.exited u ≠ none := fun other u same => absurd same (other u)
  have exits : ∀ code, (a.exit code).1.waiting = Function.update a.waiting a.top .exit := by
    intro code
    unfold Activation.exit
    cases a.joiner a.top <;> rfl
  cases op with
  | mainStart fn arg stack sz => exact left kept rfl (none fun _ => Pending.noConfusion)
  | start fn arg stack sz => exact left kept rfl (none fun _ => Pending.noConfusion)
  | call tgt data => exact left kept rfl (none fun _ => Pending.noConfusion)
  | tailcall tgt data => exact left kept rfl (none fun _ => Pending.noConfusion)
  | yield data => exact left kept rfl (none fun _ => Pending.noConfusion)
  | join t =>
      cases exited : a.exited t with
      | some code => simpa [Activation.step, exited] using joins
      | none =>
          refine left kept (p := .join t) (by simp [Activation.step, exited, block, pop]) ?_
          intro u same
          cases same
          exact allowed.2
  | exit code => exact left kept (exits code) (none fun _ => Pending.noConfusion)
  | fnReturn rax => exact left kept (exits rax) (none fun _ => Pending.noConfusion)

/-- The answer of a join that returns is the code of a thread that has exited. -/
theorem Allows.joined {op : ThreadOp} (allowed : a.Allows op) {c : Word} {result : Int}
    (answer : a.answer op = .joined c t result) :
    ∃ code, (a.step op).1.exited t = some code ∧ result = codeOf code := by
  have replies : ∀ tgt data, (∀ u, a.waiting tgt = .join u → a.exited u ≠ none) →
      a.reply tgt (a.waiting tgt) data = .joined c t result →
        ∃ code, a.exited t = some code ∧ result = codeOf code := by
    intro tgt data joins replied
    cases waits : a.waiting tgt with
    | join u =>
        rw [waits] at replied
        cases replied
        obtain ⟨code, exited⟩ := Option.ne_none_iff_exists'.mp (joins t waits)
        exact ⟨code, exited, by rw [exited]; rfl⟩
    | _ =>
        rw [waits] at replied
        cases replied
  have exits : ∀ code, (a.exit code).2 = .joined c t result →
      ∃ code', (a.exit code).1.exited t = some code' ∧ result = codeOf code' := by
    intro code exited
    unfold Activation.exit at exited ⊢
    cases joiner : a.joiner a.top with
    | none =>
        rw [joiner] at exited
        cases exited
    | some j =>
        rw [joiner] at exited
        cases exited
        exact ⟨code, Function.update_self .., rfl⟩
  cases op with
  | mainStart fn arg stack sz | start fn arg stack sz => cases answer
  | call tgt data => exact replies tgt data allowed.joins answer
  | tailcall tgt data => exact replies tgt data allowed.2.joins answer
  | yield data => cases answer
  | join u =>
      simp only [Activation.answer, Activation.step] at answer ⊢
      cases exited : a.exited u with
      | some code =>
          rw [exited] at answer
          cases answer
          exact ⟨code, exited, rfl⟩
      | none =>
          rw [exited] at answer
          cases answer
  | exit code => exact exits code answer
  | fnReturn rax => exact exits rax answer

end Activation

structure JoinResults (tr : Trace (CallSite × ThreadOp) ThreadOutput) (w : World) : Prop where
  lives : Lives tr w
  exits : ∀ t, exitOf t tr = (activationOf tr).exited t
  created : (activationOf tr).JoinsCreated
  returns : JoinsReturnCodes tr

theorem threadRun_joinResults {tr : Trace (CallSite × ThreadOp) ThreadOutput} {w : World}
    (run : Run threadMachine ThreadAllows World.init tr w) : JoinResults tr w := by
  induction run with
  | nil =>
      refine ⟨threadRun_lives .nil, fun t => rfl, fun t u waits => ?_, trivial⟩
      cases waits
  | @snoc tr w w' i o run allowed stepped ih =>
      obtain ⟨lives, exits, created, returns⟩ := ih
      have exits' : ∀ t, exitOf t ((i, o) :: tr) = (activationOf ((i, o) :: tr)).exited t := by
        intro t
        show _ = ((activationOf tr).step i.2).1.exited t
        rw [Activation.exited_step, exitOf, exits t, lives.runs]
      obtain ⟨w₁, o₁, stepped₁, answers, _⟩ := threads_track.step tr w i lives.rel allowed
      rw [stepped] at stepped₁
      cases stepped₁
      refine ⟨threadRun_lives (.snoc run allowed stepped), exits',
        created.step lives.rel.settled allowed.1, returns, ?_⟩
      intro c t result same
      have answer : (activationOf tr).answer i.2 = .joined c t result := answers.symm.trans same
      obtain ⟨code, exited, value⟩ := allowed.1.joined answer
      exact ⟨code, (exits' t).trans exited, value⟩

variable {w : World} {a : Activation}

theorem Tracks.finished_of_exited (rel : Tracks w a) {u : Word} {k : Cthread}
    (exited : a.exited u ≠ none) (known : w.threads u = some k) : k.finished = true := by
  obtain ⟨code, exited⟩ := Option.ne_none_iff_exists'.mp exited
  obtain ⟨d, thread, finished, _⟩ := rel.exited_thread exited
  rw [known] at thread
  cases thread
  exact finished

/-- The rules of the interface, and that a call spares the joiners, are what the stack
machine allows. -/
theorem Tracks.allows_iff (rel : Tracks w a) (created : a.JoinsCreated) {op : ThreadOp} :
    a.Allows op ↔ a.Contract op ∧ SparesJoiners w op := by
  have spares : ∀ tgt, tgt ∈ a.live → tgt ∉ a.stack →
      ((∀ u, a.waiting tgt = .join u → a.exited u ≠ none) ↔
        ∀ u k, w.Suspended tgt (.join u) → w.threads u = some k → k.finished = true) := by
    intro tgt live off
    have suspended := rel.suspended tgt (rel.settled.ne_top live off) (.inr live)
    constructor
    · intro joins u k joining known
      exact rel.finished_of_exited (joins u (suspended.unique joining)) known
    · intro finished u waits exited
      have unfinished : u ∈ a.live := (created tgt u waits).resolve_right fun done => done exited
      obtain ⟨k, known, running, _⟩ := rel.thread unfinished
      rw [waits] at suspended
      exact Bool.false_ne_true (running.symm.trans (finished u k suspended known))
  cases op with
  | call tgt data =>
      constructor
      · intro allowed
        refine ⟨⟨allowed.live, allowed.off⟩, fun t same => ?_⟩
        cases same
        exact (spares tgt allowed.live allowed.off).mp allowed.joins
      · intro ⟨⟨live, off⟩, spared⟩
        exact ⟨live, off, (spares tgt live off).mpr (spared tgt rfl)⟩
  | tailcall tgt data =>
      constructor
      · intro ⟨running, allowed⟩
        refine ⟨⟨running, allowed.live, allowed.off⟩, fun t same => ?_⟩
        cases same
        exact (spares tgt allowed.live allowed.off).mp allowed.joins
      · intro ⟨⟨running, live, off⟩, spared⟩
        exact ⟨running, live, off, (spares tgt live off).mpr (spared tgt rfl)⟩
  | _ => exact ⟨fun allowed => ⟨allowed, sparesJoiners_of_none rfl⟩, And.left⟩

theorem deliver_unfinished {c u data : Word} {k : Control} (known : w.control u = some k)
    (unfinished : k.finished = false) : deliver w ⟨c, .join u⟩ data = .error .assertion := by
  obtain ⟨d, thread, same⟩ := thread_of_control known
  subst same
  have unfinished : d.finished = false := unfinished
  simp [deliver, get_ok thread, unfinished]

/-- A call that resumes the joiner of an unfinished thread breaks the assertion. -/
theorem Tracks.joiner_faults (rel : Tracks w a) {site : CallSite} {op : ThreadOp}
    (contract : a.Contract op) (room : Room w site op) (spoiled : ¬ SparesJoiners w op) :
    threadStep w (site, op) = .error .assertion := by
  have unfinished : ∀ {u : Word} {k : Cthread} {links : Word → Option Control} {t x : Word}
      {c : Cthread}, w.threads u = some k → k.finished = false → w.threads t = some c →
        links = Function.update w.control t (some (c.control.redirect x)) →
          ∃ l, links u = some l ∧ l.finished = false := by
    intro u k links t x c known running thread same
    have link : w.control u = some k.control := by simp [World.control, known]
    by_cases here : u = t
    · subst here
      rw [known] at thread
      cases thread
      exact ⟨_, by rw [same, Function.update_self], running⟩
    · exact ⟨_, by rw [same, Function.update_of_ne here, link], running⟩
  have spoils : ∃ tgt u k, op.target = some tgt ∧ w.Suspended tgt (.join u) ∧
      w.threads u = some k ∧ k.finished = false := by
    by_contra none
    apply spoiled
    intro tgt target u k suspended known
    by_contra running
    exact none ⟨tgt, u, k, target, suspended, known, Bool.eq_false_iff.mpr running⟩
  obtain ⟨tgt, u, k, target, suspended, known, running⟩ := spoils
  cases op with
  | call t data =>
      cases target
      obtain ⟨live, off⟩ := contract
      have room : w.Free (site.rsp - 48) := room
      obtain ⟨c, thread, _⟩ := rel.thread live
      have notNull : tgt ≠ null := fun same => rel.settled.null_dead (same ▸ live)
      obtain ⟨w', run, switched⟩ := cthreadCall_ok room
        (rel.self.trans rel.running.symm) rel.known thread notNull suspended
        Pending.noConfusion data
      obtain ⟨l, link, running'⟩ := unfinished known running thread
        (switched.control.trans (control_put w tgt { c with yieldTo := w.self }))
      exact run.trans (deliver_unfinished link running')
  | tailcall t data =>
      cases target
      obtain ⟨started, live, off⟩ := contract
      have room : w.Free (site.rsp - 48) := room
      obtain ⟨c, thread, _⟩ := rel.thread live
      obtain ⟨f, source, _⟩ := rel.self_thread started
      rw [← rel.self] at source
      have notNull : tgt ≠ null := fun same => rel.settled.null_dead (same ▸ live)
      obtain ⟨w', run, switched⟩ := cthreadTailcall_ok room
        (rel.self.trans rel.running.symm) source thread notNull suspended
        Pending.noConfusion .tailcall data
      obtain ⟨l, link, running'⟩ := unfinished known running thread
        (switched.control.trans
          (control_put w tgt { c with yieldTo := f.yieldTo, caller := f.caller }))
      exact run.trans (deliver_unfinished link running')
  | _ => cases target

end CThread.Threads
