import CThread.Threads.Refinement
import Mathlib.Data.Set.Card

/-!
Births and ends of threads, and the counter of `cthread_main`.

A history says which context runs, which threads were created and which have ended. A
thread is created while nobody lives under its handle, and it ends itself while it runs;
so the ends never outnumber the births, `num_threads` counts the difference, and nothing
but an unfinished thread or the main context ever runs.
-/
namespace CThread.Threads
open GuardedRuns World

def ThreadOutput.context : ThreadOutput → Word
  | .resumes c _ _ => c
  | .joined c _ _ => c

/-- The context that runs after a history. -/
def runner : Trace (CallSite × ThreadOp) ThreadOutput → Word
  | [] => null
  | (_, o) :: _ => o.context

/-- The thread that an operation creates. -/
def ThreadOp.creates : ThreadOp → Option Word
  | .mainStart _ _ stack sz | .start _ _ stack sz => some (cthreadAddress stack sz)
  | _ => none

/-- The code with which an operation ends its caller. -/
def ThreadOp.code : ThreadOp → Option Word
  | .exit code => some code
  | .fnReturn rax => some rax
  | _ => none

def births (t : Word) : Trace (CallSite × ThreadOp) ThreadOutput → Nat
  | [] => 0
  | (i, _) :: tr => births t tr + if i.2.creates = some t then 1 else 0

def ends (t : Word) : Trace (CallSite × ThreadOp) ThreadOutput → Nat
  | [] => 0
  | (i, _) :: tr => ends t tr + if i.2.code ≠ none ∧ runner tr = t then 1 else 0

/-- The threads that were created and have not finished. -/
def World.unfinished (w : World) : Set Word :=
  {t | ∃ k, w.threads t = some k ∧ k.finished = false}

namespace Activation
variable {a : Activation} {t : Word}

theorem answer_context (a : Activation) (op : ThreadOp) :
    (a.answer op).context = (a.step op).1.top := by
  have exits : ∀ code, (a.exit code).2.context = (a.exit code).1.top := by
    intro code
    unfold Activation.exit
    cases a.joiner a.top <;> rfl
  have replies : ∀ c p v, (a.reply c p v).context = c := by
    intro c p v
    cases p <;> rfl
  cases op with
  | mainStart fn arg stack sz => rfl
  | start fn arg stack sz => rfl
  | call tgt data => exact replies ..
  | tailcall tgt data => exact replies ..
  | yield data => rfl
  | join t =>
      simp only [Activation.answer, Activation.step]
      cases a.exited t <;> rfl
  | exit code => exact exits code
  | fnReturn rax => exact exits rax

theorem Settled.live_exit (settled : a.Settled null) (code : Word) :
    t ∈ (a.exit code).1.live ↔ t ∈ a.live ∧ t ≠ a.top := by
  have erased : t ∈ a.live.erase a.top ↔ t ∈ a.live ∧ t ≠ a.top := by
    rw [settled.live_nodup.mem_erase_iff, and_comm]
  unfold Activation.exit
  cases a.joiner a.top <;> exact erased

/-- A thread lives from its creation until it ends itself. -/
theorem Settled.live_step (settled : a.Settled null) (op : ThreadOp) :
    t ∈ (a.step op).1.live ↔
      op.creates = some t ∨ (t ∈ a.live ∧ ¬ (op.code ≠ none ∧ t = a.top)) := by
  have created : ∀ u, t ∈ u :: a.live ↔
      some u = some t ∨ (t ∈ a.live ∧ ¬ ((none : Option Word) ≠ none ∧ t = a.top)) := by
    intro u
    simp [eq_comm]
  have kept : t ∈ a.live ↔
      none = some t ∨ (t ∈ a.live ∧ ¬ ((none : Option Word) ≠ none ∧ t = a.top)) := by
    simp
  have ended : ∀ code : Word, t ∈ (a.exit code).1.live ↔
      none = some t ∨ (t ∈ a.live ∧ ¬ (some code ≠ none ∧ t = a.top)) := by
    intro code
    simpa using settled.live_exit code
  cases op with
  | mainStart fn arg stack sz => exact created _
  | start fn arg stack sz => exact created _
  | call tgt data => exact kept
  | tailcall tgt data => exact kept
  | yield data => exact kept
  | join u =>
      simp only [Activation.step]
      cases a.exited u <;> exact kept
  | exit code => exact ended code
  | fnReturn rax => exact ended rax

/-- The running context that ends is alive, and a thread that is created is not. -/
theorem Allows.fresh {op : ThreadOp} (allowed : a.Allows op) (creates : op.creates = some t) :
    t ∉ a.live := by
  cases op with
  | mainStart fn arg stack sz | start fn arg stack sz =>
      cases creates
      exact allowed.2.2
  | _ => cases creates

theorem Allows.running {op : ThreadOp} (allowed : a.Allows op) (ends : op.code ≠ none) :
    a.stack ≠ [] := by
  cases op with
  | exit code | fnReturn rax => exact allowed
  | _ => exact absurd rfl ends

theorem creates_or_ends (op : ThreadOp) : op.creates = none ∨ op.code = none := by
  cases op <;> simp [ThreadOp.creates, ThreadOp.code]

/-- A thread has ended as often as it was created, or once less while it lives. -/
structure Balanced (a : Activation) (tr : Trace (CallSite × ThreadOp) ThreadOutput)
    (t : Word) : Prop where
  alive : t ∈ a.live → births t tr = ends t tr + 1
  dead : t ∉ a.live → births t tr = ends t tr

theorem Balanced.step {tr : Trace (CallSite × ThreadOp) ThreadOutput}
    (balanced : a.Balanced tr t) (settled : a.Settled null) (runs : runner tr = a.top)
    {i : CallSite × ThreadOp} (allowed : a.Allows i.2) (o : ThreadOutput) :
    (a.step i.2).1.Balanced ((i, o) :: tr) t := by
  have living := settled.live_step (t := t) i.2
  by_cases creates : i.2.creates = some t
  · have code : i.2.code = none :=
      (creates_or_ends i.2).resolve_left (by rw [creates]; exact Option.some_ne_none t)
    have before := balanced.dead (allowed.fresh creates)
    refine ⟨fun _ => ?_, fun dead => absurd (living.mpr (.inl creates)) dead⟩
    simp [births, ends, creates, code, before]
  · by_cases ending : i.2.code ≠ none ∧ t = a.top
    · obtain ⟨code, same⟩ := ending
      subst same
      have before := balanced.alive (settled.onstack _ (top_mem (allowed.running code)))
      refine ⟨fun live => ?_, fun _ => ?_⟩
      · exact absurd ⟨code, rfl⟩ ((living.mp live).resolve_left creates).2
      · simp [births, ends, creates, code, before, runs]
    · have quiet : ¬ (i.2.code ≠ none ∧ runner tr = t) := by
        rw [runs, eq_comm (a := a.top)]
        exact ending
      have same : t ∈ (a.step i.2).1.live ↔ t ∈ a.live := by
        rw [living]
        simp only [creates, ending, not_false_eq_true, and_true, false_or]
      refine ⟨fun live => ?_, fun dead => ?_⟩
      · simpa [births, ends, creates, quiet] using balanced.alive (same.mp live)
      · simpa [births, ends, creates, quiet] using
          balanced.dead fun live => dead (same.mpr live)

end Activation

/-- What a history and the state it leads to have in common. -/
structure Lives (tr : Trace (CallSite × ThreadOp) ThreadOutput) (w : World) : Prop where
  rel : Tracks w (activationOf tr)
  runs : runner tr = (activationOf tr).top
  balanced : ∀ t, (activationOf tr).Balanced tr t

theorem threadRun_lives {tr : Trace (CallSite × ThreadOp) ThreadOutput} {w : World}
    (run : Run threadMachine ThreadAllows World.init tr w) : Lives tr w := by
  refine Run.invariant (P := Lives) ⟨init_tracks, rfl, fun t => ?_⟩ ?_ run
  · exact ⟨fun live => absurd live List.not_mem_nil, fun _ => rfl⟩
  · intro tr w i w' o lives allowed stepped
    obtain ⟨w₁, o₁, stepped₁, answers, rel⟩ := threads_track.step tr w i lives.rel allowed
    rw [stepped] at stepped₁
    cases stepped₁
    have answers : o = (activationOf tr).answer i.2 := answers
    refine ⟨rel, ?_, fun t => (lives.balanced t).step lives.rel.settled lives.runs allowed.1 o⟩
    show o.context = _
    rw [answers]
    exact Activation.answer_context _ _

namespace Tracks
variable {w : World} {a : Activation} {t : Word}

/-- A thread that has not finished is one of the live ones. -/
theorem mem_live_iff (rel : Tracks w a) : t ∈ a.live ↔ t ∈ w.unfinished := by
  constructor
  · intro live
    obtain ⟨k, known, unfinished, _⟩ := rel.thread live
    exact ⟨k, known, unfinished⟩
  · intro ⟨k, known, unfinished⟩
    have link : w.control t = some k.control := by simp [World.control, known]
    have created := rel.agrees.created t (by rw [link]; exact Option.some_ne_none _)
    refine created.resolve_right fun exited => ?_
    obtain ⟨code, exited⟩ := Option.ne_none_iff_exists'.mp exited
    obtain ⟨d, found, finished, _⟩ := rel.exited_thread exited
    rw [known] at found
    cases found
    exact Bool.false_ne_true (unfinished.symm.trans finished)

theorem unfinished_ncard (rel : Tracks w a) : w.unfinished.ncard = a.live.length := by
  have same : w.unfinished = (a.live.toFinset : Set Word) := by
    ext t
    rw [← rel.mem_live_iff, Finset.mem_coe, List.mem_toFinset]
  rw [same, Set.ncard_coe_finset, List.toFinset_card_of_nodup rel.settled.live_nodup]

theorem running_cases (rel : Tracks w a) : w.running = null ∨ w.running ∈ w.unfinished := by
  rw [rel.running]
  cases stack : a.stack with
  | nil => exact .inl (by simp [Activation.top, stack])
  | cons t rest =>
      have running : a.stack ≠ [] := by simp [stack]
      exact .inr (rel.mem_live_iff.mp (rel.settled.onstack _ (Activation.top_mem running)))

theorem may_exit (rel : Tracks w a) (running : w.running ≠ null) : a.stack ≠ [] := by
  intro empty
  apply running
  rw [rel.running]
  simp [Activation.top, empty]

end Tracks

namespace Activation
variable {a : Activation} {t : Word} {op : ThreadOp}

/-- A thread stops to live only by its own end. -/
theorem Settled.dies_iff (settled : a.Settled null) (allowed : a.Allows op) :
    t ∈ a.live ∧ t ∉ (a.step op).1.live ↔ op.code ≠ none ∧ t = a.top := by
  rw [settled.live_step]
  constructor
  · intro ⟨live, gone⟩
    by_contra ending
    exact gone (.inr ⟨live, ending⟩)
  · intro ⟨code, same⟩
    subst same
    have live := settled.onstack _ (top_mem (allowed.running code))
    refine ⟨live, fun kept => ?_⟩
    cases kept with
    | inl creates => exact allowed.fresh creates live
    | inr kept => exact kept.2 ⟨code, rfl⟩

end Activation

/-- In every run `num_threads` is the number of threads that have not finished, so that it
is zero exactly when all have. Only such a thread or the main context runs, and that thread
may always exit. A thread ends only by its own hand, while it runs, and once for each time
it was created. -/
theorem threadRun_counts {tr : Trace (CallSite × ThreadOp) ThreadOutput} {w : World}
    (run : Run threadMachine ThreadAllows World.init tr w) :
    w.main.numThreads = w.unfinished.ncard ∧
      (w.main.numThreads = 0 ↔ ∀ t k, w.threads t = some k → k.finished = true) ∧
      w.running = runner tr ∧ (w.running = null ∨ w.running ∈ w.unfinished) ∧
      (∀ t, (t ∈ w.unfinished → births t tr = ends t tr + 1) ∧
        (t ∉ w.unfinished → births t tr = ends t tr)) ∧
      (∀ site code, w.running ≠ null → w.Free (site.rsp - 48) →
        ThreadAllows tr w (site, .exit code)) ∧
      ∀ i, ThreadAllows tr w i → ∃ w' o, threadMachine.step w i = .ok (w', o) ∧
        ∀ t, t ∈ w.unfinished ∧ t ∉ w'.unfinished ↔ i.2.code ≠ none ∧ t = w.running := by
  obtain ⟨rel, runs, balanced⟩ := threadRun_lives run
  have count : w.main.numThreads = w.unfinished.ncard := by
    rw [rel.unfinished_ncard, rel.numThreads]
  refine ⟨count, ?_, rel.running.trans runs.symm, rel.running_cases, ?_, ?_, ?_⟩
  · rw [rel.numThreads, Int.natCast_eq_zero, List.length_eq_zero_iff,
      List.eq_nil_iff_forall_not_mem]
    constructor
    · intro none t k known
      by_contra unfinished
      exact none t (rel.mem_live_iff.mpr ⟨k, known, Bool.eq_false_iff.mpr unfinished⟩)
    · intro all t live
      obtain ⟨k, known, unfinished⟩ := rel.mem_live_iff.mp live
      exact Bool.false_ne_true (unfinished.symm.trans (all t k known))
  · intro t
    rw [← rel.mem_live_iff]
    exact ⟨(balanced t).alive, (balanced t).dead⟩
  · intro site code running room
    exact ⟨rel.may_exit running, room⟩
  · intro i allowed
    obtain ⟨w', o, stepped, _, rel'⟩ := threads_track.step tr w i rel allowed
    refine ⟨w', o, stepped, fun t => ?_⟩
    rw [← rel.mem_live_iff, ← rel'.mem_live_iff, rel.running]
    exact rel.settled.dies_iff allowed.1

/-- How many threads a history creates. -/
def creations (tr : Trace (CallSite × ThreadOp) ThreadOutput) : Nat :=
  tr.countP fun e => e.1.2.creates.isSome

theorem Activation.live_length_step (a : Activation) (op : ThreadOp) :
    (a.step op).1.live.length ≤ a.live.length + if op.creates.isSome = true then 1 else 0 := by
  have ended : ∀ code, (a.exit code).1.live.length ≤ a.live.length + 0 := by
    intro code
    have shorter : (a.live.erase a.top).length ≤ a.live.length := List.length_erase_le
    unfold Activation.exit
    cases a.joiner a.top <;> exact shorter
  cases op with
  | mainStart | start => exact Nat.le_refl _
  | call | tailcall | yield => exact Nat.le_refl _
  | join t =>
      simp only [Activation.step]
      cases a.exited t <;> exact Nat.le_refl _
  | exit code => exact ended code
  | fnReturn rax => exact ended rax

/-- In every run `num_threads` is between zero and the number of threads created so far, so that
an `int` holds it as long as fewer than `2 ^ 31` threads are created. -/
theorem threadRun_numThreads_range {tr : Trace (CallSite × ThreadOp) ThreadOutput} {w : World}
    (run : Run threadMachine ThreadAllows World.init tr w) :
    0 ≤ w.main.numThreads ∧ w.main.numThreads ≤ creations tr := by
  have counted : (activationOf tr).live.length ≤ creations tr := by
    refine Run.invariant
      (P := fun tr _ => (activationOf tr).live.length ≤ creations tr) (Nat.le_refl 0) ?_ run
    intro tr w i w' o le _ _
    have step := (activationOf tr).live_length_step i.2
    have next : creations ((i, o) :: tr) =
        creations tr + if i.2.creates.isSome = true then 1 else 0 := List.countP_cons
    rw [next]
    exact step.trans (Nat.add_le_add_right le _)
  rw [(threadRun_lives run).rel.numThreads]
  exact ⟨Int.natCast_nonneg _, Int.ofNat_le.mpr counted⟩

/-- A thread that another one has joined exits with a caller below it. -/
theorem threadRun_counts_handover :
    handover.main.numThreads = 1 ∧ handover.unfinished.ncard = 1 := by
  have count := (threadRun_counts (threadRun_allows handover_run)).1
  have one : handover.main.numThreads = 1 := by decide +kernel
  refine ⟨one, ?_⟩
  rw [one] at count
  exact (Int.ofNat.inj count).symm

end CThread.Threads
