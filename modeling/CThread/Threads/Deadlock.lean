import CThread.Threads.Joiners
import CThread.Lib.WaitsFor

/-!
Threads that join each other.

The joins of a world are a waits-for graph. While `exit_to` of nobody is overwritten it has
one edge out of each joiner and at most one into each thread, so a joiner either waits in the
end for a thread outside of every join, or lies on a cycle of joins. Only the thread that it
joins can take a joiner out of its join, so nothing breaks a cycle.
-/
namespace CThread.Threads
open GuardedRuns World WaitsFor Relator

namespace Activation
variable {a : Activation} {c t : Word}

/-- `c` waits in a join of `t`, off the chain. -/
structure Joining (a : Activation) (c t : Word) : Prop where
  live : c ∈ a.live
  off : c ∉ a.stack
  waits : a.waiting c = .join t

theorem Joining.recorded (joins : a.Joining c t) (settled : a.Settled null)
    (recorded : a.Recorded null) : a.joiner t = some c :=
  recorded c t joins.live joins.off (fun same => settled.null_dead (same ▸ joins.live)) joins.waits

/-- The caller leaves in a call, and `c` is not the thread that runs instead. -/
theorem Joining.leave (joins : a.Joining c t) (settled : a.Settled null) {a' : Activation}
    {p : Pending} (waiting : a'.waiting = Function.update a.waiting a.top p)
    (live : c ∈ a'.live) (off : c ∉ a'.stack) : a'.Joining c t := by
  refine ⟨live, off, ?_⟩
  rw [waiting, Function.update_of_ne (settled.ne_top joins.live joins.off)]
  exact joins.waits

theorem Joining.exit (joins : a.Joining c t) (settled : a.Settled null) (idle : t ≠ a.top)
    (code : Word) : (a.exit code).1.Joining c t := by
  have live : c ∈ a.live.erase a.top :=
    (List.mem_erase_of_ne (settled.ne_top joins.live joins.off)).mpr joins.live
  have off : c ∉ a.stack.tail := fun inside => joins.off (List.mem_of_mem_tail inside)
  unfold Activation.exit
  cases joiner : a.joiner a.top with
  | none => exact joins.leave (p := .exit) settled rfl live off
  | some j =>
      refine joins.leave (p := .exit) settled rfl live fun inside => ?_
      cases inside with
      | head =>
          have waits := (settled.joined a.top _ joiner).2.2.2
          rw [joins.waits] at waits
          cases waits
          exact idle rfl
      | tail _ inside => exact off inside

/-- As long as the thread it joins does not run, nothing takes `c` out of its join. -/
theorem Joining.step (joins : a.Joining c t) (settled : a.Settled null)
    (recorded : a.Recorded null) (idle : t ≠ a.top) {op : ThreadOp} (allowed : a.Allows op) :
    (a.step op).1.Joining c t := by
  have off : c ∉ a.stack.tail := fun inside => joins.off (List.mem_of_mem_tail inside)
  have spawned : ∀ u p, a.Fresh u → ((a.spawn u).push u p).Joining c t := by
    intro u p fresh
    refine joins.leave settled rfl (.tail _ joins.live) fun inside => ?_
    cases inside with
    | head => exact fresh.2 joins.live
    | tail _ inside => exact joins.off inside
  have other : ∀ u, a.Resumable u → c ≠ u := fun u resumable same => by
    subst same
    exact resumable.joins t joins.waits
      (settled.unfinished t (settled.joined t c (joins.recorded settled recorded)).1)
  cases op with
  | mainStart fn arg stack sz => exact spawned _ _ allowed.2
  | start fn arg stack sz => exact spawned _ _ allowed.2
  | call tgt data =>
      refine joins.leave (p := .call) settled rfl joins.live fun inside => ?_
      cases inside with
      | head => exact other _ allowed rfl
      | tail _ inside => exact joins.off inside
  | tailcall tgt data =>
      refine joins.leave (p := .tailcall) settled rfl joins.live fun inside => ?_
      cases inside with
      | head => exact other _ allowed.2 rfl
      | tail _ inside => exact off inside
  | yield data => exact joins.leave (p := .yield) settled rfl joins.live off
  | join u =>
      simp only [Activation.step]
      cases a.exited u with
      | some code => exact joins
      | none => exact joins.leave (p := .join u) settled rfl joins.live off
  | exit code => exact joins.exit settled idle code
  | fnReturn rax => exact joins.exit settled idle rax

end Activation

namespace Tracks
variable {w : World} {a : Activation} {c t : Word}

theorem joining_iff (rel : Tracks w a) : w.Joins c t ↔ a.Joining c t :=
  rel.joins_iff.trans ⟨fun ⟨live, off, waits⟩ => ⟨live, off, waits⟩,
    fun joins => ⟨joins.live, joins.off, joins.waits⟩⟩

theorem joins_functional (rel : Tracks w a) : RightUnique w.Joins := by
  intro c t u first second
  have same := (rel.joining_iff.mp first).waits.symm.trans (rel.joining_iff.mp second).waits
  cases same
  rfl

theorem unfinished_finite (rel : Tracks w a) : w.unfinished.Finite :=
  a.live.finite_toSet.subset fun _ unfinished => rel.mem_live_iff.mpr unfinished

end Tracks

namespace ActivationRel
variable {w w' : World} {a a' : Activation} {c t : Word}

theorem joiner_eq (rel : ActivationRel w a) (joins : w.Joins c t) : a.joiner t = some c :=
  (rel.joining_iff.mp joins).recorded rel.settled rel.recorded

theorem joins_injective (rel : ActivationRel w a) : LeftUnique w.Joins := fun _ _ _ first second =>
  Option.some.inj ((rel.joiner_eq first).symm.trans (rel.joiner_eq second))

theorem joined_unfinished (rel : ActivationRel w a) (joins : w.Joins c t) : t ∈ w.unfinished :=
  rel.mem_live_iff.mp (rel.settled.joined t c (rel.joiner_eq joins)).1

/-- A thread on a cycle of joins joins one that waits in a join too. -/
theorem deadlock_step (rel : ActivationRel w a) {op : ThreadOp} (allowed : a.Allows op)
    (rel' : Tracks w' (a.step op).1) (dead : Deadlocked w.Joins c) : Deadlocked w'.Joins c := by
  refine dead.lasts rel.joins_functional fun b d dead step => ?_
  obtain ⟨e, next⟩ := (dead.next rel.joins_functional step).waits
  have target := rel.joining_iff.mp next
  exact rel'.joining_iff.mpr ((rel.joining_iff.mp step).step rel.settled rel.recorded
    (rel.settled.ne_top target.live target.off) allowed)

end ActivationRel

variable {tr later : Trace (CallSite × ThreadOp) ThreadOutput} {w w' : World} {c : Word}

/-- The guard that no thread is joined by two is one that lets each join find it alone. -/
theorem threadRun_singleJoins (run : Run threadMachine ThreadAdmits World.init tr w) :
    Run threadMachine SingleJoins World.init tr w := by
  induction run with
  | nil => exact .nil
  | snoc run admitted stepped ih =>
      have rel := (threads_refine.run init_activationRel run).2
      obtain ⟨allowed, once⟩ := rel.formed.allows admitted.1
      exact .snoc ih ⟨⟨allowed, admitted.2⟩, (rel.joinsAlone_iff allowed).mpr once⟩ stepped

theorem joinRun_deadlocked (run : Run threadMachine SingleJoins World.init tr w)
    (dead : Deadlocked w.Joins c)
    (run' : Run threadMachine SingleJoins World.init (later ++ tr) w') :
    Deadlocked w'.Joins c := by
  refine run.lasts (P := fun w => Deadlocked w.Joins c) ?_ dead run'
  intro tr w i w' o run dead admitted stepped
  have rel := joinRun_tracks run
  obtain ⟨w₁, o₁, stepped₁, _, rel'⟩ := threads_track.step tr w i rel.toTracks admitted.1
  rw [stepped] at stepped₁
  cases stepped₁
  exact rel.deadlock_step admitted.1.1 rel' dead

/-- In every state that is reached while each join finds its thread unjoined, a thread that
has not finished either waits, through a chain of joins, for one that has not finished and is
in no join, or it lies on a cycle of joins, and not both. What lies on a cycle lies on it in
all later states of the run, whatever the other threads do: it does not run again, and
`num_threads` does not get to zero. -/
theorem joinRun_deadlocks (run : Run threadMachine SingleJoins World.init tr w)
    (unfinished : c ∈ w.unfinished) :
    Xor (Deadlocked w.Joins c) (∃ t, t ∈ w.unfinished ∧ LeadsTo w.Joins c t) ∧
      (Deadlocked w.Joins c → ∀ later w',
        Run threadMachine SingleJoins World.init (later ++ tr) w' →
          Deadlocked w'.Joins c ∧ w'.running ≠ c ∧ 0 < w'.main.numThreads) := by
  have rel := joinRun_tracks run
  refine ⟨?_, fun dead later w' run' => ?_⟩
  · rcases deadlocked_or_leads rel.unfinished_finite
      (fun _ _ _ joins => rel.joined_unfinished joins) rel.joins_injective unfinished with
      dead | ⟨t, there, leads⟩
    · exact .inl ⟨dead, fun ⟨t, _, leads⟩ => dead.not_leads rel.joins_functional leads⟩
    · exact .inr ⟨⟨t, there, leads⟩, fun dead => dead.not_leads rel.joins_functional leads⟩
  · have dead' := joinRun_deadlocked run dead run'
    have rel' := joinRun_tracks run'
    obtain ⟨t, joins⟩ := dead'.waits
    refine ⟨dead', joins.other.symm, ?_⟩
    rw [rel'.numThreads]
    exact Int.natCast_pos.mpr (List.length_pos_of_mem (rel'.joining_iff.mp joins).live)

/-- Two threads that the main context starts join each other. -/
def embrace : World :=
  threadMachine.afterAll World.init
    [(⟨1048576, 0, 0⟩, .mainStart 64 0 4096 4096), (⟨8000, 0, 0⟩, .yield 0),
      (⟨1048576, 0, 0⟩, .mainStart 128 0 16384 4096), (⟨20000, 0, 0⟩, .join 8096),
      (⟨1048576, 0, 0⟩, .call 8096 0), (⟨8000, 0, 0⟩, .join 20384)]

def embraceTrace : Trace (CallSite × ThreadOp) ThreadOutput :=
  [((⟨8000, 0, 0⟩, .join 20384), .resumes null .call 0),
    ((⟨1048576, 0, 0⟩, .call 8096 0), .resumes 8096 .yield 0),
    ((⟨20000, 0, 0⟩, .join 8096), .resumes null (.mainStart 20384) 0),
    ((⟨1048576, 0, 0⟩, .mainStart 128 0 16384 4096), .resumes 20384 (.entry 128) 0),
    ((⟨8000, 0, 0⟩, .yield 0), .resumes null (.mainStart 8096) 0),
    ((⟨1048576, 0, 0⟩, .mainStart 64 0 4096 4096), .resumes 8096 (.entry 64) 0)]

theorem embrace_yields : (activationOf (embraceTrace.drop 2)).waiting 8096 = .yield := by
  decide +kernel

theorem embrace_run : Run threadMachine SingleJoins World.init embraceTrace embrace := by
  refine .snoc (.snoc (.snoc (.snoc (.snoc (.snoc .nil
    ⟨⟨⟨rfl, ?_, ?_⟩, free_of_none rfl, free_of_none rfl, ?_⟩, joinsAlone_of_ne ?_⟩
      (Machine.step_eq ?_))
    ⟨⟨?_, free_of_none ?_⟩, joinsAlone_of_ne ?_⟩ (Machine.step_eq ?_))
    ⟨⟨⟨?_, ?_, ?_⟩, free_of_none ?_, free_of_none ?_, ?_⟩, joinsAlone_of_ne ?_⟩
      (Machine.step_eq ?_))
    ⟨⟨⟨?_, ?_⟩, free_of_none ?_⟩, ?_⟩ (Machine.step_eq ?_))
    ⟨⟨⟨?_, ?_, fun u waits => absurd (embrace_yields.symm.trans waits) Pending.noConfusion⟩,
      free_of_none ?_⟩, joinsAlone_of_ne ?_⟩ (Machine.step_eq ?_))
    ⟨⟨⟨?_, ?_⟩, free_of_none ?_⟩, ?_⟩ (Machine.step_eq ?_)
  all_goals first
    | exact fun t => ThreadOp.noConfusion
    | exact joinsAlone_of_empty (by decide +kernel)
    | exact List.cons_ne_nil _ _
    | decide +kernel

theorem joinRun_deadlocks_embrace : Deadlocked embrace.Joins 8096 ∧
    embrace.running ≠ 8096 ∧ 0 < embrace.main.numThreads := by
  have first : embrace.Joins 8096 20384 :=
    ⟨by decide +kernel, ⟨_, rfl, by decide +kernel⟩, _, rfl, by decide +kernel⟩
  have second : embrace.Joins 20384 8096 :=
    ⟨by decide +kernel, ⟨_, rfl, by decide +kernel⟩, _, rfl, by decide +kernel⟩
  exact (joinRun_deadlocks embrace_run first.unfinished).2 (.tail (.single first) second) []
    embrace embrace_run

end CThread.Threads
