import CThread.Threads.Activation
import CThread.Threads.Switch

/-!
The C code refines the activation-stack machine.

The `yield_to` chain from `cthread_self()` spells the stack, every suspended context has
exactly the frame it left, and `exit_to` names the last joiner. `Tracks` is that relation for
any number of joins on a thread, and `ActivationRel` the one for runs that forget no joiner.
`Prepared` is `Tracks` right before a switch, about the abstract state after it.
-/
namespace CThread.Threads
open Faults GuardedRuns World

/-- Following `yield_to` from `p` gives `l` and ends at `NULL`. -/
def Spells (links : Word → Option Control) : Word → List Word → Prop
  | p, [] => p = null
  | p, t :: rest => p = t ∧ ∃ k, links t = some k ∧ Spells links k.yieldTo rest

theorem Spells.head {links : Word → Option Control} {p : Word} {l : List Word}
    (spells : Spells links p l) : p = l.headD null := by
  cases l with
  | nil => exact spells
  | cons t rest => exact spells.1

theorem Spells.update {links : Word → Option Control} {t : Word} {k : Option Control}
    {p : Word} {l : List Word} (spells : Spells links p l) (off : t ∉ l) :
    Spells (Function.update links t k) p l := by
  induction l generalizing p with
  | nil => exact spells
  | cons u rest ih =>
      obtain ⟨same, link, known, tail⟩ := spells
      have ne : u ≠ t := fun same => off (same ▸ .head _)
      refine ⟨same, link, by rw [Function.update_of_ne ne, known], ?_⟩
      exact ih tail fun inside => off (.tail _ inside)

/-- A rewritten thread with the same `yield_to` spells the same chain. -/
theorem Spells.update_same {links : Word → Option Control} {t : Word} {old new : Control}
    (known : links t = some old) (yieldTo : new.yieldTo = old.yieldTo) {p : Word}
    {l : List Word} (spells : Spells links p l) :
    Spells (Function.update links t (some new)) p l := by
  induction l generalizing p with
  | nil => exact spells
  | cons u rest ih =>
      obtain ⟨same, link, found, tail⟩ := spells
      refine ⟨same, ?_⟩
      by_cases here : u = t
      · subst here
        rw [known] at found
        cases found
        exact ⟨new, Function.update_self .., by rw [yieldTo]; exact ih tail⟩
      · exact ⟨link, by rw [Function.update_of_ne here, found], ih tail⟩

/-- The threads are in the state the abstract machine says. -/
structure Agrees (links : Word → Option Control) (a : Activation) : Prop where
  live : ∀ t, t ∈ a.live → ∃ k, links t = some k ∧ k.finished = false ∧
    k.exitTo = (a.joiner t).getD null ∧ k.exitData = null
  exited : ∀ t code, a.exited t = some code →
    ∃ k, links t = some k ∧ k.finished = true ∧ k.exitCode = code
  created : ∀ t, links t ≠ none → t ∈ a.live ∨ a.exited t ≠ none

/-- A thread that is written was created before. -/
theorem Agrees.created_update {links : Word → Option Control} {a : Activation}
    (agrees : Agrees links a) {t : Word} (known : links t ≠ none) {k : Option Control} :
    ∀ u, Function.update links t k u ≠ none → u ∈ a.live ∨ a.exited u ≠ none := by
  intro u found
  by_cases same : u = t
  · subst same
    exact agrees.created u known
  · rw [Function.update_of_ne same] at found
    exact agrees.created u found

theorem Agrees.redirect {links : Word → Option Control} {a : Activation}
    (agrees : Agrees links a) {t : Word} {k : Control} (known : links t = some k) (x : Word) :
    Agrees (Function.update links t (some (k.redirect x))) a where
  live u inside := by
    obtain ⟨l, found, rest⟩ := agrees.live u inside
    by_cases same : u = t
    · subst same
      rw [known] at found
      cases found
      exact ⟨_, Function.update_self .., rest⟩
    · exact ⟨l, by rw [Function.update_of_ne same, found], rest⟩
  exited u code done := by
    obtain ⟨l, found, rest⟩ := agrees.exited u code done
    by_cases same : u = t
    · subst same
      rw [known] at found
      cases found
      exact ⟨_, Function.update_self .., rest⟩
    · exact ⟨l, by rw [Function.update_of_ne same, found], rest⟩
  created := agrees.created_update (by rw [known]; exact Option.some_ne_none k)

theorem Agrees.same {links : Word → Option Control} {a a' : Activation}
    (agrees : Agrees links a) (live : a'.live = a.live) (exited : a'.exited = a.exited)
    (joiner : a'.joiner = a.joiner) : Agrees links a' where
  live t inside := by
    rw [joiner]
    exact agrees.live t (live ▸ inside)
  exited t code done := agrees.exited t code (exited ▸ done)
  created t found := by
    rw [live, exited]
    exact agrees.created t found

structure Tracks (w : World) (a : Activation) : Prop where
  settled : a.Settled null
  running : w.running = a.top
  self : w.self = a.top
  chain : Spells w.control a.top a.stack
  agrees : Agrees w.control a
  suspended : ∀ c, c ≠ a.top → c = null ∨ c ∈ a.live → w.Suspended c (a.waiting c)
  numThreads : w.main.numThreads = a.live.length

structure ActivationRel (w : World) (a : Activation) : Prop extends Tracks w a where
  recorded : a.Recorded null

theorem ActivationRel.formed {w : World} {a : Activation} (rel : ActivationRel w a) :
    a.WellFormed null :=
  ⟨rel.settled, rel.recorded⟩

/-- The world `w`, about to switch, is one switch short of `a`. -/
structure Prepared (w : World) (a : Activation) (p : Pending) : Prop where
  settled : a.Settled null
  self : w.self = a.top
  chain : Spells w.control a.top a.stack
  agrees : Agrees w.control a
  suspended : ∀ c, c ≠ a.top → c = null ∨ c ∈ a.live →
    (c = w.running ∧ a.waiting c = p) ∨ (c ≠ w.running ∧ w.Suspended c (a.waiting c))
  numThreads : w.main.numThreads = a.live.length

theorem Switched.rel {w w' : World} {a : Activation} {p : Pending}
    (switched : Switched w w' p a.top) (prepared : Prepared w a p) : Tracks w' a where
  settled := prepared.settled
  running := switched.running
  self := switched.self.trans prepared.self
  chain := switched.control.symm ▸ prepared.chain
  agrees := switched.control.symm ▸ prepared.agrees
  suspended c other alive := by
    cases prepared.suspended c other alive with
    | inl source =>
        rw [source.2, source.1]
        exact switched.suspended
    | inr rest =>
        exact switched.kept c _ rest.1 other (prepared.settled.alive other alive) rest.2
  numThreads := switched.numThreads.trans prepared.numThreads

/-- The first statement of a resumed `cthread_join`. -/
theorem Tracks.clear {w : World} {a : Activation} (rel : Tracks w a) {t : Word}
    {c : Cthread} (thread : w.threads t = some c) (dead : t ∉ a.live) :
    Tracks (w.put t { c with exitTo := null }) a where
  settled := rel.settled
  running := rel.running
  self := rel.self
  chain := by
    rw [control_put]
    exact rel.chain.update fun inside => dead (rel.settled.onstack t inside)
  agrees := by
    have link : w.control t = some c.control := by simp [World.control, thread]
    rw [control_put]
    refine ⟨?_, ?_, rel.agrees.created_update (by rw [link]; exact Option.some_ne_none _)⟩
    · intro u inside
      obtain ⟨k, known, rest⟩ := rel.agrees.live u inside
      have ne : u ≠ t := fun same => dead (same ▸ inside)
      exact ⟨k, by rw [Function.update_of_ne ne, known], rest⟩
    · intro u code exited
      obtain ⟨k, known, rest⟩ := rel.agrees.exited u code exited
      by_cases same : u = t
      · subst same
        rw [link] at known
        cases known
        exact ⟨_, Function.update_self .., rest⟩
      · exact ⟨k, by rw [Function.update_of_ne same, known], rest⟩
  suspended u other alive := (rel.suspended u other alive).put thread rfl
  numThreads := rel.numThreads

theorem Tracks.exited_thread {w : World} {a : Activation} (rel : Tracks w a) {t code : Word}
    (exited : a.exited t = some code) : ∃ c, w.threads t = some c ∧ c.finished = true ∧
      exitResult c = Activation.codeOf code := by
  obtain ⟨k, known, finished, exitCode⟩ := rel.agrees.exited t code exited
  obtain ⟨c, thread, same⟩ := World.thread_of_control known
  subst same
  exact ⟨c, thread, finished, congrArg Activation.codeOf exitCode⟩

/-- A resumed context that may return from its call does so. -/
theorem Tracks.deliver {w : World} {a : Activation} (rel : Tracks w a) {c : Word} {p : Pending}
    (alive : p ≠ .exit) (joins : ∀ u, p = .join u → a.exited u ≠ none) (data : Word) :
    ∃ w', deliver w ⟨c, p⟩ data = .ok (w', a.reply c p data) ∧ Tracks w' a := by
  by_cases join : ∃ u, p = .join u
  · obtain ⟨u, same⟩ := join
    subst same
    obtain ⟨code, exited⟩ := Option.ne_none_iff_exists'.mp (joins u rfl)
    obtain ⟨t, thread, finished, value⟩ := rel.exited_thread exited
    have dead : u ∉ a.live := by
      intro inside
      rw [rel.settled.unfinished u inside] at exited
      cases exited
    refine ⟨_, ?_, rel.clear thread dead⟩
    rw [deliver_join thread finished, value]
    simp [Activation.reply, exited]
  · have enters : ∀ u, p ≠ .join u := fun u same => join ⟨u, same⟩
    refine ⟨w, ?_, rel⟩
    rw [deliver_pushes enters alive]
    cases p with
    | join u => exact absurd rfl (enters u)
    | _ => rfl

/-- The frame of a new thread overlays none that will be resumed. -/
theorem World.Suspended.prepare {w : World} {t c fn x : Word} {q : Pending}
    (suspended : w.Suspended c q) (below : w.Free (t - 64)) (other : c ≠ t) (waits : q ≠ .exit) :
    (setThread ((prepareThread w t fn).put t { zeroedThread t with yieldTo := x }) t).Suspended
      c q := by
  obtain ⟨sp, slot, saved⟩ := suspended
  have notEntry : sp ≠ t - 64 := below.ne saved waits
  refine ⟨sp, ?_, ?_⟩
  · simpa [World.slot, setThread, World.put, prepareThread, other] using slot
  · show Function.update w.saved (t - 64) _ sp = _
    rw [Function.update_of_ne notEntry, saved]

namespace Tracks
variable {w : World} {a : Activation} {site : CallSite} {t : Word}

theorem thread (rel : Tracks w a) (live : t ∈ a.live) :
    ∃ c, w.threads t = some c ∧ c.finished = false ∧ c.exitTo = (a.joiner t).getD null ∧
      c.exitData = null := by
  obtain ⟨k, known, rest⟩ := rel.agrees.live t live
  obtain ⟨c, found, same⟩ := thread_of_control known
  subst same
  exact ⟨c, found, rest⟩

theorem self_thread (rel : Tracks w a) (running : a.stack ≠ []) :
    ∃ c, w.threads a.top = some c ∧ Spells w.control c.yieldTo a.stack.tail := by
  have chain := rel.chain
  rw [Activation.stack_eq running] at chain
  obtain ⟨_, k, known, tail⟩ := chain
  obtain ⟨c, found, same⟩ := thread_of_control known
  subst same
  exact ⟨c, found, tail⟩

theorem known (rel : Tracks w a) (ne : w.self ≠ null) :
    ∃ c, w.threads w.self = some c := by
  rw [rel.self] at ne ⊢
  have running : a.stack ≠ [] := by
    intro empty
    exact ne (by simp [Activation.top, empty])
  obtain ⟨c, found, _⟩ := rel.self_thread running
  exact ⟨c, found⟩

theorem self_ne_null (rel : Tracks w a) (running : a.stack ≠ []) : w.self ≠ null := by
  intro same
  rw [rel.self] at same
  exact rel.settled.null_dead (same ▸ rel.settled.onstack _ (Activation.top_mem running))

theorem resumable_alive (rel : Tracks w a) (resumable : a.Resumable t) :
    a.waiting t ≠ .exit :=
  rel.settled.alive (rel.settled.ne_top resumable.live resumable.off) (.inr resumable.live)

/-- The context below the top waits in a call that pushed. -/
theorem below_waits (rel : Tracks w a) (running : a.stack ≠ []) :
    w.Suspended a.below (a.waiting a.below) ∧ a.below ≠ a.top ∧
      (∀ u, a.waiting a.below ≠ .join u) ∧ a.waiting a.below ≠ .exit := by
  have inside := Activation.below_mem running
  have ne : a.below ≠ a.top := fun same => rel.settled.top_fresh (same ▸ inside)
  have alive : a.below = null ∨ a.below ∈ a.live := by
    rw [Activation.chain_tail running] at inside
    cases List.mem_append.mp inside with
    | inl inside => exact .inr (rel.settled.onstack _ (List.mem_of_mem_tail inside))
    | inr bottom => exact .inl (List.mem_singleton.mp bottom)
  have pushes := rel.settled.pushes _ inside
  refine ⟨rel.suspended _ ne alive, ne, ?_, ?_⟩
  · intro u waits
    rw [waits] at pushes
    exact pushes
  · intro waits
    rw [waits] at pushes
    exact pushes

/-- The contexts that wait after the top has left in `p`. -/
theorem leave (rel : Tracks w a) {w₁ : World} {a' : Activation} {p : Pending}
    (frames : ∀ c q, c ≠ a'.top → q ≠ .exit → w.Suspended c q → w₁.Suspended c q)
    (running : w₁.running = w.running)
    (waiting : a'.waiting = Function.update a.waiting a.top p)
    (live : ∀ c, c ∈ a'.live → c ≠ a'.top → c ∈ a.live) :
    ∀ c, c ≠ a'.top → c = null ∨ c ∈ a'.live →
      (c = w₁.running ∧ a'.waiting c = p) ∨
        (c ≠ w₁.running ∧ w₁.Suspended c (a'.waiting c)) := by
  intro c other alive
  rw [running, rel.running, waiting]
  by_cases same : c = a.top
  · subst same
    exact .inl ⟨rfl, Function.update_self ..⟩
  · refine .inr ⟨same, ?_⟩
    rw [Function.update_of_ne same]
    have alive : c = null ∨ c ∈ a.live := by
      cases alive with
      | inl bottom => exact .inl bottom
      | inr inside => exact .inr (live c inside other)
    exact frames c _ other (rel.settled.alive same alive) (rel.suspended c same alive)

theorem call_refines (rel : Tracks w a) (room : w.Free (site.rsp - 48))
    (resumable : a.Resumable t) (data : Word) :
    ∃ w', cthreadCall w site t data = .ok (w', a.answer (.call t data)) ∧
      Tracks w' (a.push t .call) := by
  obtain ⟨c, thread, _⟩ := rel.thread resumable.live
  have notNull : t ≠ null := fun same => rel.settled.null_dead (same ▸ resumable.live)
  have notTop := rel.settled.ne_top resumable.live resumable.off
  have target := rel.suspended t notTop (.inr resumable.live)
  have alive := rel.resumable_alive resumable
  obtain ⟨w', run, switched⟩ := cthreadCall_ok room
    (rel.self.trans rel.running.symm) rel.known thread notNull target alive data
  have link : w.control t = some c.control := by simp [World.control, thread]
  have links : (setThread (w.put t { c with yieldTo := w.self }) t).control =
      Function.update w.control t (some (c.control.redirect w.self)) :=
    control_put w t _
  have rel' : Tracks w' (a.push t .call) := by
    refine Switched.rel (a := a.push t .call) switched
      ⟨rel.settled.step (show a.Allows (.call t data) from resumable), rfl, ?_, ?_, ?_,
        rel.numThreads⟩
    · rw [links]
      refine ⟨rfl, _, Function.update_self .., ?_⟩
      rw [rel.self]
      exact rel.chain.update resumable.off
    · rw [links]
      exact (rel.agrees.redirect link _).same rfl rfl rfl
    · exact rel.leave (fun c q _ _ suspended => suspended.put thread rfl) rfl rfl
        fun c inside _ => inside
  rw [run]
  exact rel'.deliver alive resumable.joins data

theorem tailcall_refines (rel : Tracks w a) (room : w.Free (site.rsp - 48))
    (running : a.stack ≠ []) (resumable : a.Resumable t) (data : Word) :
    ∃ w', cthreadTailcall w site .tailcall t data = .ok (w', a.answer (.tailcall t data)) ∧
      Tracks w' (a.replace t .tailcall) := by
  obtain ⟨c, thread, _⟩ := rel.thread resumable.live
  obtain ⟨f, source, tail⟩ := rel.self_thread running
  have notNull : t ≠ null := fun same => rel.settled.null_dead (same ▸ resumable.live)
  have notTop := rel.settled.ne_top resumable.live resumable.off
  have target := rel.suspended t notTop (.inr resumable.live)
  have alive := rel.resumable_alive resumable
  rw [← rel.self] at source
  obtain ⟨w', run, switched⟩ := cthreadTailcall_ok room
    (rel.self.trans rel.running.symm) source thread notNull target alive .tailcall data
  have link : w.control t = some c.control := by simp [World.control, thread]
  have links : (setThread (w.put t { c with yieldTo := f.yieldTo, caller := f.caller }) t).control =
      Function.update w.control t (some (c.control.redirect f.yieldTo)) :=
    control_put w t _
  have rel' : Tracks w' (a.replace t .tailcall) := by
    refine Switched.rel (a := a.replace t .tailcall) switched
      ⟨rel.settled.step (show a.Allows (.tailcall t data) from ⟨running, resumable⟩), rfl, ?_, ?_,
        ?_, rel.numThreads⟩
    · rw [links]
      refine ⟨rfl, _, Function.update_self .., ?_⟩
      exact tail.update fun inside => resumable.off (List.mem_of_mem_tail inside)
    · rw [links]
      exact (rel.agrees.redirect link _).same rfl rfl rfl
    · exact rel.leave (fun c q _ _ suspended => suspended.put thread rfl) rfl rfl
        fun c inside _ => inside
  rw [run]
  exact rel'.deliver alive resumable.joins data

theorem yield_refines (rel : Tracks w a) (room : w.Free (site.rsp - 48))
    (running : a.stack ≠ []) (data : Word) :
    ∃ w', cthreadYield w site data = .ok (w', a.returnTo a.below data) ∧
      Tracks w' (a.pop .yield) := by
  obtain ⟨f, source, tail⟩ := rel.self_thread running
  have next : f.yieldTo = a.below := tail.head
  obtain ⟨target, _, enters, alive⟩ := rel.below_waits running
  rw [← rel.self] at source
  rw [← next] at target enters alive
  obtain ⟨w', run, switched⟩ := doYield_ok room
    (rel.self.trans rel.running.symm) source target alive .yield data
  rw [deliver_pushes enters alive] at run
  have top : f.yieldTo = (a.pop .yield).top := next
  have resumed : Switched (setThread w f.yieldTo) w' .yield (a.pop .yield).top :=
    next ▸ switched
  refine ⟨w', by rw [← next]; exact run, resumed.rel
    ⟨rel.settled.step (show a.Allows (.yield data) from running), top, top ▸ tail,
      rel.agrees.same rfl rfl rfl, ?_, rel.numThreads⟩⟩
  exact rel.leave (fun c q _ _ suspended => suspended) rfl rfl fun c inside _ => inside

/-- The links after `t->exit_to = c`, with the top about to wait for `t`. -/
theorem block_agrees (rel : Tracks w a) {k : Control} (known : w.control t ≠ none)
    (exited : a.exited t = none)
    (finished : k.finished = false) (exitTo : k.exitTo = a.top) (exitData : k.exitData = null) :
    Agrees (Function.update w.control t (some k)) ((a.pop (.join t)).block t a.top) where
  live u inside := by
    by_cases same : u = t
    · subst same
      refine ⟨_, Function.update_self .., finished, ?_, exitData⟩
      simp [Activation.block, exitTo]
    · obtain ⟨l, known, rest⟩ := rel.agrees.live u inside
      refine ⟨l, by rw [Function.update_of_ne same, known], ?_⟩
      simpa [Activation.block, Activation.pop, same] using rest
  exited u code done := by
    have ne : u ≠ t := by
      intro same
      rw [same] at done
      exact absurd (exited.symm.trans done) (Option.some_ne_none code).symm
    obtain ⟨l, known, rest⟩ := rel.agrees.exited u code done
    exact ⟨l, by rw [Function.update_of_ne ne, known], rest⟩
  created := rel.agrees.created_update known

theorem join_refines (rel : Tracks w a) (room : w.Free (site.rsp - 48))
    (allowed : a.Allows (.join t)) :
    ∃ w', cthreadJoin w site t = .ok (w', (a.step (.join t)).2) ∧
      Tracks w' (a.step (.join t)).1 := by
  have settled := rel.settled.step allowed
  obtain ⟨running, created⟩ := allowed
  have caller := rel.self_ne_null running
  cases exited : a.exited t with
  | some code =>
      obtain ⟨c, thread, finished, result⟩ := rel.exited_thread exited
      refine ⟨w, ?_, ?_⟩
      · simp only [cthreadJoin, if_neg caller, get_ok thread, ok_bind, finished, if_true,
          pure_eq_ok, Activation.step, exited, result]
        rw [rel.self]
      · simpa [Activation.step, exited] using rel
  | none =>
      have live : t ∈ a.live := created.resolve_right fun done => done exited
      obtain ⟨c, thread, finished, _, exitData⟩ := rel.thread live
      obtain ⟨f, source, tail⟩ := rel.self_thread running
      have next : f.yieldTo = a.below := tail.head
      obtain ⟨target, _, enters, alive⟩ := rel.below_waits running
      rw [← next] at target enters alive
      -- A thread that joins itself yields with its own `exit_to` written.
      obtain ⟨f', source', yieldTo⟩ : ∃ f', (w.put t { c with exitTo := w.self }).threads w.self =
          some f' ∧ f'.yieldTo = f.yieldTo := by
        rw [rel.self]
        by_cases itself : a.top = t
        · subst itself
          rw [source] at thread
          cases thread
          exact ⟨_, Function.update_self .., rfl⟩
        · exact ⟨f, (Function.update_of_ne itself ..).trans source, rfl⟩
      have target' : (w.put t { c with exitTo := w.self }).Suspended f.yieldTo
          (a.waiting f.yieldTo) := target.put thread rfl
      rw [← yieldTo] at target' alive
      obtain ⟨w', run, switched⟩ := doYield_ok (w := w.put t { c with exitTo := w.self })
        room (rel.self.trans rel.running.symm) source' target' alive (.join t) null
      rw [yieldTo] at run switched alive
      rw [deliver_pushes enters alive] at run
      have link : w.control t = some c.control := by simp [World.control, thread]
      have links := control_put w t { c with exitTo := w.self }
      have step : a.step (.join t) =
          ((a.pop (.join t)).block t a.top, a.returnTo a.below null) := by
        simp [Activation.step, exited]
      rw [step] at settled ⊢
      have resumed : Switched (setThread (w.put t { c with exitTo := w.self }) f.yieldTo) w'
          (.join t) ((a.pop (.join t)).block t a.top).top := next ▸ switched
      refine ⟨w', ?_, resumed.rel ⟨settled, next, ?_, ?_, ?_, rel.numThreads⟩⟩
      · simpa [cthreadJoin, caller, get_ok thread, finished, Activation.returnTo, ← next]
          using run
      · have same : ((a.pop (.join t)).block t a.top).top = f.yieldTo := next.symm
        rw [same]
        show Spells (w.put t _).control _ _
        rw [links]
        exact tail.update_same link (by rfl)
      · show Agrees (w.put t _).control _
        rw [links]
        exact rel.block_agrees (by rw [link]; exact Option.some_ne_none _) exited finished
          rel.self exitData
      · exact rel.leave (fun c q _ _ suspended => suspended.put thread rfl) rfl rfl
          fun c inside _ => inside

/-- The links after the assignments of `cthread_exit`. -/
theorem retire_agrees (rel : Tracks w a) {c : Cthread} (known : w.control a.top ≠ none)
    (code : Word) {a' : Activation} (live : a'.live = a.live.erase a.top)
    (exited : a'.exited = Function.update a.exited a.top (some code))
    (joiner : ∀ u, u ≠ a.top → a'.joiner u = a.joiner u) :
    Agrees (retire w c code).control a' := by
  have links : (retire w c code).control =
      Function.update w.control a.top
        (some ({ c with finished := true, exitCode := code } : Cthread).control) := by
    rw [← rel.self]
    exact control_put w w.self _
  rw [links]
  refine ⟨?_, ?_, ?_⟩
  · intro u inside
    rw [live] at inside
    have ne : u ≠ a.top := fun same => rel.settled.live_nodup.not_mem_erase (same ▸ inside)
    obtain ⟨k, known, rest⟩ := rel.agrees.live u (List.mem_of_mem_erase inside)
    exact ⟨k, by rw [Function.update_of_ne ne, known], by rw [joiner u ne]; exact rest⟩
  · intro u result done
    rw [exited] at done
    by_cases same : u = a.top
    · subst same
      rw [Function.update_self] at done
      cases done
      exact ⟨_, Function.update_self .., rfl, rfl⟩
    · rw [Function.update_of_ne same] at done
      obtain ⟨k, known, rest⟩ := rel.agrees.exited u result done
      exact ⟨k, by rw [Function.update_of_ne same, known], rest⟩
  · intro u found
    rw [live, exited]
    by_cases same : u = a.top
    · subst same
      exact .inr (by simp)
    · rw [Function.update_of_ne same, List.mem_erase_of_ne same]
      exact rel.agrees.created_update known u found

/-- The running thread after its last assignments, before it leaves. -/
structure Retires (w : World) (a : Activation) (c : Cthread) (code : Word) : Prop where
  caller : w.self ≠ null
  thread : w.threads w.self = some c
  known : w.control a.top ≠ none
  finished : c.finished = false
  exitTo : c.exitTo = (a.joiner a.top).getD null
  exitData : c.exitData = null
  count : (retire w c code).main.numThreads = ((a.live.erase a.top).length : Int)
  source : (retire w c code).threads w.self = some { c with finished := true, exitCode := code }
  tail : Spells (retire w c code).control c.yieldTo a.stack.tail
  frames : ∀ u q, w.Suspended u q → (retire w c code).Suspended u q

theorem retires (rel : Tracks w a) (running : a.stack ≠ []) (code : Word) :
    ∃ c, Retires w a c code := by
  have alive := rel.settled.onstack _ (Activation.top_mem running)
  obtain ⟨c, thread, finished, exitTo, exitData⟩ := rel.thread alive
  obtain ⟨f, source, tail⟩ := rel.self_thread running
  rw [thread] at source
  cases source
  have link : w.control a.top = some c.control := by simp [World.control, thread]
  have links : (retire w c code).control =
      Function.update w.control a.top
        (some ({ c with finished := true, exitCode := code } : Cthread).control) := by
    rw [← rel.self]
    exact control_put w w.self _
  rw [← rel.self] at thread
  refine ⟨c, rel.self_ne_null running, thread, by rw [link]; exact Option.some_ne_none _,
    finished, exitTo, exitData, ?_, ?_, ?_, ?_⟩
  · have positive : 0 < a.live.length := List.length_pos_of_mem alive
    rw [List.length_erase_of_mem alive]
    show w.main.numThreads - 1 = _
    rw [rel.numThreads]
    omega
  · simp [retire, put]
  · rw [links]
    exact tail.update_same link (by rfl)
  · exact fun u q suspended => suspended.put thread rfl

/-- Nobody joins the thread that exits. -/
theorem exit_alone_refines (rel : Tracks w a) (room : w.Free (site.rsp - 48))
    (running : a.stack ≠ []) (code : Word) (joiner : a.joiner a.top = none) :
    ∃ w', cthreadExit w site code = .ok (w', (a.exit code).2) ∧
      Tracks w' (a.exit code).1 := by
  have settled := Activation.exit_settled rel.settled running code
  obtain ⟨c, retires⟩ := rel.retires running code
  have next : c.yieldTo = a.below := retires.tail.head
  obtain ⟨target, _, enters, survives⟩ := rel.below_waits running
  rw [← next] at target enters survives
  obtain ⟨w', run, switched⟩ := doYield_ok (w := retire w c code) room
    (rel.self.trans rel.running.symm) retires.source (retires.frames _ _ target) survives
    .exit null
  rw [deliver_pushes enters survives] at run
  have step : a.exit code = ((a.pop .exit).finish a.top code, a.returnTo a.below null) := by
    simp [Activation.exit, joiner]
  rw [step] at settled ⊢
  have nobody : c.exitTo = null := by
    rw [retires.exitTo, joiner]
    rfl
  have resumed : Switched (setThread (retire w c code) c.yieldTo) w' .exit
      ((a.pop .exit).finish a.top code).top := next ▸ switched
  refine ⟨w', ?_, resumed.rel ⟨settled, next, ?_, ?_, ?_, retires.count⟩⟩
  · simpa [cthreadExit, retires.caller, get_ok retires.thread, retires.finished, nobody,
      Activation.returnTo, ← next] using run
  · have same : ((a.pop .exit).finish a.top code).top = c.yieldTo := next.symm
    rw [same]
    exact retires.tail
  · exact rel.retire_agrees retires.known code rfl rfl fun u _ => rfl
  · exact rel.leave (fun u q _ _ => retires.frames u q) rfl rfl
      fun u inside _ => List.mem_of_mem_erase inside

/-- The joiner takes the place of the thread that exits. -/
theorem exit_joined_refines (rel : Tracks w a) (room : w.Free (site.rsp - 48))
    (running : a.stack ≠ []) (code : Word) {j : Word} (joiner : a.joiner a.top = some j) :
    ∃ w', cthreadExit w site code = .ok (w', (a.exit code).2) ∧
      Tracks w' (a.exit code).1 := by
  have settled := Activation.exit_settled rel.settled running code
  obtain ⟨c, retires⟩ := rel.retires running code
  obtain ⟨_, live, off, waits⟩ := rel.settled.joined a.top j joiner
  have other : j ≠ a.top := rel.settled.joiner_ne_top running joiner
  have notNull : j ≠ null := fun same => rel.settled.null_dead (same ▸ live)
  have target := rel.suspended j other (.inr live)
  rw [waits] at target
  obtain ⟨d, thread, _⟩ := rel.thread live
  have thread' : (retire w c code).threads j = some d := by
    have ne : j ≠ w.self := by
      rw [rel.self]
      exact other
    simpa [retire, put, ne] using thread
  obtain ⟨w', run, switched⟩ := cthreadTailcall_ok (w := retire w c code) room
    (rel.self.trans rel.running.symm) retires.source thread' notNull
    (retires.frames _ _ target) Pending.noConfusion .exit null
  have step : a.exit code = (((a.release a.top).replace j .exit).finish a.top code,
      .joined j a.top (Activation.codeOf code)) := by
    simp [Activation.exit, joiner]
  rw [step] at settled ⊢
  have somebody : c.exitTo = j := by
    rw [retires.exitTo, joiner]
    rfl
  have link : (retire w c code).control j = some d.control := by
    simp [World.control, thread']
  have links := control_put (retire w c code) j
    { d with yieldTo := c.yieldTo, caller := c.caller }
  have rel' : Tracks w' (((a.release a.top).replace j .exit).finish a.top code) := by
    refine Switched.rel (a := ((a.release a.top).replace j .exit).finish a.top code) switched
      ⟨settled, rfl, ?_, ?_, ?_, retires.count⟩
    · show Spells (put _ _ _).control _ _
      rw [links]
      refine ⟨rfl, _, Function.update_self .., ?_⟩
      exact retires.tail.update fun inside => off (List.mem_of_mem_tail inside)
    · show Agrees (put _ _ _).control _
      rw [links]
      refine Agrees.redirect (rel.retire_agrees retires.known code rfl rfl ?_) link _
      intro u ne
      simp [Activation.release, Activation.replace, Activation.finish, ne]
    · exact rel.leave (fun u q _ _ suspended => (retires.frames u q suspended).put thread' rfl)
        rfl rfl fun u inside _ => List.mem_of_mem_erase inside
  have done : (((a.release a.top).replace j .exit).finish a.top code).exited a.top =
      some code := Function.update_self ..
  obtain ⟨w'', delivered, rel''⟩ := rel'.deliver (c := j) (p := .join a.top)
    Pending.noConfusion (fun u same => by cases same; rw [done]; exact Option.some_ne_none _) null
  rw [delivered] at run
  refine ⟨w'', ?_, rel''⟩
  simpa [cthreadExit, retires.caller, get_ok retires.thread, retires.finished, somebody, notNull,
    retires.exitData, Activation.reply, done] using run

theorem exit_refines (rel : Tracks w a) (room : w.Free (site.rsp - 48))
    (running : a.stack ≠ []) (code : Word) :
    ∃ w', cthreadExit w site code = .ok (w', (a.exit code).2) ∧
      Tracks w' (a.exit code).1 := by
  cases joiner : a.joiner a.top with
  | none => exact rel.exit_alone_refines room running code joiner
  | some j => exact rel.exit_joined_refines room running code joiner

/-- The links of a new thread, about to run. -/
theorem spawn_agrees (rel : Tracks w a) (fresh : a.Fresh t) {k : Control} {p : Pending}
    (unfinished : k.finished = false) (nobody : k.exitTo = null) (noData : k.exitData = null) :
    Agrees (Function.update w.control t (some k)) ((a.spawn t).push t p) where
  live u inside := by
    cases inside with
    | head =>
        refine ⟨_, Function.update_self .., unfinished, ?_, noData⟩
        cases joiner : a.joiner t with
        | none => simp [Activation.push, Activation.spawn, joiner, nobody]
        | some j => exact absurd (rel.settled.joined t j joiner).1 fresh.2
    | tail _ inside =>
        have ne : u ≠ t := fun same => fresh.2 (same ▸ inside)
        obtain ⟨l, found, rest⟩ := rel.agrees.live u inside
        exact ⟨l, by rw [Function.update_of_ne ne, found], rest⟩
  exited u code done := by
    have ne : u ≠ t := by
      intro same
      subst same
      simp [Activation.push, Activation.spawn] at done
    have done : a.exited u = some code := by
      simpa [Activation.push, Activation.spawn, ne] using done
    obtain ⟨l, found, rest⟩ := rel.agrees.exited u code done
    exact ⟨l, by rw [Function.update_of_ne ne, found], rest⟩
  created u found := by
    by_cases same : u = t
    · subst same
      exact .inl (.head _)
    · rw [Function.update_of_ne same] at found
      have done : ((a.spawn t).push t p).exited u = a.exited u := Function.update_of_ne same ..
      rw [done]
      exact (rel.agrees.created u found).imp (List.mem_cons_of_mem t) id

/-- Thread creation and the first switch into the new thread. -/
theorem launch_refines (rel : Tracks w a) (room : w.Free (site.rsp - 48))
    (below : w.Free (t - 64)) (apart : site.rsp - 48 ≠ t - 64) (fresh : a.Fresh t)
    {p : Pending} (settled : ((a.spawn t).push t p).Settled null) (fn arg : Word) :
    ∃ w', cthreadAsmSwitch
        (setThread ((prepareThread w t fn).put t { zeroedThread t with yieldTo := w.self }) t)
        site p arg (zeroedThread t).stack w.self (some t) =
        .ok (w', .resumes t (.entry fn) arg) ∧
      Tracks w' ((a.spawn t).push t p) := by
  have room' : (prepareThread w t fn).Free (site.rsp - 48) := by
    intro frame
    show Function.update w.saved (t - 64) _ (site.rsp - 48) = some frame → _
    rw [Function.update_of_ne apart]
    exact room frame
  have entry : (prepareThread w t fn).saved (t - 64) = some ⟨t, .entry fn⟩ :=
    Function.update_self ..
  have known : w.self ≠ null → ∃ c, ((prepareThread w t fn).put t
      { zeroedThread t with yieldTo := w.self }).threads w.self = some c := by
    intro ne
    by_cases same : w.self = t
    · exact ⟨_, by rw [same]; exact Function.update_self ..⟩
    · obtain ⟨c, thread⟩ := rel.known ne
      exact ⟨c, by simpa [put, prepareThread, same] using thread⟩
  have target : ∀ u, some t = some u → ∃ c, ((prepareThread w t fn).put t
      { zeroedThread t with yieldTo := w.self }).threads u = some c := by
    intro u same
    cases same
    exact ⟨_, Function.update_self ..⟩
  obtain ⟨w', run, switched⟩ := cthreadAsmSwitch_ok
    (w := setThread ((prepareThread w t fn).put t { zeroedThread t with yieldTo := w.self }) t)
    room' (rel.self.trans rel.running.symm) known target entry Pending.noConfusion
  have links : (setThread ((prepareThread w t fn).put t
      { zeroedThread t with yieldTo := w.self }) t).control =
      Function.update w.control t (some ((zeroedThread t).control.redirect w.self)) := by
    show (World.put _ _ _).control = _
    rw [control_put]
    show Function.update (w.put t (zeroedThread t)).control t _ = _
    rw [control_put, Function.update_idem]
    rfl
  have off : t ∉ a.stack := fun inside => fresh.2 (rel.settled.onstack t inside)
  refine ⟨w', run, Switched.rel (a := (a.spawn t).push t p) switched
    ⟨settled, rfl, ?_, ?_, ?_, ?_⟩⟩
  · rw [links]
    refine ⟨rfl, _, Function.update_self .., ?_⟩
    rw [rel.self]
    exact rel.chain.update off
  · rw [links]
    exact rel.spawn_agrees fresh rfl rfl rfl
  · refine rel.leave ?_ rfl rfl ?_
    · exact fun c q other waits suspended => suspended.prepare below other waits
    · intro c inside other
      cases inside with
      | head => exact absurd rfl other
      | tail _ inside => exact inside
  · show w.main.numThreads + 1 = ((t :: a.live).length : Int)
    rw [rel.numThreads, List.length_cons]
    omega

theorem start_refines (rel : Tracks w a) {fn arg stack sz : Word}
    (room : w.Free (site.rsp - 48)) (below : w.Free (cthreadAddress stack sz - 64))
    (apart : site.rsp - 48 ≠ cthreadAddress stack sz - 64)
    (allowed : a.Allows (.start fn arg stack sz)) :
    ∃ w', cthreadStart w site fn arg stack sz =
        .ok (w', (a.step (.start fn arg stack sz)).2) ∧
      Tracks w' (a.step (.start fn arg stack sz)).1 := by
  have settled := rel.settled.step allowed
  obtain ⟨c, source⟩ := rel.known (rel.self_ne_null allowed.1)
  have created : (prepareThread w (cthreadAddress stack sz) fn).get (cthreadAddress stack sz) =
      .ok (zeroedThread (cthreadAddress stack sz)) := get_ok (Function.update_self ..)
  obtain ⟨w', run, rel'⟩ := rel.launch_refines room below apart allowed.2 settled fn arg
  refine ⟨w', ?_, rel'⟩
  simp only [cthreadStart, get_ok source, ok_bind, createCthread, created]
  exact run

theorem mainStart_refines (rel : Tracks w a) {fn arg stack sz : Word}
    (room : w.Free (site.rsp - 48)) (below : w.Free (cthreadAddress stack sz - 64))
    (apart : site.rsp - 48 ≠ cthreadAddress stack sz - 64)
    (allowed : a.Allows (.mainStart fn arg stack sz)) :
    ∃ w', cthreadMainStart w site fn arg stack sz =
        .ok (w', (a.step (.mainStart fn arg stack sz)).2) ∧
      Tracks w' (a.step (.mainStart fn arg stack sz)).1 := by
  have settled := rel.settled.step allowed
  have isMain : w.self = null := by
    rw [rel.self]
    simp [Activation.top, allowed.1]
  have created : (prepareThread w (cthreadAddress stack sz) fn).get (cthreadAddress stack sz) =
      .ok (zeroedThread (cthreadAddress stack sz)) := get_ok (Function.update_self ..)
  obtain ⟨w', run, rel'⟩ := rel.launch_refines room below apart allowed.2 settled fn arg
  rw [isMain] at run
  refine ⟨w', ?_, rel'⟩
  simp only [cthreadMainStart, isMain, ne_eq, not_true_eq_false, if_false, createCthread,
    created, ok_bind, show (zeroedThread (cthreadAddress stack sz)).yieldTo = null from rfl]
  exact run

end Tracks

/-- The frame of the next switch, and that of a new thread, overlay no frame that will be
resumed: stacks are disjoint. -/
def Room (w : World) (site : CallSite) : ThreadOp → Prop
  | .mainStart _ _ stack sz | .start _ _ stack sz =>
      w.Free (site.rsp - 48) ∧ w.Free (cthreadAddress stack sz - 64) ∧
        site.rsp - 48 ≠ cthreadAddress stack sz - 64
  | _ => w.Free (site.rsp - 48)

def activationOf (tr : Trace (CallSite × ThreadOp) ThreadOutput) : Activation :=
  monitor Activation.next .init tr

def ThreadAdmits : Guard World (CallSite × ThreadOp) ThreadOutput :=
  fun tr w i => (activationOf tr).Admits i.2 ∧ Room w i.1 i.2

/-- The guard for any number of joins on a thread. -/
def ThreadAllows : Guard World (CallSite × ThreadOp) ThreadOutput :=
  fun tr w i => (activationOf tr).Allows i.2 ∧ Room w i.1 i.2

def Activation.Answers (a : Activation) (i : CallSite × ThreadOp) (o : ThreadOutput) : Prop :=
  o = a.answer i.2

theorem threads_track :
    Refines threadMachine ThreadAllows Activation.next .init Activation.Answers Tracks where
  step tr w i rel allowed := by
    obtain ⟨site, op⟩ := i
    obtain ⟨allowed, room⟩ := allowed
    have answers : ∀ {r : Except ThreadFault (World × ThreadOutput)} {a' : Activation}
        {o : ThreadOutput}, (∃ w', r = .ok (w', o) ∧ Tracks w' a') →
        ∃ w' o', r = .ok (w', o') ∧ o' = o ∧ Tracks w' a' := by
      intro r a' o ⟨w', run, rel'⟩
      exact ⟨w', o, run, rfl, rel'⟩
    cases op with
    | mainStart fn arg stack sz =>
        exact answers (rel.mainStart_refines room.1 room.2.1 room.2.2 allowed)
    | start fn arg stack sz =>
        exact answers (rel.start_refines room.1 room.2.1 room.2.2 allowed)
    | call tgt data => exact answers (rel.call_refines room allowed data)
    | tailcall tgt data => exact answers (rel.tailcall_refines room allowed.1 allowed.2 data)
    | yield data => exact answers (rel.yield_refines room allowed data)
    | join t => exact answers (rel.join_refines room allowed)
    | exit code => exact answers (rel.exit_refines room allowed code)
    | fnReturn rax => exact answers (rel.exit_refines room allowed rax)

theorem threads_refine :
    Refines threadMachine ThreadAdmits Activation.next .init Activation.Legal
      ActivationRel where
  step tr w i rel admitted := by
    obtain ⟨allowed, _⟩ := rel.formed.allows admitted.1
    obtain ⟨w', o, stepped, answers, tracks⟩ :=
      threads_track.step tr w i rel.toTracks ⟨allowed, admitted.2⟩
    exact ⟨w', o, stepped, answers.trans (rel.formed.answer admitted.1), tracks,
      (rel.formed.step admitted.1).recorded⟩

theorem init_tracks : Tracks World.init .init where
  settled := Activation.init_settled
  running := rfl
  self := rfl
  chain := rfl
  agrees := {
    live := fun t inside => by cases inside
    exited := fun t code done => by cases done
    created := fun t found => absurd rfl found }
  suspended c other alive := by
    cases alive with
    | inl same => exact absurd same other
    | inr inside => cases inside
  numThreads := rfl

theorem init_activationRel : ActivationRel World.init .init :=
  ⟨init_tracks, Activation.init_wellFormed.recorded⟩

/-- One joiner at a time is a special case. -/
theorem threadRun_allows {tr : Trace (CallSite × ThreadOp) ThreadOutput} {w : World}
    (run : Run threadMachine ThreadAdmits World.init tr w) :
    Run threadMachine ThreadAllows World.init tr w := by
  induction run with
  | nil => exact .nil
  | snoc run admitted stepped ih =>
      have rel := (threads_refine.run init_activationRel run).2
      exact .snoc ih ⟨(rel.formed.allows admitted.1).1, admitted.2⟩ stepped

/-- In every run each operation answers what the activation stack says, the `yield_to`
chain from `cthread_self()` is that stack, every context that does not run waits at the
frame it left, and no admitted operation faults: no dead stack is resumed and every
assertion holds. -/
theorem threads_refine_activation {tr : Trace (CallSite × ThreadOp) ThreadOutput} {w : World}
    (run : Run threadMachine ThreadAdmits World.init tr w) :
    Lawful Activation.next .init Activation.Legal tr ∧
      w.self = (activationOf tr).top ∧ w.running = w.self ∧
      Spells w.control w.self (activationOf tr).stack ∧
      ((activationOf tr).stack ++ [null]).Nodup ∧
      (∀ c, c ≠ w.self → c = null ∨ c ∈ (activationOf tr).live →
        w.Suspended c ((activationOf tr).waiting c)) ∧
      w.main.numThreads = (activationOf tr).live.length ∧
      ∀ i, ThreadAdmits tr w i →
        ∃ w', threadMachine.step w i = .ok (w', ((activationOf tr).step i.2).2) := by
  obtain ⟨lawful, rel⟩ := threads_refine.run init_activationRel run
  refine ⟨lawful, rel.self, rel.running.trans rel.self.symm, ?_, rel.formed.nodup, ?_,
    rel.numThreads, ?_⟩
  · rw [rel.self]
    exact rel.chain
  · rw [rel.self]
    exact rel.suspended
  · intro i admitted
    obtain ⟨w', o, stepped, legal⟩ := threads_refine.progress init_activationRel run admitted
    subst legal
    exact ⟨w', stepped⟩

/-- A thread starts another one, which joins it; the first one exits. -/
def handover : World :=
  threadMachine.afterAll World.init
    [(⟨1048576, 0, 0⟩, .mainStart 64 0 4096 4096), (⟨8000, 0, 0⟩, .start 128 0 16384 4096),
      (⟨20000, 0, 0⟩, .join 8096), (⟨8000, 0, 0⟩, .exit 7)]

theorem handover_run :
    Run threadMachine ThreadAdmits World.init
      [((⟨8000, 0, 0⟩, .exit 7), .joined 20384 8096 7),
        ((⟨20000, 0, 0⟩, .join 8096), .resumes 8096 (.start 20384) 0),
        ((⟨8000, 0, 0⟩, .start 128 0 16384 4096), .resumes 20384 (.entry 128) 0),
        ((⟨1048576, 0, 0⟩, .mainStart 64 0 4096 4096), .resumes 8096 (.entry 64) 0)]
      handover := by
  have running : ∀ {a : Activation} {code : Word}, a.stack ≠ [] → a.Admits (.exit code) := id
  refine .snoc (.snoc (.snoc (.snoc .nil
    ⟨⟨rfl, ?_, ?_⟩, free_of_none rfl, free_of_none rfl, ?_⟩ (Machine.step_eq ?_))
    ⟨⟨?_, ?_, ?_⟩, free_of_none ?_, free_of_none ?_, ?_⟩ (Machine.step_eq ?_))
    ⟨⟨?_, ?_, ?_, ?_⟩, free_of_none ?_⟩ (Machine.step_eq ?_))
    ⟨running ?_, free_of_none ?_⟩ (Machine.step_eq ?_)
  all_goals decide +kernel

theorem threads_refine_activation_handover :
    Spells handover.control handover.self [20384] ∧ handover.main.numThreads = 1 ∧
      handover.Suspended null (.mainStart 8096) := by
  obtain ⟨_, self, _, chain, _, suspended, count, _⟩ := threads_refine_activation handover_run
  refine ⟨chain, count, suspended null ?_ (.inl rfl)⟩
  rw [self]
  decide +kernel

end CThread.Threads
