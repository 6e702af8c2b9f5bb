import CThread.Poll.Runs
import CThread.Poll.Effects

/-!
The pointers from the watchers back to the records.

`ev_watch` links a record and a watcher in both directions, and `ev_unwatch` cuts both links.
`ev_close` cuts only the one from the record, so it may come only after every watcher of its
descriptor has gone: then `ev_unwatch` can be called at any time and as often as one likes.
-/
namespace CThread.Poll
open Faults GuardedRuns Timers
variable {ρ ω τ φ : Type} {e e' : Pollers ρ ω φ} {slot : Int → EvEvent → Option ω}
  {start : Option ρ} {fd : Int} {p : ρ} {w u : ω}

/-- `poll_data` is `NULL`, or a record that is not freed and has this watcher. -/
def PointsHome (e : Pollers ρ ω φ) (w : ω) : Prop :=
  (e.watches w).pollData = none ∨
    ∃ p r, (e.watches w).pollData = some p ∧ e.records p = some r ∧
      (r.rd = some w ∨ r.wr = some w)

/-- The watcher was given to `ev_watch` at some time. -/
def Seen (tr : Trace (LoopOp ρ ω τ φ) (LoopOutput ρ ω τ φ)) (w : ω) : Prop :=
  ∃ fd ev block out, (LoopOp.watch w fd ev block, out) ∈ tr

/-- `Admits` without what the code checks itself: `ev_unwatch` may be called at any time. -/
def Registry.Offers (g : Registry ρ ω) (e : Pollers ρ ω φ) : LoopOp ρ ω τ φ → Prop
  | .watch w fd _ block => 0 ≤ fd ∧ Unregistered g.slot w ∧ e.records block = none
  | .setWatch w _ => Unregistered g.slot w
  | .epollWait (.events evs _) => ∀ event ∈ evs, e.table event.fd = some event.ptr
  | _ => True

/-- `ev_close` comes when nobody watches the descriptor. -/
def Registry.ClosesUnwatched (g : Registry ρ ω) (op : LoopOp ρ ω τ φ) : Prop :=
  ∀ fd, op = .close fd → ∀ ev, g.slot fd ev = none

section
variable [DecidableEq ω]

/-- `poll_data` is the loop's: user code writes nothing into it but `NULL`. -/
def UnwatchOffers (tr : Trace (LoopOp ρ ω τ φ) (LoopOutput ρ ω τ φ)) (s : LoopState ρ ω τ φ)
    (op : LoopOp ρ ω τ φ) : Prop :=
  (registry tr).Offers s.loop.polls op ∧ ∀ w x, op = .setWatch w x → Seen tr w →
    x.pollData = none ∨ x.pollData = (s.loop.polls.watches w).pollData

def UnwatchAdmits (tr : Trace (LoopOp ρ ω τ φ) (LoopOutput ρ ω τ φ)) (s : LoopState ρ ω τ φ)
    (op : LoopOp ρ ω τ φ) : Prop :=
  UnwatchOffers tr s op ∧ (registry tr).ClosesUnwatched op

end

variable [DecidableEq ρ] [DecidableEq ω]

/-- The slot that `ev_watch` found empty is free. -/
theorem evWatch_free (life : Lifetime e slot e.dirtyList) {ev : EvEvent} {block : ρ}
    (run : evWatch e w fd ev block = .ok e') : slot fd ev = none := by
  obtain ⟨_, ⟨r, record, free⟩, _⟩ := evWatch_effect run
  cases inside : e.table fd with
  | none => exact life.vacant fd ev inside
  | some p =>
      rw [recordFor_some inside] at record
      rw [← life.slots fd p r ev inside record]
      exact free

/-- The watcher that `ev_unwatch` found in a record is registered. -/
theorem evUnwatch_registered (sound : Sound e slot) (run : evUnwatch e w = .ok e') :
    (∃ fd ev, slot fd ev = some w) ∨ (e.watches w).pollData = none := by
  rcases evUnwatch_effect run with ⟨pointer, _⟩ | ⟨⟨p, r, ev, record, taken⟩, _⟩
  · exact .inr pointer
  · exact .inl ⟨r.fd, ev, (sound.life.callback sound.reg record taken).2.1⟩

variable [DecidableEq τ] {s s' : LoopState ρ ω τ φ} {op : LoopOp ρ ω τ φ}
  {out : LoopOutput ρ ω τ φ} {g : Registry ρ ω}

/-- Only `ev_watch` and user code set the `poll_data` of a watcher. -/
theorem loopStep_pollData (sound : Sound s.loop.polls slot)
    (stepped : loopStep s op = .ok (s', out)) (unwatched : ∀ fd ev block, op ≠ .watch u fd ev block)
    (unwritten : ∀ x, op ≠ .setWatch u x) :
    (s'.loop.polls.watches u).pollData = (s.loop.polls.watches u).pollData ∨
      (s'.loop.polls.watches u).pollData = none := by
  have same : s'.loop.polls.watches u = s.loop.polls.watches u →
      (s'.loop.polls.watches u).pollData = (s.loop.polls.watches u).pollData ∨
        (s'.loop.polls.watches u).pollData = none :=
    fun same => .inl (congrArg Evwatch.pollData same)
  have move := loopStep_move s op
  generalize loopStep s op = result at move stepped
  cases move with
  | @watch w fd ev block =>
      obtain ⟨e', run, rfl, _⟩ := withPolls_eq_ok stepped
      exact same (evWatch_watches run fun eq => unwatched fd ev block (eq ▸ rfl))
  | @unwatch w =>
      obtain ⟨e', run, rfl, _⟩ := withPolls_eq_ok stepped
      by_cases eq : u = w
      · subst eq
        exact .inr (evUnwatch_watches run).1
      · exact same ((evUnwatch_watches run).2 u eq)
  | close =>
      obtain ⟨e', run, rfl, _⟩ := withPolls_eq_ok stepped
      exact same (congrFun (evClose_effect run).1 u)
  | @setWatch w x =>
      cases stepped
      exact same (Function.update_of_ne (fun eq : u = w => unwritten x (eq ▸ rfl)) ..)
  | pass =>
      obtain ⟨e', run, rest⟩ := bind_eq_ok.mp stepped
      cases rest
      exact same (congrFun (sound.flushed (inPolls_eq_ok.mp run)).2 u)
  | dispatched source polls =>
      have kept := (dispatchFrom_effect stepped).1
      rw [kept, polls] at same ⊢
      exact same rfl
  | quiet polls pending waiting calls answers =>
      cases stepped
      rw [polls] at same ⊢
      exact same rfl
  | stop other => cases stepped

theorem unwatch_pollData (stepped : loopStep s (.unwatch w) = .ok (s', out)) :
    (s'.loop.polls.watches w).pollData = none := by
  have move := loopStep_move s (.unwatch w)
  generalize loopStep s (.unwatch w) = result at move stepped
  cases move with
  | unwatch =>
      obtain ⟨e', run, rfl, _⟩ := withPolls_eq_ok stepped
      exact (evUnwatch_watches run).1
  | dispatched source polls => cases source
  | quiet polls pending waiting calls answers => exact calls.elim
  | stop other => cases stepped

theorem close_ok (stepped : loopStep s (.close fd) = .ok (s', out)) :
    ∃ e', evClose s.loop.polls fd = .ok e' ∧ s' = s.withPolls e' := by
  unfold loopStep at stepped
  split at stepped
  · obtain ⟨e', run, moved, _⟩ := withPolls_eq_ok stepped
    exact ⟨e', run, moved⟩
  · cases stepped

theorem setWatch_watches {x : Evwatch ρ φ} (stepped : loopStep s (.setWatch w x) = .ok (s', out)) :
    s'.loop.polls.watches w = x := by
  unfold loopStep at stepped
  split at stepped
  · cases stepped
    exact Function.update_self ..
  · cases stepped

/-- What is not promised but checked holds of every step that does not fault. -/
theorem Registry.Offers.admits (offered : g.Offers s.loop.polls op)
    (sound : Sound s.loop.polls g.slot) (stepped : loopStep s op = .ok (s', out)) :
    g.Admits s.loop.polls op := by
  have move := loopStep_move s op
  generalize loopStep s op = result at move stepped
  cases move with
  | watch =>
      obtain ⟨e', run, _⟩ := withPolls_eq_ok stepped
      exact ⟨offered.1, offered.2.1, evWatch_free sound.life run, (evWatch_effect run).1,
        offered.2.2⟩
  | unwatch =>
      obtain ⟨e', run, _⟩ := withPolls_eq_ok stepped
      exact evUnwatch_registered sound run
  | close => trivial
  | setWatch => exact offered
  | pass => trivial
  | dispatched source polls =>
      cases source with
      | deliver waiting => exact offered
      | resume frames => trivial
  | @quiet op _ _ _ _ _ calls _ =>
      cases op with
      | epollWait result => cases result <;> trivial
      | watch | unwatch | close | setWatch => exact calls.elim
      | alarm | stop | evloopStep | callbackReturn => trivial
  | stop other => cases stepped

variable {timers : EvTimers τ φ} {watches : ω → Evwatch ρ φ}
  {tr : Trace (LoopOp ρ ω τ φ) (LoopOutput ρ ω τ φ)}

/-- The watchers that are not registered have lost their pointers. -/
structure PointersCut (tr : Trace (LoopOp ρ ω τ φ) (LoopOutput ρ ω τ φ))
    (s : LoopState ρ ω τ φ) : Prop where
  sound : Sound s.loop.polls (registry tr).slot
  cut : ∀ w, Seen tr w → Unregistered (registry tr).slot w →
    (s.loop.polls.watches w).pollData = none

omit [DecidableEq ρ] [DecidableEq ω] [DecidableEq τ] in
theorem Seen.of_cons (seen : Seen ((op, out) :: tr) w)
    (other : ∀ fd ev block, op ≠ .watch w fd ev block) : Seen tr w := by
  obtain ⟨fd, ev, block, out', inside⟩ := seen
  cases inside with
  | head => exact absurd rfl (other fd ev block)
  | tail _ inside => exact ⟨fd, ev, block, out', inside⟩

omit [DecidableEq ρ] [DecidableEq τ] in
theorem seen_of_registered {ev : EvEvent} (taken : (registry tr).slot fd ev = some w) :
    Seen tr w := by
  induction tr with
  | nil => cases taken
  | cons entry tr ih =>
      obtain ⟨op, out⟩ := entry
      have later : (registry tr).slot fd ev = some w → Seen ((op, out) :: tr) w := by
        intro before
        obtain ⟨fd', ev', block, out', inside⟩ := ih before
        exact ⟨fd', ev', block, out', .tail _ inside⟩
      cases op with
      | watch u fd' ev' block =>
          rcases watchAt_eq_some.mp taken with ⟨_, _, same⟩ | ⟨_, before⟩
          · subst same
            exact ⟨fd', ev', block, out, .head _⟩
          · exact later before
      | unwatch u => exact later (releaseAt_eq_some.mp taken).1
      | close fd' => exact later (closeAt_eq_some taken).2
      | epollWait result => cases result <;> exact later taken
      | _ => exact later taken

omit [DecidableEq ρ] [DecidableEq τ] in
/-- Whoever is not registered after a step that closes unwatched descriptors at most, and is
not the one the step takes away, was not registered before. -/
theorem Registry.unregistered_of_next (free : ∀ w fd ev block, op = .watch w fd ev block →
      g.slot fd ev = none) (closes : g.ClosesUnwatched op)
    (other : op ≠ .unwatch w) (after : Unregistered (g.next op out).slot w) :
    Unregistered g.slot w := by
  intro fd ev taken
  refine after fd ev ?_
  cases op with
  | watch u fd' ev' block =>
      refine watchAt_eq_some.mpr (.inr ⟨fun ⟨sameFd, sameEv⟩ => ?_, taken⟩)
      subst sameFd sameEv
      rw [free u fd ev block rfl] at taken
      cases taken
  | unwatch u => exact releaseAt_eq_some.mpr ⟨taken, fun same => other (same ▸ rfl)⟩
  | close fd' =>
      have away : fd ≠ fd' := by
        intro same
        subst same
        rw [closes fd rfl ev] at taken
        cases taken
      exact (congrFun (Function.update_of_ne away ..) ev).trans taken
  | epollWait result => cases result <;> exact taken
  | _ => exact taken

theorem PointersCut.step (cut : PointersCut tr s) (admitted : UnwatchAdmits tr s op)
    (stepped : loopStep s op = .ok (s', out)) : PointersCut ((op, out) :: tr) s' := by
  obtain ⟨⟨offered, written⟩, closes⟩ := admitted
  have contract := offered.admits cut.sound stepped
  refine ⟨(step_change cut.sound contract stepped).1, fun w seen after => ?_⟩
  by_cases watched : ∃ fd ev block, op = .watch w fd ev block
  · obtain ⟨fd, ev, block, same⟩ := watched
    subst same
    exact absurd (watchAt_eq_some.mpr (.inl ⟨rfl, rfl, rfl⟩)) (after fd ev)
  have unwatched : ∀ fd ev block, op ≠ .watch w fd ev block :=
    fun fd ev block same => watched ⟨fd, ev, block, same⟩
  by_cases leaves : op = .unwatch w
  · subst leaves
    exact unwatch_pollData stepped
  have before : (s.loop.polls.watches w).pollData = none := by
    refine cut.cut w (seen.of_cons unwatched) ?_
    refine Registry.unregistered_of_next ?_ closes leaves after
    intro u fd ev block same
    subst same
    exact contract.2.2.1
  by_cases written' : ∃ x, op = .setWatch w x
  · obtain ⟨x, same⟩ := written'
    subst same
    rw [setWatch_watches stepped]
    rcases written w x rfl (seen.of_cons unwatched) with null | same
    · exact null
    · exact same.trans before
  · rcases loopStep_pollData cut.sound stepped unwatched
      (fun x same => written' ⟨x, same⟩) with same | null
    · exact same.trans before
    · exact null

theorem run_pointersCut
    (run : Run loopMachine UnwatchAdmits (LoopState.init timers watches) tr s) :
    PointersCut tr s := by
  refine Run.invariant (P := PointersCut) ⟨init_sound, ?_⟩ ?_ run
  · intro w ⟨fd, ev, block, out, absurd⟩
    cases absurd
  · exact fun tr s op s' out cut admitted stepped => cut.step admitted stepped

omit [DecidableEq ρ] [DecidableEq ω] in
theorem Sound.pointsHome (sound : Sound e slot) {ev : EvEvent} (taken : slot fd ev = some w) :
    PointsHome e w := by
  obtain ⟨p, f, inside, content⟩ := sound.reg.watch fd ev w taken
  obtain ⟨_, r, record, _⟩ := sound.life.table fd p inside
  have here : r.slot ev = some w := (sound.life.slots fd p r ev inside record).trans taken
  refine .inr ⟨p, r, by rw [content], record, ?_⟩
  cases ev with
  | read => exact .inl here
  | write => exact .inr here

omit [DecidableEq ρ] [DecidableEq τ] in
theorem PointersCut.pointsHome (cut : PointersCut tr s) (seen : Seen tr w) :
    PointsHome s.loop.polls w := by
  by_cases registered : ∃ fd ev, (registry tr).slot fd ev = some w
  · obtain ⟨fd, ev, taken⟩ := registered
    exact cut.sound.pointsHome taken
  · exact .inl (cut.cut w seen fun fd ev taken => registered ⟨fd, ev, taken⟩)

omit [DecidableEq ω] in
/-- A watcher that `ev_close` finds keeps its pointer and loses its record. -/
theorem Sound.close_cuts_off (sound : Sound e slot) (run : evClose e fd = .ok e')
    {ev : EvEvent} (taken : slot fd ev = some w) : ¬ PointsHome e' w := by
  obtain ⟨p, f, inside, content⟩ := sound.reg.watch fd ev w taken
  obtain ⟨e₁, run₁, life, _, closed⟩ := evClose_ok sound.life sound.reg fd
  rw [run] at run₁
  cases run₁
  obtain ⟨r, record, out⟩ := closed.gone p inside
  have empty : ∀ ev, r.slot ev = none := by
    rcases life.placed p r record with home | away
    · exact absurd out (life.not_both home record)
    · exact away.2.2
  have pointer : (e'.watches w).pollData = some p := by
    rw [(evClose_effect run).1, content]
  intro home
  rcases home with null | ⟨q, r', there, record', has⟩
  · cases pointer.symm.trans null
  · cases pointer.symm.trans there
    cases record.symm.trans record'
    rcases has with rd | wr
    · cases (empty .read).symm.trans rd
    · cases (empty .write).symm.trans wr

theorem PointersCut.unwatch (cut : PointersCut tr s) (seen : Seen tr w)
    (free : s.waiting = none) : ∃ s', loopMachine.step s (.unwatch w) = .ok (s', .done) ∧
      (Unregistered (registry tr).slot w → s' = s) := by
  have step : loopMachine.step s (.unwatch w) = (do
      let polls ← inPolls (evUnwatch s.loop.polls w)
      return (s.withPolls polls, .done)) := by
    show loopStep s (.unwatch w) = _
    unfold loopStep
    rw [free]
    rfl
  by_cases registered : ∃ fd ev, (registry tr).slot fd ev = some w
  · obtain ⟨fd, ev, taken⟩ := registered
    obtain ⟨e', p, run, _⟩ := evUnwatch_ok cut.sound.life cut.sound.reg taken
    refine ⟨s.withPolls e', ?_, fun absent => absurd taken (absent fd ev)⟩
    rw [step, run]
    rfl
  · have null := cut.cut w seen fun fd ev taken => registered ⟨fd, ev, taken⟩
    have run : evUnwatch s.loop.polls w = .ok s.loop.polls := by
      simp [evUnwatch, null]
    refine ⟨s, ?_, fun _ => rfl⟩
    rw [step, run]
    rfl

/-- As long as every descriptor is closed without watchers, each `poll_data` is `NULL` or leads
to the record of the descriptor that its watcher is registered on, and `ev_unwatch` can be
called for any watcher and changes nothing for one that is not registered. The next
`ev_close` keeps that exactly when nobody watches its descriptor. -/
theorem unwatchRun_safe
    (run : Run loopMachine UnwatchAdmits (LoopState.init timers watches) tr s) :
    (∀ w, Seen tr w → PointsHome s.loop.polls w) ∧
      (∀ fd ev w, (registry tr).slot fd ev = some w → ∃ p, s.loop.polls.table fd = some p ∧
        (s.loop.polls.watches w).pollData = some p) ∧
      (∀ w, Seen tr w → s.waiting = none →
        ∃ s', loopMachine.step s (.unwatch w) = .ok (s', .done) ∧
          (Unregistered (registry tr).slot w → s' = s)) ∧
      ∀ op s' out, UnwatchOffers tr s op → loopMachine.step s op = .ok (s', out) →
        ((∀ w, Seen ((op, out) :: tr) w → PointsHome s'.loop.polls w) ↔
          (registry tr).ClosesUnwatched op) := by
  have cut := run_pointersCut run
  refine ⟨fun w seen => cut.pointsHome seen, fun fd ev w taken => ?_,
    fun w seen free => cut.unwatch seen free, fun op s' out offered stepped => ⟨?_, ?_⟩⟩
  · obtain ⟨p, f, inside, content⟩ := cut.sound.reg.watch fd ev w taken
    exact ⟨p, inside, by rw [content]⟩
  · intro home fd same ev
    subst same
    by_contra registered
    obtain ⟨w, taken⟩ := Option.ne_none_iff_exists'.mp registered
    obtain ⟨e', run, moved⟩ := close_ok stepped
    have seen : Seen ((.close fd, out) :: tr) w := by
      obtain ⟨fd', ev', block, out', inside⟩ := seen_of_registered taken
      exact ⟨fd', ev', block, out', .tail _ inside⟩
    refine cut.sound.close_cuts_off run taken ?_
    have home := home w seen
    rw [moved] at home
    exact home
  · intro closes w seen
    exact (cut.step ⟨offered, closes⟩ stepped).pointsHome seen

/-- Watcher 0 leaves descriptor 5, which is closed and opened again for watcher 1. -/
def handedOn : LoopState Nat Nat Nat Nat :=
  loopMachine.afterAll quietLoop [.watch 0 5 .read 0, .unwatch 0, .close 5, .evloopStep,
    .epollWait .failed, .watch 1 5 .read 0]

def handedOnTrace : Trace (LoopOp Nat Nat Nat Nat) (LoopOutput Nat Nat Nat Nat) :=
  [(.watch 1 5 .read 0, .done), (.epollWait .failed, .returns (-1)), (.evloopStep, .waits (-1)),
    (.close 5, .done), (.unwatch 0, .done), (.watch 0 5 .read 0, .done)]

theorem handedOn_run : Run loopMachine UnwatchAdmits quietLoop handedOnTrace handedOn := by
  have other : Unregistered (releaseAt (watchAt (fun _ _ => none) 5 .read 0) 0) 1 :=
    ((Unregistered.of_none 1).of_watch (by decide)).of_release
  refine .snoc (.snoc (.snoc (.snoc (.snoc (.snoc .nil
    ⟨⟨⟨by decide, .of_none 0, rfl⟩, fun w x same => by cases same⟩, fun fd same => by cases same⟩
      (Machine.step_eq rfl))
    ⟨⟨trivial, fun w x same => by cases same⟩, fun fd same => by cases same⟩
      (Machine.step_eq rfl))
    ⟨⟨trivial, fun w x same => by cases same⟩, fun fd same ev => ?_⟩ (Machine.step_eq rfl))
    ⟨⟨trivial, fun w x same => by cases same⟩, fun fd same => by cases same⟩
      (Machine.step_eq rfl))
    ⟨⟨trivial, fun w x same => by cases same⟩, fun fd same => by cases same⟩
      (Machine.step_eq rfl))
    ⟨⟨⟨by decide, .of_close fun fd ev taken => absurd taken (other fd ev), rfl⟩,
      fun w x same => by cases same⟩, fun fd same => by cases same⟩ (Machine.step_eq rfl)
  cases same
  cases ev <;> rfl

theorem unwatchRun_safe_handedOn :
    ∃ s', loopMachine.step handedOn (.unwatch 0) = .ok (s', .done) := by
  have seen : Seen handedOnTrace 0 := ⟨5, .read, 0, .done, by simp [handedOnTrace]⟩
  obtain ⟨s', stepped, _⟩ := (unwatchRun_safe handedOn_run).2.2.1 0 seen rfl
  exact ⟨s', stepped⟩

/-- Descriptor 5 is closed before its watcher leaves. -/
def orphaned : LoopState Nat Nat Nat Nat :=
  loopMachine.afterAll quietLoop [.watch 0 5 .read 0, .close 5]

theorem close_leaves_pointer :
    ∃ tr w, Run loopMachine UnwatchOffers quietLoop tr orphaned ∧ Seen tr w ∧
      ¬ PointsHome orphaned.loop.polls w ∧
      loopMachine.step orphaned (.unwatch w) = .error (.poll .assertion) := by
  refine ⟨[(.close 5, .done), (.watch 0 5 .read 0, .done)], 0, .snoc (.snoc .nil
    ⟨⟨by decide, .of_none 0, rfl⟩, fun w x same => by cases same⟩
      (Machine.step_eq rfl))
    ⟨trivial, fun w x same => by cases same⟩ (Machine.step_eq rfl),
    ⟨5, .read, 0, .done, by simp⟩, fun home => ?_, rfl⟩
  rcases home with null | ⟨p, r, pointer, record, has⟩
  · have null : some 0 = none := null
    cases null
  · have pointer : some 0 = some p := pointer
    cases pointer
    have record : some ⟨none, none, none, -1, flagDirty⟩ = some r := record
    cases record
    rcases has with rd | wr
    · cases rd
    · cases wr

end CThread.Poll
