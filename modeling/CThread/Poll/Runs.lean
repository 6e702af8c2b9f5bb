import CThread.Poll.Moves
import CThread.Poll.Pass
import CThread.Poll.Registration
import CThread.Lib.Runs

/-!
Runs of the event loop. The registry is what the calls so far say about who watches what;
the guard is what the callers promise. Every reachable state keeps the lifetime of its poll
records, and the pass frees and announces them at the right time.
-/
namespace CThread.Poll
open Faults GuardedRuns Chains Timers
variable {ρ ω τ φ : Type} {e e' : Pollers ρ ω φ} {slot : Int → EvEvent → Option ω}

/-- Who is registered, the events collected last, and the descriptors closed since. -/
structure Registry (ρ ω : Type) where
  slot : Int → EvEvent → Option ω
  batch : List (Event ρ)
  closed : List Int

structure Sound (e : Pollers ρ ω φ) (slot : Int → EvEvent → Option ω) : Prop where
  life : Lifetime e slot e.dirtyList
  reg : Registered e slot

theorem Registered.congr (reg : Registered e slot) (table : e'.table = e.table)
    (watches : e'.watches = e.watches) : Registered e' slot := by
  refine ⟨?_, reg.once⟩
  intro fd ev w taken
  rw [table, watches]
  exact reg.watch fd ev w taken

theorem Flushed.same [DecidableEq ρ] {p : ρ} {r : EvloopPoll ρ ω}
    (flushed : Flushed e p r e') : e'.table = e.table ∧ e'.watches = e.watches := by
  cases flushed <;> exact ⟨rfl, rfl⟩

/-- A whole pass keeps whatever its iterations keep. -/
theorem Sound.flush [DecidableEq ρ] (sound : Sound e slot) (P : Pollers ρ ω φ → Option ρ → Prop)
    (step : ∀ e p r e', Lifetime e slot (some p) → e.records p = some r → Flushed e p r e' →
      P e (some p) → P e' r.next) (holds : P e e.dirtyList) :
    ∃ e', flushDirty e = .ok { e' with dirtyList := none } ∧ e'.table = e.table ∧
      Sound { e' with dirtyList := none } slot ∧ Lifetime e' slot none ∧ P e' none := by
  obtain ⟨e', run, life, ⟨table, watches⟩, kept⟩ := flushDirty_ok sound.life
    (fun e₁ start => (e₁.table = e.table ∧ e₁.watches = e.watches) ∧ P e₁ start)
    (fun e₁ p r e₂ life record flushed both => ⟨⟨flushed.same.1.trans both.1.1,
      flushed.same.2.trans both.1.2⟩, step e₁ p r e₂ life record flushed both.2⟩)
    ⟨⟨rfl, rfl⟩, holds⟩
  exact ⟨e', run, table, ⟨life.restart, sound.reg.congr table watches⟩, life, kept⟩

/-- The pass leaves the table and the watchers alone. -/
theorem Sound.flushed [DecidableEq ρ] (sound : Sound e slot) (run : flushDirty e = .ok e') :
    e'.table = e.table ∧ e'.watches = e.watches := by
  obtain ⟨e₁, run₁, table, _, _, watches⟩ := sound.flush (fun e₁ _ => e₁.watches = e.watches)
    (fun _ _ _ _ _ _ flushed before => flushed.same.2.trans before) rfl
  rw [run] at run₁
  cases run₁
  exact ⟨table, watches⟩

variable [DecidableEq ω]

theorem Registered.putWatch (reg : Registered e slot) {w : ω}
    (unregistered : Unregistered slot w) (x : Evwatch ρ φ) :
    Registered (e.putWatch w x) slot := by
  refine ⟨?_, reg.once⟩
  intro fd ev u taken
  obtain ⟨p, f, inside, content⟩ := reg.watch fd ev u taken
  have other : u ≠ w := fun same => unregistered fd ev (same ▸ taken)
  exact ⟨p, f, inside, (Function.update_of_ne other ..).trans content⟩

def Registry.next (g : Registry ρ ω) : LoopOp ρ ω τ φ → LoopOutput ρ ω τ φ → Registry ρ ω
  | .watch w fd ev _, _ => { g with slot := watchAt g.slot fd ev w }
  | .unwatch w, _ => { g with slot := releaseAt g.slot w }
  | .close fd, _ => { g with slot := closeAt g.slot fd, closed := fd :: g.closed }
  | .epollWait (.events evs _), _ => { g with batch := evs, closed := [] }
  | _, _ => g

theorem Registry.next_quiet (g : Registry ρ ω) {op : LoopOp ρ ω τ φ}
    (quiet : op.IsQuiet) (out : LoopOutput ρ ω τ φ) : g.next op out = g := by
  cases op with
  | epollWait result => cases result <;> first | rfl | exact quiet.elim
  | watch | unwatch | close | setWatch => exact quiet.elim
  | alarm | stop | evloopStep | callbackReturn => rfl

def registry : Trace (LoopOp ρ ω τ φ) (LoopOutput ρ ω τ φ) → Registry ρ ω :=
  monitor Registry.next ⟨fun _ _ => none, [], []⟩

/-- `ev_watch` gets an unregistered watcher with a callback and a free slot, and `xcalloc` a
block that is not in use. `ev_unwatch` gets a registered watcher, or one whose `poll_data`
is `NULL`. The memory of a registered watcher is left alone. An event carries the record that
the table has for its descriptor. -/
def Registry.Admits (g : Registry ρ ω) (e : Pollers ρ ω φ) : LoopOp ρ ω τ φ → Prop
  | .watch w fd ev block => 0 ≤ fd ∧ Unregistered g.slot w ∧ g.slot fd ev = none ∧
      (∃ f, (e.watches w).fn = some f) ∧ e.records block = none
  | .unwatch w => (∃ fd ev, g.slot fd ev = some w) ∨ (e.watches w).pollData = none
  | .setWatch w _ => Unregistered g.slot w
  | .epollWait (.events evs _) => ∀ event ∈ evs, e.table event.fd = some event.ptr
  | _ => True

def LoopAdmits (tr : Trace (LoopOp ρ ω τ φ) (LoopOutput ρ ω τ φ)) (s : LoopState ρ ω τ φ)
    (op : LoopOp ρ ω τ φ) : Prop :=
  (registry tr).Admits s.loop.polls op

variable [DecidableEq ρ]

/-- What an admitted step does to the descriptors and to the halves that are pending. -/
inductive LoopChange (s : LoopState ρ ω τ φ) (g : Registry ρ ω) :
    LoopOp ρ ω τ φ → LoopState ρ ω τ φ → LoopOutput ρ ω τ φ → Prop
  | touch {op : LoopOp ρ ω τ φ} {e' : Pollers ρ ω φ} {fd : Int} {p : ρ}
      (touched : Touched s.loop.polls e' fd p)
      (calm : g.next op .done = { g with slot := (g.next op .done).slot }) :
      LoopChange s g op (s.withPolls e') .done
  | close {fd : Int} {e' : Pollers ρ ω φ} (closed : Closed s.loop.polls e' fd) :
      LoopChange s g (.close fd) (s.withPolls e') .done
  | stay {op : LoopOp ρ ω τ φ} {s' : LoopState ρ ω τ φ} {out : LoopOutput ρ ω τ φ}
      (records : s'.loop.polls.records = s.loop.polls.records)
      (table : s'.loop.polls.table = s.loop.polls.table)
      (kernel : s'.loop.polls.kernel = s.loop.polls.kernel)
      (pending : s'.pending = s.pending) (waiting : s'.waiting ≠ none → s.waiting ≠ none)
      (calm : g.next op out = { g with slot := (g.next op out).slot })
      (answers : out.IsQuiet) :
      LoopChange s g op s' out
  | pass {timers : EvTimers τ φ} {timeout : Int} {e' : Pollers ρ ω φ}
      (run : flushDirty s.loop.polls = .ok e') :
      LoopChange s g .evloopStep ⟨⟨timers, e'⟩, s.frames, some timeout⟩ (.waits timeout)
  | finish {op : LoopOp ρ ω τ φ} {loop : Evloop ρ ω τ φ} {outer : List (LoopFrame ρ)}
      {todo : List (Event ρ × EvEvent)} (source : Source s op outer todo)
      (polls : loop.polls = s.loop.polls) : LoopChange s g op ⟨loop, outer, none⟩ (.returns 0)
  | ring {op : LoopOp ρ ω τ φ} {loop : Evloop ρ ω τ φ} {outer : List (LoopFrame ρ)}
      {todo : List (Event ρ × EvEvent)} {call : WatchCall ρ ω φ}
      (source : Source s op outer todo) (polls : loop.polls = s.loop.polls)
      (rings : Ringing s.loop.polls todo call) :
      LoopChange s g op ⟨loop, .watch call.rest :: outer, none⟩
        (.watchCall call.event call.ev call.watch call.fn)

/-- The only poll fault left is to go on with a batch whose record is freed. -/
def Stale (s : LoopState ρ ω τ φ) (f : LoopFault) : Prop :=
  ∀ g, f = .poll g → g = .freed ∧ ∃ half ∈ s.pending, s.loop.polls.records half.1.ptr = none

variable {s : LoopState ρ ω τ φ} {g : Registry ρ ω}

theorem dispatchFrom_change (sound : Sound s.loop.polls g.slot) {op : LoopOp ρ ω τ φ}
    (admitted : g.Admits s.loop.polls op) {loop : Evloop ρ ω τ φ}
    {outer : List (LoopFrame ρ)} {todo : List (Event ρ × EvEvent)}
    (source : Source s op outer todo) (polls : loop.polls = s.loop.polls) :
    (∃ s' out, dispatchFrom loop outer todo = .ok (s', out) ∧
      Sound s'.loop.polls (g.next op out).slot ∧ LoopChange s g op s' out) ∨
    (∃ f, dispatchFrom loop outer todo = .error f ∧ Stale s f) := by
  have same : ∀ out, (g.next op out).slot = g.slot := by
    intro out
    cases source <;> rfl
  have still : ∀ out, Sound loop.polls (g.next op out).slot := by
    intro out
    rw [same, polls]
    exact sound
  rcases dispatch_cases sound.life sound.reg todo with
    ended | ⟨call, next, rings⟩ | ⟨fault, half, inside, gone⟩
  · refine .inl ⟨_, _, ?_, still _, .finish source polls⟩
    rw [dispatchFrom, polls, ended]
    rfl
  · refine .inl ⟨_, _, ?_, still _, .ring source polls rings⟩
    rw [dispatchFrom, polls, next]
    rfl
  · refine .inr ⟨.poll .freed, ?_, fun f same => ?_⟩
    · rw [dispatchFrom, polls, fault]
      rfl
    · cases same
      refine ⟨rfl, half, ?_, gone⟩
      cases source with
      | deliver waiting =>
          have alive := admitted half.1 (mem_halves inside)
          obtain ⟨_, r, record, _⟩ := sound.life.table _ _ alive
          rw [gone] at record
          cases record
      | resume frames => exact mem_pending frames inside

variable [DecidableEq τ]

theorem loopStep_change (sound : Sound s.loop.polls g.slot) {op : LoopOp ρ ω τ φ}
    (admitted : g.Admits s.loop.polls op) :
    (∃ s' out, loopStep s op = .ok (s', out) ∧ Sound s'.loop.polls (g.next op out).slot ∧
      LoopChange s g op s' out) ∨ (∃ f, loopStep s op = .error f ∧ Stale s f) := by
  have move := loopStep_move s op
  generalize loopStep s op = result at move
  cases move with
  | watch =>
      obtain ⟨nonneg, unregistered, free, ⟨f, fn⟩, unused⟩ := admitted
      obtain ⟨e', p, run, life, reg, touched⟩ :=
        evWatch_ok sound.life sound.reg nonneg free unregistered fn unused
      refine .inl ⟨_, _, ?_, ⟨life, reg⟩, .touch touched rfl⟩
      rw [run]
      rfl
  | @unwatch w =>
      by_cases registered : ∃ fd ev, g.slot fd ev = some w
      · obtain ⟨fd, ev, taken⟩ := registered
        obtain ⟨e', p, run, life, reg, touched⟩ := evUnwatch_ok sound.life sound.reg taken
        refine .inl ⟨_, _, ?_, ⟨life, reg⟩, .touch touched rfl⟩
        rw [run]
        rfl
      · have pointer : (s.loop.polls.watches w).pollData = none :=
          admitted.resolve_left registered
        have run : evUnwatch s.loop.polls w = .ok s.loop.polls := by
          simp [evUnwatch, pointer]
        have same : releaseAt g.slot w = g.slot := by
          funext fd ev
          exact if_neg fun taken => registered ⟨fd, ev, taken⟩
        refine .inl ⟨s, .done, ?_, ?_, .stay rfl rfl rfl rfl id rfl trivial⟩
        · rw [run]
          rfl
        · show Sound s.loop.polls (releaseAt g.slot w)
          rw [same]
          exact sound
  | @close fd =>
      obtain ⟨e', run, life, reg, closed⟩ := evClose_ok sound.life sound.reg fd
      refine .inl ⟨_, _, ?_, ⟨life, reg⟩, .close closed⟩
      rw [run]
      rfl
  | @setWatch w x =>
      exact .inl ⟨_, _, rfl, ⟨sound.life.putWatch w x, sound.reg.putWatch admitted x⟩,
        .stay rfl rfl rfl rfl id rfl trivial⟩
  | @pass timers timeout =>
      obtain ⟨e', run, _, sound', _⟩ := sound.flush (fun _ _ => True)
        (fun _ _ _ _ _ _ _ _ => trivial) trivial
      refine .inl ⟨⟨⟨timers, { e' with dirtyList := none }⟩, s.frames, some timeout⟩,
        .waits timeout, ?_, sound', .pass run⟩
      rw [run]
      rfl
  | dispatched source polls => exact dispatchFrom_change sound admitted source polls
  | quiet polls pending waiting calls answers =>
      refine .inl ⟨_, _, rfl, ?_, .stay (by rw [polls]) (by rw [polls]) (by rw [polls]) pending
        waiting (by rw [g.next_quiet calls]) answers⟩
      rw [g.next_quiet calls, polls]
      exact sound
  | stop other => exact .inr ⟨_, rfl, fun f same => absurd same (other f)⟩

variable {timers : EvTimers τ φ} {watches : ω → Evwatch ρ φ}
  {tr : Trace (LoopOp ρ ω τ φ) (LoopOutput ρ ω τ φ)}

omit [DecidableEq ρ] [DecidableEq τ] in
theorem init_sound : Sound (LoopState.init timers watches).loop.polls
    (registry ([] : Trace (LoopOp ρ ω τ φ) (LoopOutput ρ ω τ φ))).slot := by
  have nothing : ∀ p, (LoopState.init timers watches).loop.polls.records p = none :=
    fun p => rfl
  constructor
  · constructor
    · exact fun fd p absurd => by cases absurd
    · refine ⟨[], rfl, .nil, fun p => ⟨fun absurd => (by cases absurd), ?_⟩⟩
      intro ⟨r, record, _⟩
      cases record
    · exact fun p r absurd => by cases absurd
    · exact fun fd ev absurd => by cases absurd
    · exact fun fd p r absurd => by cases absurd
    · exact fun p r absurd => by cases absurd
    · exact fun p => ⟨fun inside => (by cases inside), fun some => absurd (nothing p) some⟩
    · exact .nil
    · exact fun fd ev _ => rfl
    · exact fun fd p r ev absurd => by cases absurd
  · exact ⟨fun fd ev w absurd => (by cases absurd), fun fd ev fd' ev' w absurd =>
      (by cases absurd)⟩

theorem step_change {s' : LoopState ρ ω τ φ} {op : LoopOp ρ ω τ φ}
    {out : LoopOutput ρ ω τ φ} (sound : Sound s.loop.polls g.slot)
    (admitted : g.Admits s.loop.polls op) (stepped : loopMachine.step s op = .ok (s', out)) :
    Sound s'.loop.polls (g.next op out).slot ∧ LoopChange s g op s' out := by
  have stepped : loopStep s op = .ok (s', out) := stepped
  cases loopStep_change sound admitted with
  | inl change =>
      obtain ⟨s₁, out₁, run, sound', change⟩ := change
      rw [stepped] at run
      cases run
      exact ⟨sound', change⟩
  | inr fault =>
      obtain ⟨f, run, _⟩ := fault
      rw [stepped] at run
      cases run

theorem run_sound (run : Run loopMachine LoopAdmits (LoopState.init timers watches) tr s) :
    Sound s.loop.polls (registry tr).slot := by
  refine Run.invariant (P := fun tr s => Sound s.loop.polls (registry tr).slot) init_sound ?_ run
  intro tr s op s' out sound admitted stepped
  exact (step_change sound admitted stepped).1

/-- Where the poll records are, between the calls and in every callback. -/
structure RecordsLive (e : Pollers ρ ω φ) : Prop where
  table : ∀ fd p, e.table fd = some p → ∃ r, e.records p = some r ∧ r.fd = fd
  dirty : ∃ ds, Chain (links e) e.dirtyList ds ∧ ds.Nodup ∧
    (∀ p, p ∈ ds ↔ ∃ r, e.records p = some r ∧ r.isDirty = true) ∧
    (∀ p r, e.records p = some r → Xor (∃ fd, e.table fd = some p) (r.fd = -1 ∧ p ∈ ds))
  added : ∀ fd p r, e.table fd = some p → e.records p = some r →
    (r.isAdded = true ↔ ∃ ev, e.kernel fd = some ev)
  pointer : ∀ fd ev, e.kernel fd = some ev → e.table fd = some ev.ptr

omit [DecidableEq ρ] [DecidableEq ω] in
theorem Lifetime.live (life : Lifetime e slot e.dirtyList) : RecordsLive e := by
  refine ⟨fun fd p inside => (life.table fd p inside).2, ?_, ?_, life.kernel⟩
  · obtain ⟨ds, chain, nodup, exactly⟩ := life.chain
    refine ⟨ds, chain, nodup, exactly, fun p r record => ?_⟩
    cases life.placed p r record with
    | inl inside =>
        exact .inl ⟨⟨r.fd, inside⟩, fun out => life.not_both inside record out.1⟩
    | inr out =>
        refine .inr ⟨⟨out.1, (exactly p).mpr ⟨r, record, out.2.1⟩⟩, ?_⟩
        exact fun ⟨fd, inside⟩ => life.not_both inside record out.1
  · intro fd p r inside record
    rw [life.added fd p r inside record]
    exact Option.ne_none_iff_exists'

/-- Every record has its place in every reachable state. No call frees a record twice, adds
a descriptor the kernel has, modifies one it has not, or follows a pointer to a freed record;
only a dispatch loop can meet one, in the rest of a batch whose callback ran a whole pass. -/
theorem loopRun_keeps_records
    (run : Run loopMachine LoopAdmits (LoopState.init timers watches) tr s) :
    RecordsLive s.loop.polls ∧ ∀ op, LoopAdmits tr s op → ∀ f,
      loopMachine.step s op = .error (.poll f) →
        f = .freed ∧ ∃ half ∈ s.pending, s.loop.polls.records half.1.ptr = none := by
  have sound := run_sound run
  refine ⟨sound.life.live, ?_⟩
  intro op admitted f fault
  have fault : loopStep s op = .error (.poll f) := fault
  cases loopStep_change sound admitted with
  | inl change =>
      obtain ⟨s', out, ok, _⟩ := change
      rw [fault] at ok
      cases ok
  | inr stale =>
      obtain ⟨f', same, stale⟩ := stale
      rw [fault] at same
      cases same
      exact stale f rfl

/-- No timers, and watchers that all have callback 7. -/
def quietLoop : LoopState Nat Nat Nat Nat :=
  LoopState.init ⟨Heap.HeapMod32.zeroed (fun _ => 0) fun _ => 0, 0, fun _ => none⟩
    fun _ => ⟨some 7, none⟩

/-- Descriptor 5 becomes readable; its callback closes it, reopens it and watches it. -/
def reopened : LoopState Nat Nat Nat Nat :=
  loopMachine.afterAll quietLoop [.watch 0 5 .read 0, .evloopStep,
    .epollWait (.events [⟨5, 0, epollIn⟩] 1), .close 5, .watch 1 5 .read 1]

theorem reopened_run : Run loopMachine LoopAdmits quietLoop
    [(.watch 1 5 .read 1, .done), (.close 5, .done),
      (.epollWait (.events [⟨5, 0, epollIn⟩] 1), .watchCall ⟨5, 0, epollIn⟩ .read 0 7),
      (.evloopStep, .waits (-1)), (.watch 0 5 .read 0, .done)] reopened := by
  have other : Unregistered (watchAt (fun _ _ => none) 5 .read 0) 1 :=
    (Unregistered.of_none 1).of_watch (by decide)
  refine .snoc (.snoc (.snoc (.snoc (.snoc .nil ⟨by decide, .of_none 0, rfl, ⟨7, rfl⟩, rfl⟩
    (Machine.step_eq rfl)) trivial (Machine.step_eq rfl)) ?_ (Machine.step_eq rfl)) trivial
    (Machine.step_eq rfl)) ⟨by decide, .of_close fun fd ev taken => absurd taken (other fd ev),
      rfl, ⟨7, rfl⟩, rfl⟩ (Machine.step_eq rfl)
  intro event inside
  cases List.mem_singleton.mp inside
  rfl

theorem loopRun_keeps_records_reopened : RecordsLive reopened.loop.polls :=
  (loopRun_keeps_records reopened_run).1

end CThread.Poll
