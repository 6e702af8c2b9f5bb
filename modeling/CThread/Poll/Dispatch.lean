import CThread.Poll.Runs

/-!
The dispatch loop under callbacks that watch, unwatch, close and reopen descriptors. A record
that a callback closes keeps its memory and loses its watchers until the next pass, so the
halves that are left find either the record that the table still has, or one that no
watcher is on.
-/
namespace CThread.Poll
open Faults GuardedRuns Timers
variable {ρ ω τ φ : Type} {e e' : Pollers ρ ω φ} {slot : Int → EvEvent → Option ω}
  {start : Option ρ} {fd : Int} {p : ρ}

/-- What the dispatch loop finds under an event of its batch. -/
structure EventSafe (e : Pollers ρ ω φ) (closed : List Int) (event : Event ρ) : Prop where
  alive : ∃ r, e.records event.ptr = some r
  opened : event.fd ∉ closed → e.table event.fd = some event.ptr
  gone : event.fd ∈ closed → ∀ r, e.records event.ptr = some r → r.fd = -1

theorem Closed.eventSafe {closed : List Int} {event : Event ρ} (step : Closed e e' fd)
    (safe : EventSafe e closed event) : EventSafe e' (fd :: closed) event := by
  obtain ⟨r, record⟩ := safe.alive
  constructor
  · by_cases here : e.table fd = some event.ptr
    · obtain ⟨r', record', _⟩ := step.gone event.ptr here
      exact ⟨r', record'⟩
    · exact ⟨r, step.others event.ptr r record here⟩
  · intro notClosed
    obtain ⟨other, notClosed⟩ := not_or.mp fun either => notClosed (List.mem_cons.mpr either)
    rw [step.table, Function.update_of_ne other]
    exact safe.opened notClosed
  · intro isClosed r' record'
    by_cases before : event.fd ∈ closed
    · by_cases alive : r'.fd = -1
      · exact alive
      · exact safe.gone before r' (step.old event.ptr r' record' alive)
    · have here : event.fd = fd := (List.mem_cons.mp isClosed).resolve_right before
      obtain ⟨r'', record'', out⟩ := step.gone event.ptr (here ▸ safe.opened before)
      rw [record'] at record''
      cases record''
      exact out

theorem Touched.eventSafe {closed : List Int} {event : Event ρ} (touched : Touched e e' fd p)
    (life : Lifetime e' slot start) (safe : EventSafe e closed event) :
    EventSafe e' closed event := by
  obtain ⟨r, record⟩ := safe.alive
  by_cases here : event.ptr = p
  · obtain ⟨_, r', record', _⟩ := life.table fd p touched.home
    refine ⟨⟨r', by rw [here]; exact record'⟩, ?_, ?_⟩
    · intro notClosed
      have inside := safe.opened notClosed
      by_cases same : event.fd = fd
      · rw [same, here]
        exact touched.home
      · exact (touched.table event.fd same).trans inside
    · intro isClosed
      exact absurd (safe.gone isClosed r record) (touched.alive r (here ▸ record))
  · have kept := touched.records event.ptr here
    refine ⟨⟨r, kept.trans record⟩, ?_, ?_⟩
    · intro notClosed
      have inside := safe.opened notClosed
      by_cases same : event.fd = fd
      · exact absurd (touched.same event.ptr (same ▸ inside)) here
      · exact (touched.table event.fd same).trans inside
    · intro isClosed r' record'
      exact safe.gone isClosed r' (kept.symm.trans record')

/-- A watcher that the dispatch loop calls. -/
structure CallSafe (g : Registry ρ ω) (e : Pollers ρ ω φ) (event : Event ρ) (ev : EvEvent)
    (w : ω) (fn : φ) : Prop where
  reported : event ∈ g.batch
  opened : event.fd ∉ g.closed
  registered : g.slot event.fd ev = some w
  table : e.table event.fd = some event.ptr
  record : ∃ r, e.records event.ptr = some r ∧ r.fd = event.fd ∧ r.slot ev = some w
  callback : (e.watches w).fn = some fn
  ready : event.events &&& ev.wakeup ≠ 0

structure BatchSafe (s : LoopState ρ ω τ φ) (g : Registry ρ ω) : Prop where
  events : ∀ half ∈ s.pending, half.1 ∈ g.batch ∧ EventSafe s.loop.polls g.closed half.1
  waiting : s.waiting ≠ none → s.pending = []

variable {s s' : LoopState ρ ω τ φ} {g : Registry ρ ω}

/-- What the dispatch loop calls is registered. -/
theorem Ringing.callSafe {todo : List (Event ρ × EvEvent)} {call : WatchCall ρ ω φ}
    (rings : Ringing e todo call) (sound : Sound e g.slot)
    (safe : ∀ half ∈ todo, half.1 ∈ g.batch ∧ EventSafe e g.closed half.1) :
    CallSafe g e call.event call.ev call.watch call.fn := by
  obtain ⟨passed, split⟩ := rings.split
  obtain ⟨r, record, taken⟩ := rings.record
  have inside : (call.event, call.ev) ∈ todo := by
    rw [split]
    exact List.mem_append_right _ (.head _)
  obtain ⟨reported, event⟩ := safe _ inside
  obtain ⟨home, registered, _⟩ := sound.life.callback sound.reg record taken
  have opened : call.event.fd ∉ g.closed := by
    intro isClosed
    exact sound.life.not_both home record (event.gone isClosed r record)
  have table := event.opened opened
  have same : r.fd = call.event.fd := sound.life.home table record
  exact ⟨reported, opened, same ▸ registered, table, ⟨r, record, same, taken⟩, rings.fn,
    rings.ready⟩

variable [DecidableEq ω]

/-- `LoopAdmits`, and no callback runs `evloop_step` while its own batch has events left. -/
def DispatchAdmits (tr : Trace (LoopOp ρ ω τ φ) (LoopOutput ρ ω τ φ))
    (s : LoopState ρ ω τ φ) (op : LoopOp ρ ω τ φ) : Prop :=
  LoopAdmits tr s op ∧ ∀ _ : op = .evloopStep, s.pending = []

/-- The halves that a dispatch loop starts with, and the ones its callers have left. -/
theorem Source.safe {op : LoopOp ρ ω τ φ} {outer : List (LoopFrame ρ)}
    {todo : List (Event ρ × EvEvent)} (source : Source s op outer todo)
    (sound : Sound s.loop.polls g.slot) (batch : BatchSafe s g)
    (admitted : g.Admits s.loop.polls op) (out : LoopOutput ρ ω τ φ) :
    ∀ half ∈ todo ++ outer.flatMap LoopFrame.pending, half.1 ∈ (g.next op out).batch ∧
      EventSafe s.loop.polls (g.next op out).closed half.1 := by
  cases source with
  | @deliver evs now waiting =>
      have empty : s.frames.flatMap LoopFrame.pending = [] := batch.waiting waiting
      rw [empty, List.append_nil]
      intro half inside
      have reported : half.1 ∈ evs := mem_halves inside
      have table : s.loop.polls.table half.1.fd = some half.1.ptr := admitted half.1 reported
      obtain ⟨_, r, record, _⟩ := sound.life.table _ _ table
      exact ⟨reported, ⟨r, record⟩, fun _ => table, fun absurd => by cases absurd⟩
  | resume frames =>
      intro half inside
      refine batch.events half ?_
      rw [LoopState.pending, frames]
      exact inside

variable [DecidableEq ρ]

theorem LoopChange.batchSafe {op : LoopOp ρ ω τ φ} {out : LoopOutput ρ ω τ φ}
    (change : LoopChange s g op s' out) (sound : Sound s.loop.polls g.slot)
    (sound' : Sound s'.loop.polls (g.next op out).slot) (admitted : g.Admits s.loop.polls op)
    (unnested : ∀ _ : op = .evloopStep, s.pending = []) (batch : BatchSafe s g) :
    BatchSafe s' (g.next op out) := by
  cases change with
  | touch touched calm =>
      refine ⟨?_, batch.waiting⟩
      rw [calm]
      intro half inside
      obtain ⟨reported, safe⟩ := batch.events half inside
      exact ⟨reported, touched.eventSafe sound'.life safe⟩
  | close closed =>
      refine ⟨?_, batch.waiting⟩
      intro half inside
      obtain ⟨reported, safe⟩ := batch.events half inside
      exact ⟨reported, closed.eventSafe safe⟩
  | stay records table kernel pending waiting calm answers =>
      rw [calm]
      refine ⟨?_, fun waits => pending.trans (batch.waiting (waiting waits))⟩
      rw [pending]
      intro half inside
      obtain ⟨reported, safe⟩ := batch.events half inside
      refine ⟨reported, ?_, ?_, ?_⟩
      · rw [records]
        exact safe.alive
      · rw [table]
        exact safe.opened
      · rw [records]
        exact safe.gone
  | pass run =>
      have empty : s.pending = [] := unnested rfl
      refine ⟨?_, fun _ => empty⟩
      intro half inside
      have inside : half ∈ s.pending := inside
      rw [empty] at inside
      cases inside
  | finish source polls =>
      refine ⟨?_, fun absurd => (absurd rfl).elim⟩
      intro half inside
      rw [polls]
      exact source.safe sound batch admitted _ half (List.mem_append_right _ inside)
  | @ring _ _ outer todo call source polls rings =>
      refine ⟨?_, fun absurd => (absurd rfl).elim⟩
      intro half inside
      rw [polls]
      refine source.safe sound batch admitted _ half ?_
      obtain ⟨passed, split⟩ := rings.split
      rw [split, List.append_assoc]
      exact List.mem_append_right _ (.tail _ inside)

variable [DecidableEq τ] {timers : EvTimers τ φ} {watches : ω → Evwatch ρ φ}
  {tr : Trace (LoopOp ρ ω τ φ) (LoopOutput ρ ω τ φ)}

theorem run_batchSafe
    (run : Run loopMachine DispatchAdmits (LoopState.init timers watches) tr s) :
    Sound s.loop.polls (registry tr).slot ∧ BatchSafe s (registry tr) := by
  refine Run.invariant (P := fun tr s => Sound s.loop.polls (registry tr).slot ∧
    BatchSafe s (registry tr)) ⟨init_sound, ⟨?_, ?_⟩⟩ ?_ run
  · exact fun half inside => by cases inside
  · exact fun absurd => (absurd rfl).elim
  intro tr s op s' out ⟨sound, batch⟩ ⟨admitted, unnested⟩ stepped
  obtain ⟨sound', change⟩ := step_change sound admitted stepped
  exact ⟨sound', change.batchSafe sound sound' admitted unnested batch⟩

/-- Whatever the callbacks do, the dispatch loop reads no freed record and calls no `NULL`,
and each watcher it calls is registered at that moment, on the record of the event and in the
direction of the call, and the descriptor was not closed since the event was collected. -/
theorem dispatchRun_safe
    (run : Run loopMachine DispatchAdmits (LoopState.init timers watches) tr s)
    {op : LoopOp ρ ω τ φ} (admitted : DispatchAdmits tr s op) :
    (∀ f, loopMachine.step s op ≠ .error (.poll f)) ∧
    ∀ s' event ev w fn, loopMachine.step s op = .ok (s', .watchCall event ev w fn) →
      CallSafe (registry ((op, .watchCall event ev w fn) :: tr)) s'.loop.polls event ev w fn := by
  obtain ⟨sound, batch⟩ := run_batchSafe run
  constructor
  · intro f fault
    have fault : loopStep s op = .error (.poll f) := fault
    cases loopStep_change sound admitted.1 with
    | inl change =>
        obtain ⟨s', out, ok, _⟩ := change
        rw [fault] at ok
        cases ok
    | inr stale =>
        obtain ⟨f', same, stale⟩ := stale
        rw [fault] at same
        cases same
        obtain ⟨_, half, inside, gone⟩ := stale f rfl
        obtain ⟨r, record⟩ := (batch.events half inside).2.alive
        rw [gone] at record
        cases record
  · intro s' event ev w fn called
    obtain ⟨sound', change⟩ := step_change sound admitted.1 called
    cases change with
    | stay records table kernel pending waiting calm answers => exact answers.elim
    | ring source polls rings =>
        show CallSafe _ (Evloop.polls _) _ _ _ _
        rw [polls] at sound' ⊢
        refine rings.callSafe sound' fun half inside => ?_
        exact source.safe sound batch admitted.1 _ half (List.mem_append_left _ inside)

/-- Descriptors 5, 6 and 7 are watched and become readable. The callback of the first closes 6
and discards its watcher, and the number comes back with another watcher on it. -/
def collecting : LoopState Nat Nat Nat Nat :=
  loopMachine.afterAll quietLoop [.watch 0 5 .read 0, .watch 1 6 .read 1, .watch 2 7 .read 2,
    .evloopStep, .epollWait (.events [⟨5, 0, epollIn⟩, ⟨6, 1, epollIn⟩, ⟨7, 2, epollIn⟩] 1),
    .close 6, .setWatch 1 ⟨none, none⟩, .watch 3 6 .read 3]

def collectingTrace : Trace (LoopOp Nat Nat Nat Nat) (LoopOutput Nat Nat Nat Nat) :=
  [(.watch 3 6 .read 3, .done), (.setWatch 1 ⟨none, none⟩, .done), (.close 6, .done),
    (.epollWait (.events [⟨5, 0, epollIn⟩, ⟨6, 1, epollIn⟩, ⟨7, 2, epollIn⟩] 1),
      .watchCall ⟨5, 0, epollIn⟩ .read 0 7),
    (.evloopStep, .waits (-1)), (.watch 2 7 .read 2, .done), (.watch 1 6 .read 1, .done),
    (.watch 0 5 .read 0, .done)]

theorem collecting_run : Run loopMachine DispatchAdmits quietLoop collectingTrace collecting := by
  have none : ∀ w : Nat, Unregistered (fun _ _ => none) w := Unregistered.of_none
  have fresh : Unregistered (watchAt (watchAt (watchAt (fun _ _ => .none) 5 .read 0) 6 .read 1)
      7 .read 2) 3 :=
    (((none 3).of_watch (by decide)).of_watch (by decide)).of_watch (by decide)
  refine .snoc (.snoc (.snoc (.snoc (.snoc (.snoc (.snoc (.snoc .nil
    ⟨⟨by decide, none 0, rfl, ⟨7, rfl⟩, rfl⟩, fun same => by cases same⟩ (Machine.step_eq rfl))
    ⟨⟨by decide, (none 1).of_watch (by decide), rfl, ⟨7, rfl⟩, rfl⟩, fun same => by cases same⟩
      (Machine.step_eq rfl))
    ⟨⟨by decide, ((none 2).of_watch (by decide)).of_watch (by decide), rfl, ⟨7, rfl⟩, rfl⟩,
      fun same => by cases same⟩ (Machine.step_eq rfl))
    ⟨trivial, fun _ => rfl⟩ (Machine.step_eq rfl))
    ⟨?_, fun same => by cases same⟩ (Machine.step_eq rfl))
    ⟨trivial, fun same => by cases same⟩ (Machine.step_eq rfl))
    ⟨Unregistered.of_close ?_, fun same => by cases same⟩ (Machine.step_eq rfl))
    ⟨⟨by decide, Unregistered.of_close ?_, rfl, ⟨7, rfl⟩, rfl⟩, fun same => by cases same⟩
    (Machine.step_eq rfl)
  · intro event inside
    simp only [List.mem_cons, List.not_mem_nil, or_false] at inside
    rcases inside with rfl | rfl | rfl <;> rfl
  · -- Watcher 1 is on descriptor 6 only.
    intro fd ev taken
    rcases watchAt_eq_some.mp taken with ⟨_, _, same⟩ | ⟨_, before⟩
    · exact absurd same (by decide)
    · rcases watchAt_eq_some.mp before with ⟨here, _⟩ | ⟨_, before⟩
      · exact here
      · exact absurd before ((none 1).of_watch (by decide) fd ev)
  · exact fun fd ev taken => absurd taken (fresh fd ev)

/-- The event of the old 6 finds nobody, and the watcher of 7 is next. -/
theorem dispatchRun_safe_collecting : (registry collectingTrace).slot 6 .read = some 3 ∧
    CallSafe (registry ((.callbackReturn, .watchCall ⟨7, 2, epollIn⟩ .read 2 7) ::
        collectingTrace))
      (loopMachine.after collecting .callbackReturn).loop.polls ⟨7, 2, epollIn⟩ .read 2 7 :=
  have admitted : DispatchAdmits collectingTrace collecting .callbackReturn :=
    ⟨trivial, fun same => by cases same⟩
  ⟨rfl, (dispatchRun_safe collecting_run admitted).2 _ _ _ _ _ (Machine.step_eq rfl)⟩

end CThread.Poll
