import CThread.Poll.Runs

/-!
The masks the kernel has. The pass compares the wanted mask with bits of `flags` that it never
stores, so it takes the kernel to have no mask at all. A wanted mask that is not zero is told
again on every change, and one that has become zero is never told.
-/
namespace CThread.Poll
open Faults GuardedRuns Timers
variable {ρ ω τ φ : Type} {e e' : Pollers ρ ω φ} {slot : Int → EvEvent → Option ω}
  {start : Option ρ} {fd : Int} {p : ρ} {r : EvloopPoll ρ ω}

/-- What the registered watchers of a descriptor want to hear. -/
def wanted (slot : Int → EvEvent → Option ω) (fd : Int) : Flags :=
  (if (slot fd .read).isSome then epollIn ||| epollHup else 0) |||
    (if (slot fd .write).isSome then epollOut else 0)

/-- The mask the kernel has, without `EPOLLET`. -/
def EpollEvent.mask (k : EpollEvent ρ) : Flags := k.events &&& ~~~epollEt

structure InterestTold (e : Pollers ρ ω φ) (slot : Int → EvEvent → Option ω) : Prop where
  exact : ∀ fd p k, e.table fd = some p → e.kernel fd = some k → k.mask = wanted slot fd
  known : ∀ fd ev w, slot fd ev = some w → ∃ k, e.kernel fd = some k

def Watched (slot : Int → EvEvent → Option ω) (fd : Int) : Prop :=
  ∃ ev w, slot fd ev = some w

theorem wanted_eq_zero : wanted slot fd = 0 ↔ ¬ Watched slot fd := by
  constructor
  · intro zero ⟨ev, w, taken⟩
    revert zero
    cases ev with
    | read => cases other : slot fd .write <;> simp [wanted, taken, other] <;> decide
    | write => cases other : slot fd .read <;> simp [wanted, taken, other] <;> decide
  · intro empty
    have vacant : ∀ ev, slot fd ev = none := by
      intro ev
      cases taken : slot fd ev with
      | none => rfl
      | some w => exact absurd ⟨ev, w, taken⟩ empty
    simp [wanted, vacant]

theorem wanted_eq_interest (same : ∀ ev, r.slot ev = slot fd ev) :
    wanted slot fd = r.interest := by
  have rd : r.rd = slot fd .read := same .read
  have wr : r.wr = slot fd .write := same .write
  rw [wanted, EvloopPoll.interest, rd, wr]

theorem Lifetime.wanted_eq (life : Lifetime e slot start) (inside : e.table fd = some p)
    (record : e.records p = some r) : wanted slot fd = r.interest :=
  wanted_eq_interest fun ev => life.slots fd p r ev inside record

theorem mask_interest (r : EvloopPoll ρ ω) (p : ρ) :
    EpollEvent.mask ⟨r.interest ||| epollEt, p⟩ = r.interest := by
  show (r.interest ||| epollEt) &&& ~~~epollEt = r.interest
  unfold EvloopPoll.interest
  cases r.rd.isSome <;> cases r.wr.isSome <;> decide

/-- The kernel never has an empty mask, and for a clean record it has the mask that is wanted
now, unless that is empty. -/
structure LastTold (e : Pollers ρ ω φ) : Prop where
  nonempty : ∀ fd k, e.kernel fd = some k → k.mask ≠ 0
  clean : ∀ fd p r, e.table fd = some p → e.records p = some r → r.isDirty = false →
    r.interest ≠ 0 → ∃ k, e.kernel fd = some k ∧ k.mask = r.interest

/-- The pass makes known what is watched and forgets nothing. -/
structure KnownFrom (e₀ e : Pollers ρ ω φ) (slot : Int → EvEvent → Option ω) : Prop where
  back : ∀ fd k, e.kernel fd = some k → (∃ k, e₀.kernel fd = some k) ∨ Watched slot fd
  forth : ∀ fd k, e₀.kernel fd = some k → ∃ k, e.kernel fd = some k

/-- Only dirty records differ, and the kernel was told nothing. -/
theorem LastTold.congr (told : LastTold e) (kernel : e'.kernel = e.kernel)
    (same : ∀ fd p r, e'.table fd = some p → e'.records p = some r → r.isDirty = false →
      e.table fd = some p ∧ e.records p = some r) : LastTold e' := by
  constructor
  · rw [kernel]
    exact told.nonempty
  · intro fd p r inside record clean want
    obtain ⟨inside, record⟩ := same fd p r inside record clean
    rw [kernel]
    exact told.clean fd p r inside record clean want

theorem Closed.lastTold {fd : Int} (closed : Closed e e' fd) (life : Lifetime e' slot start)
    (told : LastTold e) : LastTold e' := by
  constructor
  · intro fd' k known
    rw [closed.kernel] at known
    by_cases here : fd' = fd
    · subst here
      simp at known
    · exact told.nonempty fd' k ((Function.update_of_ne here ..).symm.trans known)
  · intro fd' p r inside record clean want
    have old := closed.old p r record (life.not_both inside record)
    rw [closed.table] at inside
    rw [closed.kernel]
    by_cases here : fd' = fd
    · subst here
      simp at inside
    · rw [Function.update_of_ne here] at inside ⊢
      exact told.clean fd' p r inside old clean want

theorem Lifetime.all_clean (life : Lifetime e slot none) (record : e.records p = some r) :
    r.isDirty = false := by
  obtain ⟨ds, chain, _, exactly⟩ := life.chain
  cases dirty : r.isDirty with
  | false => rfl
  | true =>
      have inside := (exactly p).mpr ⟨r, record, dirty⟩
      rw [chain.eq_nil] at inside
      cases inside

/-- A record that is clean after one was touched is another one. -/
theorem Touched.clean {fd fd' : Int} {q : ρ} (touched : Touched e e' fd p)
    (inside : e'.table fd' = some q) (record : e'.records q = some r)
    (clean : r.isDirty = false) :
    fd' ≠ fd ∧ e.table fd' = some q ∧ e.records q = some r := by
  have other : q ≠ p := by
    intro same
    subst same
    rw [touched.dirty r record] at clean
    cases clean
  have away : fd' ≠ fd := by
    intro same
    subst same
    rw [touched.home] at inside
    cases inside
    exact other rfl
  exact ⟨away, (touched.table fd' away).symm.trans inside,
    (touched.records q other).symm.trans record⟩

theorem Touched.lastTold {fd : Int} (touched : Touched e e' fd p) (told : LastTold e) :
    LastTold e' :=
  told.congr touched.kernel fun _ _ _ inside record clean =>
    (touched.clean inside record clean).2

variable [DecidableEq ρ]

theorem Flushed.lastTold (flushed : Flushed e p r e') (life : Lifetime e slot (some p))
    (record : e.records p = some r) (told : LastTold e) : LastTold e' := by
  cases flushed with
  | freed gone =>
      refine told.congr rfl fun fd q r' inside record' _ => ⟨inside, ?_⟩
      by_cases same : q = p
      · subst same
        simp [dropRecord] at record'
      · exact (Function.update_of_ne same ..).symm.trans record'
  | skipped opened unwanted =>
      refine ⟨told.nonempty, ?_⟩
      intro fd q r' inside record' clean want
      by_cases same : q = p
      · subst same
        have whole : cleaned r r.isAdded = r' := by simpa [Pollers.put] using record'
        rw [← whole] at want
        exact absurd unwanted want
      · exact told.clean fd q r' inside ((Function.update_of_ne same ..).symm.trans record')
          clean want
  | told opened want =>
      have member := life.inside record opened
      constructor
      · intro fd k known
        by_cases here : fd = r.fd
        · subst here
          have whole : (⟨r.interest ||| epollEt, p⟩ : EpollEvent ρ) = k := by simpa using known
          rw [← whole, mask_interest]
          exact want
        · exact told.nonempty fd k ((Function.update_of_ne here ..).symm.trans known)
      · intro fd q r' inside record' clean want'
        by_cases same : q = p
        · subst same
          have whole : cleaned r true = r' := by simpa [Pollers.put] using record'
          rw [life.table_inj inside member, ← whole]
          exact ⟨_, Function.update_self .., mask_interest r q⟩
        · have away : fd ≠ r.fd := by
            intro here
            have inside : e.table fd = some q := inside
            rw [here, member] at inside
            cases inside
            exact same rfl
          obtain ⟨k, now, mask⟩ := told.clean fd q r' inside
            ((Function.update_of_ne same ..).symm.trans record') clean want'
          exact ⟨k, (Function.update_of_ne away ..).trans now, mask⟩

theorem Flushed.knownFrom {e₀ : Pollers ρ ω φ} (flushed : Flushed e p r e')
    (life : Lifetime e slot (some p)) (record : e.records p = some r)
    (known : KnownFrom e₀ e slot) : KnownFrom e₀ e' slot := by
  cases flushed with
  | freed gone => exact ⟨known.back, known.forth⟩
  | skipped opened unwanted => exact ⟨known.back, known.forth⟩
  | told opened want =>
      have watched : Watched slot r.fd := by
        have nonzero := want
        rw [← life.wanted_eq (life.inside record opened) record] at nonzero
        exact not_not.mp fun empty => nonzero (wanted_eq_zero.mpr empty)
      constructor
      · intro fd k now
        by_cases here : fd = r.fd
        · rw [here]
          exact .inr watched
        · exact known.back fd k ((Function.update_of_ne here ..).symm.trans now)
      · intro fd k before
        by_cases here : fd = r.fd
        · subst here
          exact ⟨_, Function.update_self ..⟩
        · obtain ⟨k', still⟩ := known.forth fd k before
          exact ⟨k', (Function.update_of_ne here ..).trans still⟩

theorem Sound.flush_told (sound : Sound e slot) (told : LastTold e) {e' : Pollers ρ ω φ}
    (run : flushDirty e = .ok e') :
    Lifetime e' slot none ∧ LastTold e' ∧ KnownFrom e e' slot := by
  have start : KnownFrom e e slot :=
    ⟨fun fd k known => .inl ⟨k, known⟩, fun fd k known => ⟨k, known⟩⟩
  obtain ⟨e₁, run₁, _, _, life, told', known⟩ := sound.flush
    (fun e₁ _ => LastTold e₁ ∧ KnownFrom e e₁ slot)
    (fun _ _ _ _ life record flushed both => ⟨flushed.lastTold life record both.1,
      flushed.knownFrom life record both.2⟩) ⟨told, start⟩
  rw [run] at run₁
  cases run₁
  exact ⟨life.restart, ⟨told'.nonempty, told'.clean⟩, ⟨known.back, known.forth⟩⟩

/-- The pass is right about the kernel exactly when no descriptor the kernel has has lost all
its watchers. -/
theorem Sound.flush_told_iff (sound : Sound e slot) (told : LastTold e) {e' : Pollers ρ ω φ}
    (run : flushDirty e = .ok e') :
    InterestTold e' slot ↔ ∀ fd k, e.kernel fd = some k → Watched slot fd := by
  obtain ⟨life, told', known⟩ := sound.flush_told told run
  constructor
  · intro right fd k before
    obtain ⟨k', now⟩ := known.forth fd k before
    have nonzero := told'.nonempty fd k' now
    rw [right.exact fd _ k' (life.kernel fd k' now) now] at nonzero
    exact not_not.mp fun empty => nonzero (wanted_eq_zero.mpr empty)
  · intro watched
    constructor
    · intro fd p k inside now
      obtain ⟨_, r, record, _⟩ := life.table fd p inside
      have watched : Watched slot fd :=
        (known.back fd k now).elim (fun ⟨k', before⟩ => watched fd k' before) id
      have want : r.interest ≠ 0 := by
        rw [← life.wanted_eq inside record]
        exact fun zero => wanted_eq_zero.mp zero watched
      obtain ⟨k', now', mask⟩ := told'.clean fd p r inside record (life.all_clean record) want
      rw [now] at now'
      cases now'
      rw [life.wanted_eq inside record, mask]
    · intro fd ev w taken
      cases inside : e'.table fd with
      | none =>
          rw [life.vacant fd ev inside] at taken
          cases taken
      | some p =>
          obtain ⟨_, r, record, _⟩ := life.table fd p inside
          have want : r.interest ≠ 0 := by
            rw [← life.wanted_eq inside record]
            exact fun zero => wanted_eq_zero.mp zero ⟨ev, w, taken⟩
          obtain ⟨k, now, _⟩ := told'.clean fd p r inside record (life.all_clean record) want
          exact ⟨k, now⟩

variable [DecidableEq ω] [DecidableEq τ] {s s' : LoopState ρ ω τ φ}
  {timers : EvTimers τ φ} {watches : ω → Evwatch ρ φ}
  {tr : Trace (LoopOp ρ ω τ φ) (LoopOutput ρ ω τ φ)}

theorem run_lastTold (run : Run loopMachine LoopAdmits (LoopState.init timers watches) tr s) :
    Sound s.loop.polls (registry tr).slot ∧ LastTold s.loop.polls := by
  refine Run.invariant (P := fun tr s => Sound s.loop.polls (registry tr).slot ∧
    LastTold s.loop.polls) ⟨init_sound, ⟨?_, ?_⟩⟩ ?_ run
  · exact fun fd k absurd => by cases absurd
  · exact fun fd p r absurd => by cases absurd
  intro tr s op s' out ⟨sound, told⟩ admitted stepped
  obtain ⟨sound', change⟩ := step_change sound admitted stepped
  refine ⟨sound', ?_⟩
  cases change with
  | touch touched calm => exact touched.lastTold told
  | close closed => exact closed.lastTold sound'.life told
  | stay records table kernel pending waiting calm answers =>
      refine told.congr kernel fun fd p r inside record _ => ?_
      rw [table] at inside
      rw [records] at record
      exact ⟨inside, record⟩
  | pass run => exact (sound.flush_told told run).2.1
  | finish source polls =>
      rw [polls]
      exact told
  | ring source polls rings =>
      show LastTold (Evloop.polls _)
      rw [polls]
      exact told

/-- After a pass the kernel's masks are those of the registered watchers exactly when, before
it, every descriptor that the kernel has was watched. -/
theorem passRun_told_iff
    (run : Run loopMachine LoopAdmits (LoopState.init timers watches) tr s) {timeout : Int}
    (passed : loopMachine.step s .evloopStep = .ok (s', .waits timeout)) :
    InterestTold s'.loop.polls (registry tr).slot ↔
      ∀ fd k, s.loop.polls.kernel fd = some k → Watched (registry tr).slot fd := by
  obtain ⟨sound, told⟩ := run_lastTold run
  have admitted : LoopAdmits tr s .evloopStep := trivial
  obtain ⟨_, change⟩ := step_change sound admitted passed
  cases change with
  | stay records table kernel pending waiting calm answers => exact answers.elim
  | pass run => exact sound.flush_told_iff told run

/-- Descriptor 5 becomes readable, and its watcher is called. -/
def calledBack : LoopState Nat Nat Nat Nat :=
  loopMachine.afterAll quietLoop [.watch 0 5 .read 0, .evloopStep,
    .epollWait (.events [⟨5, 0, epollIn⟩] 1)]

def calledBackTrace : Trace (LoopOp Nat Nat Nat Nat) (LoopOutput Nat Nat Nat Nat) :=
  [(.epollWait (.events [⟨5, 0, epollIn⟩] 1), .watchCall ⟨5, 0, epollIn⟩ .read 0 7),
    (.evloopStep, .waits (-1)), (.watch 0 5 .read 0, .done)]

theorem calledBack_run : Run loopMachine LoopAdmits quietLoop calledBackTrace calledBack := by
  refine .snoc (.snoc (.snoc .nil ⟨by decide, .of_none 0, rfl, ⟨7, rfl⟩, rfl⟩
    (Machine.step_eq rfl)) trivial (Machine.step_eq rfl)) ?_ (Machine.step_eq rfl)
  intro event inside
  cases List.mem_singleton.mp inside
  rfl

/-- The watcher stays, and descriptor 6 gets one as well. -/
def watchedBoth : LoopState Nat Nat Nat Nat :=
  loopMachine.afterAll calledBack [.watch 1 6 .write 1, .callbackReturn]

def watchedTrace : Trace (LoopOp Nat Nat Nat Nat) (LoopOutput Nat Nat Nat Nat) :=
  (.callbackReturn, .returns 0) :: (.watch 1 6 .write 1, .done) :: calledBackTrace

theorem watchedBoth_run : Run loopMachine LoopAdmits quietLoop watchedTrace watchedBoth := by
  have other : Unregistered (watchAt (fun _ _ => none) 5 .read 0) 1 :=
    (Unregistered.of_none 1).of_watch (by decide)
  exact .snoc (.snoc calledBack_run ⟨by decide, other, rfl, ⟨7, rfl⟩, rfl⟩ (Machine.step_eq rfl))
    trivial (Machine.step_eq rfl)

/-- The kernel has descriptor 5 before the pass, and both of them after it. -/
theorem passRun_told_iff_watchedBoth :
    watchedBoth.loop.polls.kernel 5 = some ⟨epollIn ||| epollHup ||| epollEt, 0⟩ ∧
    InterestTold (loopMachine.after watchedBoth .evloopStep).loop.polls
      (registry watchedTrace).slot := by
  have stepped : loopMachine.step watchedBoth .evloopStep =
      .ok (loopMachine.after watchedBoth .evloopStep, .waits (-1)) := Machine.step_eq rfl
  refine ⟨rfl, (passRun_told_iff watchedBoth_run stepped).mpr fun fd k known => ?_⟩
  by_cases here : fd = 5
  · exact here ▸ ⟨.read, 0, rfl⟩
  · have unknown : watchedBoth.loop.polls.kernel fd = none := Function.update_of_ne here _ _
    rw [unknown] at known
    cases known

/-- The watcher takes itself away. -/
def forgotten : LoopState Nat Nat Nat Nat :=
  loopMachine.afterAll calledBack [.unwatch 0, .callbackReturn]

theorem forgotten_run : Run loopMachine LoopAdmits quietLoop
    ((.callbackReturn, .returns 0) :: (.unwatch 0, .done) :: calledBackTrace) forgotten :=
  .snoc (.snoc calledBack_run (.inl ⟨5, .read, rfl⟩) (Machine.step_eq rfl)) trivial
    (Machine.step_eq rfl)

/-- The kernel still reports a descriptor that nobody watches. -/
theorem pass_leaves_stale_mask :
    ∃ tr s s' timeout, Run loopMachine LoopAdmits quietLoop tr s ∧
      loopMachine.step s .evloopStep = .ok (s', .waits timeout) ∧
      ¬ InterestTold s'.loop.polls (registry tr).slot := by
  refine ⟨_, _, _, -1, forgotten_run, Machine.step_eq rfl, ?_⟩
  intro right
  have stale := right.exact 5 0 ⟨epollIn ||| epollHup ||| epollEt, 0⟩ rfl rfl
  exact absurd stale (by decide)

end CThread.Poll
