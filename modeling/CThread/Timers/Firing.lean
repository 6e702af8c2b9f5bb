import CThread.Timers.Delay
import Mathlib.Algebra.Order.BigOperators.Group.Finset

/-!
Whether the firing loop of `ev_step_timers` ends.

The clock does not move during a call, so a timer that its callback arms again is due
at once exactly when the delay is zero. Each due timer has its own countdown: the runs
left until its callback does anything else. The sum of these countdowns goes down with
every callback, whatever the heap picks next. A due timer without such a countdown stays
due, and in an ordered heap the head is then due too.
-/
namespace CThread.Timers
open SerialOrder Faults Heap
variable {τ φ : Type}

/-- The `n`-th time the callback of `t` runs in the call, it arms its timer again for the
given delay, or leaves it alone. -/
abbrev Choices (τ : Type) := τ → Nat → Option Delay

/-- The callback of `t` does something else than arming its timer for now. -/
def Choices.Quits (choose : Choices τ) (t : τ) (n : Nat) : Prop :=
  ∀ delay, choose t n = some delay → delay.msecs ≠ 0

/-- So does, at one of its runs, the callback of each timer that the call finds due. -/
def Choices.QuitsDue (choose : Choices τ) (e : EvTimers τ φ) (M : τ → Option (BitVec 32)) :
    Prop :=
  ∀ t x, M t = some x → signedDiff x e.now ≤ 0 → ∃ n, choose.Quits t n

/-- The deadlines in the heap, and those that the callbacks can add, lie in one half range
with the clock. -/
structure Choices.Fits (choose : Choices τ) (base : BitVec 32) (e : EvTimers τ φ)
    (M : τ → Option (BitVec 32)) : Prop where
  window : WindowAt base M
  clock : InWindow base e.now
  timeouts : ∀ t n delay, choose t n = some delay →
    2 * (offset base e.now + delay.msecs) < 2 ^ 32

variable [DecidableEq τ]

def runCallback (choose : Choices τ) (runs : τ → Nat) (e : EvTimers τ φ) (t : τ) (fn : φ) :
    Except TimerFault (EvTimers τ φ) :=
  match choose t (runs t) with
  | none => .ok e
  | some delay => evAlarm e t (evTimeout e delay.msecs) fn

/-- The `do`-loop with its callbacks; the bound is the number of callbacks allowed. -/
def firingLoop (choose : Choices τ) :
    Nat → (τ → Nat) → EvTimers τ φ × TimerOutcome τ φ →
      Except TimerFault (Option (EvTimers τ φ × Int))
  | _, _, (e, .returns r) => .ok (some (e, r))
  | 0, _, (_, .calls _ _) => .ok none
  | fuel + 1, runs, (e, .calls t fn) => do
      let e ← runCallback choose runs e t fn
      let first ← evStepTimersResume e
      firingLoop choose fuel (Function.update runs t (runs t + 1)) first

def evStepTimersWith (choose : Choices τ) (fuel : Nat) (e : EvTimers τ φ) :
    Except TimerFault (Option (EvTimers τ φ × Int)) := do
  let first ← evStepTimers e
  firingLoop choose fuel (fun _ => 0) first

/-- The call of `ev_step_timers` returns after finitely many callbacks. -/
def Ends (choose : Choices τ) (e : EvTimers τ φ) : Prop :=
  ∃ fuel e' r, evStepTimersWith choose fuel e = .ok (some (e', r))

/-- The runs left of a due timer. -/
def runsLeft (quit runs : τ → Nat) (M : τ → Option (BitVec 32)) (now : BitVec 32) (t : τ) :
    Nat :=
  match M t with
  | some x => if signedDiff x now ≤ 0 then quit t + 1 - runs t else 0
  | none => 0

/-- In the middle of a call: no due timer has run past the run at which it quits. -/
structure Counts (choose : Choices τ) (quit runs : τ → Nat) (armed : Finset τ)
    (e : EvTimers τ φ) (M : τ → Option (BitVec 32)) : Prop where
  hold : Holds e M
  inside : ∀ t, M t ≠ none → t ∈ armed
  within : ∀ t x, M t = some x → signedDiff x e.now ≤ 0 → runs t ≤ quit t
  quits : ∀ t x, M t = some x → signedDiff x e.now ≤ 0 → choose.Quits t (quit t)

omit [DecidableEq τ] in
theorem signedDiff_timeout (now : BitVec 32) (delay : Delay) :
    signedDiff (now + BitVec.ofInt 32 delay.msecs) now = delay.msecs := by
  have word : now = BitVec.ofInt 32 now.toInt := (BitVec.ofInt_toInt ..).symm
  have sum : now + BitVec.ofInt 32 delay.msecs = BitVec.ofInt 32 (now.toInt + delay.msecs) := by
    rw [BitVec.ofInt_add, ← word]
  have lower := delay.nonneg
  have upper := delay.bounded
  rw [signedDiff_ofInt sum word] <;> omega

section Countdown
variable {quit runs : τ → Nat} {armed : Finset τ} {e e' : EvTimers τ φ}
  {M M' : τ → Option (BitVec 32)} {t : τ} {x : BitVec 32} {choose : Choices τ}

/-- One callback of a due timer `t` that does not put it past its last run. -/
theorem Counts.next (counts : Counts choose quit runs armed e M) (due : M t = some x)
    (late : signedDiff x e.now ≤ 0) (hold : Holds e' M') (now : e'.now = e.now)
    (others : ∀ u, u ≠ t → M' u = M u)
    (again : ∀ y, M' t = some y → signedDiff y e.now ≤ 0 → runs t < quit t) :
    Counts choose quit (Function.update runs t (runs t + 1)) armed e' M' ∧
      ∑ u ∈ armed, runsLeft quit (Function.update runs t (runs t + 1)) M' e'.now u <
        ∑ u ∈ armed, runsLeft quit runs M e.now u := by
  have within := counts.within t x due late
  have left : runsLeft quit runs M e.now t = quit t + 1 - runs t := by
    simp [runsLeft, due, late]
  have member : t ∈ armed := counts.inside t (by rw [due]; exact Option.some_ne_none x)
  refine ⟨⟨hold, ?_, ?_, ?_⟩, ?_⟩
  · intro u present
    by_cases same : u = t
    · exact same ▸ member
    · exact counts.inside u (others u same ▸ present)
  · intro u y present soon
    rw [now] at soon
    by_cases same : u = t
    · subst same
      rw [Function.update_self]
      exact again y present soon
    · rw [Function.update_of_ne same]
      exact counts.within u y (others u same ▸ present) soon
  · intro u y present soon
    rw [now] at soon
    by_cases same : u = t
    · subst same
      exact counts.quits u x due late
    · exact counts.quits u y (others u same ▸ present) soon
  · rw [now]
    have fewer : runsLeft quit (Function.update runs t (runs t + 1)) M' e.now t <
        runsLeft quit runs M e.now t := by
      rw [left]
      unfold runsLeft
      rw [Function.update_self]
      split
      · next y present =>
          split
          · next soon =>
              have := again y present soon
              omega
          · omega
      · omega
    refine Finset.sum_lt_sum ?_ ⟨t, member, fewer⟩
    intro u _
    by_cases same : u = t
    · rw [same]
      exact Nat.le_of_lt fewer
    · simp only [runsLeft, others u same, Function.update_of_ne same]
      exact Nat.le_refl _

theorem Counts.callback (counts : Counts choose quit runs armed e M) (head : Head e M t x)
    (late : signedDiff x e.now ≤ 0) (fired : Fired M t e e') (fn : φ) :
    ∃ e₁ M₁, runCallback choose runs e' t fn = .ok e₁ ∧
      Counts choose quit (Function.update runs t (runs t + 1)) armed e₁ M₁ ∧
      ∑ u ∈ armed, runsLeft quit (Function.update runs t (runs t + 1)) M₁ e₁.now u <
        ∑ u ∈ armed, runsLeft quit runs M e.now u := by
  have hold := fired.holds counts.hold
  unfold runCallback
  cases choice : choose t (runs t) with
  | none =>
      refine ⟨e', Function.update M t none, rfl, counts.next head.armed late hold fired.now ?_ ?_⟩
      · exact fun u ne => Function.update_of_ne ne ..
      · intro y present
        simp at present
  | some delay =>
      obtain ⟨e₁, run, _, hold₁, now, _⟩ :=
        evAlarm_ok hold (Function.update_self ..) (evTimeout e' delay.msecs) fn
      rw [Function.update_idem] at hold₁
      refine ⟨e₁, _, run, counts.next head.armed late hold₁ (now.trans fired.now) ?_ ?_⟩
      · exact fun u ne => Function.update_of_ne ne ..
      · intro y present soon
        have word : evTimeout e' delay.msecs = y := by simpa using present
        rw [← word, evTimeout, fired.now, signedDiff_timeout] at soon
        have zero : delay.msecs = 0 := by
          have := delay.nonneg
          omega
        have unlike : runs t ≠ quit t := by
          intro same
          rw [same] at choice
          exact counts.quits t x head.armed late delay choice zero
        have := counts.within t x head.armed late
        omega

/-- The loop ends within as many callbacks as there are runs left. -/
theorem Counts.loop_ends (fuel : Nat) :
    ∀ {runs : τ → Nat} {e : EvTimers τ φ} {M : τ → Option (BitVec 32)},
      Counts choose quit runs armed e M → ∑ u ∈ armed, runsLeft quit runs M e.now u ≤ fuel →
        ∀ {r : Except TimerFault (EvTimers τ φ × TimerOutcome τ φ)},
          ((∃ k, r = .ok (e, .returns k)) ∨
            ∃ t x f e', Head e M t x ∧ signedDiff x e.now ≤ 0 ∧ r = .ok (e', .calls t f) ∧
              Fired M t e e') →
            ∃ e' k, (r >>= firingLoop choose fuel runs) = .ok (some (e', k)) := by
  induction fuel with
  | zero =>
      intro runs e M counts bound r split
      rcases split with ⟨k, run⟩ | ⟨t, x, f, e', head, late, run, fired⟩
      · exact ⟨e, k, by rw [run]; rfl⟩
      · obtain ⟨_, _, _, _, fewer⟩ := counts.callback head late fired f
        omega
  | succ fuel ih =>
      intro runs e M counts bound r split
      rcases split with ⟨k, run⟩ | ⟨t, x, f, e', head, late, run, fired⟩
      · exact ⟨e, k, by rw [run]; rfl⟩
      · obtain ⟨e₁, M₁, ran, counts₁, fewer⟩ := counts.callback head late fired f
        have next := evStepTimersResume_ok counts₁.hold
        obtain ⟨e₂, k, loops⟩ := ih counts₁ (by omega) (r := evStepTimersResume e₁) (by
          rcases next with ⟨_, run⟩ | ⟨_, _, _, _, run⟩ | fires
          · exact .inl ⟨0, run⟩
          · exact .inl ⟨0, run⟩
          · exact .inr fires)
        refine ⟨e₂, k, ?_⟩
        rw [run]
        simp only [ok_bind, firingLoop, ran]
        exact loops

/-- The timers in the heap. -/
def armedTimers (e : EvTimers τ φ) : Finset τ :=
  ((List.range (e.timers.size + 1)).filterMap fun k => (e.timers.v k).node).toFinset

theorem Holds.mem_armedTimers (hold : Holds e M) (present : M t ≠ none) : t ∈ armedTimers e := by
  obtain ⟨x, armed⟩ := Option.ne_none_iff_exists'.mp present
  obtain ⟨_, inside, entry⟩ := hold.represents.back t x armed
  rw [armedTimers, List.mem_toFinset, List.mem_filterMap]
  exact ⟨e.timers.index t, List.mem_range.mpr (by omega), by rw [entry]⟩

theorem Holds.ends (hold : Holds e M) (quits : choose.QuitsDue e M) : Ends choose e := by
  have counts : Counts choose (fun t => Classical.epsilon (choose.Quits t)) (fun _ => 0)
      (armedTimers e) e M :=
    ⟨hold, fun t present => hold.mem_armedTimers present, fun t x _ _ => Nat.zero_le _,
      fun t x armed late => Classical.epsilon_spec (quits t x armed late)⟩
  obtain ⟨e', k, loops⟩ := counts.loop_ends _ (Nat.le_refl _) (r := evStepTimers e) (by
    rcases evStepTimers_ok hold with ⟨_, run⟩ | ⟨_, _, _, _, run⟩ | fires
    · exact .inl ⟨-1, run⟩
    · exact .inl ⟨_, run⟩
    · exact .inr fires)
  exact ⟨_, e', k, loops⟩

end Countdown

section Busy
variable {choose : Choices τ} {base : BitVec 32} {e e' : EvTimers τ φ}
  {M : τ → Option (BitVec 32)} {t u : τ} {x y : BitVec 32}

/-- In the middle of a call: the timer `t` is due and the order of the heap is sound. -/
structure Busy (choose : Choices τ) (base : BitVec 32) (t : τ) (e : EvTimers τ φ)
    (M : τ → Option (BitVec 32)) : Prop where
  hold : Holds e M
  order : HeapOrdered e.timers
  fits : choose.Fits base e M
  due : ∃ x, M t = some x ∧ signedDiff x e.now ≤ 0

omit [DecidableEq τ] in
/-- The head of the heap is due as well, being no later. -/
theorem Busy.head_due (busy : Busy choose base t e M) (head : Head e M u y) :
    signedDiff y e.now ≤ 0 := by
  obtain ⟨x, armed, late⟩ := busy.due
  have first := head.first busy.hold busy.order busy.fits.window armed
  rw [signedDiff_of_window (busy.fits.window t x armed) busy.fits.clock] at late
  rw [signedDiff_of_window (busy.fits.window u y head.armed) busy.fits.clock]
  omega

omit [DecidableEq τ] in
theorem Busy.nonempty (busy : Busy choose base t e M) : ¬ ∀ u, M u = none := by
  intro empty
  obtain ⟨x, armed, _⟩ := busy.due
  rw [empty] at armed
  cases armed

theorem Busy.start (busy : Busy choose base t e M) :
    ∃ u y f e', Head e M u y ∧ evStepTimers e = .ok (e', .calls u f) ∧ Fired M u e e' := by
  rcases evStepTimers_ok busy.hold with ⟨empty, _⟩ | ⟨u, y, head, later, _⟩ |
    ⟨u, y, f, e', head, _, run, fired⟩
  · exact absurd empty busy.nonempty
  · have due := busy.head_due head
    omega
  · exact ⟨u, y, f, e', head, run, fired⟩

theorem Busy.resume (busy : Busy choose base t e M) :
    ∃ u y f e', Head e M u y ∧ evStepTimersResume e = .ok (e', .calls u f) ∧
      Fired M u e e' := by
  rcases evStepTimersResume_ok busy.hold with ⟨empty, _⟩ | ⟨u, y, head, later, _⟩ |
    ⟨u, y, f, e', head, _, run, fired⟩
  · exact absurd empty busy.nonempty
  · have due := busy.head_due head
    omega
  · exact ⟨u, y, f, e', head, run, fired⟩

omit [DecidableEq τ] in
theorem Choices.Fits.offset_timeout (fits : choose.Fits base e M) {n : Nat} {delay : Delay}
    (choice : choose t n = some delay) :
    (offset base (e.now + BitVec.ofInt 32 delay.msecs) : Int) =
      offset base e.now + delay.msecs := by
  have near := fits.timeouts t n delay choice
  have ahead := delay.nonneg
  have start : BitVec.ofInt 32 (base.toNat : Int) = base := by simp
  have word : BitVec.ofInt 32 ((base.toNat + offset base e.now : Int) + delay.msecs) =
      e.now + BitVec.ofInt 32 delay.msecs := by
    rw [BitVec.ofInt_add, ← eq_ofInt_offset]
  have distance := offset_ofInt (w := 32) base.toNat
    ((base.toNat + offset base e.now : Int) + delay.msecs) (by omega) (by omega)
  rw [start, word] at distance
  omega

/-- The callback of `t` leaves `t` due, and no other callback hides it. -/
theorem Busy.callback (busy : Busy choose base t e M) (never : ¬ ∃ n, choose.Quits t n)
    (fired : Fired M u e e') (fn : φ) (runs : τ → Nat) :
    ∃ e₁ M₁, runCallback choose runs e' u fn = .ok e₁ ∧ Busy choose base t e₁ M₁ := by
  have hold := fired.holds busy.hold
  have order := fired.order ⟨base, busy.fits.window⟩ busy.order
  obtain ⟨x, armed, late⟩ := busy.due
  unfold runCallback
  cases choice : choose u (runs u) with
  | none =>
      have other : t ≠ u := by
        intro same
        subst same
        exact never ⟨runs t, fun delay again => by rw [choice] at again; cases again⟩
      refine ⟨e', _, rfl, hold, order, ⟨busy.fits.window.erase u, ?_, ?_⟩, x, ?_, ?_⟩
      · rw [fired.now]
        exact busy.fits.clock
      · rw [fired.now]
        exact busy.fits.timeouts
      · rw [Function.update_of_ne other]
        exact armed
      · rw [fired.now]
        exact late
  | some delay =>
      obtain ⟨e₁, run, _, hold₁, now, ordered⟩ :=
        evAlarm_ok hold (Function.update_self ..) (evTimeout e' delay.msecs) fn
      have clock : e₁.now = e.now := now.trans fired.now
      have word : evTimeout e' delay.msecs = e.now + BitVec.ofInt 32 delay.msecs := by
        rw [evTimeout, fired.now]
      rw [Function.update_idem] at hold₁ ordered
      have window : WindowAt base (Function.update M u (some (evTimeout e' delay.msecs))) := by
        intro v z present
        by_cases same : v = u
        · subst same
          rw [Function.update_self] at present
          cases present
          have distance := busy.fits.offset_timeout choice
          have near := busy.fits.timeouts v (runs v) delay choice
          rw [word]
          show 2 * offset base _ < 2 ^ 32
          omega
        · rw [Function.update_of_ne same] at present
          exact busy.fits.window v z present
      refine ⟨e₁, _, run, hold₁, ordered ⟨base, window⟩ order, ⟨window, ?_, ?_⟩, ?_⟩
      · rw [clock]
        exact busy.fits.clock
      · rw [clock]
        exact busy.fits.timeouts
      · rw [clock]
        by_cases same : t = u
        · subst same
          have zero : delay.msecs = 0 := by
            by_contra nonzero
            refine never ⟨runs t, fun again choice' => ?_⟩
            rw [choice] at choice'
            cases choice'
            exact nonzero
          refine ⟨_, Function.update_self .., ?_⟩
          rw [word, signedDiff_timeout, zero]
        · exact ⟨x, (Function.update_of_ne same ..).trans armed, late⟩

/-- A due timer that is always armed for now keeps the loop busy for any number of
callbacks. -/
theorem Busy.loops (never : ¬ ∃ n, choose.Quits t n) (fuel : Nat) :
    ∀ {runs : τ → Nat} {e e' : EvTimers τ φ} {M : τ → Option (BitVec 32)} {u : τ} {f : φ},
      Busy choose base t e M → Fired M u e e' →
        firingLoop choose fuel runs (e', .calls u f) = .ok none := by
  induction fuel with
  | zero =>
      intro runs e e' M u f busy fired
      rfl
  | succ fuel ih =>
      intro runs e e' M u f busy fired
      obtain ⟨e₁, M₁, ran, busy₁⟩ := busy.callback never fired f runs
      obtain ⟨v, z, g, e₂, _, run, fired₁⟩ := busy₁.resume
      simp only [firingLoop, ran, run, ok_bind]
      exact ih busy₁ fired₁

theorem Busy.never_ends (busy : Busy choose base t e M) (never : ¬ ∃ n, choose.Quits t n) :
    ¬ Ends choose e := by
  intro ⟨fuel, e', r, ended⟩
  obtain ⟨u, y, f, e₁, _, run, fired⟩ := busy.start
  simp only [evStepTimersWith, run, ok_bind, Busy.loops never fuel busy fired] at ended
  cases ended

end Busy

/-- The timer `t` is all the heap holds, and is due now. -/
def alone (t : τ) (now : BitVec 32) : τ → Option (BitVec 32) :=
  Function.update (fun _ => none) t (some now)

theorem alone_window (t : τ) (now : BitVec 32) : WindowAt now (alone t now) := by
  intro u x armed
  by_cases same : u = t
  · subst same
    have word : now = x := by simpa [alone] using armed
    subst word
    simp [InWindow, offset]
  · simp [alone, same] at armed

theorem alone_busy (choose : Choices τ) {e : EvTimers τ φ} {t : τ}
    (hold : Holds e (alone t e.now)) (order : HeapOrdered e.timers) :
    Busy choose e.now t e (alone t e.now) := by
  have here : offset e.now e.now = 0 := by simp [offset]
  refine ⟨hold, order, ⟨alone_window t e.now, ?_, ?_⟩, e.now, Function.update_self .., ?_⟩
  · show 2 * offset e.now e.now < 2 ^ 32
    omega
  · intro u n delay _
    have := delay.bounded
    omega
  · simp [signedDiff]

theorem alone_exists (t : τ) (f : φ) :
    ∃ e : EvTimers τ φ, Holds e (alone t e.now) ∧ HeapOrdered e.timers ∧
      Windowed (alone t e.now) := by
  obtain ⟨e, _, _, hold, now, order⟩ :=
    evAlarm_ok (init_holds (φ := φ) (fun _ => 0) (fun _ => 0) (fun _ => none) 0)
      (t := t) rfl 0 f
  have start : e.now = 0 := now
  refine ⟨e, ?_, ?_, e.now, alone_window t e.now⟩
  · rw [start]
    exact hold
  · exact order ⟨0, alone_window t 0⟩
      (init_ordered (φ := φ) (fun _ => 0) (fun _ => 0) (fun _ => none) 0)

/-- A family of callbacks lets every call of `ev_step_timers` end, whatever is in the heap,
exactly when no callback arms its timer for now each time that it runs. For one heap it is
enough that no callback of a due timer does; and there none may, as long as the deadlines
and the delays fit the half range in which the heap is ordered. -/
theorem firing_ends_iff [Inhabited φ] (choose : Choices τ) :
    ((∀ (e : EvTimers τ φ) M, Holds e M → HeapOrdered e.timers → Windowed M → Ends choose e) ↔
        ∀ t, ∃ n, choose.Quits t n) ∧
      ∀ (e : EvTimers τ φ) M, Holds e M → HeapOrdered e.timers → Windowed M →
        (choose.QuitsDue e M → Ends choose e) ∧
          ∀ base, choose.Fits base e M → Ends choose e → choose.QuitsDue e M := by
  refine ⟨⟨?_, ?_⟩, ?_⟩
  · intro ends t
    by_contra never
    obtain ⟨e, hold, order, windowed⟩ := alone_exists t (default : φ)
    exact (alone_busy choose hold order).never_ends never (ends e _ hold order windowed)
  · intro quits e M hold _ _
    exact hold.ends fun t _ _ _ => quits t
  · intro e M hold order _
    refine ⟨fun quits => hold.ends quits, fun base fits ends t x armed late => ?_⟩
    by_contra never
    exact (Busy.mk hold order fits ⟨x, armed, late⟩).never_ends never ends

/-- A thread that sleeps for no time, again and again. -/
theorem zero_delay_never_ends :
    ∃ e : EvTimers Nat Unit, Holds e (alone 0 e.now) ∧ HeapOrdered e.timers ∧
      Windowed (alone 0 e.now) ∧ ¬ Ends (fun _ _ => some ⟨0, by decide, by decide⟩) e := by
  obtain ⟨e, hold, order, windowed⟩ := alone_exists 0 ()
  refine ⟨e, hold, order, windowed, (alone_busy _ hold order).never_ends ?_⟩
  intro ⟨n, quits⟩
  exact quits _ rfl rfl

end CThread.Timers
