import CThread.Timers.Spec

/-!
Timers armed by `ev_alarm(t, ev_timeout(msecs))`, with the deadlines that were meant.

The clock is an unbounded integer that the loop only sees cut to 32 bits, and it may jump;
callbacks may call `ev_step_timers` again and read the clock. A delay is at most
`2^31 - 1`, so a deadline that is still ahead is ahead by less than half the range, and the
signed difference cannot mistake it for a due one. The order of the heap plays no part.
-/
namespace CThread.Timers
open SerialOrder Faults Heap GuardedRuns

/-- A nonnegative `int`. -/
structure Delay where
  msecs : Int
  nonneg : 0 ≤ msecs
  bounded : msecs ≤ 2 ^ 31 - 1
  deriving DecidableEq

/-- `depth` counts the calls of `ev_step_timers` that wait for a callback. -/
structure DelayState (τ φ : Type) where
  loop : EvTimers τ φ
  depth : Nat

inductive DelayOp (τ φ : Type)
  | alarm (t : τ) (delay : Delay) (fn : φ)
  | getTicks (clock : Int)
  | stepTimers
  | callbackReturn

def TimerOutcome.depth {τ φ : Type} : TimerOutcome τ φ → Nat
  | .calls _ _ => 1
  | .returns _ => 0

variable {τ φ : Type}

def land (depth : Nat) (r : Except TimerFault (EvTimers τ φ × TimerOutcome τ φ)) :
    Except TimerFault (DelayState τ φ × TimerOutput τ φ) := do
  let (e, o) ← r
  return (⟨e, depth + o.depth⟩, .outcome o)

def DelayState.init (garbage : Nat → BitVec 32) (index : τ → Nat) (fn : τ → Option φ)
    (now : Int) : DelayState τ φ :=
  ⟨(TimerState.init garbage index fn (BitVec.ofInt 32 now)).loop, 0⟩

/-- What the run meant: the clock last read, the deadline of each armed timer, and the
timeout of an `epoll_wait` after which the clock has not been read yet. -/
structure DelayLog (τ : Type) where
  now : Int
  due : τ → Option Int
  waiting : Option Int

def DelayLog.init (now : Int) : DelayLog τ := ⟨now, fun _ => none, none⟩

/-- The deadlines as the heap holds them. -/
def DelayLog.words (q : DelayLog τ) (t : τ) : Option (BitVec 32) :=
  (q.due t).map (BitVec.ofInt 32)

theorem DelayLog.unarmed (q : DelayLog τ) {t : τ} (absent : q.words t = none) :
    q.due t = none :=
  Option.map_eq_none_iff.mp absent

/-- The heap holds the deadlines that were meant, and none is too far ahead. -/
structure Pairs (e : EvTimers τ φ) (q : DelayLog τ) : Prop where
  hold : Holds e q.words
  now : e.now = BitVec.ofInt 32 q.now
  near : ∀ t D, q.due t = some D → D ≤ q.now + (2 ^ 31 - 1)

variable {e e' : EvTimers τ φ} {q : DelayLog τ} {t : τ} {x : BitVec 32}

namespace Pairs

theorem timeout (pairs : Pairs e q) (msecs : Int) :
    evTimeout e msecs = BitVec.ofInt 32 (q.now + msecs) := by
  rw [evTimeout, pairs.now]
  exact (BitVec.ofInt_add ..).symm

theorem deadline (pairs : Pairs e q) (armed : q.words t = some x) :
    ∃ D, q.due t = some D ∧ x = BitVec.ofInt 32 D ∧ D ≤ q.now + (2 ^ 31 - 1) := by
  obtain ⟨D, due, same⟩ := Option.map_eq_some_iff.mp armed
  exact ⟨D, due, same.symm, pairs.near t D due⟩

/-- What the loop takes for due is due. -/
theorem late (pairs : Pairs e q) (armed : q.words t = some x) (now : signedDiff x e.now ≤ 0) :
    ∃ D, q.due t = some D ∧ D ≤ q.now := by
  obtain ⟨D, due, word, near⟩ := pairs.deadline armed
  refine ⟨D, due, ?_⟩
  by_contra ahead
  have diff : signedDiff x e.now = D - q.now := by
    apply signedDiff_ofInt word pairs.now <;> omega
  omega

theorem tick (pairs : Pairs e q) {clock : Int} (later : q.now ≤ clock) (waiting : Option Int) :
    Pairs { e with now := BitVec.ofInt 32 clock } ⟨clock, q.due, waiting⟩ where
  hold := ⟨pairs.hold.represents, pairs.hold.callback⟩
  now := rfl
  near t D due := by
    have := pairs.near t D due
    show D ≤ clock + (2 ^ 31 - 1)
    omega

theorem wait (pairs : Pairs e q) (waiting : Option Int) : Pairs e { q with waiting := waiting } :=
  ⟨pairs.hold, pairs.now, pairs.near⟩

end Pairs

theorem init_pairs (garbage : Nat → BitVec 32) (index : τ → Nat) (fn : τ → Option φ)
    (now : Int) : Pairs (DelayState.init garbage index fn now).loop (.init now) where
  hold := init_holds garbage index fn (BitVec.ofInt 32 now)
  now := rfl
  near t D due := by cases due

variable [DecidableEq τ]

def delayStep (s : DelayState τ φ) :
    DelayOp τ φ → Except TimerFault (DelayState τ φ × TimerOutput τ φ)
  | .alarm t delay fn => do
      let e ← evAlarm s.loop t (evTimeout s.loop delay.msecs) fn
      return ({ s with loop := e }, .done)
  | .getTicks clock =>
      .ok ({ s with loop := { s.loop with now := BitVec.ofInt 32 clock } }, .done)
  | .stepTimers => land s.depth (evStepTimers s.loop)
  | .callbackReturn =>
      match s.depth with
      | 0 => .error .control
      | depth + 1 => land depth (evStepTimersResume s.loop)

def delayMachine : Machine (DelayState τ φ) (DelayOp τ φ) (TimerOutput τ φ) TimerFault :=
  ⟨delayStep⟩

namespace DelayLog

def plan (q : DelayLog τ) (t : τ) (D : Int) : DelayLog τ :=
  { q with due := Function.update q.due t (some D) }

def arm (q : DelayLog τ) (t : τ) (delay : Delay) : DelayLog τ :=
  { q with due := Function.update q.due t (some (q.now + delay.msecs)) }

def fire (q : DelayLog τ) (t : τ) : DelayLog τ :=
  { q with due := Function.update q.due t none }

def settle (q : DelayLog τ) : TimerOutcome τ φ → DelayLog τ
  | .calls t _ => q.fire t
  | .returns r => { q with waiting := if r = 0 then none else some r }

def next (q : DelayLog τ) (op : DelayOp τ φ) (o : TimerOutput τ φ) : DelayLog τ :=
  match op, o with
  | .alarm t delay _, _ => q.arm t delay
  | .getTicks clock, _ => { q with now := clock, waiting := none }
  | _, .outcome o => q.settle o
  | _, .done => q

/-- Only a timer that is armed, and not before its deadline, is called. -/
def Legal (q : DelayLog τ) (_ : DelayOp τ φ) (o : TimerOutput τ φ) : Prop :=
  ∀ t f, o = .outcome (.calls t f) → ∃ D, q.due t = some D ∧ D ≤ q.now

/-- Timers are armed when they are not, and the clock does not run backwards. -/
def Admits (q : DelayLog τ) (depth : Nat) : DelayOp τ φ → Prop
  | .alarm t _ _ => q.due t = none
  | .getTicks clock => q.now ≤ clock
  | .stepTimers => True
  | .callbackReturn => depth ≠ 0

theorem words_plan (q : DelayLog τ) (t : τ) (D : Int) :
    (q.plan t D).words = Function.update q.words t (some (BitVec.ofInt 32 D)) := by
  funext u
  by_cases same : u = t
  · subst same
    simp [words, plan]
  · simp [words, plan, same]

theorem words_fire (q : DelayLog τ) (t : τ) :
    (q.fire t).words = Function.update q.words t none := by
  funext u
  by_cases same : u = t
  · subst same
    simp [words, fire]
  · simp [words, fire, same]

theorem of_fire {q : DelayLog τ} {t u : τ} {D : Int} (due : (q.fire t).due u = some D) :
    q.due u = some D := by
  by_cases same : u = t
  · subst same
    simp [fire] at due
  · simpa [fire, same] using due

end DelayLog

def delayLog (now : Int) (tr : Trace (DelayOp τ φ) (TimerOutput τ φ)) : DelayLog τ :=
  monitor DelayLog.next (.init now) tr

def DelayAdmits (now : Int) : Guard (DelayState τ φ) (DelayOp τ φ) (TimerOutput τ φ) :=
  fun tr s op => (delayLog now tr).Admits s.depth op

namespace Pairs

/-- An alarm for any deadline that is not too far ahead. -/
theorem plan (pairs : Pairs e q) (unarmed : q.due t = none) {D : Int} (word : x = BitVec.ofInt 32 D)
    (near : D ≤ q.now + (2 ^ 31 - 1)) (f : φ) :
    ∃ e', evAlarm e t x f = .ok e' ∧ Pairs e' (q.plan t D) ∧
      (Windowed (q.plan t D).words → HeapOrdered e.timers → HeapOrdered e'.timers) := by
  have absent : q.words t = none := by simp [DelayLog.words, unarmed]
  obtain ⟨e', run, _, hold, now, order⟩ := evAlarm_ok pairs.hold absent x f
  rw [word, ← q.words_plan t D] at hold order
  refine ⟨e', run, ⟨hold, now.trans pairs.now, ?_⟩, order⟩
  intro u E due
  show E ≤ q.now + (2 ^ 31 - 1)
  by_cases same : u = t
  · subst same
    have value : D = E := by simpa [DelayLog.plan] using due
    rw [← value]
    exact near
  · exact pairs.near u E (by simpa [DelayLog.plan, same] using due)

theorem arm (pairs : Pairs e q) (unarmed : q.due t = none) (delay : Delay) (f : φ) :
    ∃ e', evAlarm e t (evTimeout e delay.msecs) f = .ok e' ∧ Pairs e' (q.arm t delay) ∧
      (Windowed (q.arm t delay).words → HeapOrdered e.timers → HeapOrdered e'.timers) :=
  pairs.plan unarmed (pairs.timeout delay.msecs) (Int.add_le_add_left delay.bounded q.now) f

/-- A timer leaves the queue. -/
theorem drop (pairs : Pairs e q) (hold : Holds e' (Function.update q.words t none))
    (now : e'.now = e.now) : Pairs e' (q.fire t) where
  hold := by
    rw [q.words_fire t]
    exact hold
  now := now.trans pairs.now
  near u D due := pairs.near u D (DelayLog.of_fire due)

theorem fire (pairs : Pairs e q) (fired : Fired q.words t e e') : Pairs e' (q.fire t) :=
  pairs.drop (fired.holds pairs.hold) fired.now

end Pairs

/-- The heap is empty, or its head is not due: `r` is the answer of `ev_step_timers`. -/
def Quiet (e : EvTimers τ φ) (q : DelayLog τ) (r : Int) : Prop :=
  ((∀ t, q.due t = none) ∧ (r = -1 ∨ r = 0)) ∨
    ∃ t x, Head e q.words t x ∧ signedDiff x e.now > 0 ∧ (r = signedDiff x e.now ∨ r = 0)

/-- What one operation does: to the pairs, to the order of the heap, and what it answers. -/
structure Stepped (s : DelayState τ φ) (q : DelayLog τ) (op : DelayOp τ φ)
    (s' : DelayState τ φ) (o : TimerOutput τ φ) : Prop where
  legal : q.Legal op o
  pairs : Pairs s'.loop (q.next op o)
  order : Windowed q.words → Windowed (q.next op o).words → HeapOrdered s.loop.timers →
    HeapOrdered s'.loop.timers
  quiet : ∀ r, o = .outcome (.returns r) → Quiet s.loop q r

variable {s : DelayState τ φ}

/-- Both ways into the loop of `ev_step_timers` end with an answer or with a callback. -/
theorem Pairs.land (pairs : Pairs s.loop q) (depth : Nat) {op : DelayOp τ φ}
    (next : ∀ o, q.next op (.outcome o) = q.settle o)
    {r : Except TimerFault (EvTimers τ φ × TimerOutcome τ φ)}
    (split : (∃ k, r = .ok (s.loop, .returns k) ∧ Quiet s.loop q k) ∨
      ∃ t x f e', Head s.loop q.words t x ∧ signedDiff x s.loop.now ≤ 0 ∧
        r = .ok (e', .calls t f) ∧ Fired q.words t s.loop e') :
    ∃ s' o, Timers.land depth r = .ok (s', o) ∧ Stepped s q op s' o := by
  rcases split with ⟨k, run, quiet⟩ | ⟨t, x, f, e', head, now, run, fired⟩
  · refine ⟨⟨s.loop, depth⟩, .outcome (.returns k), by rw [run]; rfl, ?_, ?_, ?_, ?_⟩
    · intro t f calls
      cases calls
    · rw [next]
      exact pairs.wait _
    · exact fun _ _ order => order
    · intro r same
      cases same
      exact quiet
  · refine ⟨⟨e', depth + 1⟩, .outcome (.calls t f), by rw [run]; rfl, ?_, ?_, ?_, ?_⟩
    · intro u g calls
      cases calls
      exact pairs.late head.armed now
    · rw [next]
      exact pairs.fire fired
    · exact fun windowed _ order => fired.order windowed order
    · intro r same
      cases same

theorem delayStep_ok (pairs : Pairs s.loop q) {op : DelayOp τ φ}
    (admitted : q.Admits s.depth op) :
    ∃ s' o, delayStep s op = .ok (s', o) ∧ Stepped s q op s' o := by
  cases op with
  | alarm t delay f =>
      obtain ⟨e', run, pairs', order⟩ := pairs.arm admitted delay f
      refine ⟨{ s with loop := e' }, .done, by simp [delayStep, run], ?_, pairs', ?_, ?_⟩
      · intro u g calls
        cases calls
      · exact fun _ windowed ordered => order windowed ordered
      · intro r same
        cases same
  | getTicks clock =>
      refine ⟨_, .done, rfl, ?_, pairs.tick admitted none, fun _ _ order => order, ?_⟩
      · intro u g calls
        cases calls
      · intro r same
        cases same
  | stepTimers =>
      refine pairs.land s.depth (fun _ => rfl) ?_
      rcases evStepTimers_ok pairs.hold with ⟨empty, run⟩ | ⟨t, x, head, later, run⟩ | fires
      · exact .inl ⟨-1, run, .inl ⟨fun t => q.unarmed (empty t), .inl rfl⟩⟩
      · exact .inl ⟨_, run, .inr ⟨t, x, head, later, .inl rfl⟩⟩
      · exact .inr fires
  | callbackReturn =>
      obtain ⟨depth, deep⟩ := Nat.exists_eq_succ_of_ne_zero admitted
      have step : delayStep s .callbackReturn = land depth (evStepTimersResume s.loop) := by
        simp only [delayStep, deep]
      rw [step]
      refine pairs.land depth (fun _ => rfl) ?_
      rcases evStepTimersResume_ok pairs.hold with ⟨empty, run⟩ | ⟨t, x, head, later, run⟩ | fires
      · exact .inl ⟨0, run, .inl ⟨fun t => q.unarmed (empty t), .inr rfl⟩⟩
      · exact .inl ⟨0, run, .inr ⟨t, x, head, later, .inr rfl⟩⟩
      · exact .inr fires

theorem delay_refines (now : Int) :
    Refines (delayMachine : Machine (DelayState τ φ) _ _ _) (DelayAdmits now) DelayLog.next
      (.init now) DelayLog.Legal fun s q => Pairs s.loop q where
  step tr s op pairs admitted := by
    obtain ⟨s', o, run, stepped⟩ := delayStep_ok pairs admitted
    exact ⟨s', o, run, stepped.legal, stepped.pairs⟩

/-- In every run, whatever the clock does and however far deadlines are apart, each callback
is that of an armed timer whose deadline has come; the heap holds each armed timer with
the deadline it was armed for, and no admitted operation faults. -/
theorem delayRun_never_early (now : Int) {garbage : Nat → BitVec 32} {index : τ → Nat}
    {fn : τ → Option φ} {tr : Trace (DelayOp τ φ) (TimerOutput τ φ)}
    (run : Run delayMachine (DelayAdmits now) (DelayState.init garbage index fn now) tr s) :
    Lawful DelayLog.next (.init now) DelayLog.Legal tr ∧
      (∀ t x, InQueue s.loop t x ↔
        ∃ D, (delayLog now tr).due t = some D ∧ x = BitVec.ofInt 32 D) ∧
      ∀ op, (delayLog now tr).Admits s.depth op →
        ∃ s' o, delayMachine.step s op = .ok (s', o) ∧ (delayLog now tr).Legal op o := by
  have init := init_pairs garbage index fn now
  obtain ⟨lawful, pairs⟩ := (delay_refines now).run init run
  refine ⟨lawful, ?_, ?_⟩
  · intro t x
    rw [pairs.hold.inQueue_iff]
    constructor
    · intro armed
      obtain ⟨D, due, word, _⟩ := pairs.deadline armed
      exact ⟨D, due, word⟩
    · intro ⟨D, due, word⟩
      rw [word]
      exact congrArg (Option.map (BitVec.ofInt 32)) due
  · intro op admitted
    exact (delay_refines now).progress init run admitted

def longest : Delay := ⟨2 ^ 31 - 1, by decide, by decide⟩

def freshTimers : DelayState Nat Unit :=
  DelayState.init (fun _ => 0) (fun _ => 0) (fun _ => none) 0

/-- Timer 0, armed by a callback after the first `epoll_wait`, is a millisecond overdue. -/
def overdueOnce : Trace (DelayOp Nat Unit) (TimerOutput Nat Unit) :=
  [(.getTicks 6, .done), (.stepTimers, .outcome (.returns 5)),
    (.alarm 0 ⟨5, by decide, by decide⟩ (), .done), (.getTicks 0, .done),
    (.stepTimers, .outcome (.returns (-1)))]

/-- Timer 1, armed for the longest delay now, comes before it in the heap. -/
def overtaken : Trace (DelayOp Nat Unit) (TimerOutput Nat Unit) :=
  (.stepTimers, .outcome (.returns 2147483647)) :: (.alarm 1 longest (), .done) :: overdueOnce

/-- When the clock has reached the deadline of timer 1, that one fires. -/
def firedLater : Trace (DelayOp Nat Unit) (TimerOutput Nat Unit) :=
  (.stepTimers, .outcome (.calls 1 ())) :: (.getTicks 2147483653, .done) :: overtaken

/-- The state after the inputs of a trace. -/
def replayed (tr : Trace (DelayOp Nat Unit) (TimerOutput Nat Unit)) : DelayState Nat Unit :=
  delayMachine.afterAll freshTimers (tr.reverse.map Prod.fst)

theorem firedLater_run :
    Run delayMachine (DelayAdmits 0) freshTimers firedLater (replayed firedLater) := by
  refine .snoc (.snoc (.snoc (.snoc (.snoc (.snoc (.snoc (.snoc (.snoc .nil trivial
    (Machine.step_eq ?_)) (show (0 : Int) ≤ 0 by decide) (Machine.step_eq ?_)) rfl
    (Machine.step_eq ?_)) trivial (Machine.step_eq ?_)) (show (0 : Int) ≤ 6 by decide)
    (Machine.step_eq ?_)) rfl (Machine.step_eq ?_)) trivial (Machine.step_eq ?_))
    (show (6 : Int) ≤ 2147483653 by decide) (Machine.step_eq ?_)) trivial (Machine.step_eq ?_)
  all_goals decide +kernel

theorem delayRun_never_early_firedLater :
    ∃ D, (delayLog 0 (firedLater.drop 1)).due 1 = some D ∧
      D ≤ (delayLog 0 (firedLater.drop 1)).now :=
  (delayRun_never_early 0 firedLater_run).1.2 1 () rfl

end CThread.Timers
