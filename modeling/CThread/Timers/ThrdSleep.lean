import CThread.Timers.Delay
import CThread.Lib.CInt
import Mathlib.Algebra.Order.Field.Rat
import Mathlib.Tactic.NormNum
import Mathlib.Tactic.Ring

/-!
`ct_thrd_sleep`: how long a cthread sleeps against how long it asked for.

The time is folded into an `int` of milliseconds, from which `ev_timeout` makes the wake-up
time. What is less than a millisecond is dropped, and then the timer is due too early by
that much; a time that does not fit an `int` comes out as another one.
-/
namespace CThread.Timers
open SerialOrder Faults Heap GuardedRuns CInt

/-- A `struct timespec`, where `time_t` and `long` have 64 bits. -/
structure Timespec where
  tvSec : Int
  tvNsec : Int
  sec_nonneg : 0 ≤ tvSec
  sec_fits : tvSec < 2 ^ 63
  nsec_nonneg : 0 ≤ tvNsec
  nsec_lt : tvNsec < 10 ^ 9

namespace Timespec

/-- The time that was asked for, in milliseconds. -/
def msecs (d : Timespec) : ℚ := d.tvSec * 1000 + d.tvNsec / 1000000

/-- No `int` is given a value that it cannot hold. -/
def NoOverflow (d : Timespec) : Prop :=
  IntType.int.Fits (d.tvSec * 1000) ∧ IntType.int.Fits (d.tvSec * 1000 + d.tvNsec / 1000 / 1000)

/-- The time is a whole number of milliseconds that an `int` holds. -/
def Whole (d : Timespec) : Prop :=
  d.tvNsec % 1000000 = 0 ∧ d.tvSec * 1000 + d.tvNsec / 1000000 ≤ 2 ^ 31 - 1

/-- The variable `ms`. The product and the sum are of type `long`, and are then cut to an
`int`. -/
def ms (d : Timespec) : Except ArithFault IntType.int.Val := do
  let product ← IntType.long.eval (d.tvSec * 1000)
  let ms := IntType.int.convert product
  let sum ← IntType.long.eval (IntType.int.toInt ms + d.tvNsec / 1000 / 1000)
  return IntType.int.convert sum

theorem lt_msecs_iff (d : Timespec) (n : Int) :
    (n : ℚ) < d.msecs ↔ n * 1000000 < d.tvSec * 1000000000 + d.tvNsec := by
  have scaled : d.msecs * 1000000 = ((d.tvSec * 1000000000 + d.tvNsec : Int) : ℚ) := by
    unfold msecs
    push_cast
    ring
  rw [← mul_lt_mul_iff_left₀ (show (0 : ℚ) < 1000000 by norm_num), scaled]
  exact_mod_cast Iff.rfl

variable {d : Timespec}

theorem NoOverflow.ms_eq (fits : d.NoOverflow) :
    ∃ x, d.ms = .ok x ∧ IntType.int.toInt x = d.tvSec * 1000 + d.tvNsec / 1000000 := by
  obtain ⟨product, total⟩ := fits
  have exact : ∀ r, IntType.int.Fits r → IntType.int.toInt (IntType.int.convert r) = r :=
    fun _ => IntType.toInt_convert
  have wide : ∀ r : Int, IntType.int.Fits r → IntType.long.Fits r := by
    intro r ⟨lower, upper⟩
    have lower : -(2 ^ 32 : Int) ≤ 2 * r := lower
    have upper : 2 * r < (2 ^ 32 : Int) := upper
    show -(2 ^ 64 : Int) ≤ 2 * r ∧ 2 * r < (2 ^ 64 : Int)
    omega
  refine ⟨IntType.int.convert (d.tvSec * 1000 + d.tvNsec / 1000 / 1000), ?_, ?_⟩
  · simp only [ms, IntType.eval_fits (wide _ product), ok_bind, exact _ product,
      IntType.eval_fits (wide _ total), pure_eq_ok]
  · rw [exact _ total]
    omega

theorem noOverflow_iff (d : Timespec) :
    d.NoOverflow ↔ d.tvSec * 1000 + d.tvNsec / 1000000 ≤ 2 ^ 31 - 1 := by
  have fits : ∀ r : Int, IntType.int.Fits r ↔ -(2 ^ 32) ≤ 2 * r ∧ 2 * r < 2 ^ 32 :=
    fun _ => Iff.rfl
  have sec := d.sec_nonneg
  have nsec := d.nsec_nonneg
  rw [NoOverflow, fits, fits]
  omega

end Timespec

inductive SleepFault
  | arith (f : ArithFault)
  | timer (f : TimerFault)
  deriving DecidableEq, Repr

inductive SleepOp (τ φ : Type)
  | thrdSleep (t : τ) (d : Timespec) (fn : φ)
  | other (op : DelayOp τ φ)

variable {τ φ : Type}

def inArith {α : Type} : Except ArithFault α → Except SleepFault α
  | .ok a => .ok a
  | .error f => .error (.arith f)

def inTimer {α : Type} : Except TimerFault α → Except SleepFault α
  | .ok a => .ok a
  | .error f => .error (.timer f)

/-- What the loop takes for due: the head of the heap, when `next_timeout` is 0. -/
def TakenForDue (e : EvTimers τ φ) (t : τ) : Prop :=
  nextTimeout e = .ok 0 ∧ (e.timers.v heapHead).node = some t

/-- The clock last read, and for each cthread asleep the time it asked for and the clock when
it did. -/
structure SleepLog (τ : Type) where
  now : Int
  since : τ → Option (Timespec × Int)

variable [DecidableEq τ]

/-- Up to `cthread_yield`. The callback `fn` is `timer_wakeup`. -/
def ctThrdSleep (e : EvTimers τ φ) (t : τ) (d : Timespec) (fn : φ) :
    Except SleepFault (EvTimers τ φ) := do
  let ms ← inArith d.ms
  inTimer (evAlarm e t (evTimeout e (IntType.int.toInt ms)) fn)

def sleepStep (s : DelayState τ φ) :
    SleepOp τ φ → Except SleepFault (DelayState τ φ × TimerOutput τ φ)
  | .thrdSleep t d fn => do
      let e ← ctThrdSleep s.loop t d fn
      return ({ s with loop := e }, .done)
  | .other op => inTimer (delayStep s op)

def sleepMachine : Machine (DelayState τ φ) (SleepOp τ φ) (TimerOutput τ φ) SleepFault :=
  ⟨sleepStep⟩

namespace SleepLog

def next (q : SleepLog τ) (op : SleepOp τ φ) (o : TimerOutput τ φ) : SleepLog τ :=
  match op, o with
  | .thrdSleep t d _, _ => { q with since := Function.update q.since t (some (d, q.now)) }
  | .other (.getTicks clock), _ => { q with now := clock }
  | .other _, .outcome (.calls t _) => { q with since := Function.update q.since t none }
  | .other _, _ => q

end SleepLog

def sleepLog (now : Int) (tr : Trace (SleepOp τ φ) (TimerOutput τ φ)) : SleepLog τ :=
  monitor SleepLog.next ⟨now, fun _ => none⟩ tr

/-- Timers are armed when they are not in the queue, and the clock does not run backwards. -/
def SleepAdmits (now : Int) : Guard (DelayState τ φ) (SleepOp τ φ) (TimerOutput τ φ)
  | _, s, .thrdSleep t _ _ | _, s, .other (.alarm t _ _) => ∀ x, ¬ InQueue s.loop t x
  | tr, _, .other (.getTicks clock) => (sleepLog now tr).now ≤ clock
  | _, _, .other .stepTimers => True
  | _, s, .other .callbackReturn => s.depth ≠ 0

/-- In every run a cthread can go to sleep for `d`, and its timer is not taken for due before
that time is over. -/
def KeepsAsleep (τ φ : Type) [DecidableEq τ] (d : Timespec) : Prop :=
  ∀ (now : Int) (garbage : Nat → BitVec 32) (index : τ → Nat) (fn : τ → Option φ)
    (tr : Trace (SleepOp τ φ) (TimerOutput τ φ)) (s : DelayState τ φ),
    Run sleepMachine (SleepAdmits now) (DelayState.init garbage index fn now) tr s →
      (∀ t f, (∀ x, ¬ InQueue s.loop t x) →
        ∃ s', sleepStep s (.thrdSleep t d f) = .ok (s', .done)) ∧
      ∀ t T, (sleepLog now tr).since t = some (d, T) →
        (((sleepLog now tr).now - T : Int) : ℚ) < d.msecs → ¬ TakenForDue s.loop t

/-- What a run keeps: the heap holds the deadlines `p`, and among them those that were computed
for the cthreads asleep. -/
structure Asleep (e : EvTimers τ φ) (q : SleepLog τ) (p : DelayLog τ) : Prop where
  pairs : Pairs e p
  now : p.now = q.now
  deadline : ∀ t d T, q.since t = some (d, T) →
    ∃ x, d.ms = .ok x ∧ p.due t = some (T + IntType.int.toInt x)

variable {s : DelayState τ φ} {e : EvTimers τ φ} {q : SleepLog τ} {p : DelayLog τ} {t : τ}

namespace Asleep

omit [DecidableEq τ] in
theorem unarmed (asleep : Asleep e q p) (absent : ∀ x, ¬ InQueue e t x) : p.due t = none := by
  apply p.unarmed
  cases armed : p.words t with
  | none => rfl
  | some x => exact absurd ((asleep.pairs.hold.inQueue_iff t x).mpr armed) (absent x)

theorem thrdSleep (asleep : Asleep e q p) (absent : ∀ x, ¬ InQueue e t x) {d : Timespec}
    {x : IntType.int.Val} (ms : d.ms = .ok x) (fn : φ) :
    ∃ e', ctThrdSleep e t d fn = .ok e' ∧
      Asleep e' (q.next (.thrdSleep t d fn) .done) (p.plan t (p.now + IntType.int.toInt x)) := by
  have bounds : 2 * IntType.int.toInt x < 2 ^ 32 := (IntType.fits_toInt x).2
  obtain ⟨e', run, pairs, _⟩ := asleep.pairs.plan (asleep.unarmed absent)
    (asleep.pairs.timeout (IntType.int.toInt x)) (by omega) fn
  refine ⟨e', ?_, pairs, asleep.now, ?_⟩
  · rw [ctThrdSleep, ms]
    show inTimer (evAlarm e t _ fn) = .ok e'
    rw [run]
    rfl
  · intro u d' T since
    by_cases same : u = t
    · subst same
      have started : (d, q.now) = (d', T) := by simpa [SleepLog.next] using since
      cases started
      refine ⟨x, ms, ?_⟩
      rw [← asleep.now]
      exact Function.update_self ..
    · obtain ⟨y, ms', due⟩ := asleep.deadline u d' T (by simpa [SleepLog.next, same] using since)
      exact ⟨y, ms', (Function.update_of_ne same ..).trans due⟩

/-- A callback ends the sleep of its timer, and no other operation touches one. -/
theorem fire (asleep : Asleep s.loop q p) (t : τ)
    (pairs : Pairs e (p.fire t)) : Asleep e { q with since := Function.update q.since t none }
      (p.fire t) := by
  refine ⟨pairs, asleep.now, fun u d T since => ?_⟩
  by_cases same : u = t
  · subst same
    simp at since
  · obtain ⟨x, ms, due⟩ := asleep.deadline u d T (by simpa [same] using since)
    exact ⟨x, ms, (Function.update_of_ne same ..).trans due⟩

theorem settle (asleep : Asleep s.loop q p) {op : DelayOp τ φ} {o : TimerOutput τ φ}
    (timers : op = .stepTimers ∨ op = .callbackReturn) (pairs : Pairs e (p.next op o)) :
    Asleep e (q.next (.other op) o) (p.next op o) := by
  rcases timers with rfl | rfl
  all_goals
    cases o with
    | done => exact ⟨pairs, asleep.now, asleep.deadline⟩
    | outcome o =>
        cases o with
        | calls t f => exact asleep.fire t pairs
        | returns r => exact ⟨pairs, asleep.now, asleep.deadline⟩

theorem other (asleep : Asleep s.loop q p) {op : DelayOp τ φ} (admitted : p.Admits s.depth op) :
    ∃ s' o, delayStep s op = .ok (s', o) ∧
      Asleep s'.loop (q.next (.other op) o) (p.next op o) := by
  obtain ⟨s', o, run, stepped⟩ := delayStep_ok asleep.pairs admitted
  have pairs := stepped.pairs
  refine ⟨s', o, run, ?_⟩
  cases op with
  | alarm t delay fn =>
      have unarmed : p.due t = none := admitted
      have answer : o = .done := by
        obtain ⟨e', _, ends⟩ := bind_eq_ok.mp run
        cases ends
        rfl
      subst answer
      refine ⟨pairs, asleep.now, fun u d T since => ?_⟩
      obtain ⟨x, ms, due⟩ := asleep.deadline u d T since
      have ne : u ≠ t := by
        intro same
        rw [same, unarmed] at due
        cases due
      exact ⟨x, ms, (Function.update_of_ne ne ..).trans due⟩
  | getTicks clock => exact ⟨pairs, rfl, asleep.deadline⟩
  | stepTimers => exact asleep.settle (.inl rfl) pairs
  | callbackReturn => exact asleep.settle (.inr rfl) pairs

omit [DecidableEq τ] in
/-- With a whole time nothing is taken for due too early. -/
theorem not_due (asleep : Asleep e q p) {d : Timespec} (whole : d.Whole) {T : Int}
    (since : q.since t = some (d, T)) (early : ((q.now - T : Int) : ℚ) < d.msecs) :
    ¬ TakenForDue e t := by
  intro ⟨zero, first⟩
  obtain ⟨x, ms, due⟩ := asleep.deadline t d T since
  obtain ⟨y, ms', value⟩ := ((Timespec.noOverflow_iff d).mpr whole.2).ms_eq
  cases ms.symm.trans ms'
  rw [value] at due
  have armed : p.words t = some (BitVec.ofInt 32 _) := congrArg (Option.map (BitVec.ofInt 32)) due
  rcases nextTimeout_ok asleep.pairs.hold with ⟨empty, _⟩ | ⟨u, w, head, answer⟩
  · rw [empty t] at armed
    cases armed
  · have node : (e.timers.v heapHead).node = some u := by rw [heapHead_eq, head.entry]
    cases first.symm.trans node
    have word := Option.some.inj (head.armed.symm.trans armed)
    have near := asleep.pairs.near t _ due
    have sooner := (d.lt_msecs_iff _).mp early
    have exact := whole.1
    have now := asleep.now
    have diff : signedDiff w e.now = T + (d.tvSec * 1000 + d.tvNsec / 1000000) - p.now := by
      apply signedDiff_ofInt word asleep.pairs.now <;> omega
    have ahead : signedDiff w e.now > 0 := by omega
    rw [if_pos ahead] at answer
    have same : signedDiff w e.now = 0 := (Except.ok.inj (zero.symm.trans answer)).symm
    omega

end Asleep

omit [DecidableEq τ] in
theorem init_asleep (garbage : Nat → BitVec 32) (index : τ → Nat) (fn : τ → Option φ) (now : Int) :
    Asleep (DelayState.init garbage index fn now).loop ⟨now, fun _ => none⟩ (.init now) where
  pairs := init_pairs garbage index fn now
  now := rfl
  deadline t d T since := by cases since

/-- A step of a run, whatever the times that are asked for. -/
theorem sleepStep_asleep (asleep : Asleep s.loop q p) {now : Int}
    {tr : Trace (SleepOp τ φ) (TimerOutput τ φ)} (log : sleepLog now tr = q) {op : SleepOp τ φ}
    (admitted : SleepAdmits now tr s op) {s' : DelayState τ φ} {o : TimerOutput τ φ}
    (stepped : sleepStep s op = .ok (s', o)) : ∃ p', Asleep s'.loop (q.next op o) p' := by
  cases op with
  | thrdSleep t d fn =>
      obtain ⟨e', run, ends⟩ := bind_eq_ok.mp stepped
      cases ends
      cases ms : d.ms with
      | error f =>
          rw [ctThrdSleep, ms] at run
          cases run
      | ok x =>
          obtain ⟨e'', run', next⟩ := asleep.thrdSleep admitted ms fn
          cases run.symm.trans run'
          exact ⟨_, next⟩
  | other op =>
      have admits : p.Admits s.depth op := by
        cases op with
        | alarm t delay f => exact asleep.unarmed admitted
        | getTicks clock =>
            have later : (sleepLog now tr).now ≤ clock := admitted
            show p.now ≤ clock
            rw [asleep.now, ← log]
            exact later
        | stepTimers => trivial
        | callbackReturn => exact admitted
      obtain ⟨s'', o', run, next⟩ := asleep.other admits
      have moved : inTimer (delayStep s op) = .ok (s'', o') := by
        rw [run]
        rfl
      cases stepped.symm.trans moved
      exact ⟨_, next⟩

theorem sleepRun_asleep {now : Int} {garbage : Nat → BitVec 32} {index : τ → Nat}
    {fn : τ → Option φ} {tr : Trace (SleepOp τ φ) (TimerOutput τ φ)}
    (run : Run sleepMachine (SleepAdmits now) (DelayState.init garbage index fn now) tr s) :
    ∃ p, Asleep s.loop (sleepLog now tr) p := by
  refine run.invariant (P := fun tr s => ∃ p, Asleep s.loop (sleepLog now tr) p)
    ⟨_, init_asleep garbage index fn now⟩ ?_
  intro tr s op s' o ⟨p, asleep⟩ admitted stepped
  exact sleepStep_asleep asleep rfl admitted stepped

theorem Timespec.Whole.keepsAsleep {d : Timespec} (whole : d.Whole) : KeepsAsleep τ φ d := by
  intro now garbage index fn tr s run
  obtain ⟨p, asleep⟩ := sleepRun_asleep run
  refine ⟨fun t f absent => ?_, fun t T since early => asleep.not_due whole since early⟩
  obtain ⟨x, ms, _⟩ := ((Timespec.noOverflow_iff d).mpr whole.2).ms_eq
  obtain ⟨e', run, _⟩ := asleep.thrdSleep absent ms f
  refine ⟨{ s with loop := e' }, ?_⟩
  show (ctThrdSleep s.loop t d f >>= _) = _
  rw [run]
  rfl

omit [DecidableEq τ] in
/-- A timer that is alone in the heap is taken for due at its deadline. -/
theorem takenForDue_alone (pairs : Pairs e p) (due : p.due t = some p.now)
    (alone : ∀ u, u ≠ t → p.due u = none) : TakenForDue e t := by
  rcases nextTimeout_ok pairs.hold with ⟨empty, _⟩ | ⟨u, w, head, answer⟩
  · rw [p.unarmed (empty t)] at due
    cases due
  · obtain ⟨D, due', word, _⟩ := pairs.deadline head.armed
    have same : u = t := by
      by_contra other
      rw [alone u other] at due'
      cases due'
    subst same
    cases due.symm.trans due'
    have diff : signedDiff w e.now = p.now - p.now := by
      apply signedDiff_ofInt word pairs.now <;> omega
    have zero : ¬ signedDiff w e.now > 0 := by omega
    refine ⟨by rw [answer, if_neg zero], ?_⟩
    rw [heapHead_eq, head.entry]

/-- Had a part of a millisecond been cut off, then the timer would be taken for due after the
milliseconds that are left. -/
theorem KeepsAsleep.whole [Inhabited τ] [Inhabited φ] {d : Timespec} (keeps : KeepsAsleep τ φ d)
    (fits : d.NoOverflow) : d.Whole := by
  refine ⟨?_, (Timespec.noOverflow_iff d).mp fits⟩
  by_contra part
  obtain ⟨x, ms, value⟩ := fits.ms_eq
  have sec := d.sec_nonneg
  have nsec := d.nsec_nonneg
  let start : DelayState τ φ := .init (fun _ => 0) (fun _ => 0) (fun _ => none) 0
  have init : Asleep start.loop ⟨0, fun _ => none⟩ (.init 0) := init_asleep _ _ _ 0
  have absent : ∀ y, ¬ InQueue start.loop default y := by
    intro y queued
    have armed := (init.pairs.hold.inQueue_iff default y).mp queued
    cases armed
  obtain ⟨e', slept, armed⟩ := init.thrdSleep absent ms default
  let asleep : DelayState τ φ := { start with loop := e' }
  let reads : DelayOp τ φ := .getTicks (IntType.int.toInt x)
  have forward : 0 ≤ IntType.int.toInt x := by omega
  have admitted : DelayLog.Admits (.plan (.init 0) default (0 + IntType.int.toInt x))
      asleep.depth reads := forward
  obtain ⟨s, o, ticked, later⟩ := Asleep.other armed admitted
  have answer : o = .done := by
    cases ticked
    rfl
  subst answer
  have run : Run sleepMachine (SleepAdmits 0) start
      [(.other (.getTicks (IntType.int.toInt x)), .done), (.thrdSleep default d default, .done)]
      s := by
    refine .snoc (s := asleep) (.snoc .nil absent ?_) (show 0 ≤ IntType.int.toInt x by omega) ?_
    · show (ctThrdSleep start.loop default d default >>= _) = _
      rw [slept]
      rfl
    · exact congrArg inTimer ticked
  refine (keeps 0 _ _ _ _ s run).2 default 0 (Function.update_self ..) ?_
    (takenForDue_alone later.pairs ?_ ?_)
  · rw [d.lt_msecs_iff]
    show (IntType.int.toInt x - 0) * 1000000 < _
    omega
  · show Function.update _ default _ default = _
    rw [Function.update_self]
    show some (0 + IntType.int.toInt x) = some (IntType.int.toInt x)
    rw [Int.zero_add]
  · intro u ne
    exact Function.update_of_ne ne ..

/-- A cthread sleeps no less than it asked for, and no `int` overflows, exactly when it asked
for a whole number of milliseconds that an `int` holds. -/
theorem thrdSleep_keeps_iff [Inhabited τ] [Inhabited φ] (d : Timespec) :
    d.NoOverflow ∧ KeepsAsleep τ φ d ↔ d.Whole :=
  ⟨fun ⟨fits, keeps⟩ => keeps.whole fits,
    fun whole => ⟨(Timespec.noOverflow_iff d).mpr whole.2, whole.keepsAsleep⟩⟩

def halfMsec : Timespec := ⟨0, 500000, by decide, by decide, by decide, by decide⟩

/-- 25 days. -/
def longSleep : Timespec := ⟨2160000, 0, by decide, by decide, by decide, by decide⟩

theorem halfMsec_run : Run sleepMachine (SleepAdmits 0) freshTimers
    [(.thrdSleep 0 halfMsec (), .done)]
    (sleepMachine.after freshTimers (.thrdSleep 0 halfMsec ())) := by
  refine .snoc .nil ?_ (Machine.step_eq ?_)
  · intro x ⟨k, one, inside, _⟩
    have empty : k ≤ 0 := inside
    omega
  · decide +kernel

theorem thrdSleep_wakes_early : ¬ KeepsAsleep Nat Unit halfMsec ∧ ¬ longSleep.NoOverflow := by
  refine ⟨fun keeps => ?_, ?_⟩
  · refine (keeps 0 _ _ _ _ _ halfMsec_run).2 0 0 rfl ?_ ⟨?_, ?_⟩
    · rw [halfMsec.lt_msecs_iff]
      decide
    · decide +kernel
    · decide +kernel
  · rw [Timespec.noOverflow_iff]
    decide

end CThread.Timers
