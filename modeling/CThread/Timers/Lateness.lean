import CThread.Timers.Delay
import Mathlib.Data.Int.LeastGreatest

/-!
Whether an overdue timer can be left behind.

The timeout given to `epoll_wait` is the time to the earliest deadline, so a timer is
overdue by no more than the wait overran. Deadlines then span `2^31 - 1` plus that overrun,
one step more than the order of the heap can tell apart: a callback that arms the longest
delay while another timer is overdue puts the later one first. Where every delay leaves
room for what is overdue, the head of the heap is the earliest timer.
-/
namespace CThread.Timers
open SerialOrder Faults Heap GuardedRuns
variable {τ φ : Type}

namespace DelayLog

/-- No armed timer is overdue by more than `delay` leaves of the half range. -/
def Roomy (q : DelayLog τ) (delay : Delay) : Prop :=
  ∀ u E, q.due u = some E → q.now + delay.msecs - E ≤ 2 ^ 31 - 1

/-- Timers are armed while no clock reading is outstanding, and `epoll_wait` overruns its
timeout by a second at most. -/
def Punctual (q : DelayLog τ) (depth : Nat) : DelayOp τ φ → Prop
  | .alarm t _ _ => q.due t = none ∧ q.waiting = none
  | .getTicks clock =>
      ∃ r, q.waiting = some r ∧ q.now ≤ clock ∧ (0 ≤ r → clock ≤ q.now + r + 1000)
  | .stepTimers => True
  | .callbackReturn => depth ≠ 0

def LeavesRoom (q : DelayLog τ) : DelayOp τ φ → Prop
  | .alarm _ delay _ => q.Roomy delay
  | _ => True

/-- When `ev_step_timers` returns nonzero nothing is due, and nothing is due before the
time it returns has passed. -/
def NoneOverdue (q : DelayLog τ) (_ : DelayOp τ φ) (o : TimerOutput τ φ) : Prop :=
  ∀ r, o = .outcome (.returns r) → r ≠ 0 →
    ∀ t D, q.due t = some D → q.now < D ∧ (0 < r → r ≤ D - q.now)

/-- The deadlines are close enough for the order of the heap. -/
def Within (q : DelayLog τ) : Prop :=
  ∀ t u D E, q.due t = some D → q.due u = some E → D - E ≤ 2 ^ 31 - 1

/-- Neither are they far behind the clock. -/
structure Close (q : DelayLog τ) : Prop where
  spans : ∀ t u D E, q.due t = some D → q.due u = some E → D - E ≤ 2 ^ 31 - 1
  late : ∀ t D, q.due t = some D → q.now - D ≤ 1000
  waits : ∀ r, q.waiting = some r → ∀ t D, q.due t = some D → 0 ≤ r ∧ q.now + r ≤ D

variable {q : DelayLog τ}

section Within
variable (within : q.Within)
include within

/-- All deadlines lie within the half range from the least one. -/
theorem Within.least : ∃ L, ∀ t D, q.due t = some D → L ≤ D ∧ D - L ≤ 2 ^ 31 - 1 := by
  by_cases armed : ∃ D t, q.due t = some D
  · obtain ⟨E, v, some_due⟩ := armed
    have below : ∀ D, (∃ t, q.due t = some D) → E - (2 ^ 31 - 1) ≤ D := by
      intro D ⟨t, due⟩
      have := within v t E D some_due due
      omega
    obtain ⟨L, ⟨u, least⟩, first⟩ := Int.exists_least_of_bdd ⟨_, below⟩ ⟨E, v, some_due⟩
    exact ⟨L, fun t D due => ⟨first D ⟨t, due⟩, within t u D L due least⟩⟩
  · exact ⟨0, fun t D due => absurd ⟨D, t, due⟩ armed⟩

theorem Within.windowAt :
    ∃ L, WindowAt (BitVec.ofInt 32 L) q.words ∧ ∀ t u D E, q.due t = some D → q.due u = some E →
      offset (BitVec.ofInt 32 L) (BitVec.ofInt 32 D) ≤
        offset (BitVec.ofInt 32 L) (BitVec.ofInt 32 E) → D ≤ E := by
  obtain ⟨L, inside⟩ := within.least
  have exact : ∀ t D, q.due t = some D →
      (offset (BitVec.ofInt 32 L) (BitVec.ofInt 32 D) : Int) = D - L := by
    intro t D due
    have bounds := inside t D due
    exact offset_ofInt L D bounds.1 (by omega)
  refine ⟨L, ?_, ?_⟩
  · intro t x armed
    obtain ⟨D, due, word⟩ := Option.map_eq_some_iff.mp armed
    have bounds := inside t D due
    have distance := exact t D due
    rw [word] at distance
    show 2 * offset _ x < 2 ^ 32
    omega
  · intro t u D E first second le
    have left := exact t D first
    have right := exact u E second
    omega

theorem Within.windowed : Windowed q.words := by
  obtain ⟨L, window, _⟩ := within.windowAt
  exact ⟨_, window⟩

/-- The head of the heap is the earliest timer. -/
theorem Within.first {e : EvTimers τ φ} (pairs : Pairs e q) (order : HeapOrdered e.timers) {t : τ}
    {x : BitVec 32} (head : Head e q.words t x) :
    ∃ D, q.due t = some D ∧ x = BitVec.ofInt 32 D ∧ D ≤ q.now + (2 ^ 31 - 1) ∧
      ∀ u E, q.due u = some E → D ≤ E := by
  obtain ⟨L, window, le_of_offset⟩ := within.windowAt
  obtain ⟨D, due, word, near⟩ := pairs.deadline head.armed
  refine ⟨D, due, word, near, fun u E due' => ?_⟩
  apply le_of_offset t u D E due due'
  rw [← word]
  exact head.first pairs.hold order window (congrArg (Option.map (BitVec.ofInt 32)) due')

end Within

theorem Close.first (close : q.Close) {e : EvTimers τ φ} (pairs : Pairs e q)
    (order : HeapOrdered e.timers) {t : τ} {x : BitVec 32} (head : Head e q.words t x) :
    ∃ D, q.due t = some D ∧ signedDiff x e.now = D - q.now ∧
      ∀ u E, q.due u = some E → D ≤ E := by
  obtain ⟨D, due, word, near, earliest⟩ := Within.first close.spans pairs order head
  have late := close.late t D due
  refine ⟨D, due, ?_, earliest⟩
  apply signedDiff_ofInt word pairs.now <;> omega

theorem Close.tick (close : q.Close) {clock r : Int} (waiting : q.waiting = some r)
    (overrun : 0 ≤ r → clock ≤ q.now + r + 1000) :
    Close { q with now := clock, waiting := none } := by
  refine ⟨close.spans, ?_, fun r waiting => by cases waiting⟩
  intro t D due
  have waits := close.waits r waiting t D due
  have := overrun waits.1
  show clock - D ≤ 1000
  omega

theorem Close.settle (close : q.Close) {op : DelayOp τ φ} {r : Int}
    (quiet : q.NoneOverdue op (.outcome (.returns r)))
    (sign : r ≠ 0 → (∃ t, q.due t ≠ none) → 0 < r) :
    Close { q with waiting := if r = 0 then none else some r } := by
  refine ⟨close.spans, close.late, ?_⟩
  intro k waiting t D due
  have nonzero : r ≠ 0 := by
    intro zero
    simp [zero] at waiting
  have same : r = k := by simpa [nonzero] using waiting
  subst same
  have positive := sign nonzero ⟨t, by rw [due]; exact Option.some_ne_none D⟩
  have enough := (quiet r rfl nonzero t D due).2 positive
  show 0 ≤ r ∧ q.now + r ≤ D
  omega

variable [DecidableEq τ]

theorem Close.arm (close : q.Close) {t : τ} {delay : Delay}
    (near : ∀ u E, q.due u = some E → E ≤ q.now + (2 ^ 31 - 1)) (read : q.waiting = none)
    (roomy : q.Roomy delay) : (q.arm t delay).Close := by
  have new : (q.arm t delay).due t = some (q.now + delay.msecs) := Function.update_self ..
  have old : ∀ u, u ≠ t → (q.arm t delay).due u = q.due u := fun u ne => Function.update_of_ne ne ..
  have ahead := delay.nonneg
  refine ⟨?_, ?_, ?_⟩
  · intro u v D E first second
    by_cases left : u = t
    · subst left
      rw [new] at first
      cases first
      by_cases right : v = u
      · subst right
        rw [new] at second
        cases second
        omega
      · rw [old v right] at second
        exact roomy v E second
    · rw [old u left] at first
      by_cases right : v = t
      · subst right
        rw [new] at second
        cases second
        have := near u D first
        omega
      · rw [old v right] at second
        exact close.spans u v D E first second
  · intro u D due
    show q.now - D ≤ 1000
    by_cases same : u = t
    · subst same
      rw [new] at due
      cases due
      omega
    · rw [old u same] at due
      exact close.late u D due
  · intro r waiting
    have waiting : q.waiting = some r := waiting
    rw [read] at waiting
    cases waiting

theorem Within.fire (within : q.Within) (t : τ) : (q.fire t).Within :=
  fun u v D E first second => within u v D E (of_fire first) (of_fire second)

theorem Close.fire (close : q.Close) (t : τ) : (q.fire t).Close :=
  ⟨Within.fire close.spans t, fun u D due => close.late u D (of_fire due),
    fun r waiting u D due => close.waits r waiting u D (of_fire due)⟩

end DelayLog

/-- What a run keeps when every delay leaves room. -/
structure OnTime (e : EvTimers τ φ) (q : DelayLog τ) : Prop where
  pairs : Pairs e q
  order : HeapOrdered e.timers
  close : q.Close

theorem OnTime.noneOverdue {e : EvTimers τ φ} {q : DelayLog τ} (onTime : OnTime e q) {r : Int}
    (quiet : Quiet e q r) (op : DelayOp τ φ) :
    q.NoneOverdue op (.outcome (.returns r)) ∧ (r ≠ 0 → (∃ t, q.due t ≠ none) → 0 < r) := by
  rcases quiet with ⟨empty, _⟩ | ⟨t, x, head, later, answer⟩
  · refine ⟨fun k _ _ t D due => ?_, fun _ ⟨t, armed⟩ => absurd (empty t) armed⟩
    rw [empty t] at due
    cases due
  · obtain ⟨D, _, diff, earliest⟩ := onTime.close.first onTime.pairs onTime.order head
    rw [diff] at later answer
    refine ⟨fun k same nonzero u E due => ?_, fun nonzero _ => ?_⟩
    · cases same
      have := earliest u E due
      have := answer.resolve_right nonzero
      omega
    · have := answer.resolve_right nonzero
      omega

variable [DecidableEq τ] {s : DelayState τ φ} {q : DelayLog τ}

theorem punctualStep_ok (onTime : OnTime s.loop q) {op : DelayOp τ φ}
    (admitted : q.Punctual s.depth op) (room : q.LeavesRoom op) :
    ∃ s' o, delayStep s op = .ok (s', o) ∧ q.NoneOverdue op o ∧
      OnTime s'.loop (q.next op o) := by
  have pairs := onTime.pairs
  have weaker : q.Admits s.depth op := by
    cases op with
    | alarm t delay f => exact admitted.1
    | getTicks clock => exact admitted.choose_spec.2.1
    | stepTimers => trivial
    | callbackReturn => exact admitted
  obtain ⟨s', o, run, stepped⟩ := delayStep_ok pairs weaker
  have answers : q.NoneOverdue op o := by
    intro r same
    exact (onTime.noneOverdue (stepped.quiet r same) op).1 r rfl
  have settled : ∀ o', o = .outcome o' → (q.settle o').Close := by
    intro o' same
    cases o' with
    | calls t f => exact onTime.close.fire t
    | returns r =>
        have quiet := onTime.noneOverdue (stepped.quiet r same) op
        exact onTime.close.settle quiet.1 quiet.2
  have close : (q.next op o).Close := by
    cases op with
    | alarm t delay f => exact onTime.close.arm pairs.near admitted.2 room
    | getTicks clock =>
        obtain ⟨r, waiting, _, overrun⟩ := admitted
        exact onTime.close.tick waiting overrun
    | stepTimers | callbackReturn =>
        cases o with
        | done => exact onTime.close
        | outcome o' => exact settled o' rfl
  exact ⟨s', o, run, answers, stepped.pairs,
    stepped.order (DelayLog.Within.windowed onTime.close.spans)
      (DelayLog.Within.windowed close.spans) onTime.order, close⟩

def PunctualAdmits (now : Int) : Guard (DelayState τ φ) (DelayOp τ φ) (TimerOutput τ φ) :=
  fun tr s op => (delayLog now tr).Punctual s.depth op

def RoomyAdmits (now : Int) : Guard (DelayState τ φ) (DelayOp τ φ) (TimerOutput τ φ) :=
  fun tr s op => PunctualAdmits now tr s op ∧ (delayLog now tr).LeavesRoom op

theorem punctual_refines (now : Int) :
    Refines (delayMachine : Machine (DelayState τ φ) _ _ _) (RoomyAdmits now) DelayLog.next
      (.init now) DelayLog.NoneOverdue fun s q => OnTime s.loop q where
  step _ _ _ onTime admitted := punctualStep_ok onTime admitted.1 admitted.2

omit [DecidableEq τ] in
theorem init_onTime (garbage : Nat → BitVec 32) (index : τ → Nat) (fn : τ → Option φ)
    (now : Int) : OnTime (DelayState.init garbage index fn now).loop (.init now) where
  pairs := init_pairs garbage index fn now
  order := init_ordered garbage index fn (BitVec.ofInt 32 now)
  close := {
    spans := fun t u D E due => by cases due
    late := fun t D due => by cases due
    waits := fun r waiting => by cases waiting }

/-- In every run whose delays leave room for what is overdue, a nonzero answer of
`ev_step_timers` leaves no overdue timer behind and is no later than any deadline; no
admitted operation faults. Delays shorter than the longest by a second always leave room. -/
theorem delayRun_none_overdue (now : Int) {garbage : Nat → BitVec 32} {index : τ → Nat}
    {fn : τ → Option φ} {tr : Trace (DelayOp τ φ) (TimerOutput τ φ)}
    (run : Run delayMachine (RoomyAdmits now) (DelayState.init garbage index fn now) tr s) :
    Lawful DelayLog.next (.init now) DelayLog.NoneOverdue tr ∧
      (∀ delay : Delay, delay.msecs ≤ 2 ^ 31 - 1001 → (delayLog now tr).Roomy delay) ∧
      ∀ op, RoomyAdmits now tr s op →
        ∃ s' o, delayMachine.step s op = .ok (s', o) ∧ (delayLog now tr).NoneOverdue op o := by
  have init := init_onTime garbage index fn now
  obtain ⟨lawful, onTime⟩ := (punctual_refines now).run init run
  refine ⟨lawful, ?_, fun op admitted => (punctual_refines now).progress init run admitted⟩
  intro delay short u E due
  have late : (delayLog now tr).now - E ≤ 1000 := onTime.close.late u E due
  omega

theorem overdueOnce_run :
    Run delayMachine (RoomyAdmits 0) freshTimers overdueOnce (replayed overdueOnce) := by
  refine .snoc (.snoc (.snoc (.snoc (.snoc .nil ⟨trivial, trivial⟩
    (Machine.step_eq ?_)) ⟨⟨-1, rfl, ?_, ?_⟩, trivial⟩ (Machine.step_eq ?_))
    ⟨⟨rfl, rfl⟩, ?_⟩ (Machine.step_eq ?_)) ⟨trivial, trivial⟩ (Machine.step_eq ?_))
    ⟨⟨5, rfl, ?_, ?_⟩, trivial⟩ (Machine.step_eq ?_)
  · decide +kernel
  · show (0 : Int) ≤ 0
    decide
  · show (0 : Int) ≤ -1 → (0 : Int) ≤ 0 + -1 + 1000
    decide
  · decide +kernel
  · intro u E due
    cases due
  · decide +kernel
  · decide +kernel
  · show (0 : Int) ≤ 6
    decide
  · show (0 : Int) ≤ 5 → (6 : Int) ≤ 0 + 5 + 1000
    decide
  · decide +kernel

/-- The longest delay that leaves room then. Both timers are served in their order. -/
def servedBoth : Trace (DelayOp Nat Unit) (TimerOutput Nat Unit) :=
  (.stepTimers, .outcome (.returns 2147483646)) :: (.callbackReturn, .outcome (.returns 0)) ::
    (.stepTimers, .outcome (.calls 0 ())) ::
    (.alarm 1 ⟨2 ^ 31 - 2, by decide, by decide⟩ (), .done) :: overdueOnce

theorem servedBoth_run :
    Run delayMachine (RoomyAdmits 0) freshTimers servedBoth (replayed servedBoth) := by
  refine .snoc (.snoc (.snoc (.snoc overdueOnce_run ⟨⟨rfl, rfl⟩, ?_⟩ (Machine.step_eq ?_))
    ⟨trivial, trivial⟩ (Machine.step_eq ?_)) ⟨?_, trivial⟩
    (Machine.step_eq ?_)) ⟨trivial, trivial⟩ (Machine.step_eq ?_)
  · intro u E due
    have due : Function.update (fun _ : Nat => (none : Option Int)) 0 (some 5) u = some E := due
    by_cases zero : u = 0
    · subst zero
      cases due
      decide
    · rw [Function.update_of_ne zero] at due
      cases due
  · decide +kernel
  · decide +kernel
  · show DelayState.depth _ ≠ 0
    decide +kernel
  · decide +kernel
  · decide +kernel

theorem delayRun_none_overdue_servedBoth :
    ∃ D, (delayLog 0 (servedBoth.drop 1)).due 1 = some D ∧
      (delayLog 0 (servedBoth.drop 1)).now < D := by
  refine ⟨_, rfl, ?_⟩
  exact ((delayRun_none_overdue 0 servedBoth_run).1.2 2147483646 rfl (by decide) 1 _ rfl).1

/-- A timer is overdue when `ev_step_timers` returns the time to a later one. -/
theorem overtaken_leaves_behind :
    ∃ s, Run delayMachine (PunctualAdmits 0) freshTimers overtaken s ∧
      ¬ Lawful DelayLog.next (.init 0) DelayLog.NoneOverdue overtaken := by
  refine ⟨replayed overtaken, .snoc (.snoc (overdueOnce_run.mono fun _ _ _ admitted => admitted.1)
    ⟨rfl, rfl⟩ (Machine.step_eq ?_)) trivial (Machine.step_eq ?_), ?_⟩
  · decide +kernel
  · decide +kernel
  · intro lawful
    have ahead : (6 : Int) < 5 := (lawful.2 2147483647 rfl (by decide) 0 5 rfl).1
    exact absurd ahead (by decide)

end CThread.Timers
