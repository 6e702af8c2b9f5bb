import CThread.Timers.Ideal
import CThread.Timers.Spec

/-!
The 32-bit timer queue refines the ideal one.

As long as the clock and the armed deadlines stay within `2^31 - 1` of each other,
the signed difference of two truncated times is the difference of the times
themselves, however often the clock has wrapped.
-/
namespace CThread.Timers
open SerialOrder Faults Heap GuardedRuns
variable {τ φ : Type}

theorem IdealQueue.Spans.diff {q : IdealQueue τ} (spans : q.Spans) {t : τ} {D : Int}
    (armed : (t, D) ∈ q.armed) :
    signedDiff (BitVec.ofInt 32 D) (BitVec.ofInt 32 q.now) = D - q.now := by
  obtain ⟨L, ⟨below, above⟩, inside⟩ := spans
  have lower := (inside t D armed).1
  have upper := (inside t D armed).2
  apply signedDiff_ofInt rfl rfl <;> omega

theorem IdealQueue.Spans.offset_le {q : IdealQueue τ} {L : Int}
    (inside : ∀ t D, (t, D) ∈ q.armed → L ≤ D ∧ D - L ≤ 2 ^ 31 - 1) {t u : τ} {D E : Int}
    (left : (t, D) ∈ q.armed) (right : (u, E) ∈ q.armed)
    (le : offset (BitVec.ofInt 32 L) (BitVec.ofInt 32 D) ≤
      offset (BitVec.ofInt 32 L) (BitVec.ofInt 32 E)) : D ≤ E := by
  have first := offset_ofInt (w := 32) L D (inside t D left).1
    (by have := (inside t D left).2; omega)
  have second := offset_ofInt (w := 32) L E (inside u E right).1
    (by have := (inside u E right).2; omega)
  omega

variable [DecidableEq τ]

/-- The deadlines as the heap holds them. -/
def words : List (τ × Int) → τ → Option (BitVec 32)
  | [] => fun _ => none
  | (t, D) :: armed => Function.update (words armed) t (some (BitVec.ofInt 32 D))

theorem words_mem {armed : List (τ × Int)} {t : τ} {x : BitVec 32}
    (found : words armed t = some x) : ∃ D, (t, D) ∈ armed ∧ x = BitVec.ofInt 32 D := by
  induction armed with
  | nil => cases found
  | cons p rest ih =>
      by_cases same : t = p.1
      · subst same
        simp only [words, Function.update_self, Option.some.injEq] at found
        exact ⟨p.2, .head _, found.symm⟩
      · simp only [words, Function.update_of_ne same] at found
        obtain ⟨D, member, value⟩ := ih found
        exact ⟨D, .tail _ member, value⟩

theorem words_of_mem {armed : List (τ × Int)} (distinct : Distinct armed) {t : τ} {D : Int}
    (member : (t, D) ∈ armed) : words armed t = some (BitVec.ofInt 32 D) := by
  induction armed with
  | nil => cases member
  | cons p rest ih =>
      have apart : p.1 ∉ rest.map Prod.fst := (List.nodup_cons.mp distinct).1
      cases member with
      | head => simp [words]
      | tail _ inside =>
          have ne : t ≠ p.1 := by
            intro same
            exact apart (List.mem_map.mpr ⟨(t, D), inside, same⟩)
          simpa [words, ne] using ih (List.nodup_cons.mp distinct).2 inside

theorem words_eq_none {armed : List (τ × Int)} {t : τ} (unarmed : t ∉ armed.map Prod.fst) :
    words armed t = none := by
  cases found : words armed t with
  | none => rfl
  | some x =>
      obtain ⟨D, member, _⟩ := words_mem found
      exact absurd (List.mem_map.mpr ⟨(t, D), member, rfl⟩) unarmed

theorem words_erase (armed : List (τ × Int)) (t : τ) :
    words (erase t armed) = Function.update (words armed) t none := by
  induction armed with
  | nil => exact (Function.update_eq_self t _).symm
  | cons p rest ih =>
      by_cases same : p.1 = t
      · subst same
        have dropped : erase p.1 (p :: rest) = erase p.1 rest := by simp [erase]
        rw [dropped, ih, words, Function.update_idem]
      · have kept : erase t (p :: rest) = p :: erase t rest := by simp [erase, same]
        rw [kept, words, ih, words, Function.update_comm (Ne.symm same)]

theorem IdealQueue.Spans.windowed {q : IdealQueue τ} {L : Int}
    (inside : ∀ t D, (t, D) ∈ q.armed → L ≤ D ∧ D - L ≤ 2 ^ 31 - 1) :
    WindowAt (BitVec.ofInt 32 L) (words q.armed) := by
  intro t x found
  obtain ⟨D, member, value⟩ := words_mem found
  have bounds := inside t D member
  have distance := offset_ofInt (w := 32) L D bounds.1 (by omega)
  rw [value, InWindow]
  omega

structure Matches (e : EvTimers τ φ) (q : IdealQueue τ) : Prop where
  hold : Holds e (words q.armed)
  order : HeapOrdered e.timers
  now : e.now = BitVec.ofInt 32 q.now
  distinct : Distinct q.armed
  spans : q.Spans

def callControl : Option (IdealCall τ) → TimerControl
  | none => .idle
  | some _ => .inCallback

structure QueueRel (s : TimerState τ φ) (q : IdealQueue τ) : Prop
    extends Matches s.loop q where
  control : s.control = callControl q.call
  call : ∀ c, q.call = some c → Accounts q c ∧ c.fired ≠ []

variable {e : EvTimers τ φ} {q : IdealQueue τ} {c : IdealCall τ}

theorem Matches.windowed (m : Matches e q) : Windowed (words q.armed) := by
  obtain ⟨L, _, inside⟩ := m.spans
  exact ⟨_, IdealQueue.Spans.windowed inside⟩

theorem Matches.earliest (m : Matches e q) {t : τ} {x : BitVec 32}
    (head : Head e (words q.armed) t x) :
    ∃ D, q.Earliest t D ∧ signedDiff x e.now = D - q.now := by
  obtain ⟨D, member, value⟩ := words_mem head.armed
  refine ⟨D, ⟨member, ?_⟩, ?_⟩
  · intro u E other
    obtain ⟨L, _, inside⟩ := m.spans
    have first := head.first m.hold m.order (IdealQueue.Spans.windowed inside)
      (words_of_mem m.distinct other)
    rw [value] at first
    exact IdealQueue.Spans.offset_le inside member other first
  · rw [value, m.now]
    exact m.spans.diff member

theorem Matches.armed_nil (m : Matches e q) (empty : ∀ t, words q.armed t = none) :
    q.armed = [] := by
  rw [List.eq_nil_iff_forall_not_mem]
  intro p member
  have found := words_of_mem m.distinct (t := p.1) (D := p.2) member
  rw [empty] at found
  cases found

theorem Matches.erase (m : Matches e q) {e' : EvTimers τ φ} {t : τ} {q' : IdealQueue τ}
    (armed : q'.armed = erase t q.armed) (now : q'.now = q.now)
    (hold : Holds e' (Function.update (words q.armed) t none))
    (order : HeapOrdered e'.timers) (clock : e'.now = e.now) : Matches e' q' where
  hold := by rw [armed, words_erase]; exact hold
  order := order
  now := by rw [clock, now]; exact m.now
  distinct := by rw [armed]; exact m.distinct.erase t
  spans := by
    obtain ⟨L, near, inside⟩ := m.spans
    refine ⟨L, by rw [now]; exact near, ?_⟩
    intro u D member
    rw [armed] at member
    exact inside u D (mem_erase.mp member).1

theorem Matches.returns (m : Matches e q) (k : Int) :
    QueueRel ⟨e, .idle⟩ (q.settle (.returns k : TimerOutcome τ φ)) where
  toMatches := ⟨m.hold, m.order, m.now, m.distinct, m.spans⟩
  control := rfl
  call c inside := by cases inside

theorem Matches.calls (m : Matches e q) (inside : q.call = some c) (acc : Accounts q c)
    {t : τ} {D : Int} (earliest : q.Earliest t D) (due : D ≤ q.now) {e' : EvTimers τ φ}
    (fired : Fired (words q.armed) t e e') (f : φ) :
    QueueRel ⟨e', .inCallback⟩ (q.settle (.calls t f)) where
  toMatches := m.erase rfl rfl (fired.holds m.hold) (fired.order m.windowed m.order) fired.now
  control := by simp [IdealQueue.settle, IdealQueue.fire, inside, callControl]
  call d now := by
    have same : d = c.fire (pick t q.armed) := by
      simpa [IdealQueue.settle, IdealQueue.fire, inside] using now.symm
    rw [same]
    refine ⟨acc.fire m.distinct earliest due, ?_⟩
    rw [IdealCall.fire, m.distinct.pick_eq earliest.1]
    exact List.cons_ne_nil _ _

/-- An entry into `ev_step_timers` or into its loop condition: with nothing due the
call returns `k`, otherwise the earliest due timer is called. -/
theorem Matches.settle (m : Matches e q) (inside : q.call = some c) (acc : Accounts q c)
    {r : Except TimerFault (EvTimers τ φ × TimerOutcome τ φ)}
    (split : ((∀ t, words q.armed t = none) ∧
        ∃ k, r = .ok (e, .returns k) ∧ (c.fired ≠ [] → k = 0) ∧ (c.fired = [] → k = -1)) ∨
      (∃ t x, Head e (words q.armed) t x ∧ signedDiff x e.now > 0 ∧
        ∃ k, r = .ok (e, .returns k) ∧ (c.fired ≠ [] → k = 0) ∧
          (c.fired = [] → k = signedDiff x e.now)) ∨
      ∃ t x f e', Head e (words q.armed) t x ∧ signedDiff x e.now ≤ 0 ∧
        r = .ok (e', .calls t f) ∧ Fired (words q.armed) t e e') :
    ∃ s' o, settle r = .ok (s', .outcome o) ∧ q.OutcomeLegal o ∧
      QueueRel s' (q.settle o) := by
  rcases split with ⟨empty, k, run, some_fired, none_fired⟩ |
    ⟨t, x, head, later, k, run, some_fired, none_fired⟩ |
    ⟨t, x, f, e', head, due, run, fired⟩
  · refine ⟨⟨e, .idle⟩, .returns k, by simp [run, Timers.settle, TimerOutcome.control],
      ?_, m.returns k⟩
    have none := m.armed_nil empty
    intro d now
    rw [inside] at now
    cases now
    refine acc.report ?_ some_fired ?_
    · intro p armed
      rw [none] at armed
      cases armed
    · intro nothing
      exact .inl ⟨none, none_fired nothing⟩
  · refine ⟨⟨e, .idle⟩, .returns k, by simp [run, Timers.settle, TimerOutcome.control],
      ?_, m.returns k⟩
    obtain ⟨D, earliest, diff⟩ := m.earliest head
    intro d now
    rw [inside] at now
    cases now
    refine acc.report ?_ some_fired ?_
    · intro p armed
      have first := earliest.2 p.1 p.2 armed
      omega
    · intro nothing
      exact .inr ⟨t, D, earliest, (none_fired nothing).trans diff⟩
  · obtain ⟨D, earliest, diff⟩ := m.earliest head
    have now : D ≤ q.now := by omega
    exact ⟨⟨e', .inCallback⟩, .calls t f, by simp [run, Timers.settle, TimerOutcome.control],
      ⟨D, earliest, now⟩, m.calls inside acc earliest now fired f⟩

def wrappedMachine :
    Machine (TimerState τ φ) (IdealOp τ φ) (TimerOutput τ φ) TimerFault :=
  ⟨fun s op => timerStep s op.truncate⟩

def IdealQueue.init (now : Int) : IdealQueue τ := ⟨now, [], none⟩

def queueOf (now : Int) (tr : Trace (IdealOp τ φ) (TimerOutput τ φ)) : IdealQueue τ :=
  monitor IdealQueue.next (IdealQueue.init now) tr

/-- `ev_alarm` is called on timers that are not armed and, by a callback, for later
deadlines; `ev_stop` on armed timers; the clock does not run backwards. -/
def IdealQueue.Admits (q : IdealQueue τ) : IdealOp τ φ → Prop
  | .alarm t D _ => t ∉ q.armed.map Prod.fst ∧ (q.call ≠ none → q.now < D) ∧
      (q.alarm t D).Spans
  | .stop t => t ∈ q.armed.map Prod.fst
  | .getTicks clock => q.call = none ∧ q.now ≤ clock ∧ (q.tick clock).Spans
  | .stepTimers => q.call = none
  | .callbackReturn => q.call ≠ none

def QueueAdmits (now : Int) :
    Guard (TimerState τ φ) (IdealOp τ φ) (TimerOutput τ φ) :=
  fun tr _ op => (queueOf now tr).Admits op

variable {s : TimerState τ φ}

theorem QueueRel.alarm (rel : QueueRel s q) {t : τ} {D : Int} {f : φ}
    (admitted : q.Admits (.alarm t D f)) :
    ∃ s', timerStep s (.alarm t (BitVec.ofInt 32 D) f) = .ok (s', .done) ∧
      QueueRel s' (q.alarm t D) := by
  obtain ⟨unarmed, later, spans⟩ := admitted
  obtain ⟨e, run, _, hold, now, order⟩ :=
    evAlarm_ok rel.hold (words_eq_none unarmed) (BitVec.ofInt 32 D) f
  have distinct : Distinct (q.alarm t D).armed := List.nodup_cons.mpr ⟨unarmed, rel.distinct⟩
  have windowed : Windowed (words (q.alarm t D).armed) := by
    obtain ⟨L, _, inside⟩ := spans
    exact ⟨_, IdealQueue.Spans.windowed inside⟩
  refine ⟨{ s with loop := e }, by simp [timerStep, run], ⟨hold, order windowed rel.order,
    now.trans rel.now, distinct, spans⟩, rel.control, ?_⟩
  intro c inside
  have calling : q.call ≠ none := by
    rw [show q.call = some c from inside]
    exact Option.some_ne_none c
  exact ⟨(rel.call c inside).1.alarm (later calling), (rel.call c inside).2⟩

theorem QueueRel.stop (rel : QueueRel s q) {t : τ}
    (admitted : q.Admits (.stop t : IdealOp τ φ)) :
    ∃ s', timerStep s (.stop t) = .ok (s', .done) ∧ QueueRel s' (q.stop t) := by
  obtain ⟨⟨u, D⟩, armed, same⟩ := List.mem_map.mp admitted
  subst same
  obtain ⟨e, run, hold, order, now, _⟩ := evStop_armed rel.hold rel.windowed rel.order
    (words_of_mem rel.distinct armed)
  refine ⟨{ s with loop := e }, by simp [timerStep, run],
    rel.toMatches.erase rfl rfl hold order now, ?_, ?_⟩
  · rw [rel.control]
    cases inside : q.call <;> simp [IdealQueue.stop, inside, callControl]
  · intro d inside
    obtain ⟨c, calling, same⟩ := Option.map_eq_some_iff.mp inside
    rw [← same]
    exact ⟨(rel.call c calling).1.stop u, (rel.call c calling).2⟩

theorem QueueRel.getTicks (rel : QueueRel s q) {clock : Int}
    (admitted : q.Admits (.getTicks clock : IdealOp τ φ)) :
    ∃ s', timerStep s (.getTicks (BitVec.ofInt 32 clock)) = .ok (s', .done) ∧
      QueueRel s' (q.tick clock) := by
  obtain ⟨outside, _, spans⟩ := admitted
  have idle : s.control = .idle := by rw [rel.control, outside]; rfl
  refine ⟨{ s with loop := { s.loop with now := BitVec.ofInt 32 clock } },
    by simp [timerStep, idle], ⟨⟨rel.hold.represents, rel.hold.callback⟩, rel.order, rfl,
      rel.distinct, spans⟩, rel.control, ?_⟩
  intro c inside
  have calling : q.call = some c := inside
  rw [outside] at calling
  cases calling

theorem QueueRel.stepTimers (rel : QueueRel s q)
    (admitted : q.Admits (.stepTimers : IdealOp τ φ)) :
    ∃ s' o, timerStep s .stepTimers = .ok (s', .outcome o) ∧
      q.begin.OutcomeLegal o ∧ QueueRel s' (q.begin.settle o) := by
  have outside : q.call = none := admitted
  have idle : s.control = .idle := by rw [rel.control, outside]; rfl
  have m : Matches s.loop q.begin :=
    ⟨rel.hold, rel.order, rel.now, rel.distinct, rel.spans⟩
  simp only [timerStep, idle]
  refine m.settle rfl (.begin q rel.distinct) ?_
  rcases evStepTimers_ok m.hold with ⟨empty, run⟩ | ⟨t, x, head, later, run⟩ | due
  · exact .inl ⟨empty, -1, run, fun fired => absurd rfl fired, fun _ => rfl⟩
  · exact .inr (.inl ⟨t, x, head, later, _, run, fun fired => absurd rfl fired, fun _ => rfl⟩)
  · exact .inr (.inr due)

theorem QueueRel.callbackReturn (rel : QueueRel s q)
    (admitted : q.Admits (.callbackReturn : IdealOp τ φ)) :
    ∃ s' o, timerStep s .callbackReturn = .ok (s', .outcome o) ∧
      q.OutcomeLegal o ∧ QueueRel s' (q.settle o) := by
  cases inside : q.call with
  | none => exact absurd inside admitted
  | some c =>
      have calling : s.control = .inCallback := by rw [rel.control, inside]; rfl
      obtain ⟨acc, fired⟩ := rel.call c inside
      simp only [timerStep, calling]
      refine rel.toMatches.settle inside acc ?_
      rcases evStepTimersResume_ok rel.hold with ⟨empty, run⟩ | ⟨t, x, head, later, run⟩ | due
      · exact .inl ⟨empty, 0, run, fun _ => rfl, fun none => absurd none fired⟩
      · exact .inr (.inl ⟨t, x, head, later, 0, run, fun _ => rfl, fun none => absurd none fired⟩)
      · exact .inr (.inr due)

theorem queue_refines (now : Int) :
    Refines (wrappedMachine : Machine (TimerState τ φ) _ _ _) (QueueAdmits now)
      IdealQueue.next (IdealQueue.init now) IdealQueue.Legal QueueRel where
  step tr s op rel admitted := by
    cases op with
    | alarm t D f =>
        obtain ⟨s', run, rel'⟩ := rel.alarm admitted
        exact ⟨s', .done, run, rfl, rel'⟩
    | stop t =>
        obtain ⟨s', run, rel'⟩ := rel.stop admitted
        exact ⟨s', .done, run, rfl, rel'⟩
    | getTicks clock =>
        obtain ⟨s', run, rel'⟩ := rel.getTicks admitted
        exact ⟨s', .done, run, rfl, rel'⟩
    | stepTimers =>
        obtain ⟨s', o, run, legal, rel'⟩ := rel.stepTimers admitted
        exact ⟨s', .outcome o, run, legal, rel'⟩
    | callbackReturn =>
        obtain ⟨s', o, run, legal, rel'⟩ := rel.callbackReturn admitted
        exact ⟨s', .outcome o, run, legal, rel'⟩

theorem init_queueRel (garbage : Nat → BitVec 32) (index : τ → Nat) (fn : τ → Option φ)
    (now : Int) :
    QueueRel (TimerState.init garbage index fn (BitVec.ofInt 32 now))
      (IdealQueue.init now) where
  hold := init_holds garbage index fn (BitVec.ofInt 32 now)
  order := init_ordered garbage index fn (BitVec.ofInt 32 now)
  now := rfl
  distinct := List.nodup_nil
  spans := ⟨now, ⟨Int.le_refl now, by simp [IdealQueue.init]⟩, fun t D member => by cases member⟩
  control := rfl
  call c inside := by cases inside

/-- In every run the answers are those of the ideal queue, the armed timers and their
deadlines are the ideal ones, a call of `ev_step_timers` makes no more callbacks than
timers were due, and no admitted operation faults. -/
theorem evStepTimers_refines_ideal (now : Int) {garbage : Nat → BitVec 32} {index : τ → Nat}
    {fn : τ → Option φ} {tr : Trace (IdealOp τ φ) (TimerOutput τ φ)}
    (run : Run wrappedMachine (QueueAdmits now)
      (TimerState.init garbage index fn (BitVec.ofInt 32 now)) tr s) :
    Lawful IdealQueue.next (IdealQueue.init now) IdealQueue.Legal tr ∧
      (∀ t x, InQueue s.loop t x ↔
        ∃ D, (t, D) ∈ (queueOf now tr).armed ∧ x = BitVec.ofInt 32 D) ∧
      s.loop.now = BitVec.ofInt 32 (queueOf now tr).now ∧
      (∀ msecs, evTimeout s.loop msecs = BitVec.ofInt 32 ((queueOf now tr).now + msecs)) ∧
      (∀ c, (queueOf now tr).call = some c → c.fired.length ≤ c.due.length) ∧
      ∀ op, (queueOf now tr).Admits op →
        ∃ s' o, wrappedMachine.step s op = .ok (s', o) ∧ (queueOf now tr).Legal op o := by
  have init := init_queueRel garbage index fn now
  obtain ⟨lawful, rel⟩ := (queue_refines now).run init run
  refine ⟨lawful, ?_, rel.now, ?_, ?_, ?_⟩
  · intro t x
    rw [rel.hold.inQueue_iff]
    constructor
    · exact words_mem
    · intro ⟨D, member, value⟩
      rw [value]
      exact words_of_mem rel.distinct member
  · intro msecs
    rw [evTimeout, rel.now]
    exact (BitVec.ofInt_add ..).symm
  · intro c inside
    exact (rel.call c inside).1.fired_le_due
  · intro op admitted
    exact (queue_refines now).progress init run admitted

/-- The clock wraps at `2 ^ 32`. Timer 0 fires and arms itself again, timer 1 fires and
stops timer 0. -/
def acrossWrap : Trace (IdealOp Nat Unit) (TimerOutput Nat Unit) :=
  [(.callbackReturn, .outcome (.returns 0)), (.stop 0, .done),
    (.callbackReturn, .outcome (.calls 1 ())), (.alarm 0 4294967303 (), .done),
    (.stepTimers, .outcome (.calls 0 ())), (.getTicks 4294967301, .done),
    (.alarm 1 4294967300 (), .done), (.alarm 0 4294967295 (), .done)]

def acrossWrapState : TimerState Nat Unit :=
  wrappedMachine.afterAll
    (TimerState.init (fun _ => 0) (fun _ => 0) (fun _ => none) (BitVec.ofInt 32 4294967293))
    (acrossWrap.reverse.map Prod.fst)

theorem acrossWrap_run :
    Run wrappedMachine (QueueAdmits 4294967293)
      (TimerState.init (fun _ => 0) (fun _ => 0) (fun _ => none) (BitVec.ofInt 32 4294967293))
      acrossWrap acrossWrapState := by
  have near : ∀ q : IdealQueue Nat, (4294967293 ≤ q.now ∧ q.now ≤ 4294967303) →
      (∀ p, p ∈ q.armed → 4294967293 ≤ p.2 ∧ p.2 ≤ 4294967303) → q.Spans := by
    intro q now armed
    refine ⟨4294967293, ⟨now.1, by omega⟩, fun t D member => ?_⟩
    have bounds := armed (t, D) member
    omega
  refine .snoc (.snoc (.snoc (.snoc (.snoc (.snoc (.snoc (.snoc .nil
    ⟨?_, ?_, near _ ?_ ?_⟩ (Machine.step_eq ?_)) ⟨?_, ?_, near _ ?_ ?_⟩ (Machine.step_eq ?_))
    ⟨rfl, by decide, near _ ?_ ?_⟩ (Machine.step_eq ?_)) rfl (Machine.step_eq ?_))
    ⟨?_, ?_, near _ ?_ ?_⟩ (Machine.step_eq ?_)) (Option.some_ne_none _) (Machine.step_eq ?_))
    (.head _) (Machine.step_eq ?_)) (Option.some_ne_none _) (Machine.step_eq ?_)
  all_goals decide +kernel

theorem evStepTimers_refines_ideal_acrossWrap :
    (∀ t x, ¬ InQueue acrossWrapState.loop t x) ∧
      Lawful IdealQueue.next (IdealQueue.init 4294967293) IdealQueue.Legal acrossWrap ∧
      evTimeout acrossWrapState.loop 10 = 15 := by
  obtain ⟨lawful, queue, _, timeout, _⟩ :=
    evStepTimers_refines_ideal 4294967293 acrossWrap_run
  refine ⟨?_, lawful, timeout 10⟩
  intro t x inside
  obtain ⟨D, member, _⟩ := (queue t x).mp inside
  cases member

end CThread.Timers
