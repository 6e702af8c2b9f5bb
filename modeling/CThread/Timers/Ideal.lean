import CThread.Timers.Model
import Mathlib.Data.List.Perm.Subperm
import Mathlib.Data.List.Nodup

/-!
The ideal timer queue: deadlines and the clock are unbounded integers.

A call of `ev_step_timers` is remembered with the deadlines that were due when it
began, the timers it fired and the ones its callbacks stopped. `CallReport` says
what a finished call must have done; `Accounts` is what holds in the middle of a
call and leads there.
-/
namespace CThread.Timers
variable {τ φ : Type}

structure IdealCall (τ : Type) where
  due : List (τ × Int)
  /-- Newest first. -/
  fired : List (τ × Int)
  stopped : List (τ × Int)

structure IdealQueue (τ : Type) where
  now : Int
  armed : List (τ × Int)
  call : Option (IdealCall τ)

inductive IdealOp (τ φ : Type)
  | alarm (t : τ) (deadline : Int) (fn : φ)
  | stop (t : τ)
  | getTicks (clock : Int)
  | stepTimers
  | callbackReturn

/-- The C call: deadlines and clock readings are cut to 32 bits. -/
def IdealOp.truncate : IdealOp τ φ → TimerOp τ φ
  | .alarm t deadline fn => .alarm t (BitVec.ofInt 32 deadline) fn
  | .stop t => .stop t
  | .getTicks clock => .getTicks (BitVec.ofInt 32 clock)
  | .stepTimers => .stepTimers
  | .callbackReturn => .callbackReturn

/-- No timer is listed twice. -/
def Distinct (armed : List (τ × Int)) : Prop :=
  (armed.map Prod.fst).Nodup

/-- No armed deadline comes before that of `t`. -/
def IdealQueue.Earliest (q : IdealQueue τ) (t : τ) (D : Int) : Prop :=
  (t, D) ∈ q.armed ∧ ∀ u E, (u, E) ∈ q.armed → D ≤ E

/-- What a call that returns `r` has done: it fired exactly the due timers that no
callback of the call stopped, each once and in order of deadlines. -/
structure CallReport (q : IdealQueue τ) (c : IdealCall τ) (r : Int) : Prop where
  exactly : ∀ p, p ∈ c.fired ↔ p ∈ c.due ∧ p ∉ c.stopped
  once : Distinct c.fired
  sorted : c.fired.Pairwise fun later earlier => earlier.2 ≤ later.2
  some_fired : c.fired ≠ [] → r = 0
  none_fired : c.fired = [] → (q.armed = [] ∧ r = -1) ∨
    ∃ t D, q.Earliest t D ∧ r = D - q.now

def IdealQueue.OutcomeLegal (q : IdealQueue τ) : TimerOutcome τ φ → Prop
  | .calls t _ => ∃ D, q.Earliest t D ∧ D ≤ q.now
  | .returns r => ∀ c, q.call = some c → CallReport q c r

/-- The clock and all armed deadlines lie in a range of width at most `2^31 - 1`. -/
def IdealQueue.Spans (q : IdealQueue τ) : Prop :=
  ∃ L : Int, (L ≤ q.now ∧ q.now - L ≤ 2 ^ 31 - 1) ∧
    ∀ t D, (t, D) ∈ q.armed → L ≤ D ∧ D - L ≤ 2 ^ 31 - 1

/-- In the middle of a call: what was due is still armed, has fired or was stopped,
and nothing else is due. -/
structure Accounts (q : IdealQueue τ) (c : IdealCall τ) : Prop where
  due_now : ∀ p, p ∈ c.due → p.2 ≤ q.now
  due_distinct : Distinct c.due
  accounted : ∀ p, p ∈ c.due → p ∈ q.armed ∨ p ∈ c.fired ∨ p ∈ c.stopped
  pending : ∀ p, p ∈ q.armed → p.2 ≤ q.now → p ∈ c.due
  fired : ∀ p, p ∈ c.fired → p ∈ c.due ∧ p ∉ c.stopped ∧ p ∉ q.armed
  stopped : ∀ p, p ∈ c.stopped → p.2 ≤ q.now → p ∉ q.armed
  once : Distinct c.fired
  sorted : c.fired.Pairwise fun later earlier => earlier.2 ≤ later.2
  below : ∀ p, p ∈ c.fired → ∀ a, a ∈ q.armed → p.2 ≤ a.2

theorem Accounts.report {q : IdealQueue τ} {c : IdealCall τ} (acc : Accounts q c)
    (quiet : ∀ p, p ∈ q.armed → q.now < p.2) {r : Int}
    (some_fired : c.fired ≠ [] → r = 0)
    (none_fired : c.fired = [] → (q.armed = [] ∧ r = -1) ∨
      ∃ t D, q.Earliest t D ∧ r = D - q.now) : CallReport q c r where
  exactly p := by
    constructor
    · intro fired
      exact ⟨(acc.fired p fired).1, (acc.fired p fired).2.1⟩
    · intro ⟨due, live⟩
      rcases acc.accounted p due with armed | fired | stopped
      · exact absurd (acc.due_now p due) (Int.not_le.mpr (quiet p armed))
      · exact fired
      · exact absurd stopped live
  once := acc.once
  sorted := acc.sorted
  some_fired := some_fired
  none_fired := none_fired

/-- A call fires no more timers than were due when it began, so it returns. -/
theorem Accounts.fired_le_due {q : IdealQueue τ} {c : IdealCall τ} (acc : Accounts q c) :
    c.fired.length ≤ c.due.length := by
  have distinct : c.fired.Nodup := List.Nodup.of_map Prod.fst acc.once
  have within : c.fired ⊆ c.due := fun p fired => (acc.fired p fired).1
  exact (List.subperm_of_subset distinct within).length_le

def IdealQueue.alarm (q : IdealQueue τ) (t : τ) (D : Int) : IdealQueue τ :=
  { q with armed := (t, D) :: q.armed }

def IdealQueue.tick (q : IdealQueue τ) (clock : Int) : IdealQueue τ :=
  { q with now := clock }

def IdealQueue.begin (q : IdealQueue τ) : IdealQueue τ :=
  { q with call := some ⟨q.armed.filter fun p => p.2 ≤ q.now, [], []⟩ }

theorem Distinct.eq {armed : List (τ × Int)} (distinct : Distinct armed) {t : τ}
    {D E : Int} (left : (t, D) ∈ armed) (right : (t, E) ∈ armed) : D = E := by
  have same := List.inj_on_of_nodup_map distinct left right rfl
  exact congrArg Prod.snd same

variable {q : IdealQueue τ} {c : IdealCall τ}

theorem Accounts.begin (q : IdealQueue τ) (distinct : Distinct q.armed) :
    Accounts q.begin ⟨q.armed.filter fun p => p.2 ≤ q.now, [], []⟩ where
  due_now p due := of_decide_eq_true (List.mem_filter.mp due).2
  due_distinct := List.Nodup.sublist (List.Sublist.map _ List.filter_sublist) distinct
  accounted p due := .inl (List.mem_filter.mp due).1
  pending p armed now := List.mem_filter.mpr ⟨armed, decide_eq_true now⟩
  fired p fired := by cases fired
  stopped p stopped := by cases stopped
  once := List.nodup_nil
  sorted := .nil
  below p fired := by cases fired

/-- A callback may arm a timer, its own too, for a deadline after the clock. -/
theorem Accounts.alarm (acc : Accounts q c) {t : τ} {D : Int} (later : q.now < D) :
    Accounts (q.alarm t D) c where
  due_now := acc.due_now
  due_distinct := acc.due_distinct
  accounted p due := by
    rcases acc.accounted p due with armed | rest
    · exact .inl (.tail _ armed)
    · exact .inr rest
  pending p armed now := by
    cases armed with
    | head => exact absurd later (Int.not_lt.mpr now)
    | tail _ armed => exact acc.pending p armed now
  fired p fired := by
    refine ⟨(acc.fired p fired).1, (acc.fired p fired).2.1, ?_⟩
    intro armed
    cases armed with
    | head => exact absurd later (Int.not_lt.mpr (acc.due_now _ (acc.fired _ fired).1))
    | tail _ armed => exact (acc.fired p fired).2.2 armed
  stopped p stopped now armed := by
    cases armed with
    | head => exact absurd later (Int.not_lt.mpr now)
    | tail _ armed => exact acc.stopped p stopped now armed
  once := acc.once
  sorted := acc.sorted
  below p fired a armed := by
    cases armed with
    | head => exact Int.le_of_lt (Int.lt_of_le_of_lt (acc.due_now p (acc.fired p fired).1) later)
    | tail _ armed => exact acc.below p fired a armed

variable [DecidableEq τ]

def erase (t : τ) (armed : List (τ × Int)) : List (τ × Int) :=
  armed.filter fun p => p.1 ≠ t

def pick (t : τ) (armed : List (τ × Int)) : List (τ × Int) :=
  armed.filter fun p => p.1 = t

@[simp] theorem mem_erase {t : τ} {armed : List (τ × Int)} {p : τ × Int} :
    p ∈ erase t armed ↔ p ∈ armed ∧ p.1 ≠ t := by
  simp [erase]

@[simp] theorem mem_pick {t : τ} {armed : List (τ × Int)} {p : τ × Int} :
    p ∈ pick t armed ↔ p ∈ armed ∧ p.1 = t := by
  simp [pick]

def IdealCall.fire (c : IdealCall τ) (gone : List (τ × Int)) : IdealCall τ :=
  { c with fired := gone ++ c.fired }

def IdealCall.stop (c : IdealCall τ) (gone : List (τ × Int)) : IdealCall τ :=
  { c with stopped := gone ++ c.stopped }

def IdealQueue.stop (q : IdealQueue τ) (t : τ) : IdealQueue τ :=
  { q with
    armed := erase t q.armed
    call := q.call.map fun c => c.stop (pick t q.armed) }

def IdealQueue.fire (q : IdealQueue τ) (t : τ) : IdealQueue τ :=
  { q with
    armed := erase t q.armed
    call := q.call.map fun c => c.fire (pick t q.armed) }

def IdealQueue.settle (q : IdealQueue τ) : TimerOutcome τ φ → IdealQueue τ
  | .calls t _ => q.fire t
  | .returns _ => { q with call := none }

def IdealQueue.next (q : IdealQueue τ) (op : IdealOp τ φ) (o : TimerOutput τ φ) :
    IdealQueue τ :=
  match op, o with
  | .alarm t deadline _, _ => q.alarm t deadline
  | .stop t, _ => q.stop t
  | .getTicks clock, _ => q.tick clock
  | .stepTimers, .outcome o => q.begin.settle o
  | .callbackReturn, .outcome o => q.settle o
  | _, .done => q

/-- What the ideal queue allows an operation to answer. -/
def IdealQueue.Legal (q : IdealQueue τ) (op : IdealOp τ φ) (o : TimerOutput τ φ) : Prop :=
  match op, o with
  | .alarm _ _ _, o => o = .done
  | .stop _, o => o = .done
  | .getTicks _, o => o = .done
  | .stepTimers, .outcome o => q.begin.OutcomeLegal o
  | .callbackReturn, .outcome o => q.OutcomeLegal o
  | _, .done => False

theorem Distinct.erase {armed : List (τ × Int)} (distinct : Distinct armed) (t : τ) :
    Distinct (erase t armed) :=
  List.Nodup.sublist (List.Sublist.map _ List.filter_sublist) distinct

theorem Distinct.pick_eq {armed : List (τ × Int)} (distinct : Distinct armed) {t : τ}
    {D : Int} (member : (t, D) ∈ armed) : pick t armed = [(t, D)] := by
  induction armed with
  | nil => cases member
  | cons p rest ih =>
      have apart : p.1 ∉ rest.map Prod.fst := (List.nodup_cons.mp distinct).1
      have tail : Distinct rest := (List.nodup_cons.mp distinct).2
      cases member with
      | head =>
          have none : rest.filter (fun p => p.1 = t) = [] := by
            rw [List.filter_eq_nil_iff]
            intro u inside same
            have same : u.1 = t := by simpa using same
            exact apart (List.mem_map.mpr ⟨u, inside, same⟩)
          simp [pick, none]
      | tail _ inside =>
          have ne : p.1 ≠ t := by
            intro same
            exact apart (List.mem_map.mpr ⟨(t, D), inside, same.symm⟩)
          have rest_eq := ih tail inside
          simp only [pick] at rest_eq ⊢
          simp [ne, rest_eq]

theorem Accounts.stop (acc : Accounts q c) (t : τ) :
    Accounts (q.stop t) (c.stop (pick t q.armed)) where
  due_now := acc.due_now
  due_distinct := acc.due_distinct
  accounted p due := by
    rcases acc.accounted p due with armed | fired | stopped
    · by_cases same : p.1 = t
      · exact .inr (.inr (List.mem_append_left _ (mem_pick.mpr ⟨armed, same⟩)))
      · exact .inl (mem_erase.mpr ⟨armed, same⟩)
    · exact .inr (.inl fired)
    · exact .inr (.inr (List.mem_append_right _ stopped))
  pending p armed now := acc.pending p (mem_erase.mp armed).1 now
  fired p fired := by
    obtain ⟨due, live, gone⟩ := acc.fired p fired
    refine ⟨due, ?_, fun armed => gone (mem_erase.mp armed).1⟩
    intro stopped
    cases List.mem_append.mp stopped with
    | inl picked => exact gone (mem_pick.mp picked).1
    | inr stopped => exact live stopped
  stopped p stopped now armed := by
    cases List.mem_append.mp stopped with
    | inl picked => exact (mem_erase.mp armed).2 (mem_pick.mp picked).2
    | inr stopped => exact acc.stopped p stopped now (mem_erase.mp armed).1
  once := acc.once
  sorted := acc.sorted
  below p fired a armed := acc.below p fired a (mem_erase.mp armed).1

/-- Firing the earliest due timer. -/
theorem Accounts.fire (acc : Accounts q c) (distinct : Distinct q.armed) {t : τ} {D : Int}
    (earliest : q.Earliest t D) (now : D ≤ q.now) :
    Accounts (q.fire t) (c.fire (pick t q.armed)) := by
  have picked : pick t q.armed = [(t, D)] := distinct.pick_eq earliest.1
  have due : (t, D) ∈ c.due := acc.pending _ earliest.1 now
  rw [picked]
  constructor
  · exact acc.due_now
  · exact acc.due_distinct
  · intro p inside
    rcases acc.accounted p inside with armed | fired | stopped
    · by_cases same : p.1 = t
      · have whole : p = (t, D) := by
          obtain ⟨u, E⟩ := p
          cases same
          rw [distinct.eq armed earliest.1]
        rw [whole]
        exact .inr (.inl (.head _))
      · exact .inl (mem_erase.mpr ⟨armed, same⟩)
    · exact .inr (.inl (.tail _ fired))
    · exact .inr (.inr stopped)
  · intro p armed
    exact acc.pending p (mem_erase.mp armed).1
  · intro p fired
    cases fired with
    | head =>
        refine ⟨due, ?_, ?_⟩
        · intro stopped
          exact acc.stopped _ stopped now earliest.1
        · intro armed
          exact (mem_erase.mp armed).2 rfl
    | tail _ fired =>
        obtain ⟨inside, live, gone⟩ := acc.fired p fired
        exact ⟨inside, live, fun armed => gone (mem_erase.mp armed).1⟩
  · intro p stopped before armed
    exact acc.stopped p stopped before (mem_erase.mp armed).1
  · refine List.nodup_cons.mpr ⟨?_, acc.once⟩
    intro again
    obtain ⟨⟨u, E⟩, fired, same⟩ := List.mem_map.mp again
    cases same
    obtain ⟨inside, _, gone⟩ := acc.fired _ fired
    rw [acc.due_distinct.eq inside due] at gone
    exact gone earliest.1
  · exact .cons (fun p fired => acc.below p fired _ earliest.1) acc.sorted
  · intro p fired a armed
    have armed := (mem_erase.mp armed).1
    cases fired with
    | head => exact earliest.2 a.1 a.2 armed
    | tail _ fired => exact acc.below p fired a armed

end CThread.Timers
