import CThread.Timers.Model

/-!
One lemma for each timer routine, over the finite map `M` of armed deadlines.

Only the head is ever fired, so everything said about `ev_step_timers` holds
without the order of the heap. Stopping an armed timer removes an inner slot and
needs the order and the window.
-/
namespace CThread.Timers
open SerialOrder Faults Heap
variable {τ φ : Type}

/-- The heap holds exactly the armed deadlines and every armed timer has a
callback. -/
structure Holds (e : EvTimers τ φ) (M : τ → Option (BitVec 32)) : Prop where
  represents : Represents e.timers M
  callback : ∀ t x, M t = some x → ∃ f, e.fn t = some f

structure Head (e : EvTimers τ φ) (M : τ → Option (BitVec 32)) (t : τ) (x : BitVec 32) :
    Prop where
  nonempty : 1 ≤ e.timers.size
  entry : e.timers.v 1 = ⟨x, some t⟩
  armed : M t = some x

variable {e : EvTimers τ φ} {M : τ → Option (BitVec 32)}

/-- The timer `t` is in the queue with deadline `x`. -/
def InQueue (e : EvTimers τ φ) (t : τ) (x : BitVec 32) : Prop :=
  ∃ k, 1 ≤ k ∧ k ≤ e.timers.size ∧ e.timers.v k = ⟨x, some t⟩

theorem Holds.inQueue_iff (hold : Holds e M) (t : τ) (x : BitVec 32) :
    InQueue e t x ↔ M t = some x := by
  constructor
  · intro ⟨k, one, inside, entry⟩
    obtain ⟨n, node, _, member⟩ := hold.represents.slot k one inside
    rw [entry] at node member
    cases node
    exact member
  · intro armed
    obtain ⟨one, inside, entry⟩ := hold.represents.back t x armed
    exact ⟨e.timers.index t, one, inside, entry⟩

@[simp] theorem inHeap_ok {α : Type} (a : α) :
    inHeap (.ok a : Except HeapFault α) = .ok a := rfl

theorem Holds.head (hold : Holds e M) (nonempty : e.timers.size ≠ 0) :
    ∃ t x, Head e M t x := by
  have one : 1 ≤ e.timers.size := Nat.pos_of_ne_zero nonempty
  obtain ⟨t, entry, _, armed⟩ := hold.represents.entry (Nat.le_refl 1) one
  exact ⟨t, _, one, entry, armed⟩

theorem Holds.none_armed (hold : Holds e M) (empty : e.timers.size = 0) (t : τ) :
    M t = none := by
  cases armed : M t with
  | none => rfl
  | some x =>
      obtain ⟨one, inside, _⟩ := hold.represents.back t x armed
      omega

theorem Head.index {t : τ} {x : BitVec 32} (head : Head e M t x) (hold : Holds e M) :
    e.timers.index t = 1 := by
  obtain ⟨n, node, index, _⟩ := hold.represents.slot 1 (Nat.le_refl 1) head.nonempty
  rw [head.entry] at node
  cases node
  exact index

/-- In a windowed heap no armed deadline comes before that of the head. -/
theorem Head.first {t : τ} {x : BitVec 32} (head : Head e M t x) (hold : Holds e M)
    (order : HeapOrdered e.timers) {base : BitVec 32} (window : WindowAt base M)
    {u : τ} {y : BitVec 32} (armed : M u = some y) : offset base x ≤ offset base y := by
  obtain ⟨one, inside, entry⟩ := hold.represents.back u y armed
  have := order.head_le hold.represents window one inside
  rw [head.entry, entry] at this
  exact this

theorem init_holds (garbage : Nat → BitVec 32) (index : τ → Nat) (fn : τ → Option φ)
    (now : BitVec 32) : Holds (TimerState.init garbage index fn now).loop (fun _ => none) where
  represents := by
    refine ⟨.inl rfl, ?_, ?_⟩
    · intro k one inside
      have empty : k ≤ 0 := inside
      omega
    · intro t x armed
      cases armed
  callback t x armed := by cases armed

theorem init_ordered (garbage : Nat → BitVec 32) (index : τ → Nat) (fn : τ → Option φ)
    (now : BitVec 32) : HeapOrdered (TimerState.init garbage index fn now).loop.timers := by
  intro k two inside
  have empty : k ≤ 0 := inside
  omega

theorem nextTimeout_ok (hold : Holds e M) :
    ((∀ t, M t = none) ∧ nextTimeout e = .ok (-1)) ∨
      ∃ t x, Head e M t x ∧
        nextTimeout e = .ok (if signedDiff x e.now > 0 then signedDiff x e.now else 0) := by
  by_cases empty : e.timers.size = 0
  · exact .inl ⟨hold.none_armed empty, by simp [nextTimeout, empty]⟩
  · obtain ⟨t, x, head⟩ := hold.head empty
    have cap := hold.represents.slot_lt_cap (Nat.le_refl 1) head.nonempty
    refine .inr ⟨t, x, head, ?_⟩
    simp only [nextTimeout, empty, if_false, heapHead_eq, read_ok cap, inHeap_ok,
      ok_bind, head.entry, pure_eq_ok]

variable [DecidableEq τ]

/-- The state in which the callback of the head is called. -/
structure Fired (M : τ → Option (BitVec 32)) (t : τ) (e e' : EvTimers τ φ) : Prop where
  removed : Removed M t e.timers e'.timers
  stale : e'.timers.index t = 1
  now : e'.now = e.now
  fn : e'.fn = e.fn
  order : Windowed M → HeapOrdered e.timers → HeapOrdered e'.timers

theorem Fired.holds {t : τ} {e' : EvTimers τ φ} (fired : Fired M t e e')
    (hold : Holds e M) : Holds e' (Function.update M t none) where
  represents := fired.removed.represents
  callback u x armed := by
    rw [fired.fn]
    apply hold.callback u x
    by_cases same : u = t
    · subst same
      simp at armed
    · simpa [same] using armed

theorem fireHead_ok (hold : Holds e M) {t : τ} {x : BitVec 32} (head : Head e M t x) :
    ∃ f e', e.fn t = some f ∧ fireHead e = .ok (e', .calls t f) ∧ Fired M t e e' := by
  obtain ⟨f, callback⟩ := hold.callback t x head.armed
  have node : (e.timers.v 1).node = some t := by rw [head.entry]
  obtain ⟨h, run, removed, index, order⟩ :=
    heapRemove_head_ok hold.represents head.nonempty node
  have cap := hold.represents.slot_lt_cap (Nat.le_refl 1) head.nonempty
  refine ⟨f, { e with timers := h }, callback, ?_, removed, ?_, rfl, rfl, order⟩
  · simp [fireHead, read_ok cap, head.entry, run, callback]
  · exact index.trans (head.index hold)

/-- The three ways into `ev_step_timers`: nothing is armed, the head is not due, or
the head fires. -/
theorem evStepTimers_ok (hold : Holds e M) :
    ((∀ t, M t = none) ∧ evStepTimers e = .ok (e, .returns (-1))) ∨
      (∃ t x, Head e M t x ∧ signedDiff x e.now > 0 ∧
        evStepTimers e = .ok (e, .returns (signedDiff x e.now))) ∨
      ∃ t x f e', Head e M t x ∧ signedDiff x e.now ≤ 0 ∧
        evStepTimers e = .ok (e', .calls t f) ∧ Fired M t e e' := by
  cases nextTimeout_ok hold with
  | inl empty => exact .inl ⟨empty.1, by simp [evStepTimers, empty.2]⟩
  | inr found =>
      obtain ⟨t, x, head, next⟩ := found
      by_cases due : signedDiff x e.now > 0
      · refine .inr (.inl ⟨t, x, head, due, ?_⟩)
        simp [evStepTimers, next, due, Int.ne_of_gt due]
      · obtain ⟨f, e', _, fire, fired⟩ := fireHead_ok hold head
        refine .inr (.inr ⟨t, x, f, e', head, Int.not_lt.mp due, ?_, fired⟩)
        simp [evStepTimers, next, due, fire]

/-- When a callback returns, the next due head fires or the call returns 0. -/
theorem evStepTimersResume_ok (hold : Holds e M) :
    ((∀ t, M t = none) ∧ evStepTimersResume e = .ok (e, .returns 0)) ∨
      (∃ t x, Head e M t x ∧ signedDiff x e.now > 0 ∧
        evStepTimersResume e = .ok (e, .returns 0)) ∨
      ∃ t x f e', Head e M t x ∧ signedDiff x e.now ≤ 0 ∧
        evStepTimersResume e = .ok (e', .calls t f) ∧ Fired M t e e' := by
  cases nextTimeout_ok hold with
  | inl empty => exact .inl ⟨empty.1, by simp [evStepTimersResume, empty.2]⟩
  | inr found =>
      obtain ⟨t, x, head, next⟩ := found
      by_cases due : signedDiff x e.now > 0
      · refine .inr (.inl ⟨t, x, head, due, ?_⟩)
        simp [evStepTimersResume, next, due, Int.ne_of_gt due]
      · obtain ⟨f, e', _, fire, fired⟩ := fireHead_ok hold head
        refine .inr (.inr ⟨t, x, f, e', head, Int.not_lt.mp due, ?_, fired⟩)
        simp [evStepTimersResume, next, due, fire]

theorem fireHead_calls {e' : EvTimers τ φ} {o : TimerOutcome τ φ}
    (fired : fireHead e = .ok (e', o)) : ∃ t fn, o = .calls t fn := by
  unfold fireHead at fired
  obtain ⟨head, _, fired⟩ := bind_eq_ok.mp fired
  split at fired
  · cases fired
  · next t _ =>
      obtain ⟨h, _, fired⟩ := bind_eq_ok.mp fired
      split at fired
      · cases fired
      · next fn _ =>
          cases fired
          exact ⟨t, fn, rfl⟩

/-- A step that has called back returns without a timeout. -/
theorem evStepTimersResume_returns {e' : EvTimers τ φ} {timeout : Int}
    (run : evStepTimersResume e = .ok (e', .returns timeout)) : e' = e ∧ timeout = 0 := by
  unfold evStepTimersResume at run
  obtain ⟨diff, _, run⟩ := bind_eq_ok.mp run
  split at run
  · obtain ⟨t, fn, eq⟩ := fireHead_calls run
    cases eq
  · cases run
    exact ⟨rfl, rfl⟩

theorem evStepTimers_calls (hold : Holds e M) {e' : EvTimers τ φ} {t : τ} {fn : φ}
    (run : evStepTimers e = .ok (e', .calls t fn)) :
    ∃ x, Head e M t x ∧ signedDiff x e.now ≤ 0 ∧ Fired M t e e' := by
  rcases evStepTimers_ok hold with ⟨_, run'⟩ | ⟨_, _, _, _, run'⟩ |
    ⟨_, x, _, _, head, due, run', fired⟩
  · cases run.symm.trans run'
  · cases run.symm.trans run'
  · cases run.symm.trans run'
    exact ⟨x, head, due, fired⟩

theorem evStepTimersResume_calls (hold : Holds e M) {e' : EvTimers τ φ} {t : τ} {fn : φ}
    (run : evStepTimersResume e = .ok (e', .calls t fn)) : Fired M t e e' := by
  rcases evStepTimersResume_ok hold with ⟨_, run'⟩ | ⟨_, _, _, _, run'⟩ |
    ⟨_, _, _, _, _, _, run', fired⟩
  · cases run.symm.trans run'
  · cases run.symm.trans run'
  · cases run.symm.trans run'
    exact fired

/-- A step without a callback returns with a timeout. -/
theorem evStepTimers_returns {e' : EvTimers τ φ} {timeout : Int}
    (run : evStepTimers e = .ok (e', .returns timeout)) : timeout ≠ 0 := by
  unfold evStepTimers at run
  obtain ⟨diff, _, run⟩ := bind_eq_ok.mp run
  split at run
  · next nonzero =>
      cases run
      exact nonzero
  · obtain ⟨t, fn, eq⟩ := fireHead_calls run
    cases eq

theorem evAlarm_ok (hold : Holds e M) {t : τ} (unarmed : M t = none) (x : BitVec 32)
    (f : φ) :
    ∃ e', evAlarm e t x f = .ok e' ∧ Inserted M t x e.timers e'.timers ∧
      Holds e' (Function.update M t (some x)) ∧ e'.now = e.now ∧
      (Windowed (Function.update M t (some x)) → HeapOrdered e.timers →
        HeapOrdered e'.timers) := by
  obtain ⟨h, run, inserted, order⟩ := heapInsert_ok hold.represents unarmed x
  refine ⟨⟨h, e.now, Function.update e.fn t (some f)⟩, by simp [evAlarm, run],
    inserted, ⟨inserted.represents, ?_⟩, rfl, order⟩
  intro u y armed
  by_cases same : u = t
  · subst same
    exact ⟨f, by simp⟩
  · obtain ⟨g, callback⟩ := hold.callback u y (by simpa [same] using armed)
    exact ⟨g, by simpa [same] using callback⟩

theorem evStop_invalid {t : τ} (invalid : e.timers.index t = heapInvalid) :
    evStop e t = .ok e := by
  simp [evStop, invalid]

theorem evStop_armed (hold : Holds e M) (windowed : Windowed M)
    (order : HeapOrdered e.timers) {t : τ} {x : BitVec 32} (armed : M t = some x) :
    ∃ e', evStop e t = .ok e' ∧ Holds e' (Function.update M t none) ∧
      HeapOrdered e'.timers ∧ e'.now = e.now ∧ e'.timers.index t = heapInvalid ∧
      e'.timers.v 0 = e.timers.v 0 ∧
      (∀ u, u ≠ t → M u = none → e'.timers.index u = e.timers.index u) := by
  obtain ⟨one, inside, entry⟩ := hold.represents.back t x armed
  obtain ⟨h, run, removed, ordered⟩ := heapRemove_ok hold.represents windowed order one
    inside (n := t) (by rw [entry])
  have valid : e.timers.index t ≠ 0 := by omega
  refine ⟨⟨{ h with index := Function.update h.index t heapInvalid }, e.now,
    Function.update e.fn t none⟩, ?_, ⟨?_, ?_⟩, ordered, rfl, by simp, removed.spare, ?_⟩
  · simp [evStop, valid, run]
  · exact removed.represents.setIndex (by simp) _
  · intro u y other
    by_cases same : u = t
    · subst same
      simp at other
    · simpa [same] using hold.callback u y (by simpa [same] using other)
  · intro u ne absent
    simpa [ne] using removed.outside u ne absent

end CThread.Timers
