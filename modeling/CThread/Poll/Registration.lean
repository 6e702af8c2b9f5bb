import CThread.Poll.Lifetime

/-!
`ev_watch`, `ev_unwatch` and `ev_close` between two passes. Each touches one record, marks
it dirty and leaves the kernel's masks alone.
-/
namespace CThread.Poll
open Faults Chains
variable {ρ ω φ : Type} {e : Pollers ρ ω φ} {slot : Int → EvEvent → Option ω}
  {start : Option ρ} {p : ρ} {r : EvloopPoll ρ ω} {fd : Int} [DecidableEq ρ]

/-- Only the record `p` of `fd` was written, and it is dirty now. -/
structure Touched (e e' : Pollers ρ ω φ) (fd : Int) (p : ρ) : Prop
    extends Located e e' fd p where
  dirty : ∀ r, e'.records p = some r → r.isDirty = true

/-- The record that `fd` has was found and then written. -/
theorem Located.touched {e₁ e' : Pollers ρ ω φ} (located : Located e e₁ fd p)
    (records : e'.records = Function.update e₁.records p (some r)) (table : e'.table = e₁.table)
    (kernel : e'.kernel = e₁.kernel) (dirty : r.isDirty = true) : Touched e e' fd p := by
  refine ⟨⟨fun q ne => ?_, fun fd' ne => ?_, ?_, located.same, kernel.trans located.kernel,
    located.alive⟩, fun r' record' => ?_⟩
  · rw [records]
    exact (Function.update_of_ne ne ..).trans (located.records q ne)
  · rw [table]
    exact located.table fd' ne
  · rw [table]
    exact located.home
  · rw [records, Function.update_self] at record'
    cases record'
    exact dirty

omit [DecidableEq ρ] in
theorem Lifetime.located (life : Lifetime e slot start) (inside : e.table fd = some p) :
    Located e e fd p := by
  refine ⟨fun _ _ => rfl, fun _ _ => rfl, inside, fun q member => ?_, rfl, fun r record =>
    life.not_both inside record⟩
  rw [inside] at member
  exact (Option.some.inj member).symm

def closeAt (slot : Int → EvEvent → Option ω) (fd : Int) : Int → EvEvent → Option ω :=
  Function.update slot fd fun _ => none

def Unregistered (slot : Int → EvEvent → Option ω) (w : ω) : Prop :=
  ∀ fd ev, slot fd ev ≠ some w

theorem closeAt_eq_some {u : ω} {fd' : Int} {ev' : EvEvent}
    (taken : closeAt slot fd fd' ev' = some u) : fd' ≠ fd ∧ slot fd' ev' = some u := by
  by_cases same : fd' = fd
  · subst same
    rw [closeAt, Function.update_self] at taken
    cases taken
  · rw [closeAt, Function.update_of_ne same] at taken
    exact ⟨same, taken⟩

def watchAt (slot : Int → EvEvent → Option ω) (fd : Int) (ev : EvEvent) (w : ω) :
    Int → EvEvent → Option ω :=
  Function.update slot fd (Function.update (slot fd) ev (some w))

theorem watchAt_eq_some {w u : ω} {fd' : Int} {ev ev' : EvEvent} :
    watchAt slot fd ev w fd' ev' = some u ↔
      (fd' = fd ∧ ev' = ev ∧ u = w) ∨ (¬ (fd' = fd ∧ ev' = ev) ∧ slot fd' ev' = some u) := by
  unfold watchAt
  by_cases sameFd : fd' = fd
  · subst sameFd
    by_cases sameEv : ev' = ev
    · subst sameEv
      simp [eq_comm]
    · simp [sameEv]
  · simp [sameFd]

theorem Unregistered.of_none (w : ω) : Unregistered (fun _ _ => none) w :=
  fun _ _ taken => by cases taken

theorem Unregistered.of_watch {w u : ω} {ev : EvEvent} (unregistered : Unregistered slot u)
    (other : u ≠ w) : Unregistered (watchAt slot fd ev w) u := by
  intro fd' ev' taken
  rcases watchAt_eq_some.mp taken with ⟨_, _, same⟩ | ⟨_, before⟩
  · exact other same
  · exact unregistered fd' ev' before

/-- A closed descriptor takes its watchers along. -/
theorem Unregistered.of_close {u : ω} (only : ∀ fd' ev, slot fd' ev = some u → fd' = fd) :
    Unregistered (closeAt slot fd) u := by
  intro fd' ev taken
  obtain ⟨away, before⟩ := closeAt_eq_some taken
  exact away (only fd' ev before)

/-- Nothing points to the record of a closed descriptor any more but the dirty list. -/
structure Closed (e e' : Pollers ρ ω φ) (fd : Int) : Prop where
  table : e'.table = Function.update e.table fd none
  kernel : e'.kernel = Function.update e.kernel fd none
  others : ∀ q r, e.records q = some r → e.table fd ≠ some q → e'.records q = some r
  gone : ∀ q, e.table fd = some q → ∃ r, e'.records q = some r ∧ r.fd = -1
  old : ∀ q r, e'.records q = some r → r.fd ≠ -1 → e.records q = some r

theorem evClose_ok (life : Lifetime e slot e.dirtyList) (reg : Registered e slot) (fd : Int) :
    ∃ e', evClose e fd = .ok e' ∧ Lifetime e' (closeAt slot fd) e'.dirtyList ∧
      Registered e' (closeAt slot fd) ∧ Closed e e' fd := by
  have once : ∀ fd₁ ev₁ fd₂ ev₂ u, closeAt slot fd fd₁ ev₁ = some u →
      closeAt slot fd fd₂ ev₂ = some u → fd₁ = fd₂ ∧ ev₁ = ev₂ := by
    intro fd₁ ev₁ fd₂ ev₂ u first second
    exact reg.once fd₁ ev₁ fd₂ ev₂ u (closeAt_eq_some first).2 (closeAt_eq_some second).2
  cases inside : e.table fd with
  | none =>
      have same : closeAt slot fd = slot := by
        funext fd' ev'
        by_cases eq : fd' = fd
        · subst eq
          rw [closeAt, Function.update_self, life.vacant fd' ev' inside]
        · rw [closeAt, Function.update_of_ne eq]
      rw [same]
      refine ⟨e, evClose_none life inside, life, reg, ?_, ?_, fun q r record _ => record, ?_,
        fun q r record _ => record⟩
      · rw [← inside, Function.update_eq_self]
      · rw [← life.unknown inside, Function.update_eq_self]
      · intro q member
        rw [inside] at member
        cases member
  | some p =>
      obtain ⟨_, r, record, home⟩ := life.table fd p inside
      have here : (closed e fd p r).records p =
          some (marked e { r with fd := -1, rd := none, wr := none }) :=
        Function.update_self ..
      refine ⟨closed e fd p r, evClose_eq inside record, closed_lifetime life inside record
        (fun ev => congrFun (Function.update_self fd _ slot) ev)
        (fun fd' ne => Function.update_of_ne ne ..), ⟨?_, once⟩, rfl, rfl, ?_, ?_, ?_⟩
      · intro fd' ev' u taken
        obtain ⟨ne, taken⟩ := closeAt_eq_some taken
        obtain ⟨q, f, member, content⟩ := reg.watch fd' ev' u taken
        exact ⟨q, f, (Function.update_of_ne ne ..).trans member, content⟩
      · intro q r' record' ne
        have other : q ≠ p := fun eq => ne (eq ▸ inside)
        exact (Function.update_of_ne other ..).trans record'
      · intro q member
        rw [inside] at member
        cases member
        exact ⟨_, here, marked_fd⟩
      · intro q r' record' alive
        by_cases eq : q = p
        · subst eq
          rw [here] at record'
          cases record'
          exact absurd marked_fd alive
        · exact (Function.update_of_ne eq ..).symm.trans record'

variable [DecidableEq ω]

def releaseAt (slot : Int → EvEvent → Option ω) (w : ω) : Int → EvEvent → Option ω :=
  fun fd ev => if slot fd ev = some w then none else slot fd ev

omit [DecidableEq ρ] [DecidableEq ω] in
/-- A watcher that nobody had registered got a pointer to the record of its descriptor. -/
theorem Registered.register (reg : Registered e slot) {e' : Pollers ρ ω φ} {w : ω} {ev : EvEvent}
    {f : φ} (unregistered : Unregistered slot w) (home : e'.table fd = some p)
    (stays : ∀ fd' q, e.table fd' = some q → e'.table fd' = some q)
    (pointer : e'.watches w = ⟨some f, some p⟩)
    (kept : ∀ u, u ≠ w → e'.watches u = e.watches u) :
    Registered e' (watchAt slot fd ev w) := by
  constructor
  · intro fd' ev' u taken
    rcases watchAt_eq_some.mp taken with ⟨sameFd, sameEv, same⟩ | ⟨_, taken⟩
    · subst sameFd sameEv same
      exact ⟨p, f, home, pointer⟩
    · obtain ⟨q, g, member, content⟩ := reg.watch fd' ev' u taken
      have other : u ≠ w := fun same => unregistered fd' ev' (same ▸ taken)
      exact ⟨q, g, stays fd' q member, (kept u other).trans content⟩
  · intro fd₁ ev₁ fd₂ ev₂ u first second
    rcases watchAt_eq_some.mp first with ⟨sameFd, sameEv, same⟩ | ⟨_, first⟩
    · rcases watchAt_eq_some.mp second with ⟨sameFd', sameEv', _⟩ | ⟨_, second⟩
      · exact ⟨sameFd.trans sameFd'.symm, sameEv.trans sameEv'.symm⟩
      · exact absurd (same ▸ second) (unregistered fd₂ ev₂)
    · rcases watchAt_eq_some.mp second with ⟨_, _, same⟩ | ⟨_, second⟩
      · exact absurd (same ▸ first) (unregistered fd₁ ev₁)
      · exact reg.once fd₁ ev₁ fd₂ ev₂ u first second

theorem evWatch_ok (life : Lifetime e slot e.dirtyList) (reg : Registered e slot)
    (nonneg : 0 ≤ fd) {w : ω} {ev : EvEvent} (free : slot fd ev = none)
    (unregistered : Unregistered slot w) {f : φ} (fn : (e.watches w).fn = some f) {block : ρ}
    (unused : e.records block = none) :
    ∃ e' p, evWatch e w fd ev block = .ok e' ∧
      Lifetime e' (watchAt slot fd ev w) e'.dirtyList ∧ Registered e' (watchAt slot fd ev w) ∧
      Touched e e' fd p := by
  obtain ⟨e₁, p, r, found, life₁, record, watches, located⟩ := recordFor_ok life nonneg unused
  have vacant : r.slot ev = none := by
    rw [life₁.slots fd p r ev located.home record]
    exact free
  have here : ∀ ev', (r.setSlot ev (some w)).slot ev' = watchAt slot fd ev w fd ev' := by
    intro ev'
    rw [watchAt, Function.update_self]
    by_cases same : ev' = ev
    · subst same
      rw [EvloopPoll.slot_setSlot, Function.update_self]
    · rw [EvloopPoll.slot_setSlot_of_ne _ same, Function.update_of_ne same]
      exact life₁.slots fd p r ev' located.home record
  have there : ∀ fd', fd' ≠ fd → watchAt slot fd ev w fd' = slot fd' :=
    fun fd' ne => Function.update_of_ne ne ..
  have life₂ := life₁.putWatch w { e₁.watches w with pollData := some p }
  obtain ⟨e', run, life', table, kernel, watches', records, dirty⟩ :=
    life₂.rewrite located.home record (by simp) (by simp) (by simp) here there
  have tables : e'.table = e₁.table := table
  have named : (e.watches w).fn.isNone = false := by simp [fn]
  have get : (e₁.putWatch w { e₁.watches w with pollData := some p }).get p = .ok r :=
    Pollers.get_ok record
  have pointer : e'.watches w = ⟨some f, some p⟩ := by
    rw [watches', ← fn, ← watches]
    exact Function.update_self ..
  have kept : ∀ u, u ≠ w → e'.watches u = e.watches u := by
    intro u ne
    rw [watches', ← watches]
    exact Function.update_of_ne ne ..
  have stays : ∀ fd' q, e.table fd' = some q → e'.table fd' = some q := by
    intro fd' q member
    rw [tables]
    by_cases same : fd' = fd
    · subst same
      rw [located.same q member]
      exact located.home
    · exact (located.table fd' same).trans member
  refine ⟨e', p, ?_, life', reg.register unregistered ?_ stays pointer kept,
    located.touched records table kernel dirty⟩
  · simp [evWatch, named, found, get, vacant, run]
  · rw [tables]
    exact located.home

theorem releaseAt_eq_some {w u : ω} {fd' : Int} {ev' : EvEvent} :
    releaseAt slot w fd' ev' = some u ↔ slot fd' ev' = some u ∧ u ≠ w := by
  unfold releaseAt
  by_cases same : slot fd' ev' = some w
  · rw [if_pos same, same]
    simp [eq_comm]
  · rw [if_neg same]
    refine ⟨fun taken => ⟨taken, fun eq => same (eq ▸ taken)⟩, fun both => both.1⟩

theorem Unregistered.of_release {w u : ω} (unregistered : Unregistered slot u) :
    Unregistered (releaseAt slot w) u :=
  fun fd ev taken => unregistered fd ev (releaseAt_eq_some.mp taken).1

omit [DecidableEq ρ] in
theorem Registered.release (reg : Registered e slot) {e' : Pollers ρ ω φ} {w : ω}
    (table : e'.table = e.table) (kept : ∀ u, u ≠ w → e'.watches u = e.watches u) :
    Registered e' (releaseAt slot w) := by
  constructor
  · intro fd' ev' u taken
    obtain ⟨taken, other⟩ := releaseAt_eq_some.mp taken
    obtain ⟨q, g, member, pointer⟩ := reg.watch fd' ev' u taken
    exact ⟨q, g, by rw [table]; exact member, (kept u other).trans pointer⟩
  · intro fd₁ ev₁ fd₂ ev₂ u first second
    exact reg.once fd₁ ev₁ fd₂ ev₂ u (releaseAt_eq_some.mp first).1
      (releaseAt_eq_some.mp second).1

theorem evUnwatch_ok (life : Lifetime e slot e.dirtyList) (reg : Registered e slot) {w : ω}
    {ev : EvEvent} (registered : slot fd ev = some w) :
    ∃ e' p, evUnwatch e w = .ok e' ∧ Lifetime e' (releaseAt slot w) e'.dirtyList ∧
      Registered e' (releaseAt slot w) ∧ Touched e e' fd p := by
  obtain ⟨p, f, inside, content⟩ := reg.watch fd ev w registered
  obtain ⟨_, r, record, home⟩ := life.table fd p inside
  have occupied : r.slot ev = some w := (life.slots fd p r ev inside record).trans registered
  have elsewhere : ∀ ev', ev' ≠ ev → slot fd ev' ≠ some w :=
    fun ev' ne taken => ne (reg.once fd ev' fd ev w taken registered).2
  have here : ∀ ev', (r.setSlot ev none).slot ev' = releaseAt slot w fd ev' := by
    intro ev'
    by_cases same : ev' = ev
    · subst same
      rw [EvloopPoll.slot_setSlot, releaseAt, if_pos registered]
    · rw [EvloopPoll.slot_setSlot_of_ne _ same, releaseAt, if_neg (elsewhere ev' same)]
      exact life.slots fd p r ev' inside record
  have there : ∀ fd', fd' ≠ fd → releaseAt slot w fd' = slot fd' := by
    intro fd' ne
    funext ev'
    rw [releaseAt, if_neg fun taken => ne (reg.once fd' ev' fd ev w taken registered).1]
  have life₁ := life.putWatch w ⟨none, none⟩
  obtain ⟨e', run, life', table, kernel, watches, records, dirty⟩ := life₁.rewrite inside record
    (by simp) (by simp) (by simp) here there
  have tables : e'.table = e.table := table
  have path : evUnwatch e w =
      markDirty ((e.putWatch w ⟨none, none⟩).put p (r.setSlot ev none)) p := by
    have get : (e.putWatch w ⟨none, none⟩).get p = .ok r := Pollers.get_ok record
    cases ev with
    | read =>
        have rd : r.rd = some w := occupied
        simp [evUnwatch, content, get, rd]
    | write =>
        have wr : r.wr = some w := occupied
        have rd : r.rd ≠ some w := by
          intro taken
          have read : slot fd .read = some w :=
            (life.slots fd p r .read inside record).symm.trans taken
          exact elsewhere .read (by simp) read
        simp [evUnwatch, content, get, rd, wr]
  refine ⟨e', p, path.trans run, life', reg.release table fun u other => ?_,
    (life.located inside).touched records table kernel dirty⟩
  rw [watches]
  exact Function.update_of_ne other ..

end CThread.Poll
