import CThread.Poll.Model
import CThread.Lib.Chains

/-!
The lifetime of poll records.

A record that is not freed is in the table under its own descriptor, or it has
descriptor -1 and waits on the dirty list to be freed by the next pass. `Lifetime` relates
the heap, the table, the dirty list and the kernel, and the slots to the watchers that are
registered. Its last argument is where the dirty list starts, so that it can be stated in
the middle of a pass.
-/
namespace CThread.Poll
open Faults Chains
variable {ρ ω φ : Type}

/-- The flags word holds two bits and nothing else. -/
def flagsOf (dirty added : Bool) : Flags :=
  (if dirty then flagDirty else 0) ||| (if added then epollEt else 0)

namespace EvloopPoll
variable {r : EvloopPoll ρ ω} {dirty added : Bool}

def Tidy (r : EvloopPoll ρ ω) : Prop := ∃ dirty added, r.flags = flagsOf dirty added

theorem isDirty_of_flags (flags : r.flags = flagsOf dirty added) : r.isDirty = dirty := by
  simp only [isDirty, flags]
  cases dirty <;> cases added <;> decide

theorem isAdded_of_flags (flags : r.flags = flagsOf dirty added) : r.isAdded = added := by
  simp only [isAdded, flags]
  cases dirty <;> cases added <;> decide

theorem Tidy.flags (tidy : r.Tidy) : r.flags = flagsOf r.isDirty r.isAdded := by
  obtain ⟨dirty, added, flags⟩ := tidy
  rw [isDirty_of_flags flags, isAdded_of_flags flags, flags]

theorem slot_setSlot (r : EvloopPoll ρ ω) (ev : EvEvent) (x : Option ω) :
    (r.setSlot ev x).slot ev = x := by
  cases ev <;> rfl

theorem slot_setSlot_of_ne (r : EvloopPoll ρ ω) {ev other : EvEvent} (ne : other ≠ ev)
    (x : Option ω) : (r.setSlot ev x).slot other = r.slot other := by
  cases ev <;> cases other <;> first | rfl | exact absurd rfl ne

@[simp] theorem setSlot_next (r : EvloopPoll ρ ω) (ev : EvEvent) (x : Option ω) :
    (r.setSlot ev x).next = r.next := by
  cases ev <;> rfl

@[simp] theorem setSlot_flags (r : EvloopPoll ρ ω) (ev : EvEvent) (x : Option ω) :
    (r.setSlot ev x).flags = r.flags := by
  cases ev <;> rfl

@[simp] theorem setSlot_fd (r : EvloopPoll ρ ω) (ev : EvEvent) (x : Option ω) :
    (r.setSlot ev x).fd = r.fd := by
  cases ev <;> rfl

end EvloopPoll

theorem flagsOf_or_dirty (dirty added : Bool) :
    flagsOf dirty added ||| flagDirty = flagsOf true added := by
  cases dirty <;> cases added <;> decide

theorem flagsOf_and_clean (dirty added : Bool) :
    flagsOf dirty added &&& ~~~flagDirty = flagsOf false added := by
  cases dirty <;> cases added <;> decide

theorem flagsOf_or_added (dirty added : Bool) :
    flagsOf dirty added ||| epollEt = flagsOf dirty true := by
  cases dirty <;> cases added <;> decide

/-- The mask that the pass compares with is never in the flags. -/
theorem flagsOf_and_mask (dirty added : Bool) :
    flagsOf dirty added &&& (epollHup ||| epollIn ||| epollOut) = 0 := by
  cases dirty <;> cases added <;> decide

def links (e : Pollers ρ ω φ) (p : ρ) : Option (Option ρ) :=
  (e.records p).map EvloopPoll.next

/-- The dirty list from `start` on holds exactly the dirty records. -/
def DirtyFrom (e : Pollers ρ ω φ) (start : Option ρ) (ds : List ρ) : Prop :=
  Chain (links e) start ds ∧ ds.Nodup ∧
    ∀ p, p ∈ ds ↔ ∃ r, e.records p = some r ∧ r.isDirty = true

structure Lifetime (e : Pollers ρ ω φ) (slot : Int → EvEvent → Option ω)
    (start : Option ρ) : Prop where
  table : ∀ fd p, e.table fd = some p → 0 ≤ fd ∧ ∃ r, e.records p = some r ∧ r.fd = fd
  chain : ∃ ds, DirtyFrom e start ds
  placed : ∀ p r, e.records p = some r → e.table r.fd = some p ∨
    (r.fd = -1 ∧ r.isDirty = true ∧ ∀ ev, r.slot ev = none)
  kernel : ∀ fd ev, e.kernel fd = some ev → e.table fd = some ev.ptr
  added : ∀ fd p r, e.table fd = some p → e.records p = some r →
    (r.isAdded = true ↔ e.kernel fd ≠ none)
  tidy : ∀ p r, e.records p = some r → r.Tidy
  allocated : ∀ p, p ∈ e.allocated ↔ e.records p ≠ none
  allocated_nodup : e.allocated.Nodup
  vacant : ∀ fd ev, e.table fd = none → slot fd ev = none
  slots : ∀ fd p r ev, e.table fd = some p → e.records p = some r → r.slot ev = slot fd ev

/-- A registered watcher has a callback and points to the record it is registered on. -/
structure Registered (e : Pollers ρ ω φ) (slot : Int → EvEvent → Option ω) : Prop where
  watch : ∀ fd ev w, slot fd ev = some w → ∃ p f, e.table fd = some p ∧
    e.watches w = ⟨some f, some p⟩
  once : ∀ fd ev fd' ev' w, slot fd ev = some w → slot fd' ev' = some w →
    fd = fd' ∧ ev = ev'

variable {e : Pollers ρ ω φ} {slot : Int → EvEvent → Option ω} {start : Option ρ} {p : ρ}
  {r : EvloopPoll ρ ω} {fd : Int}

theorem Pollers.get_ok (record : e.records p = some r) : e.get p = .ok r := by
  simp [Pollers.get, record]

/-- A record is in the table or on its way out, never both. -/
theorem Lifetime.not_both (life : Lifetime e slot start) (inside : e.table fd = some p)
    (record : e.records p = some r) : r.fd ≠ -1 := by
  obtain ⟨nonneg, r', record', same⟩ := life.table fd p inside
  rw [record] at record'
  cases record'
  omega

theorem Lifetime.home (life : Lifetime e slot start) (inside : e.table fd = some p)
    (record : e.records p = some r) : r.fd = fd := by
  obtain ⟨_, r', record', home⟩ := life.table fd p inside
  rw [record] at record'
  cases record'
  exact home

/-- An open record is in the table. -/
theorem Lifetime.inside (life : Lifetime e slot start) (record : e.records p = some r)
    (opened : 0 ≤ r.fd) : e.table r.fd = some p := by
  cases life.placed p r record with
  | inl inside => exact inside
  | inr out =>
      rw [out.1] at opened
      omega

/-- The kernel watches no descriptor that has no record. -/
theorem Lifetime.unknown (life : Lifetime e slot start) (empty : e.table fd = none) :
    e.kernel fd = none := by
  cases known : e.kernel fd with
  | none => rfl
  | some ev =>
      have member := life.kernel fd ev known
      rw [empty] at member
      cases member

theorem Lifetime.table_inj (life : Lifetime e slot start) {fd' : Int}
    (left : e.table fd = some p) (right : e.table fd' = some p) : fd = fd' := by
  obtain ⟨_, r, record, same⟩ := life.table fd p left
  obtain ⟨_, r', record', same'⟩ := life.table fd' p right
  rw [record] at record'
  cases record'
  exact same.symm.trans same'

/-- The record that `mark_dirty` leaves. -/
def marked (e : Pollers ρ ω φ) (r : EvloopPoll ρ ω) : EvloopPoll ρ ω :=
  if r.isDirty then r
  else { r with flags := r.flags ||| flagDirty, next := e.dirtyList }

theorem marked_flags (tidy : r.Tidy) : (marked e r).flags = flagsOf true r.isAdded := by
  unfold marked
  cases dirty : r.isDirty with
  | true =>
      rw [if_pos rfl, tidy.flags, dirty]
  | false =>
      rw [if_neg Bool.false_ne_true]
      show r.flags ||| flagDirty = _
      rw [tidy.flags, flagsOf_or_dirty]

theorem marked_slot (ev : EvEvent) : (marked e r).slot ev = r.slot ev := by
  unfold marked
  split <;> cases ev <;> rfl

theorem marked_fd : (marked e r).fd = r.fd := by
  unfold marked
  split <;> rfl

/-- The record that the pass leaves. -/
def cleaned (r : EvloopPoll ρ ω) (added : Bool) : EvloopPoll ρ ω :=
  { r with flags := flagsOf false added, next := none }

theorem cleanPoll_eq (tidy : r.Tidy) : cleanPoll r = cleaned r r.isAdded := by
  have clean : r.flags &&& ~~~flagDirty = flagsOf false r.isAdded := by
    rw [tidy.flags, flagsOf_and_clean]
  rw [cleanPoll, clean, cleaned]

theorem Lifetime.putWatch [DecidableEq ω] (life : Lifetime e slot start) (w : ω)
    (x : Evwatch ρ φ) : Lifetime (e.putWatch w x) slot start :=
  ⟨life.table, life.chain, life.placed, life.kernel, life.added, life.tidy, life.allocated,
    life.allocated_nodup, life.vacant, life.slots⟩

theorem Lifetime.restart (life : Lifetime e slot none) :
    Lifetime { e with dirtyList := none } slot none :=
  ⟨life.table, life.chain, life.placed, life.kernel, life.added, life.tidy, life.allocated,
    life.allocated_nodup, life.vacant, life.slots⟩

/-- What `Lifetime` says of one record and of the descriptor it is kept under. -/
structure LifetimeAt (e : Pollers ρ ω φ) (slot : Int → EvEvent → Option ω) (fd : Int)
    (p : ρ) : Prop where
  table : e.table fd = some p → 0 ≤ fd ∧ ∃ r, e.records p = some r ∧ r.fd = fd
  placed : ∀ r, e.records p = some r → e.table r.fd = some p ∨
    (r.fd = -1 ∧ r.isDirty = true ∧ ∀ ev, r.slot ev = none)
  kernel : ∀ ev, e.kernel fd = some ev → e.table fd = some ev.ptr
  added : ∀ r, e.table fd = some p → e.records p = some r →
    (r.isAdded = true ↔ e.kernel fd ≠ none)
  tidy : ∀ r, e.records p = some r → r.Tidy
  allocated : p ∈ e.allocated ↔ e.records p ≠ none
  vacant : ∀ ev, e.table fd = none → slot fd ev = none
  slots : ∀ r ev, e.table fd = some p → e.records p = some r → r.slot ev = slot fd ev

/-- Nothing has changed but the record `p` and the descriptor that it is kept under. -/
structure ChangedAt (e e' : Pollers ρ ω φ) (slot slot' : Int → EvEvent → Option ω) (fd : Int)
    (p : ρ) : Prop where
  records : ∀ q, q ≠ p → e'.records q = e.records q
  allocated : ∀ q, q ≠ p → (q ∈ e'.allocated ↔ q ∈ e.allocated)
  table : ∀ fd', fd' ≠ fd → e'.table fd' = e.table fd'
  kernel : ∀ fd', fd' ≠ fd → e'.kernel fd' = e.kernel fd'
  slots : ∀ fd', fd' ≠ fd → slot' fd' = slot fd'
  before : ∀ q, e.table fd = some q → q = p
  after : ∀ q, e'.table fd = some q → q = p
  only : ∀ fd', fd' ≠ fd → e.table fd' ≠ some p

/-- A change in one place is checked in that place. -/
theorem Lifetime.change (life : Lifetime e slot start) {e' : Pollers ρ ω φ}
    {slot' : Int → EvEvent → Option ω} {start' : Option ρ}
    (changed : ChangedAt e e' slot slot' fd p) (here : LifetimeAt e' slot' fd p)
    (chain : ∃ ds, DirtyFrom e' start' ds) (nodup : e'.allocated.Nodup) :
    Lifetime e' slot' start' := by
  have away : ∀ fd' q, fd' ≠ fd → e'.table fd' = some q → q ≠ p ∧ e.table fd' = some q := by
    intro fd' q other inside
    rw [changed.table fd' other] at inside
    exact ⟨fun same => changed.only fd' other (same ▸ inside), inside⟩
  refine ⟨fun fd' q inside => ?_, chain, fun q r record => ?_, fun fd' ev known => ?_,
    fun fd' q r inside record => ?_, fun q r record => ?_, fun q => ?_, nodup,
    fun fd' ev empty => ?_, fun fd' q r ev inside record => ?_⟩
  · by_cases eq : fd' = fd
    · subst eq
      cases changed.after q inside
      exact here.table inside
    · obtain ⟨other, inside⟩ := away fd' q eq inside
      rw [changed.records q other]
      exact life.table fd' q inside
  · by_cases eq : q = p
    · subst eq
      exact here.placed r record
    · rw [changed.records q eq] at record
      cases life.placed q r record with
      | inl inside =>
          have ne : r.fd ≠ fd := fun same => eq (changed.before q (same ▸ inside))
          exact .inl ((changed.table r.fd ne).trans inside)
      | inr out => exact .inr out
  · by_cases eq : fd' = fd
    · subst eq
      exact here.kernel ev known
    · rw [changed.kernel fd' eq] at known
      exact (changed.table fd' eq).trans (life.kernel fd' ev known)
  · by_cases eq : fd' = fd
    · subst eq
      cases changed.after q inside
      exact here.added r inside record
    · obtain ⟨other, inside⟩ := away fd' q eq inside
      rw [changed.records q other] at record
      rw [changed.kernel fd' eq]
      exact life.added fd' q r inside record
  · by_cases eq : q = p
    · subst eq
      exact here.tidy r record
    · exact life.tidy q r ((changed.records q eq).symm.trans record)
  · by_cases eq : q = p
    · subst eq
      exact here.allocated
    · rw [changed.allocated q eq, changed.records q eq]
      exact life.allocated q
  · by_cases eq : fd' = fd
    · subst eq
      exact here.vacant ev empty
    · rw [changed.slots fd' eq]
      exact life.vacant fd' ev ((changed.table fd' eq).symm.trans empty)
  · by_cases eq : fd' = fd
    · subst eq
      cases changed.after q inside
      exact here.slots r ev inside record
    · obtain ⟨other, inside⟩ := away fd' q eq inside
      rw [changed.records q other] at record
      rw [changed.slots fd' eq]
      exact life.slots fd' q r ev inside record

/-- A record of the table changes under its descriptor. -/
theorem Lifetime.changedAt (life : Lifetime e slot start) (inside : e.table fd = some p)
    {e' : Pollers ρ ω φ} {slot' : Int → EvEvent → Option ω}
    (records : ∀ q, q ≠ p → e'.records q = e.records q)
    (table : ∀ fd', fd' ≠ fd → e'.table fd' = e.table fd')
    (kernel : ∀ fd', fd' ≠ fd → e'.kernel fd' = e.kernel fd')
    (slots : ∀ fd', fd' ≠ fd → slot' fd' = slot fd')
    (allocated : e'.allocated = e.allocated) (after : ∀ q, e'.table fd = some q → q = p) :
    ChangedAt e e' slot slot' fd p := by
  refine ⟨records, fun q _ => by rw [allocated], table, kernel, slots, fun q other => ?_, after,
    fun fd' ne member => ne (life.table_inj member inside)⟩
  rw [inside] at other
  exact (Option.some.inj other).symm

variable [DecidableEq ρ]

/-- `mark_dirty` right after the fields of the record were written. -/
theorem markDirty_put (e : Pollers ρ ω φ) (p : ρ) (r : EvloopPoll ρ ω) :
    markDirty (e.put p r) p = .ok { e.put p (marked e r) with
      dirtyList := if r.isDirty then e.dirtyList else some p } := by
  have found : (e.put p r).get p = .ok r := Pollers.get_ok (Function.update_self ..)
  simp only [markDirty, found, ok_bind, pure_eq_ok, marked]
  cases dirty : r.isDirty with
  | true => simp [Pollers.put]
  | false => simp [Pollers.put]

/-- The dirty list after a record with unchanged links was written and marked. -/
theorem DirtyFrom.mark {ds : List ρ} (dirty : DirtyFrom e e.dirtyList ds)
    {old : EvloopPoll ρ ω} (record : e.records p = some old) (next : r.next = old.next)
    (flags : r.flags = old.flags) (tidy : r.Tidy) {e' : Pollers ρ ω φ}
    (records : e'.records = Function.update e.records p (some (marked e r))) :
    ∃ ds', DirtyFrom e' (if r.isDirty then e.dirtyList else some p) ds' := by
  obtain ⟨chain, nodup, exactly⟩ := dirty
  have same : r.isDirty = old.isDirty := by simp [EvloopPoll.isDirty, flags]
  have here : links e' p = some (marked e r).next := by
    simp [links, records]
  have there : ∀ q, q ≠ p → links e' q = links e q := by
    intro q ne
    simp [links, records, ne]
  have now : (marked e r).isDirty = true :=
    EvloopPoll.isDirty_of_flags (marked_flags tidy)
  have members : ∀ q, (∃ r', e'.records q = some r' ∧ r'.isDirty = true) ↔
      q = p ∨ q ∈ ds := by
    intro q
    rw [exactly q, records]
    by_cases eq : q = p
    · subst eq
      simp [now]
    · simp [eq]
  cases dirty : r.isDirty with
  | true =>
      have inside : p ∈ ds := (exactly p).mpr ⟨old, record, same ▸ dirty⟩
      refine ⟨ds, chain.congr ?_, nodup, fun q => ?_⟩
      · intro q _
        by_cases eq : q = p
        · subst eq
          rw [here, marked, if_pos dirty, next]
          simp [links, record]
        · exact there q eq
      · rw [members]
        exact ⟨.inr, fun either => either.elim (fun eq => eq ▸ inside) id⟩
  | false =>
      have outside : p ∉ ds := by
        intro inside
        obtain ⟨r', record', dirty'⟩ := (exactly p).mp inside
        rw [record] at record'
        cases record'
        rw [← same, dirty] at dirty'
        cases dirty'
      refine ⟨p :: ds, Chain.push (chain.congr ?_) ?_, List.nodup_cons.mpr ⟨outside, nodup⟩,
        fun q => ?_⟩
      · intro q inside
        exact there q fun eq => outside (eq ▸ inside)
      · rw [here, marked, if_neg (by rw [dirty]; exact Bool.false_ne_true)]
      · rw [members, List.mem_cons]

/-- A record of the table was written and marked; its slots are the new registrations. -/
theorem Lifetime.rewrite (life : Lifetime e slot e.dirtyList) (inside : e.table fd = some p)
    {old : EvloopPoll ρ ω} (record : e.records p = some old) (next : r.next = old.next)
    (flags : r.flags = old.flags) (same : r.fd = old.fd) {slot' : Int → EvEvent → Option ω}
    (here : ∀ ev, r.slot ev = slot' fd ev) (there : ∀ fd', fd' ≠ fd → slot' fd' = slot fd') :
    ∃ e', markDirty (e.put p r) p = .ok e' ∧ Lifetime e' slot' e'.dirtyList ∧
      e'.table = e.table ∧ e'.kernel = e.kernel ∧ e'.watches = e.watches ∧
      e'.records = Function.update e.records p (some (marked e r)) ∧
      (marked e r).isDirty = true := by
  have tidy : r.Tidy := by
    obtain ⟨dirty, added, bits⟩ := life.tidy p old record
    exact ⟨dirty, added, flags.trans bits⟩
  have added : (marked e r).isAdded = old.isAdded := by
    rw [EvloopPoll.isAdded_of_flags (marked_flags tidy)]
    simp [EvloopPoll.isAdded, flags]
  have home : (marked e r).fd = fd := marked_fd.trans (same.trans (life.home inside record))
  have place : ∀ r', (e.put p (marked e r)).records p = some r' → r' = marked e r := by
    intro r' record'
    simpa [Pollers.put] using record'.symm
  have changed : ∀ q, q ≠ p → (e.put p (marked e r)).records q = e.records q :=
    fun q ne => Function.update_of_ne ne ..
  obtain ⟨ds, dirty⟩ := life.chain
  refine ⟨_, markDirty_put e p r, ?_, rfl, rfl, rfl, rfl,
    EvloopPoll.isDirty_of_flags (marked_flags tidy)⟩
  refine life.change (life.changedAt inside changed (fun _ _ => rfl) (fun _ _ => rfl) there rfl
    fun q other => ?_) ?_ (dirty.mark record next flags tidy rfl) life.allocated_nodup
  · have other : e.table fd = some q := other
    rw [inside] at other
    exact (Option.some.inj other).symm
  · constructor
    · exact fun _ => ⟨(life.table fd p inside).1, _, Function.update_self .., home⟩
    · intro r' record'
      rw [place r' record', home]
      exact .inl inside
    · exact life.kernel fd
    · intro r' _ record'
      rw [place r' record', added]
      exact life.added fd p old inside record
    · intro r' record'
      rw [place r' record']
      exact ⟨_, _, marked_flags tidy⟩
    · simp [Pollers.put, life.allocated, record]
    · intro ev empty
      have empty : e.table fd = none := empty
      rw [inside] at empty
      cases empty
    · intro r' ev _ record'
      rw [place r' record', marked_slot, here]

omit [DecidableEq ρ] in
/-- A clean record in a fresh block leaves the dirty list as it is. -/
theorem DirtyFrom.add {ds : List ρ} (dirty : DirtyFrom e start ds) (unused : e.records p = none)
    {e' : Pollers ρ ω φ} (here : e'.records p = some r) (clean : r.isDirty = false)
    (there : ∀ q, q ≠ p → e'.records q = e.records q) : DirtyFrom e' start ds := by
  obtain ⟨chain, nodup, exactly⟩ := dirty
  have outside : ∀ q, q ∈ ds → q ≠ p := by
    intro q member same
    obtain ⟨r, record, _⟩ := (exactly q).mp member
    rw [same, unused] at record
    cases record
  refine ⟨chain.congr ?_, nodup, ?_⟩
  · intro q member
    exact congrArg (Option.map EvloopPoll.next) (there q (outside q member))
  · intro q
    by_cases eq : q = p
    · subst eq
      refine ⟨fun member => absurd rfl (outside q member), ?_⟩
      intro ⟨r', record, marked⟩
      rw [here] at record
      cases record
      rw [clean] at marked
      cases marked
    · rw [exactly, there q eq]

/-- A new record is clean and nobody is registered on it. -/
theorem addPoll_lifetime (life : Lifetime e slot e.dirtyList) (nonneg : 0 ≤ fd) {block : ρ}
    (unused : e.records block = none) (inside : e.table fd = none) :
    Lifetime (addPoll e fd block) slot (addPoll e fd block).dirtyList := by
  have fresh : ∀ fd' q, e.table fd' = some q → q ≠ block := by
    intro fd' q member same
    obtain ⟨_, r, record, _⟩ := life.table fd' q member
    rw [same, unused] at record
    cases record
  have zeroFlags : (emptyPoll fd : EvloopPoll ρ ω).flags = flagsOf false false := rfl
  have here : (addPoll e fd block).records block = some (emptyPoll fd) :=
    Function.update_self ..
  have there : ∀ q, q ≠ block → (addPoll e fd block).records q = e.records q :=
    fun q ne => Function.update_of_ne ne ..
  have home : (addPoll e fd block).table fd = some block := Function.update_self ..
  have place : ∀ r, (addPoll e fd block).records block = some r → r = emptyPoll fd := by
    intro r record
    exact Option.some.inj (record.symm.trans here)
  have unknown : e.kernel fd = none := life.unknown inside
  have changed : ChangedAt e (addPoll e fd block) slot slot fd block := by
    refine ⟨there, fun q ne => List.mem_cons.trans (or_iff_right ne),
      fun fd' ne => Function.update_of_ne ne .., fun _ _ => rfl, fun _ _ => rfl,
      fun q member => ?_, fun q member => ?_, fun fd' _ member => fresh fd' block member rfl⟩
    · rw [inside] at member
      cases member
    · rw [home] at member
      exact (Option.some.inj member).symm
  refine life.change changed ?_ ?_ ?_
  · constructor
    · exact fun _ => ⟨nonneg, _, here, rfl⟩
    · intro r record
      rw [place r record]
      exact .inl home
    · intro ev known
      have known : e.kernel fd = some ev := known
      rw [unknown] at known
      cases known
    · intro r _ record
      rw [place r record, EvloopPoll.isAdded_of_flags zeroFlags]
      exact ⟨fun added => (by cases added), fun known => absurd unknown known⟩
    · intro r record
      rw [place r record]
      exact ⟨false, false, rfl⟩
    · simp [addPoll, Pollers.put]
    · exact fun ev _ => life.vacant fd ev inside
    · intro r ev _ record
      rw [place r record, life.vacant fd ev inside]
      cases ev <;> rfl
  · obtain ⟨ds, dirty⟩ := life.chain
    exact ⟨ds, dirty.add unused here (EvloopPoll.isDirty_of_flags zeroFlags) there⟩
  · refine List.nodup_cons.mpr ⟨?_, life.allocated_nodup⟩
    rw [life.allocated, unused]
    exact fun absurd => absurd rfl

/-- Only the record `p` of `fd` may differ, and it is in the table afterwards. -/
structure Located (e e' : Pollers ρ ω φ) (fd : Int) (p : ρ) : Prop where
  records : ∀ q, q ≠ p → e'.records q = e.records q
  table : ∀ fd', fd' ≠ fd → e'.table fd' = e.table fd'
  home : e'.table fd = some p
  same : ∀ q, e.table fd = some q → q = p
  kernel : e'.kernel = e.kernel
  alive : ∀ r, e.records p = some r → r.fd ≠ -1

theorem recordFor_ok (life : Lifetime e slot e.dirtyList) (nonneg : 0 ≤ fd) {block : ρ}
    (unused : e.records block = none) :
    ∃ e' p r, recordFor e fd block = (e', p) ∧ Lifetime e' slot e'.dirtyList ∧
      e'.records p = some r ∧ e'.watches = e.watches ∧ Located e e' fd p := by
  cases inside : e.table fd with
  | some p =>
      obtain ⟨_, r, record, _⟩ := life.table fd p inside
      refine ⟨e, p, r, by simp [recordFor, inside], life, record, rfl, fun _ _ => rfl,
        fun _ _ => rfl, inside, ?_, rfl, fun r record => life.not_both inside record⟩
      intro q other
      rw [inside] at other
      exact (Option.some.inj other).symm
  | none =>
      refine ⟨addPoll e fd block, block, emptyPoll fd, by simp [recordFor, inside],
        addPoll_lifetime life nonneg unused inside, Function.update_self .., rfl,
        fun q ne => Function.update_of_ne ne .., fun fd' ne => Function.update_of_ne ne ..,
        Function.update_self .., ?_, rfl, ?_⟩
      · intro q other
        rw [inside] at other
        cases other
      · intro r record
        rw [unused] at record
        cases record

/-- A closed record keeps its place in the heap until the next pass. -/
def closed (e : Pollers ρ ω φ) (fd : Int) (p : ρ) (r : EvloopPoll ρ ω) : Pollers ρ ω φ :=
  { e.put p (marked e { r with fd := -1, rd := none, wr := none }) with
    dirtyList := if r.isDirty then e.dirtyList else some p
    table := Function.update e.table fd none
    kernel := Function.update e.kernel fd none }

theorem closed_lifetime (life : Lifetime e slot e.dirtyList) (inside : e.table fd = some p)
    (record : e.records p = some r) {slot' : Int → EvEvent → Option ω}
    (none : ∀ ev, slot' fd ev = none) (same : ∀ fd', fd' ≠ fd → slot' fd' = slot fd') :
    Lifetime (closed e fd p r) slot' (closed e fd p r).dirtyList := by
  have tidy : ({ r with fd := -1, rd := Option.none, wr := Option.none } :
      EvloopPoll ρ ω).Tidy := life.tidy p r record
  have here : (closed e fd p r).records p =
      some (marked e { r with fd := -1, rd := Option.none, wr := Option.none }) :=
    Function.update_self ..
  have place : ∀ r', (closed e fd p r).records p = some r' →
      r' = marked e { r with fd := -1, rd := Option.none, wr := Option.none } := by
    intro r' record'
    exact Option.some.inj (record'.symm.trans here)
  have home : (closed e fd p r).table fd = Option.none := Function.update_self ..
  have outside : ∀ q, (closed e fd p r).table fd ≠ some q := by
    intro q member
    rw [home] at member
    cases member
  obtain ⟨ds, dirty⟩ := life.chain
  refine life.change (life.changedAt inside (fun q ne => Function.update_of_ne ne ..)
    (fun fd' ne => Function.update_of_ne ne ..) (fun fd' ne => Function.update_of_ne ne ..) same
    rfl fun q member => absurd member (outside q)) ?_
    (dirty.mark (r := { r with fd := -1, rd := Option.none, wr := Option.none }) record rfl rfl
      tidy rfl) life.allocated_nodup
  constructor
  · exact fun member => absurd member (outside p)
  · intro r' record'
    rw [place r' record']
    refine .inr ⟨marked_fd, EvloopPoll.isDirty_of_flags (marked_flags tidy), fun ev => ?_⟩
    rw [marked_slot]
    cases ev <;> rfl
  · intro ev known
    have gone : (closed e fd p r).kernel fd = Option.none := Function.update_self ..
    rw [gone] at known
    cases known
  · exact fun r' member => absurd member (outside p)
  · intro r' record'
    rw [place r' record']
    exact ⟨_, _, marked_flags tidy⟩
  · show p ∈ e.allocated ↔ _
    simp [here, life.allocated, record]
  · exact fun ev _ => none ev
  · exact fun r' ev member => absurd member (outside p)

theorem evClose_eq (inside : e.table fd = some p) (record : e.records p = some r) :
    evClose e fd = .ok (closed e fd p r) := by
  have run := markDirty_put { e with table := Function.update e.table fd none } p
    { r with fd := -1, rd := none, wr := none }
  simp only [evClose, inside, Pollers.get_ok record, ok_bind, run, pure_eq_ok]
  rfl

theorem evClose_none (life : Lifetime e slot e.dirtyList) (empty : e.table fd = none) :
    evClose e fd = .ok e := by
  have same : Function.update e.kernel fd none = e.kernel := by
    rw [← life.unknown empty, Function.update_eq_self]
  simp [evClose, empty, closeFd, same]

end CThread.Poll
