import CThread.Poll.Lifetime

/-!
The dirty-list pass: each iteration frees the record or tells the kernel about it, the
pass ends within the number of allocated records, and no record is freed twice.
-/
namespace CThread.Poll
open Faults Chains
variable {ρ ω φ : Type} {e : Pollers ρ ω φ} {slot : Int → EvEvent → Option ω}
  {start : Option ρ} {p : ρ} {r : EvloopPoll ρ ω} {fd : Int} [DecidableEq ρ]

/-- What the pass does with one record. -/
inductive Flushed (e : Pollers ρ ω φ) (p : ρ) (r : EvloopPoll ρ ω) : Pollers ρ ω φ → Prop
  | freed (gone : r.fd < 0) :
      Flushed e p r (dropRecord e p)
  | told (opened : 0 ≤ r.fd) (wanted : r.interest ≠ 0) :
      Flushed e p r { e.put p (cleaned r true) with
        kernel := Function.update e.kernel r.fd (some ⟨r.interest ||| epollEt, p⟩) }
  | skipped (opened : 0 ≤ r.fd) (unwanted : r.interest = 0) :
      Flushed e p r (e.put p (cleaned r r.isAdded))

theorem flushRecord_ok (life : Lifetime e slot start) (record : e.records p = some r) :
    ∃ e', flushRecord e p r = .ok e' ∧ Flushed e p r e' := by
  have mask : (cleaned r r.isAdded).kernelMask = 0 := flagsOf_and_mask ..
  have bit : (cleaned r r.isAdded).isAdded = r.isAdded := EvloopPoll.isAdded_of_flags rfl
  have interest : (cleaned r r.isAdded).interest = r.interest := rfl
  have fd : (cleaned r r.isAdded).fd = r.fd := rfl
  show ∃ e', updateKernel _ p _ = .ok e' ∧ _
  rw [cleanPoll_eq (life.tidy p r record), updateKernel_eq]
  by_cases gone : r.fd < 0
  · refine ⟨_, ?_, .freed gone⟩
    simp [fd, gone, xfree, Pollers.put, dropRecord]
  · have opened : 0 ≤ r.fd := Int.not_lt.mp gone
    have member : e.table r.fd = some p := life.inside record opened
    have known := life.added r.fd p r member record
    by_cases wanted : r.interest = 0
    · refine ⟨_, ?_, .skipped opened wanted⟩
      simp [fd, gone, interest, wanted, mask]
    · cases added : r.isAdded with
      | false =>
          have unknown : e.kernel r.fd = none := by
            cases there : e.kernel r.fd with
            | none => rfl
            | some ev =>
                have yes := known.mpr (by simp [there])
                rw [added] at yes
                cases yes
          rw [added] at bit interest fd
          refine ⟨_, ?_, .told opened wanted⟩
          simp only [fd, if_neg gone, interest, bit, ne_eq, wanted,
            not_false_eq_true, and_self, if_true, epollCtlAdd]
          simp [Pollers.put, unknown, cleaned, flagsOf_or_added]
      | true =>
          have there := known.mp added
          obtain ⟨ev, found⟩ := Option.ne_none_iff_exists'.mp there
          rw [added] at bit interest fd mask
          refine ⟨_, ?_, .told opened wanted⟩
          simp only [fd, if_neg gone, interest, bit, mask, ne_eq, wanted,
            not_false_eq_true, Bool.true_eq_false, and_false, if_false, if_true, epollCtlMod]
          simp [Pollers.put, found]

/-- The head of the dirty list was cleaned or freed. -/
theorem DirtyFrom.advance {ds : List ρ} (dirty : DirtyFrom e (some p) ds)
    (record : e.records p = some r) {e' : Pollers ρ ω φ}
    (there : ∀ q, q ≠ p → e'.records q = e.records q)
    (here : ∀ r', e'.records p = some r' → r'.isDirty = false) :
    ∃ rest, ds = p :: rest ∧ DirtyFrom e' r.next rest := by
  obtain ⟨chain, nodup, exactly⟩ := dirty
  cases ds with
  | nil => cases chain
  | cons q rest =>
      obtain ⟨first, n, link, tail⟩ := chain
      cases first
      have next : n = r.next := by
        simp only [links, record, Option.map_some, Option.some.injEq] at link
        exact link.symm
      have outside : p ∉ rest := (List.nodup_cons.mp nodup).1
      refine ⟨rest, rfl, next ▸ tail.congr ?_, (List.nodup_cons.mp nodup).2, fun q => ?_⟩
      · intro q inside
        have ne : q ≠ p := fun same => outside (same ▸ inside)
        exact congrArg (Option.map EvloopPoll.next) (there q ne)
      · by_cases eq : q = p
        · subst eq
          refine ⟨fun inside => absurd inside outside, fun found => ?_⟩
          obtain ⟨r', record', now⟩ := found
          rw [here r' record'] at now
          cases now
        · rw [there q eq, ← exactly q, List.mem_cons]
          exact ⟨.inr, fun either => either.resolve_left eq⟩

/-- A record of the table was cleaned and the kernel brought up to date. -/
theorem Lifetime.settle (life : Lifetime e slot (some p)) (record : e.records p = some r)
    (opened : 0 ≤ r.fd) (added : Bool) {e' : Pollers ρ ω φ}
    (records : e'.records = Function.update e.records p (some (cleaned r added)))
    (table : e'.table = e.table) (allocated : e'.allocated = e.allocated)
    (others : ∀ fd, fd ≠ r.fd → e'.kernel fd = e.kernel fd)
    (ptr : ∀ ev, e'.kernel r.fd = some ev → ev.ptr = p)
    (known : added = true ↔ e'.kernel r.fd ≠ none) : Lifetime e' slot r.next := by
  have here : e'.records p = some (cleaned r added) := by rw [records, Function.update_self]
  have there : ∀ q, q ≠ p → e'.records q = e.records q := by
    intro q ne
    rw [records, Function.update_of_ne ne]
  have place : ∀ r', e'.records p = some r' → r' = cleaned r added :=
    fun r' record' => Option.some.inj (record'.symm.trans here)
  have clean : (cleaned r added).isDirty = false := EvloopPoll.isDirty_of_flags rfl
  have bit : (cleaned r added).isAdded = added := EvloopPoll.isAdded_of_flags rfl
  have member : e.table r.fd = some p := life.inside record opened
  obtain ⟨ds, dirty⟩ := life.chain
  refine life.change (life.changedAt member there (fun _ _ => by rw [table]) others
    (fun _ _ => rfl) allocated fun q other => ?_) ?_ ?_ (allocated ▸ life.allocated_nodup)
  · rw [table, member] at other
    exact (Option.some.inj other).symm
  · constructor
    · exact fun _ => ⟨opened, _, here, rfl⟩
    · intro r' record'
      rw [place r' record', table]
      exact .inl member
    · intro ev inside
      rw [ptr ev inside, table]
      exact member
    · intro r' _ record'
      rw [place r' record', bit]
      exact known
    · intro r' record'
      rw [place r' record']
      exact ⟨false, added, rfl⟩
    · rw [allocated, life.allocated, here, record]
      exact ⟨fun _ => Option.some_ne_none _, fun _ => Option.some_ne_none _⟩
    · exact fun ev empty => life.vacant r.fd ev (table ▸ empty)
    · intro r' ev _ record'
      rw [place r' record', ← life.slots r.fd p r ev member record]
      cases ev <;> rfl
  · obtain ⟨rest, _, dirty'⟩ := dirty.advance record there fun r' record' => by
      rw [place r' record']
      exact clean
    exact ⟨rest, dirty'⟩

/-- A record that no table entry names was freed. -/
theorem Lifetime.release (life : Lifetime e slot (some p)) (record : e.records p = some r)
    (gone : r.fd < 0) :
    Lifetime (dropRecord e p) slot r.next := by
  have there : ∀ q, q ≠ p → (dropRecord e p).records q = e.records q :=
    fun q ne => Function.update_of_ne ne ..
  have here : (dropRecord e p).records p = none := Function.update_self ..
  have off : ∀ fd q, e.table fd = some q → q ≠ p := by
    intro fd q inside same
    subst same
    obtain ⟨nonneg, r', record', home⟩ := life.table fd q inside
    rw [record] at record'
    cases record'
    omega
  have absent : ∀ r', (dropRecord e p).records p ≠ some r' := by
    intro r' record'
    rw [here] at record'
    cases record'
  have empty : e.table r.fd = none := by
    cases inside : e.table r.fd with
    | none => rfl
    | some q =>
        have nonneg := (life.table r.fd q inside).1
        omega
  have vacant : ∀ q, e.table r.fd ≠ some q := by
    intro q inside
    rw [empty] at inside
    cases inside
  have changed : ChangedAt e (dropRecord e p) slot slot r.fd p :=
    ⟨there, fun q ne => List.mem_erase_of_ne ne, fun _ _ => rfl, fun _ _ => rfl,
      fun _ _ => rfl, fun q inside => absurd inside (vacant q),
      fun q inside => absurd inside (vacant q), fun fd' _ inside => off fd' p inside rfl⟩
  obtain ⟨ds, dirty⟩ := life.chain
  refine life.change changed ?_ ?_ (life.allocated_nodup.erase p)
  · constructor
    · exact fun inside => absurd inside (vacant p)
    · exact fun r' record' => absurd record' (absent r')
    · exact life.kernel r.fd
    · exact fun r' inside => absurd inside (vacant p)
    · exact fun r' record' => absurd record' (absent r')
    · simp [dropRecord, life.allocated_nodup.not_mem_erase]
    · exact life.vacant r.fd
    · exact fun r' ev inside => absurd inside (vacant p)
  · obtain ⟨rest, _, dirty'⟩ := dirty.advance record there fun r' record' =>
      absurd record' (absent r')
    exact ⟨rest, dirty'⟩

/-- One iteration of the pass moves the start of the dirty list on. -/
theorem Flushed.lifetime {e' : Pollers ρ ω φ} (flushed : Flushed e p r e')
    (life : Lifetime e slot (some p)) (record : e.records p = some r) :
    Lifetime e' slot r.next := by
  cases flushed with
  | freed gone => exact life.release record gone
  | told opened wanted =>
      refine life.settle record opened true rfl rfl rfl ?_ ?_ ?_
      · exact fun fd ne => Function.update_of_ne ne ..
      · intro ev inside
        have same : (⟨r.interest ||| epollEt, p⟩ : EpollEvent ρ) = ev := by simpa using inside
        rw [← same]
      · simp
  | skipped opened unwanted =>
      have member : e.table r.fd = some p := life.inside record opened
      refine life.settle record opened r.isAdded rfl rfl rfl (fun _ _ => rfl) ?_ ?_
      · intro ev inside
        have there := life.kernel r.fd ev inside
        rw [member] at there
        exact (Option.some.inj there).symm
      · exact life.added r.fd p r member record

theorem Flushed.there {e' : Pollers ρ ω φ} (flushed : Flushed e p r e') (q : ρ)
    (ne : q ≠ p) : e'.records q = e.records q := by
  cases flushed <;> exact Function.update_of_ne ne ..

theorem Flushed.here {e' : Pollers ρ ω φ} (flushed : Flushed e p r e')
    (r' : EvloopPoll ρ ω) (record : e'.records p = some r') : r'.isDirty = false := by
  cases flushed with
  | freed gone => simp [dropRecord] at record
  | told opened wanted =>
      have whole : cleaned r true = r' := by simpa [Pollers.put] using record
      rw [← whole]
      exact EvloopPoll.isDirty_of_flags rfl
  | skipped opened unwanted =>
      have whole : cleaned r r.isAdded = r' := by simpa [Pollers.put] using record
      rw [← whole]
      exact EvloopPoll.isDirty_of_flags rfl

/-- An iteration that starts at a dirty record goes on to the rest of the list. -/
theorem Lifetime.flush_head (life : Lifetime e slot (some p)) {ds : List ρ}
    (dirty : DirtyFrom e (some p) ds) : ∃ r e' rest, e.records p = some r ∧
      flushRecord e p r = .ok e' ∧ Flushed e p r e' ∧ ds = p :: rest ∧
      DirtyFrom e' r.next rest := by
  obtain ⟨r, record, _⟩ := (dirty.2.2 p).mp dirty.1.start_mem
  obtain ⟨e', run, flushed⟩ := flushRecord_ok life record
  obtain ⟨rest, split, dirty'⟩ := dirty.advance record flushed.there flushed.here
  exact ⟨r, e', rest, record, run, flushed, split, dirty'⟩

omit [DecidableEq ρ] in
theorem Lifetime.dirty_length (life : Lifetime e slot start) {ds : List ρ}
    (dirty : DirtyFrom e start ds) : ds.length ≤ e.allocated.length := by
  refine dirty.1.length_le dirty.2.1 fun q n link => (life.allocated q).mpr ?_
  intro gone
  simp [links, gone] at link

/-- The whole pass reaches the end of the list within its bound, and keeps what each
iteration keeps. -/
theorem flushFrom_ok (P : Pollers ρ ω φ → Option ρ → Prop)
    (step : ∀ e p r e', Lifetime e slot (some p) → e.records p = some r → Flushed e p r e' →
      P e (some p) → P e' r.next) (fuel : Nat) :
    ∀ {e : Pollers ρ ω φ} {start : Option ρ} {ds : List ρ}, Lifetime e slot start →
      DirtyFrom e start ds → ds.length ≤ fuel → P e start →
      ∃ e', flushFrom fuel e start = .ok { e' with dirtyList := none } ∧
        Lifetime e' slot none ∧ P e' none := by
  induction fuel with
  | zero =>
      intro e start ds life dirty enough holds
      cases ds with
      | nil =>
          cases dirty.1
          exact ⟨e, rfl, life, holds⟩
      | cons q rest => simp at enough
  | succ fuel ih =>
      intro e start ds life dirty enough holds
      cases start with
      | none => exact ⟨e, rfl, life, holds⟩
      | some p =>
          obtain ⟨r, e₁, rest, record, run, flushed, split, dirty₁⟩ := life.flush_head dirty
          have shorter : rest.length ≤ fuel := by
            rw [split] at enough
            exact Nat.le_of_succ_le_succ enough
          obtain ⟨e₂, run₂, life₂, holds₂⟩ := ih (flushed.lifetime life record) dirty₁ shorter
            (step e p r e₁ life record flushed holds)
          refine ⟨e₂, ?_, life₂, holds₂⟩
          simp only [flushFrom_some, Pollers.get_ok record, ok_bind, run]
          exact run₂

theorem flushDirty_ok (life : Lifetime e slot e.dirtyList)
    (P : Pollers ρ ω φ → Option ρ → Prop)
    (step : ∀ e p r e', Lifetime e slot (some p) → e.records p = some r → Flushed e p r e' →
      P e (some p) → P e' r.next) (holds : P e e.dirtyList) :
    ∃ e', flushDirty e = .ok { e' with dirtyList := none } ∧ Lifetime e' slot none ∧
      P e' none := by
  obtain ⟨ds, dirty⟩ := life.chain
  exact flushFrom_ok P step e.allocated.length life dirty (life.dirty_length dirty) holds

end CThread.Poll
