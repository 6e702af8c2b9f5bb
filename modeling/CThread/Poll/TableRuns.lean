import CThread.Poll.Table

/-!
The loop over the hash table has the runs of the loop over the map that the table stands for.

What the other functions do is the same whatever the map of the state is, so that a step of
either loop is one computation that both share, and what `ev_watch` and `ev_close` do to the
two tables besides. A step of one faults when that of the other does; the hash table itself
never does.
-/
namespace CThread.Poll
open Faults GuardedRuns Hash OpenAddressing Timers
variable {ρ ω τ φ : Type}

def Pollers.withTable (e : Pollers ρ ω φ) (table : Int → Option ρ) : Pollers ρ ω φ :=
  { e with table := table }

def LoopState.withTable (s : LoopState ρ ω τ φ) (table : Int → Option ρ) : LoopState ρ ω τ φ :=
  s.withPolls (s.loop.polls.withTable table)

/-- The result of a step, with another map in its state. -/
def withTable (table : Int → Option ρ) (r : LoopState ρ ω τ φ × LoopOutput ρ ω τ φ) :
    LoopState ρ ω τ φ × LoopOutput ρ ω τ φ :=
  (r.1.withTable table, r.2)

/-- `ev_watch` and `ev_close`. -/
def LoopOp.usesTable : LoopOp ρ ω τ φ → Bool
  | .watch .. | .close _ => true
  | _ => false

section Commute
variable {table : Int → Option ρ}

theorem map_ok {ε α β : Type} (f : α → β) (a : α) :
    (Except.ok a : Except ε α).map f = .ok (f a) := rfl

theorem inHash_ok {α : Type} (a : α) : inHash (.ok a) = .ok a := rfl

theorem inLoop_ok {α : Type} (a : α) : inLoop (.ok a) = .ok a := rfl

theorem inPolls_ok {α : Type} (a : α) : inPolls (.ok a) = .ok a := rfl

theorem inPolls_map {α β : Type} (f : α → β) (x : Except PollFault α) :
    inPolls (x.map f) = (inPolls x).map f := by
  cases x <;> rfl

theorem inLoop_map {α β : Type} (f : α → β) (x : Except LoopFault α) :
    inLoop (x.map f) = (inLoop x).map f := by
  cases x <;> rfl

theorem map_bind {ε α β γ : Type} (f : α → β) (x : Except ε α) (g : β → Except ε γ) :
    (x.map f >>= g) = x >>= fun a => g (f a) := by
  cases x <;> rfl

theorem bind_map {ε α β γ : Type} (f : β → γ) (x : Except ε α) (g : α → Except ε β) :
    (x >>= g).map f = x >>= fun a => (g a).map f := by
  cases x <;> rfl

theorem bind_pure_eq_map {ε α β : Type} (f : α → β) (x : Except ε α) :
    (x >>= fun a => pure (f a)) = x.map f := by
  cases x <;> rfl

theorem get_withTable (e : Pollers ρ ω φ) (p : ρ) : (e.withTable table).get p = e.get p := rfl

theorem watches_withTable (e : Pollers ρ ω φ) : (e.withTable table).watches = e.watches := rfl

theorem dispatch_withTable (e : Pollers ρ ω φ) (todo : List (Event ρ × EvEvent)) :
    dispatch (e.withTable table) todo = dispatch e todo := by
  induction todo with
  | nil => rfl
  | cons half rest ih =>
      simp only [dispatch, get_withTable, ih]
      rfl

theorem dispatchFrom_withTable (e : Evloop ρ ω τ φ) (outer : List (LoopFrame ρ))
    (todo : List (Event ρ × EvEvent)) :
    dispatchFrom { e with polls := e.polls.withTable table } outer todo =
      (dispatchFrom e outer todo).map (withTable table) := by
  rw [dispatchFrom, dispatchFrom, dispatch_withTable]
  cases dispatch e.polls todo with
  | error f => rfl
  | ok call => cases call <;> rfl

variable [DecidableEq ρ] [DecidableEq ω]

omit [DecidableEq ω] in
theorem put_withTable (e : Pollers ρ ω φ) (p : ρ) (r : EvloopPoll ρ ω) :
    (e.withTable table).put p r = (e.put p r).withTable table := rfl

omit [DecidableEq ρ] in
theorem putWatch_withTable (e : Pollers ρ ω φ) (w : ω) (x : Evwatch ρ φ) :
    (e.withTable table).putWatch w x = (e.putWatch w x).withTable table := rfl

omit [DecidableEq ω] in
theorem markDirty_withTable (e : Pollers ρ ω φ) (p : ρ) :
    markDirty (e.withTable table) p = (markDirty e p).map (·.withTable table) := by
  rw [markDirty, markDirty, get_withTable]
  cases e.get p with
  | error f => rfl
  | ok r =>
      simp only [ok_bind]
      split <;> rfl

omit [DecidableEq ω] in
theorem updateKernel_withTable (e : Pollers ρ ω φ) (p : ρ) (r : EvloopPoll ρ ω) :
    updateKernel (e.withTable table) p r =
      (updateKernel e p r).map (·.withTable table) := by
  rw [updateKernel_eq, updateKernel_eq]
  split
  · simp only [xfree, Pollers.withTable]
    cases e.records p <;> rfl
  split
  · simp only [epollCtlAdd, Pollers.withTable]
    cases e.kernel r.fd <;> rfl
  split
  · simp only [epollCtlMod, Pollers.withTable]
    cases e.kernel r.fd <;> rfl
  · rfl

omit [DecidableEq ω] in
theorem flushFrom_withTable (fuel : Nat) : ∀ (e : Pollers ρ ω φ) (start : Option ρ),
    flushFrom fuel (e.withTable table) start =
      (flushFrom fuel e start).map (·.withTable table) := by
  induction fuel with
  | zero => exact fun e start => by cases start <;> rfl
  | succ fuel ih =>
      intro e start
      cases start with
      | none => rfl
      | some p =>
          rw [flushFrom_some, flushFrom_some, get_withTable, bind_map]
          cases e.get p with
          | error f => rfl
          | ok r =>
              rw [ok_bind, ok_bind, bind_map]
              have flushed : flushRecord (e.withTable table) p r =
                  (flushRecord e p r).map (·.withTable table) :=
                updateKernel_withTable (e.put p (cleanPoll r)) p (cleanPoll r)
              rw [flushed, map_bind]
              exact congrArg _ (funext fun e' => ih e' r.next)

theorem evUnwatch_withTable (e : Pollers ρ ω φ) (w : ω) :
    evUnwatch (e.withTable table) w = (evUnwatch e w).map (·.withTable table) := by
  rw [evUnwatch, evUnwatch, watches_withTable]
  cases (e.watches w).pollData with
  | none => rfl
  | some p =>
      simp only [putWatch_withTable, get_withTable, put_withTable]
      cases (e.putWatch w ⟨none, none⟩).get p with
      | error f => rfl
      | ok r =>
          simp only [ok_bind, markDirty_withTable]
          split
          · rfl
          split <;> rfl

theorem setWatcher_withTable (e : Pollers ρ ω φ) (w : ω) (ev : EvEvent) (p : ρ) :
    setWatcher (e.withTable table) w ev p = (setWatcher e w ev p).map (·.withTable table) := by
  simp only [setWatcher, watches_withTable, putWatch_withTable, get_withTable, put_withTable]
  cases (e.putWatch w { e.watches w with pollData := some p }).get p with
  | error f => rfl
  | ok r =>
      simp only [ok_bind, markDirty_withTable]
      split <;> rfl

omit [DecidableEq ω] in
theorem closePoll_withTable (e : Pollers ρ ω φ) (p : ρ) :
    closePoll (e.withTable table) p = (closePoll e p).map (·.withTable table) := by
  simp only [closePoll, get_withTable, put_withTable, markDirty_withTable]
  cases e.get p <;> rfl

omit [DecidableEq ω] in
theorem afterTimers_withTable (e : Pollers ρ ω φ) (outer : List (LoopFrame ρ))
    (outcome : EvTimers τ φ × TimerOutcome τ φ) :
    afterTimers (e.withTable table) outer outcome =
      (afterTimers e outer outcome).map (withTable table) := by
  obtain ⟨timers, outcome⟩ := outcome
  cases outcome with
  | calls t fn => rfl
  | returns timeout =>
      unfold afterTimers
      dsimp only
      split
      · rfl
      · have flushed : flushDirty (e.withTable table) =
            (flushDirty e).map (·.withTable table) := flushFrom_withTable ..
        rw [flushed, inPolls_map, map_bind, bind_map]
        cases inPolls (flushDirty e) <;> rfl

variable [DecidableEq τ]

theorem loopStep_withTable (s : LoopState ρ ω τ φ) (op : LoopOp ρ ω τ φ)
    (other : s.waiting = none → op.usesTable = false) :
    loopStep (s.withTable table) op = (loopStep s op).map (withTable table) := by
  obtain ⟨⟨timers, e⟩, frames, waiting⟩ := s
  cases waiting with
  | some timeout =>
      cases op with
      | epollWait result =>
          cases result with
          | interrupted => rfl
          | failed => rfl
          | events evs now =>
              exact dispatchFrom_withTable ⟨{ timers with now := now }, e⟩ frames (halves evs)
      | _ => rfl
  | none =>
      cases op with
      | watch => cases other rfl
      | close => cases other rfl
      | unwatch w =>
          show inPolls (evUnwatch (e.withTable table) w) >>= _ = _
          rw [evUnwatch_withTable, inPolls_map, map_bind]
          show _ = (inPolls (evUnwatch e w) >>= _).map _
          rw [bind_map]
          rfl
      | setWatch w x => rfl
      | alarm t wakeup fn =>
          show inTimers (evAlarm timers t wakeup fn) >>= _ =
            (inTimers (evAlarm timers t wakeup fn) >>= _).map _
          rw [bind_map]
          rfl
      | stop t =>
          show inTimers (evStop timers t) >>= _ = (inTimers (evStop timers t) >>= _).map _
          rw [bind_map]
          rfl
      | evloopStep =>
          show inTimers (evStepTimers timers) >>= _ = (inTimers (evStepTimers timers) >>= _).map _
          rw [bind_map]
          exact congrArg _ (funext fun outcome => afterTimers_withTable e frames outcome)
      | callbackReturn =>
          cases frames with
          | nil => rfl
          | cons frame outer =>
              cases frame with
              | timer =>
                  show inTimers (evStepTimersResume timers) >>= _ =
                    (inTimers (evStepTimersResume timers) >>= _).map _
                  rw [bind_map]
                  exact congrArg _ (funext fun outcome => afterTimers_withTable e outer outcome)
              | watch rest => exact dispatchFrom_withTable ⟨timers, e⟩ outer rest
      | epollWait result => rfl

end Commute

/-- The record that the hash table has for a descriptor. -/
def pollerOf (h : Khash (BitVec 32) ρ) (fd : Int) : Option ρ :=
  if (evfdKey fd).toInt = fd then
    match khStep khIntHashFunc h (.get (evfdKey fd)) with
    | .ok (_, .found p) => p
    | _ => none
  else none

/-- The hash table stands for a map, and no key is that of a negative descriptor. -/
def TableHolds (h : Khash (BitVec 32) ρ) (M : BitVec 32 → Option ρ) : Prop :=
  StandsFor khIntHashFunc h M ∧ ∀ key, M key ≠ none → 0 ≤ key.toInt

section Lookup
variable {h h' : Khash (BitVec 32) ρ} {M : BitVec 32 → Option ρ} {fd : Int} {p : ρ}

theorem pollerOf_eq (holds : TableHolds h M) (fd : Int) :
    pollerOf h fd = if (evfdKey fd).toInt = fd then M (evfdKey fd) else none := by
  rw [pollerOf, khGet_value holds.1]

theorem toInt_evfdKey (low : -2 ^ 31 ≤ fd) (high : fd < 2 ^ 31) : (evfdKey fd).toInt = fd :=
  BitVec.toInt_ofInt_eq_self (by decide) low high

theorem pollerOf_of_int (holds : TableHolds h M) (isInt : (evfdKey fd).toInt = fd) :
    pollerOf h fd = M (evfdKey fd) := by
  rw [pollerOf_eq holds, if_pos isInt]

theorem pollerOf_update (holds : TableHolds h M) {x : Option ρ}
    (holds' : TableHolds h' (Function.update M (evfdKey fd) x))
    (isInt : (evfdKey fd).toInt = fd) :
    pollerOf h' = Function.update (pollerOf h) fd x := by
  funext fd'
  rw [pollerOf_eq holds']
  by_cases same : fd' = fd
  · subst same
    rw [if_pos isInt, Function.update_self, Function.update_self]
  · rw [Function.update_of_ne same, pollerOf_eq holds]
    split
    · next isInt' =>
        refine Function.update_of_ne (fun key => same ?_) ..
        rw [← isInt', key, isInt]
    · rfl

/-- There are `2 ^ 31` descriptors, so that there is room for each. -/
theorem TableHolds.room (holds : TableHolds h M) {key : BitVec 32} (nonneg : 0 ≤ key.toInt) :
    Room M key := by
  by_cases absent : M key = none
  · obtain ⟨dom, keys, card⟩ := holds.1.ready.2.1
    refine .inr ⟨h.size, ⟨dom, keys, card⟩, ?_⟩
    have outside : key ∉ dom := fun inside => (keys key).mp inside absent
    have below : (insert key dom).image BitVec.toNat ⊆ Finset.range (2 ^ 31) := by
      intro n inside
      obtain ⟨k, member, rfl⟩ := Finset.mem_image.mp inside
      have sign : 0 ≤ k.toInt := by
        rcases Finset.mem_insert.mp member with rfl | member
        · exact nonneg
        · exact holds.2 k ((keys k).mp member)
      rw [BitVec.toInt_eq_toNat_cond] at sign
      have bound := k.isLt
      rw [Finset.mem_range]
      split at sign <;> omega
    have le := Finset.card_le_card below
    rw [Finset.card_image_of_injective _ (fun _ _ => BitVec.eq_of_toNat_eq),
      Finset.card_insert_of_notMem outside, card, Finset.card_range] at le
    omega
  · exact .inl absent

/-- A descriptor is an `int`, and one that is watched is not negative. -/
def AsInt : LoopOp ρ ω τ φ → Prop
  | .watch _ fd _ _ => 0 ≤ fd ∧ fd < 2 ^ 31
  | .close fd => -2 ^ 31 ≤ fd ∧ fd < 2 ^ 31
  | _ => True

variable [DecidableEq ρ] [DecidableEq ω] {e : Pollers ρ ω φ}

omit [DecidableEq ω] in
/-- The record for a descriptor: the one that the map has, or a new one in both tables. -/
theorem tableRecordFor_ok (holds : TableHolds h M) (low : 0 ≤ fd) (high : fd < 2 ^ 31)
    (block : ρ) : ∃ h' M' e' p, tableRecordFor h e fd block = .ok (h', e', p) ∧
      TableHolds h' M' ∧
        recordFor (e.withTable (pollerOf h)) fd block = (e'.withTable (pollerOf h'), p) := by
  have isInt := toInt_evfdKey (by omega) high
  obtain ⟨h₁, x, ret, put, found, -⟩ :=
    khPut_ok holds.1 (holds.room (isInt.symm ▸ low : 0 ≤ (evfdKey fd).toInt))
  obtain ⟨w, here, stands⟩ := found.there
  have inside := pollerOf_of_int holds isInt
  by_cases old : ret = 0
  · have holds₁ : TableHolds h₁ M := ⟨found.kept old, holds.2⟩
    have stored := holds₁.1.lookup here
    have same : pollerOf h₁ = pollerOf h := funext fun fd' => by
      rw [pollerOf_eq holds₁, pollerOf_eq holds]
    refine ⟨h₁, M, e, w, ?_, holds₁, ?_⟩
    · simp only [tableRecordFor, put, ok_bind, old, ne_eq, not_true_eq_false, if_false,
        stands.khVal_ok here, pure_eq_ok]
    · rw [recordFor_some (inside.trans stored), same]
  · have absent : M (evfdKey fd) = none := not_not.mp fun known => old (found.old.mpr known)
    obtain ⟨h', write, -, stands'⟩ := writeVal_assigns stands here block
    rw [Function.update_idem] at stands'
    have holds' : TableHolds h' (Function.update M (evfdKey fd) (some block)) := by
      refine ⟨stands', fun key known => ?_⟩
      by_cases same : key = evfdKey fd
      · rw [same, isInt]
        exact low
      · rw [Function.update_of_ne same] at known
        exact holds.2 key known
    refine ⟨h', _, newPoll e fd block, block, ?_, holds', ?_⟩
    · simp only [tableRecordFor, put, ok_bind, ne_eq, old, not_false_eq_true, if_true, write,
        pure_eq_ok]
    · rw [recordFor_none (inside.trans absent), pollerOf_update holds holds' isInt]
      rfl

/-- `ev_watch` is one computation on the rest of the state, whichever table it uses. -/
theorem tableEvWatch_shares (holds : TableHolds h M) (w : ω) (low : 0 ≤ fd) (high : fd < 2 ^ 31)
    (ev : EvEvent) (block : ρ) : ∃ h' M' x, TableHolds h' M' ∧
      tableEvWatch h e w fd ev block = (inLoop (inPolls x)).map (h', ·) ∧
        evWatch (e.withTable (pollerOf h)) w fd ev block =
          x.map (·.withTable (pollerOf h')) := by
  cases fn : (e.watches w).fn.isNone with
  | true =>
      refine ⟨h, M, .error .assertion, holds, ?_, ?_⟩
      · rw [tableEvWatch, if_pos fn]
        rfl
      · rw [evWatch, watches_withTable, if_pos fn]
        rfl
  | false =>
      obtain ⟨h', M', e', p, record, holds', same⟩ :=
        tableRecordFor_ok (e := e) holds low high block
      refine ⟨h', M', setWatcher e' w ev p, holds', ?_, ?_⟩
      · rw [tableEvWatch, if_neg (Bool.eq_false_iff.mp fn), record]
        exact bind_pure_eq_map ..
      · rw [← setWatcher_withTable, evWatch, watches_withTable, if_neg (Bool.eq_false_iff.mp fn),
          same]
        rfl

omit [DecidableEq ω] in
/-- `ev_close` likewise. -/
theorem tableEvClose_shares (holds : TableHolds h M) (low : -2 ^ 31 ≤ fd) (high : fd < 2 ^ 31) :
    ∃ h' M' x, TableHolds h' M' ∧ tableEvClose h e fd = (inLoop (inPolls x)).map (h', ·) ∧
      evClose (e.withTable (pollerOf h)) fd = x.map (·.withTable (pollerOf h')) := by
  have isInt := toInt_evfdKey low high
  have inside := pollerOf_of_int holds isInt
  obtain ⟨x, search, ⟨absent, rfl⟩ | ⟨p, stored, here⟩⟩ := khGet_ok holds.1 (evfdKey fd)
  · refine ⟨h, M, .ok (closeFd e fd), holds, ?_, ?_⟩
    · rw [tableEvClose, search]
      show (if h.khEnd ≠ h.khEnd then _ else _) = _
      rw [if_neg (not_not.mpr rfl)]
      rfl
    · have none : (e.withTable (pollerOf h)).table fd = none := inside.trans absent
      rw [evClose, none]
      rfl
  · have bucket := (Khash.entry_eq_some.mp here).1
    obtain ⟨h', del, -, ⟨k, q, there, stands'⟩ | ⟨vacant, -⟩⟩ :=
      khDel_ok holds.1 (Nat.le_of_lt bucket)
    · rw [here] at there
      cases there
      have holds' : TableHolds h' (Function.update M (evfdKey fd) none) := by
        refine ⟨stands', fun key known => holds.2 key fun missing => known ?_⟩
        by_cases same : key = evfdKey fd
        · rw [same, Function.update_self]
        · rw [Function.update_of_ne same, missing]
      refine ⟨h', _, (closePoll e p).map (closeFd · fd), holds', ?_, ?_⟩
      · rw [tableEvClose, search]
        show (if x ≠ h.khEnd then _ else _) = _
        rw [if_pos (Khash.ne_khEnd here), holds.1.khVal_ok here, del]
        show (inLoop (inPolls (closePoll e p)) >>= _) = _
        cases closePoll e p <;> rfl
      · have known : (e.withTable (pollerOf h)).table fd = some p := inside.trans stored
        let left : Pollers ρ ω φ := e.withTable (Function.update (pollerOf h) fd none)
        have closes : evClose (e.withTable (pollerOf h)) fd =
            (closePoll left p).map (closeFd · fd) := by
          rw [evClose, known, closePoll, get_withTable]
          show (e.get p >>= _) = _
          cases e.get p with
          | error f => rfl
          | ok r =>
              rw [ok_bind, ok_bind]
              exact bind_pure_eq_map ..
        rw [closes, closePoll_withTable, pollerOf_update holds holds' isInt]
        cases closePoll e p <;> rfl
    · rw [here] at vacant
      cases vacant

end Lookup

def TableState.view (s : TableState ρ ω τ φ) : LoopState ρ ω τ φ :=
  s.rest.withTable (pollerOf s.pollers)

/-- The hash table is the map of the state that it stands for. -/
def TableState.Valid (s : TableState ρ ω τ φ) : Prop := ∃ M, TableHolds s.pollers M

/-- `evloop_init`, with `kh_init`. -/
def TableState.init (timers : EvTimers τ φ) (watches : ω → Evwatch ρ φ) (keys : Nat → BitVec 32)
    (vals : Nat → ρ) : TableState ρ ω τ φ :=
  ⟨LoopState.init timers watches, Khash.init keys vals⟩

section Step
variable [DecidableEq ρ] [DecidableEq ω] [DecidableEq τ] {s s' : TableState ρ ω τ φ}
  {op : LoopOp ρ ω τ φ} {out : LoopOutput ρ ω τ φ}

/-- A step over the hash table and a step over the map are one computation on the rest. -/
theorem tableStep_shares (valid : s.Valid) (isInt : AsInt op) :
    ∃ h' M' x, TableHolds h' M' ∧
      tableStep s op = (inLoop x).map (fun r => (⟨r.1, h'⟩, r.2)) ∧
        loopStep s.view op = x.map (withTable (pollerOf h')) := by
  obtain ⟨⟨⟨timers, e⟩, frames, waiting⟩, h⟩ := s
  obtain ⟨M, holds⟩ := valid
  have other : (waiting = none → op.usesTable = false) →
      tableStep ⟨⟨⟨timers, e⟩, frames, waiting⟩, h⟩ op =
        (inLoop (loopStep ⟨⟨timers, e⟩, frames, waiting⟩ op) >>= fun r => .ok (⟨r.1, h⟩, r.2)) →
      ∃ h' M' x, TableHolds h' M' ∧
        tableStep ⟨⟨⟨timers, e⟩, frames, waiting⟩, h⟩ op =
          (inLoop x).map (fun r => (⟨r.1, h'⟩, r.2)) ∧
        loopStep (TableState.view ⟨⟨⟨timers, e⟩, frames, waiting⟩, h⟩) op =
          x.map (withTable (pollerOf h')) := by
    intro unused same
    refine ⟨h, M, _, holds, ?_, loopStep_withTable _ op unused⟩
    rw [same]
    cases inLoop (loopStep ⟨⟨timers, e⟩, frames, waiting⟩ op) <;> rfl
  cases waiting with
  | some timeout => exact other (nomatch ·) (by cases op <;> rfl)
  | none =>
      cases op with
      | watch w fd ev block =>
          obtain ⟨h', M', x, holds', run, same⟩ :=
            tableEvWatch_shares (e := e) holds w isInt.1 isInt.2 ev block
          refine ⟨h', M', (inPolls x).map fun e' => (⟨⟨timers, e'⟩, frames, none⟩, .done), holds',
            ?_, ?_⟩
          · show (tableEvWatch h e w fd ev block >>= _) = _
            rw [run]
            cases x <;> rfl
          · show (inPolls (evWatch (e.withTable (pollerOf h)) w fd ev block) >>= _) = _
            rw [same]
            cases x <;> rfl
      | close fd =>
          obtain ⟨h', M', x, holds', run, same⟩ :=
            tableEvClose_shares (e := e) holds isInt.1 isInt.2
          refine ⟨h', M', (inPolls x).map fun e' => (⟨⟨timers, e'⟩, frames, none⟩, .done), holds',
            ?_, ?_⟩
          · show (tableEvClose h e fd >>= _) = _
            rw [run]
            cases x <;> rfl
          · show (inPolls (evClose (e.withTable (pollerOf h)) fd) >>= _) = _
            rw [same]
            cases x <;> rfl
      | _ => exact other (fun _ => rfl) rfl

/-- A step of the loop over the map is one of the loop over the hash table .. -/
theorem tableStep_of_loop (valid : s.Valid) (isInt : AsInt op) {t : LoopState ρ ω τ φ}
    (stepped : loopStep s.view op = .ok (t, out)) :
    ∃ s', tableStep s op = .ok (s', out) ∧ s'.Valid ∧ s'.view = t := by
  obtain ⟨h', M', x, holds', run, same⟩ := tableStep_shares valid isInt
  rw [same] at stepped
  cases x with
  | error f => cases stepped
  | ok r =>
      cases stepped
      exact ⟨⟨r.1, h'⟩, run, ⟨M', holds'⟩, rfl⟩

/-- .. and the other way round. -/
theorem loopStep_of_table (valid : s.Valid) (isInt : AsInt op)
    (stepped : tableStep s op = .ok (s', out)) :
    loopStep s.view op = .ok (s'.view, out) ∧ s'.Valid := by
  obtain ⟨h', M', x, holds', run, same⟩ := tableStep_shares valid isInt
  rw [run] at stepped
  cases x with
  | error f => cases stepped
  | ok r =>
      cases stepped
      exact ⟨same, M', holds'⟩

/-- The hash table never faults, and the rest faults as it does over the map. -/
theorem tableStep_fault_iff (valid : s.Valid) (isInt : AsInt op) (f : TableFault) :
    tableStep s op = .error f ↔ ∃ g, f = .loop g ∧ loopStep s.view op = .error g := by
  obtain ⟨h', M', x, holds', run, same⟩ := tableStep_shares valid isInt
  rw [run, same]
  cases x with
  | error g =>
      constructor
      · intro fault
        cases fault
        exact ⟨g, rfl, rfl⟩
      · rintro ⟨g', rfl, fault⟩
        cases fault
        rfl
  | ok r => exact ⟨(nomatch ·), fun ⟨_, _, fault⟩ => nomatch fault⟩

/-- The loop over the hash table, admitted as the loop over the map is. -/
def TableAdmits (ok : Guard (LoopState ρ ω τ φ) (LoopOp ρ ω τ φ) (LoopOutput ρ ω τ φ)) :
    Guard (TableState ρ ω τ φ) (LoopOp ρ ω τ φ) (LoopOutput ρ ω τ φ) :=
  fun tr s op => ok tr s.view op ∧ AsInt op

/-- The loop over the map, with descriptors that are `int`s. -/
def IntAdmits (ok : Guard (LoopState ρ ω τ φ) (LoopOp ρ ω τ φ) (LoopOutput ρ ω τ φ)) :
    Guard (LoopState ρ ω τ φ) (LoopOp ρ ω τ φ) (LoopOutput ρ ω τ φ) :=
  fun tr s op => ok tr s op ∧ AsInt op

section Runs
variable {ok : Guard (LoopState ρ ω τ φ) (LoopOp ρ ω τ φ) (LoopOutput ρ ω τ φ)}
  {timers : EvTimers τ φ} {watches : ω → Evwatch ρ φ} {keys : Nat → BitVec 32}
  {vals : Nat → ρ} {tr : Trace (LoopOp ρ ω τ φ) (LoopOutput ρ ω τ φ)}

omit [DecidableEq ρ] [DecidableEq ω] [DecidableEq τ] in
theorem init_tableHolds (keys : Nat → BitVec 32) (vals : Nat → ρ) :
    TableHolds (Khash.init keys vals) fun _ => none :=
  ⟨init_standsFor khIntHashFunc keys vals, fun _ known => (known rfl).elim⟩

omit [DecidableEq ρ] [DecidableEq ω] [DecidableEq τ] in
theorem init_view (timers : EvTimers τ φ) (watches : ω → Evwatch ρ φ) (keys : Nat → BitVec 32)
    (vals : Nat → ρ) :
    (TableState.init timers watches keys vals).view = LoopState.init timers watches := by
  have none : pollerOf (Khash.init keys vals) = fun _ => Option.none := funext fun fd => by
    rw [pollerOf_eq (init_tableHolds keys vals), ite_self]
  show (LoopState.init timers watches).withTable (pollerOf (Khash.init keys vals)) = _
  rw [none]
  rfl

theorem tableRun_valid
    (run : Run tableMachine (TableAdmits ok) (TableState.init timers watches keys vals) tr s) :
    s.Valid ∧ Run loopMachine (IntAdmits ok) (LoopState.init timers watches) tr s.view := by
  induction run with
  | nil =>
      refine ⟨⟨_, init_tableHolds keys vals⟩, ?_⟩
      rw [init_view]
      exact .nil
  | snoc run admitted stepped ih =>
      obtain ⟨stepped, valid⟩ := loopStep_of_table ih.1 admitted.2 stepped
      exact ⟨valid, ih.2.snoc admitted stepped⟩

theorem exists_tableRun {t : LoopState ρ ω τ φ} (keys : Nat → BitVec 32) (vals : Nat → ρ)
    (run : Run loopMachine (IntAdmits ok) (LoopState.init timers watches) tr t) :
    ∃ s, Run tableMachine (TableAdmits ok) (TableState.init timers watches keys vals) tr s ∧
      s.view = t := by
  induction run with
  | nil => exact ⟨_, .nil, init_view timers watches keys vals⟩
  | snoc run admitted stepped ih =>
      obtain ⟨s, before, rfl⟩ := ih
      obtain ⟨s', stepped', -, view⟩ :=
        tableStep_of_loop (tableRun_valid before).1 admitted.2 stepped
      exact ⟨s', before.snoc admitted stepped', view⟩

/-- The event loop over the hash table of the code has the same runs as the loop over a map of
descriptors, with the same outputs and states that differ in the table only, and it faults
where that one does: the hash table itself is never accessed beyond its arrays, and no search
in it goes on for ever. -/
theorem tableRun_is_loopRun
    (ok : Guard (LoopState ρ ω τ φ) (LoopOp ρ ω τ φ) (LoopOutput ρ ω τ φ))
    (timers : EvTimers τ φ) (watches : ω → Evwatch ρ φ) (keys : Nat → BitVec 32)
    (vals : Nat → ρ) (tr : Trace (LoopOp ρ ω τ φ) (LoopOutput ρ ω τ φ)) :
    (∀ t, Run loopMachine (IntAdmits ok) (LoopState.init timers watches) tr t ↔
      ∃ s, Run tableMachine (TableAdmits ok) (TableState.init timers watches keys vals) tr s ∧
        s.view = t) ∧
    ∀ s, Run tableMachine (TableAdmits ok) (TableState.init timers watches keys vals) tr s →
      ∀ op, AsInt op → ∀ f, tableMachine.step s op = .error f ↔
        ∃ g, f = .loop g ∧ loopMachine.step s.view op = .error g := by
  refine ⟨fun t => ⟨exists_tableRun keys vals, ?_⟩, fun s run op isInt f =>
    tableStep_fault_iff (tableRun_valid run).1 isInt f⟩
  rintro ⟨s, run, rfl⟩
  exact (tableRun_valid run).2

end Runs

end Step

section Destroy
variable [DecidableEq ρ] {h : Khash (BitVec 32) ρ} {M : BitVec 32 → Option ρ}

/-- The descriptors of the buckets from `ii` on, in their order. -/
def bucketFds (h : Khash (BitVec 32) ρ) (ii rest : Nat) : List Int :=
  ((List.range' ii rest).filterMap h.entry).map fun e => e.1.toInt

theorem tableDestroyFrom_eq (holds : TableHolds h M) : ∀ rest ii (e : Pollers ρ ω φ),
    ii + rest = h.nBuckets →
    inLoop (inPolls (destroyFrom (bucketFds h ii rest) (e.withTable (pollerOf h)))) =
      (tableDestroyFrom h rest ii e).map fun r => (r.1.withTable (pollerOf h), r.2) := by
  obtain ⟨stores, -, flags, cap⟩ := holds.1.ready
  intro rest
  induction rest with
  | zero => exact fun ii e ends => rfl
  | succ rest ih =>
      intro ii e ends
      have inside : ii < h.nBuckets := by omega
      simp only [tableDestroyFrom, Khash.khExist_ok inside (Nat.lt_of_lt_of_le inside flags),
        bucketFds, List.range'_succ]
      cases here : h.entry ii with
      | none =>
          rw [List.filterMap_cons_none here]
          exact ih (ii + 1) e (by omega)
      | some entry =>
          obtain ⟨key, p⟩ := entry
          have known : (e.withTable (pollerOf h)).table key.toInt = some p := by
            show pollerOf h key.toInt = some p
            rw [pollerOf_of_int holds (by rw [evfdKey, BitVec.ofInt_toInt]), evfdKey,
              BitVec.ofInt_toInt, holds.1.lookup here]
          rw [List.filterMap_cons_some here, List.map_cons, destroyFrom, known,
            holds.1.khVal_ok here]
          have freed : ∀ fd, xfree (closeFd (e.withTable (pollerOf h)) fd) p =
              (xfree (closeFd e fd) p).map (·.withTable (pollerOf h)) := by
            intro fd
            simp only [xfree, closeFd, Pollers.withTable]
            cases e.records p <;> rfl
          simp only [get_withTable, freed, inHash_ok, ok_bind, Option.isSome_some, if_true]
          cases e.get p with
          | error f => rfl
          | ok r =>
              simp only [ok_bind, inPolls_ok, inLoop_ok]
              cases xfree (closeFd e r.fd) p with
              | error f => rfl
              | ok e' =>
                  have later := ih (ii + 1) e' (by omega)
                  rw [bucketFds] at later
                  simp only [map_ok, ok_bind, inPolls_ok, inLoop_ok, bind_pure_eq_map,
                    inPolls_map, inLoop_map, later]
                  cases tableDestroyFrom h rest (ii + 1) e' <;> rfl

omit [DecidableEq ρ] in
theorem bucketFds_buckets (holds : TableHolds h M) (e : Pollers ρ ω φ) :
    Buckets (e.withTable (pollerOf h)) (bucketFds h 0 h.khEnd) ∧
      ∀ fd ∈ bucketFds h 0 h.khEnd, pollerOf h fd ≠ none := by
  obtain ⟨l, loop, nodup, mem_iff⟩ := khForeach_ok holds.1
  obtain ⟨-, -, flags, cap⟩ := holds.1.ready
  have same : bucketFds h 0 h.khEnd = l.map fun e => e.1.toInt := by
    cases loop.symm.trans (foreachFrom_ok flags (Nat.le_of_eq cap) h.nBuckets 0 (Nat.zero_add _))
    rfl
  have listed : ∀ fd, fd ∈ bucketFds h 0 h.khEnd ↔ pollerOf h fd ≠ none := by
    intro fd
    rw [same, List.mem_map, pollerOf_eq holds]
    constructor
    · rintro ⟨⟨key, p⟩, inside, rfl⟩
      rw [evfdKey, BitVec.ofInt_toInt, if_pos rfl, (mem_iff key p).mp inside]
      exact Option.some_ne_none p
    · intro known
      split at known
      · next isInt =>
          obtain ⟨p, stored⟩ := Option.ne_none_iff_exists'.mp known
          exact ⟨(evfdKey fd, p), (mem_iff _ p).mpr stored, isInt⟩
      · exact absurd rfl known
  refine ⟨⟨?_, fun fd known => (listed fd).mpr known⟩, fun fd inside => (listed fd).mp inside⟩
  rw [same]
  have apart := nodup.map (f := BitVec.toInt) fun _ _ => BitVec.eq_of_toInt_eq
  rwa [List.map_map] at apart

/-- `evloop_destroy` of any reachable loop goes through the buckets without a fault, and closes
and frees the record of every descriptor that the table has, each once. -/
theorem tableDestroy_releases [DecidableEq ω] [DecidableEq τ] {s : TableState ρ ω τ φ}
    {timers : EvTimers τ φ} {watches : ω → Evwatch ρ φ} {keys : Nat → BitVec 32}
    {vals : Nat → ρ} {tr : Trace (LoopOp ρ ω τ φ) (LoopOutput ρ ω τ φ)}
    (run : Run tableMachine (TableAdmits LoopAdmits) (TableState.init timers watches keys vals)
      tr s) :
    ∃ (fds : List Int) (e' : Pollers ρ ω φ), fds.Nodup ∧
      (∀ fd, fd ∈ fds ↔ s.view.loop.polls.table fd ≠ none) ∧
      tableEvloopDestroy s.pollers s.rest.loop.polls =
        .ok (e', fds.flatMap (destroyCalls s.view.loop.polls)) ∧
      ∀ p, (∃ fd ∈ fds, s.view.loop.polls.table fd = some p) ↔
        ∃ r, s.rest.loop.polls.records p = some r ∧ r.fd ≠ -1 := by
  obtain ⟨⟨M, holds⟩, view⟩ := tableRun_valid run
  have sound := run_sound (view.mono fun _ _ _ admitted => admitted.1)
  obtain ⟨buckets, listed⟩ := bucketFds_buckets holds s.rest.loop.polls
  obtain ⟨e', destroyed, -⟩ := destroyFrom_ok (sound.owned buckets)
  have shared :=
    tableDestroyFrom_eq holds s.pollers.nBuckets 0 s.rest.loop.polls (Nat.zero_add _)
  have exact_fds : ∀ fd, fd ∈ bucketFds s.pollers 0 s.pollers.khEnd ↔
      s.view.loop.polls.table fd ≠ none := fun fd => ⟨listed fd, buckets.all fd⟩
  obtain ⟨e'', calls, swept, same⟩ : ∃ e'' calls,
      tableDestroyFrom s.pollers s.pollers.khEnd 0 s.rest.loop.polls = .ok (e'', calls) ∧
        calls = (bucketFds s.pollers 0 s.pollers.khEnd).flatMap
          (destroyCalls s.view.loop.polls) := by
    have shared := shared.symm.trans (congrArg (fun x => inLoop (inPolls x)) destroyed)
    cases ran : tableDestroyFrom s.pollers s.pollers.nBuckets 0 s.rest.loop.polls with
    | error f =>
        rw [ran] at shared
        cases shared
    | ok r =>
        rw [ran] at shared
        exact ⟨r.1, r.2, ran, congrArg Prod.snd (Except.ok.inj shared)⟩
  refine ⟨bucketFds s.pollers 0 s.pollers.khEnd,
    { e'' with table := fun _ => none, kernel := fun _ => none }, buckets.nodup, exact_fds, ?_,
    fun p => ?_⟩
  · rw [tableEvloopDestroy, swept, same]
    rfl
  · constructor
    · rintro ⟨fd, -, inside⟩
      obtain ⟨nonneg, r, record, home⟩ := sound.life.table fd p inside
      exact ⟨r, record, by omega⟩
    · rintro ⟨r, record, opened⟩
      have inside := (sound.life.placed p r record).resolve_right fun closed => opened closed.1
      have known : s.view.loop.polls.table r.fd ≠ none := inside ▸ Option.some_ne_none p
      exact ⟨r.fd, (exact_fds r.fd).mpr known, inside⟩

/-- `quietLoop` with an empty hash table. -/
def quietTable : TableState Nat Nat Nat Nat :=
  TableState.init ⟨Heap.HeapMod32.zeroed (fun _ => 0) fun _ => 0, 0, fun _ => none⟩
    (fun _ => ⟨some 7, none⟩) (fun _ => 0) fun _ => 0

/-- Descriptors 5 and 9, whose searches start at one bucket, are watched. -/
theorem crowded_run : Run tableMachine (TableAdmits LoopAdmits) quietTable
    [(.watch 1 9 .read 1, .done), (.watch 0 5 .read 0, .done)]
    (tableMachine.afterAll quietTable [.watch 0 5 .read 0, .watch 1 9 .read 1]) := by
  have other : Unregistered (watchAt (fun _ _ => none) 5 .read 0) 1 :=
    (Unregistered.of_none 1).of_watch (by decide)
  exact .snoc (.snoc .nil ⟨⟨by decide, .of_none 0, rfl, ⟨7, rfl⟩, rfl⟩, ⟨by decide, by decide⟩⟩
    (Machine.step_eq rfl)) ⟨⟨by decide, other, rfl, ⟨7, rfl⟩, rfl⟩, ⟨by decide, by decide⟩⟩
    (Machine.step_eq rfl)

theorem tableDestroy_releases_crowded :
    let s := tableMachine.afterAll quietTable [.watch 0 5 .read 0, .watch 1 9 .read 1]
    ∃ (fds : List Int) (e' : Pollers Nat Nat Nat), fds.Nodup ∧
      (∀ fd, fd ∈ fds ↔ s.view.loop.polls.table fd ≠ none) ∧
      tableEvloopDestroy s.pollers s.rest.loop.polls =
        .ok (e', fds.flatMap (destroyCalls s.view.loop.polls)) ∧
      ∀ p, (∃ fd ∈ fds, s.view.loop.polls.table fd = some p) ↔
        ∃ r, s.rest.loop.polls.records p = some r ∧ r.fd ≠ -1 :=
  tableDestroy_releases crowded_run

end Destroy

end CThread.Poll
