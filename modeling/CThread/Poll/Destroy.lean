import CThread.Poll.Journal

/-!
`evloop_destroy`, and what becomes of the records and their descriptors over a whole run.

A record belongs to the table until `ev_close` and to the dirty list afterwards. The pass
frees what is closed on the dirty list; `evloop_destroy` closes and frees what is in the
table, and looks at no list. The timers, the signal stack and the epoll descriptor, which it
releases too, play no part here.
-/
namespace CThread.Poll
open Faults GuardedRuns Chains Timers
variable {ρ ω τ φ : Type} {e e' : Pollers ρ ω φ} {slot : Int → EvEvent → Option ω}
  {fd : Int} {p : ρ} {r : EvloopPoll ρ ω} [DecidableEq ρ]

/-- The loop over the buckets of the table, by their keys. -/
def destroyFrom : List Int → Pollers ρ ω φ →
    Except PollFault (Pollers ρ ω φ × List (SysCall ρ))
  | [], e => .ok (e, [])
  | fd :: rest, e =>
      match e.table fd with
      | none => destroyFrom rest e
      | some p => do
          let r ← e.get p
          let e ← xfree (closeFd e r.fd) p
          let (e, calls) ← destroyFrom rest e
          return (e, .close r.fd (some p) :: .xfree p :: calls)

/-- `kh_destroy` drops the table, and `close(e->efd)` the interest list. -/
def evloopDestroy (e : Pollers ρ ω φ) (keys : List Int) :
    Except PollFault (Pollers ρ ω φ × List (SysCall ρ)) := do
  let (e, calls) ← destroyFrom keys e
  return ({ e with table := fun _ => none, kernel := fun _ => none }, calls)

/-- The buckets of the table: every key that is in use, and none twice. -/
structure Buckets (e : Pollers ρ ω φ) (keys : List Int) : Prop where
  nodup : keys.Nodup
  all : ∀ fd, e.table fd ≠ none → fd ∈ keys

def SysCall.allocates (p : ρ) : SysCall ρ → Bool
  | .xcalloc block _ => block = p
  | _ => false

/-- Every `xfree` is of a block that is live then. -/
def FreesLive : List ρ → List (SysCall ρ) → Prop
  | _, [] => True
  | blocks, call :: calls =>
      (∀ p, call = .xfree p → p ∈ blocks) ∧ FreesLive (call.moveBlock blocks) calls

/-- Each record was freed as often as it was allocated, and each descriptor closed as often as
a record was allocated for it. -/
structure Released (calls : List (SysCall ρ)) : Prop where
  freed : ∀ p, calls.count (.xfree p) = calls.countP (SysCall.allocates p)
  closed : ∀ fd p, calls.count (.close fd (some p)) = calls.count (.xcalloc p fd)

/-- What is allocated and not freed is a live block, and what is allocated and not closed is
in the table. -/
structure Ledger (calls : List (SysCall ρ)) (e : Pollers ρ ω φ) : Prop where
  live : FreesLive [] calls
  blocks : ∀ p, calls.countP (SysCall.allocates p) =
    calls.count (.xfree p) + if p ∈ e.allocated then 1 else 0
  opens : ∀ fd p, calls.count (.xcalloc p fd) =
    calls.count (.close fd (some p)) + if e.table fd = some p then 1 else 0

/-- A closed record is on the dirty list. -/
def ClosedPending (e : Pollers ρ ω φ) : Prop :=
  ∃ ds p r, Chain (links e) e.dirtyList ds ∧ p ∈ ds ∧ e.records p = some r ∧ r.fd = -1

theorem FreesLive.append {calls later : List (SysCall ρ)} :
    ∀ {blocks : List ρ}, FreesLive blocks calls →
      FreesLive (calls.foldl SysCall.moveBlock blocks) later →
        FreesLive blocks (calls ++ later) := by
  induction calls with
  | nil => exact fun _ second => second
  | cons call calls ih => exact fun first second => ⟨first.1, ih first.2 second⟩

theorem FreesLive.count {calls : List (SysCall ρ)} (p : ρ) :
    ∀ {blocks : List ρ}, FreesLive blocks calls →
      blocks.count p + calls.countP (SysCall.allocates p) =
        calls.count (.xfree p) + (calls.foldl SysCall.moveBlock blocks).count p := by
  induction calls with
  | nil => exact fun _ => Nat.add_comm ..
  | cons call calls ih =>
      intro blocks live
      have later := ih live.2
      rw [List.countP_cons, List.count_cons, List.foldl_cons]
      cases call with
      | xcalloc block fd =>
          simp only [SysCall.moveBlock, List.count_cons] at later ⊢
          by_cases same : block = p
          · simp [SysCall.allocates, same] at later ⊢
            omega
          · simp [SysCall.allocates, same] at later ⊢
            omega
      | xfree block =>
          simp only [SysCall.moveBlock, List.count_erase] at later ⊢
          by_cases same : block = p
          · subst same
            have member : 0 < blocks.count block := List.count_pos_iff.mpr (live.1 block rfl)
            simp [SysCall.allocates] at later ⊢
            omega
          · simp [SysCall.allocates, same] at later ⊢
            omega
      | _ => simpa [SysCall.allocates, SysCall.moveBlock] using later

omit [DecidableEq ρ] in
theorem recordCalls_mem {call : SysCall ρ} (inside : call ∈ recordCalls p r) :
    call = .xfree p ∨ ∃ fd k, call = .ctlAdd fd k ∨ call = .ctlMod fd k := by
  unfold recordCalls at inside
  split at inside
  · exact .inl (List.mem_singleton.mp inside)
  split at inside
  · exact .inr ⟨_, _, .inl (List.mem_singleton.mp inside)⟩
  split at inside
  · exact .inr ⟨_, _, .inr (List.mem_singleton.mp inside)⟩
  · cases inside

omit [DecidableEq ρ] in
theorem callsAt_mem {call : SysCall ρ} (inside : call ∈ callsAt e p) :
    call = .xfree p ∨ ∃ fd k, call = .ctlAdd fd k ∨ call = .ctlMod fd k := by
  unfold callsAt at inside
  split at inside
  · cases inside
  · exact recordCalls_mem inside

/-- The pass frees each record once, and frees live ones only. -/
theorem freesLive_pass (life : Lifetime e slot e.dirtyList) {ds : List ρ} :
    ∀ {blocks : List ρ}, ds.Nodup → (∀ q ∈ ds, q ∈ blocks ∧ e.records q ≠ none) →
      FreesLive blocks (ds.flatMap (callsAt e)) := by
  induction ds with
  | nil => exact fun _ _ => trivial
  | cons q rest ih =>
      intro blocks nodup live
      obtain ⟨outside, nodup⟩ := List.nodup_cons.mp nodup
      obtain ⟨member, known⟩ := live q (.head _)
      obtain ⟨r, record⟩ := Option.ne_none_iff_exists'.mp known
      have later : ∀ q' ∈ rest, q' ∈ blocks ∧ e.records q' ≠ none :=
        fun q' inside => live q' (.tail _ inside)
      have told : ∀ call : SysCall ρ, (∀ p, call ≠ .xfree p) → call.moveBlock blocks = blocks →
          FreesLive blocks ([call] ++ rest.flatMap (callsAt e)) := by
        intro call other same
        refine ⟨fun p absurd => (other p absurd).elim, ?_⟩
        rw [same]
        exact ih nodup later
      rw [List.flatMap_cons, callsAt_eq life record]
      split
      · refine ⟨fun p same => ?_, ih nodup fun q' inside => ?_⟩
        · cases same
          exact member
        · have other : q' ≠ q := fun same => outside (same ▸ inside)
          exact ⟨(List.mem_erase_of_ne other).mpr (later q' inside).1, (later q' inside).2⟩
      split
      · exact ih nodup later
      split
      · exact told _ (fun p absurd => by cases absurd) rfl
      · exact told _ (fun p absurd => by cases absurd) rfl

variable [DecidableEq ω] {s s' : LoopState ρ ω τ φ} {op : LoopOp ρ ω τ φ}
  {out : LoopOutput ρ ω τ φ} {g : Registry ρ ω}

omit [DecidableEq ω] in
theorem stepCalls_live (sound : Sound e slot) (op : LoopOp ρ ω τ φ) (out : LoopOutput ρ ω τ φ) :
    FreesLive e.allocated (stepCalls e op out) := by
  have pass : FreesLive e.allocated (passCalls e) := by
    obtain ⟨ds, dirty, calls⟩ := sound.passCalls_eq
    rw [calls]
    refine freesLive_pass sound.life dirty.2.1 fun q inside => ?_
    obtain ⟨r, record, _⟩ := (dirty.2.2 q).mp inside
    have known : e.records q ≠ none := by simp [record]
    exact ⟨(sound.life.allocated q).mpr known, known⟩
  cases op with
  | watch w fd ev block =>
      simp only [stepCalls]
      split
      · exact ⟨fun p absurd => (by cases absurd), trivial⟩
      · trivial
  | close fd => exact ⟨fun p absurd => (by cases absurd), trivial⟩
  | _ => cases out <;> first | exact pass | trivial

/-- Descriptors are closed as often as records were allocated for them, but for those that the
table still has. -/
def Opens (calls : List (SysCall ρ)) (table : Int → Option ρ) : Prop :=
  ∀ fd p, calls.count (.xcalloc p fd) =
    calls.count (.close fd (some p)) + if table fd = some p then 1 else 0

omit [DecidableEq ω] in
theorem Opens.pass {calls : List (SysCall ρ)} (opens : Opens calls e.table)
    (sound : Sound e slot) (same : e'.table = e.table) :
    Opens (calls ++ passCalls e) e'.table := by
  obtain ⟨ds, _, passed⟩ := sound.passCalls_eq
  have others : ∀ call : SysCall ρ, (∀ q, call ≠ .xfree q) → (∀ fd k, call ≠ .ctlAdd fd k) →
      (∀ fd k, call ≠ .ctlMod fd k) → (ds.flatMap (callsAt e)).count call = 0 := by
    intro call free add mod
    refine List.count_eq_zero.mpr fun inside => ?_
    obtain ⟨q, _, inside⟩ := List.mem_flatMap.mp inside
    rcases callsAt_mem inside with same | ⟨fd, k, same | same⟩
    · exact free q same
    · exact add fd k same
    · exact mod fd k same
  intro fd p
  rw [passed, same, List.count_append, List.count_append, others, others]
  · exact opens fd p
  all_goals simp

theorem Opens.alloc {calls : List (SysCall ρ)} {table table' : Int → Option ρ}
    (opens : Opens calls table) {block : ρ} (empty : table fd = none)
    (entry : table' = Function.update table fd (some block)) :
    Opens (calls ++ [.xcalloc block fd]) table' := by
  intro fd' p
  have before := opens fd' p
  rw [List.count_append, List.count_append, entry]
  by_cases here : fd' = fd
  · subst here
    rw [empty] at before
    by_cases same : block = p
    · subst same
      simp at before ⊢
      omega
    · simp [same] at before ⊢
      omega
  · simp [here, Ne.symm here] at before ⊢
    exact before

theorem Opens.close {calls : List (SysCall ρ)} {table table' : Int → Option ρ}
    (opens : Opens calls table) (entry : table' = Function.update table fd none) :
    Opens (calls ++ [.close fd (table fd)]) table' := by
  intro fd' p
  have before := opens fd' p
  rw [List.count_append, List.count_append, entry]
  by_cases here : fd' = fd
  · subst here
    by_cases same : table fd' = some p
    · simp [same] at before ⊢
      omega
    · simp [same] at before ⊢
      omega
  · simp [here, Ne.symm here] at before ⊢
    exact before

variable [DecidableEq τ]

theorem Opens.step {calls : List (SysCall ρ)} (opens : Opens calls s.loop.polls.table)
    (sound : Sound s.loop.polls g.slot) (stepped : loopStep s op = .ok (s', out)) :
    Opens (calls ++ stepCalls s.loop.polls op out) s'.loop.polls.table := by
  have still : stepCalls s.loop.polls op out = [] →
      s'.loop.polls.table = s.loop.polls.table →
        Opens (calls ++ stepCalls s.loop.polls op out) s'.loop.polls.table := by
    intro nothing same
    rw [nothing, List.append_nil, same]
    exact opens
  have move := loopStep_move s op
  generalize loopStep s op = result at move stepped
  cases move with
  | @watch w fd ev block =>
      obtain ⟨e', run, rfl, rfl⟩ := withPolls_eq_ok stepped
      obtain ⟨_, _, x, kept⟩ := evWatch_effect run
      cases inside : s.loop.polls.table fd with
      | some p =>
          rw [recordFor_some inside] at kept
          exact still (by simp [stepCalls, inside]) kept.table
      | none =>
          have calls' : stepCalls (τ := τ) s.loop.polls (.watch w fd ev block) .done =
              [.xcalloc block fd] := by simp [stepCalls, inside]
          rw [recordFor_none inside] at kept
          rw [calls']
          exact opens.alloc inside kept.table
  | unwatch =>
      obtain ⟨e', run, rfl, rfl⟩ := withPolls_eq_ok stepped
      rcases evUnwatch_effect run with ⟨_, same⟩ | ⟨_, kept⟩
      · exact still rfl (congrArg Pollers.table same)
      · exact still rfl kept.table
  | @close fd =>
      obtain ⟨e', run, rfl, rfl⟩ := withPolls_eq_ok stepped
      obtain ⟨e₁, run₁, _, _, closed⟩ := evClose_ok sound.life sound.reg fd
      cases run.symm.trans run₁
      exact opens.close closed.table
  | setWatch =>
      cases stepped
      exact still rfl rfl
  | pass =>
      obtain ⟨e', run, rest⟩ := bind_eq_ok.mp stepped
      cases rest
      exact opens.pass sound (sound.flushed (inPolls_eq_ok.mp run)).1
  | dispatched source polls =>
      obtain ⟨kept, _, calm⟩ := dispatchFrom_effect stepped
      refine still (stepCalls_of_source source calm.ne_waits) ?_
      rw [kept, polls]
  | quiet polls pending waiting quiet answers =>
      cases stepped
      exact still (stepCalls_of_quiet quiet answers) (by rw [polls])
  | stop other => cases stepped

variable {timers : EvTimers τ φ} {watches : ω → Evwatch ρ φ}
  {tr : Trace (LoopOp ρ ω τ φ) (LoopOutput ρ ω τ φ × List (SysCall ρ))}

theorem run_opens
    (run : Run journalMachine JournalOffers (LoopState.init timers watches) tr s) :
    FreesLive [] (journal tr) ∧ Opens (journal tr) s.loop.polls.table := by
  induction run with
  | nil => exact ⟨trivial, fun fd p => rfl⟩
  | snoc run offered stepped ih =>
      obtain ⟨stepped, same⟩ := journalStep_eq_ok.mp stepped
      have sound := run_sound (journalRun_loopRun run)
      rw [journal, same]
      refine ⟨ih.1.append ?_, ih.2.step sound stepped⟩
      have blocks : _ = (journal _).foldl SysCall.moveBlock [] := (journalRun_replays run).blocks
      rw [← blocks]
      exact stepCalls_live sound _ _

/-- Where the blocks and the descriptors are that were allocated, in every reachable state. -/
theorem run_ledger
    (run : Run journalMachine JournalOffers (LoopState.init timers watches) tr s) :
    Ledger (journal tr) s.loop.polls := by
  obtain ⟨live, opens⟩ := run_opens run
  have sound := run_sound (journalRun_loopRun run)
  refine ⟨live, fun p => ?_, opens⟩
  have counted := live.count p
  rw [List.count_nil, Nat.zero_add] at counted
  rw [counted, ← sound.life.allocated_nodup.count, (journalRun_replays run).blocks]
  rfl

/-- What `evloop_destroy` calls for one bucket. -/
def destroyCalls (e : Pollers ρ ω φ) (fd : Int) : List (SysCall ρ) :=
  match e.table fd with
  | none => []
  | some p => [.close fd (some p), .xfree p]

/-- Each bucket holds a record of its own that is alive. -/
structure Owned (e : Pollers ρ ω φ) (keys : List Int) : Prop where
  nodup : keys.Nodup
  inj : ∀ fd fd' p, e.table fd = some p → e.table fd' = some p → fd = fd'
  home : ∀ fd ∈ keys, ∀ p, e.table fd = some p →
    p ∈ e.allocated ∧ ∃ r, e.records p = some r ∧ r.fd = fd

section
omit [DecidableEq ω] [DecidableEq τ]

theorem Owned.drop {keys : List Int} (owned : Owned e (fd :: keys)) (inside : e.table fd = some p) :
    Owned (dropRecord (closeFd e fd) p) keys := by
  obtain ⟨outside, nodup⟩ := List.nodup_cons.mp owned.nodup
  refine ⟨nodup, owned.inj, fun fd' member q inside' => ?_⟩
  have other : q ≠ p := by
    intro same
    subst same
    exact outside (owned.inj fd' fd q inside' inside ▸ member)
  obtain ⟨live, r, record, home⟩ := owned.home fd' (.tail _ member) q inside'
  exact ⟨(List.mem_erase_of_ne other).mpr live, r,
    (Function.update_of_ne other ..).trans record, home⟩

theorem destroyFrom_ok {keys : List Int} : ∀ {e : Pollers ρ ω φ}, Owned e keys →
    ∃ e', destroyFrom keys e = .ok (e', keys.flatMap (destroyCalls e)) ∧
      FreesLive e.allocated (keys.flatMap (destroyCalls e)) := by
  induction keys with
  | nil => exact fun _ => ⟨_, rfl, trivial⟩
  | cons fd keys ih =>
      intro e owned
      rw [List.flatMap_cons]
      cases inside : e.table fd with
      | none =>
          have rest : Owned e keys := ⟨(List.nodup_cons.mp owned.nodup).2, owned.inj,
            fun fd' member => owned.home fd' (.tail _ member)⟩
          obtain ⟨e', run, live⟩ := ih rest
          refine ⟨e', ?_, ?_⟩
          · simp only [destroyFrom, inside, run, destroyCalls, List.nil_append]
          · simpa only [destroyCalls, inside, List.nil_append] using live
      | some p =>
          obtain ⟨live, r, record, home⟩ := owned.home fd (.head _) p inside
          subst home
          obtain ⟨e', run, later⟩ := ih (owned.drop inside)
          have freed : xfree (closeFd e r.fd) p = .ok (dropRecord (closeFd e r.fd) p) := by
            have still : (closeFd e r.fd).records p = some r := record
            rw [xfree, still]
          refine ⟨e', ?_, ?_⟩
          · simp only [destroyFrom, inside, Pollers.get_ok record, ok_bind, freed, run,
              pure_eq_ok, destroyCalls]
            rfl
          · simp only [destroyCalls, inside]
            refine ⟨fun q absurd => (by cases absurd), fun q same => ?_, later⟩
            cases same
            exact live

theorem count_destroy_free {keys : List Int} (p : ρ) (nodup : keys.Nodup)
    (inj : ∀ fd fd' p, e.table fd = some p → e.table fd' = some p → fd = fd') :
    (keys.flatMap (destroyCalls e)).count (.xfree p) =
      if ∃ fd ∈ keys, e.table fd = some p then 1 else 0 := by
  induction keys with
  | nil => simp
  | cons fd keys ih =>
      obtain ⟨outside, nodup⟩ := List.nodup_cons.mp nodup
      rw [List.flatMap_cons, List.count_append, ih nodup]
      by_cases here : e.table fd = some p
      · have elsewhere : ¬ ∃ fd' ∈ keys, e.table fd' = some p :=
          fun ⟨fd', member, there⟩ => outside (inj fd' fd p there here ▸ member)
        simp [destroyCalls, here, elsewhere]
      · have one : (destroyCalls e fd).count (.xfree p) = 0 := by
          unfold destroyCalls
          cases inside : e.table fd with
          | none => rfl
          | some q =>
              have other : q ≠ p := fun same => here (same ▸ inside)
              simp [other]
        simp [one, here]

theorem count_destroy_close {keys : List Int} (fd : Int) (p : ρ) (nodup : keys.Nodup) :
    (keys.flatMap (destroyCalls e)).count (.close fd (some p)) =
      if fd ∈ keys ∧ e.table fd = some p then 1 else 0 := by
  induction keys with
  | nil => simp
  | cons fd' keys ih =>
      obtain ⟨outside, nodup⟩ := List.nodup_cons.mp nodup
      rw [List.flatMap_cons, List.count_append, ih nodup]
      by_cases same : fd' = fd
      · subst same
        cases inside : e.table fd' with
        | none => simp [destroyCalls, inside]
        | some q => by_cases own : q = p <;> simp [destroyCalls, inside, own, outside]
      · have one : (destroyCalls e fd').count (.close fd (some p)) = 0 := by
          unfold destroyCalls
          split <;> simp [same]
        simp [one, Ne.symm same]

theorem count_destroy_other {keys : List Int} {call : SysCall ρ}
    (free : ∀ q, call ≠ .xfree q) (close : ∀ fd q, call ≠ .close fd (some q)) :
    (keys.flatMap (destroyCalls e)).count call = 0 := by
  refine List.count_eq_zero.mpr fun inside => ?_
  obtain ⟨fd, _, inside⟩ := List.mem_flatMap.mp inside
  unfold destroyCalls at inside
  split at inside
  · cases inside
  · rcases List.mem_cons.mp inside with same | inside
    · exact close _ _ same
    · exact free _ (List.mem_singleton.mp inside)

theorem countP_destroy {keys : List Int} (p : ρ) :
    (keys.flatMap (destroyCalls e)).countP (SysCall.allocates p) = 0 := by
  refine List.countP_eq_zero.mpr fun call inside => ?_
  obtain ⟨fd, _, inside⟩ := List.mem_flatMap.mp inside
  unfold destroyCalls at inside
  split at inside
  · cases inside
  · rcases List.mem_cons.mp inside with same | inside
    · rw [same]
      exact Bool.false_ne_true
    · rw [List.mem_singleton.mp inside]
      exact Bool.false_ne_true

omit [DecidableEq ρ] in
theorem Sound.owned (sound : Sound e slot) {keys : List Int} (buckets : Buckets e keys) :
    Owned e keys := by
  refine ⟨buckets.nodup, fun fd fd' p => sound.life.table_inj, fun fd _ p inside => ?_⟩
  obtain ⟨_, r, record, home⟩ := sound.life.table fd p inside
  have known : e.records p ≠ none := by simp [record]
  exact ⟨(sound.life.allocated p).mpr known, r, record, home⟩

omit [DecidableEq ρ] in
/-- A live block is in a bucket, or its record is closed and waits for the pass. -/
theorem Sound.closedPending_iff (sound : Sound e slot) {keys : List Int}
    (buckets : Buckets e keys) :
    ¬ ClosedPending e ↔ ∀ p, (∃ fd ∈ keys, e.table fd = some p) ↔ p ∈ e.allocated := by
  constructor
  · intro none p
    constructor
    · intro ⟨fd, member, inside⟩
      exact ((sound.owned buckets).home fd member p inside).1
    · intro live
      obtain ⟨r, record⟩ := Option.ne_none_iff_exists'.mp ((sound.life.allocated p).mp live)
      rcases sound.life.placed p r record with inside | ⟨closed, dirty, _⟩
      · exact ⟨r.fd, buckets.all r.fd (by simp [inside]), inside⟩
      · obtain ⟨ds, chain, _, exactly⟩ := sound.life.chain
        exact absurd ⟨ds, p, r, chain, (exactly p).mpr ⟨r, record, dirty⟩, record, closed⟩ none
  · intro all ⟨ds, p, r, _, _, record, closed⟩
    have known : e.records p ≠ none := by simp [record]
    obtain ⟨fd, _, inside⟩ := (all p).mpr ((sound.life.allocated p).mpr known)
    exact sound.life.not_both inside record closed

/-- With what `evloop_destroy` closes, every descriptor that had a record is closed. -/
theorem Ledger.closes {calls : List (SysCall ρ)} (ledger : Ledger calls e) {keys : List Int}
    (buckets : Buckets e keys) (fd : Int) (p : ρ) :
    (calls ++ keys.flatMap (destroyCalls e)).count (.close fd (some p)) =
      (calls ++ keys.flatMap (destroyCalls e)).count (.xcalloc p fd) := by
  have none : (keys.flatMap (destroyCalls e)).count (.xcalloc p fd) = 0 :=
    count_destroy_other (by simp) (by simp)
  rw [List.count_append, List.count_append, none, ledger.opens fd p,
    count_destroy_close fd p buckets.nodup]
  by_cases inside : e.table fd = some p
  · have member := buckets.all fd (by simp [inside])
    simp [inside, member]
  · simp [inside]

/-- With what `evloop_destroy` frees, a block is freed if it is in a bucket or not live. -/
theorem Ledger.frees_iff {calls : List (SysCall ρ)} (ledger : Ledger calls e) {keys : List Int}
    (owned : Owned e keys) (p : ρ) :
    (calls ++ keys.flatMap (destroyCalls e)).count (.xfree p) =
        (calls ++ keys.flatMap (destroyCalls e)).countP (SysCall.allocates p) ↔
      ((∃ fd ∈ keys, e.table fd = some p) ↔ p ∈ e.allocated) := by
  rw [List.count_append, List.countP_append, countP_destroy, ledger.blocks p,
    count_destroy_free p owned.nodup owned.inj]
  by_cases inside : ∃ fd ∈ keys, e.table fd = some p <;>
    by_cases member : p ∈ e.allocated <;> simp [inside, member]

end

/-- Along every run each allocated block is freed at most once, and while it is live, and each
descriptor that has a record is closed once when the record goes. `evloop_destroy` closes
the descriptors that are left, and frees all that is left exactly when no closed record
waits for a pass. -/
theorem destroyRun_releases_iff
    (run : Run journalMachine JournalOffers (LoopState.init timers watches) tr s)
    {keys : List Int} (buckets : Buckets s.loop.polls keys) :
    Ledger (journal tr) s.loop.polls ∧
      ∃ e' calls, evloopDestroy s.loop.polls keys = .ok (e', calls) ∧
        FreesLive [] (journal tr ++ calls) ∧
        (∀ fd p, (journal tr ++ calls).count (.close fd (some p)) =
          (journal tr ++ calls).count (.xcalloc p fd)) ∧
        (Released (journal tr ++ calls) ↔ ¬ ClosedPending s.loop.polls) := by
  have ledger := run_ledger run
  have sound := run_sound (journalRun_loopRun run)
  have owned := sound.owned buckets
  obtain ⟨e', destroyed, live⟩ := destroyFrom_ok owned
  refine ⟨ledger, { e' with table := fun _ => none, kernel := fun _ => none },
    keys.flatMap (destroyCalls s.loop.polls), ?_, ?_, ledger.closes buckets, ?_⟩
  · rw [evloopDestroy, destroyed]
    rfl
  · refine ledger.live.append ?_
    have blocks : _ = (journal _).foldl SysCall.moveBlock [] := (journalRun_replays run).blocks
    rw [← blocks]
    exact live
  · rw [sound.closedPending_iff buckets]
    exact ⟨fun released p => (ledger.frees_iff owned p).mp (released.freed p),
      fun all => ⟨fun p => (ledger.frees_iff owned p).mpr (all p), ledger.closes buckets⟩⟩

/-- Descriptor 5 is closed before a pass, and descriptor 6 is still watched. -/
def halfClosed : LoopState Nat Nat Nat Nat :=
  journalMachine.afterAll quietLoop [.watch 0 5 .read 0, .watch 1 6 .write 1, .close 5,
    .evloopStep, .epollWait .failed]

def halfClosedTrace :
    Trace (LoopOp Nat Nat Nat Nat) (LoopOutput Nat Nat Nat Nat × List (SysCall Nat)) :=
  [(.epollWait .failed, .returns (-1), []),
    (.evloopStep, .waits (-1), [.ctlAdd 6 ⟨epollOut ||| epollEt, 1⟩, .xfree 0]),
    (.close 5, .done, [.close 5 (some 0)]), (.watch 1 6 .write 1, .done, [.xcalloc 1 6]),
    (.watch 0 5 .read 0, .done, [.xcalloc 0 5])]

theorem halfClosed_run : Run journalMachine JournalOffers quietLoop halfClosedTrace halfClosed := by
  have other : Unregistered (watchAt (fun _ _ => none) 5 .read 0) 1 :=
    (Unregistered.of_none 1).of_watch (by decide)
  exact .snoc (.snoc (.snoc (.snoc (.snoc .nil ⟨by decide, .of_none 0, rfl⟩ (Machine.step_eq rfl))
    ⟨by decide, other, rfl⟩ (Machine.step_eq rfl)) trivial (Machine.step_eq rfl)) trivial
    (Machine.step_eq rfl)) trivial (Machine.step_eq rfl)

theorem destroyRun_releases_iff_halfClosed :
    ∃ e' calls, evloopDestroy halfClosed.loop.polls [6] = .ok (e', calls) ∧
      Released (journal halfClosedTrace ++ calls) := by
  have buckets : Buckets halfClosed.loop.polls [6] := by
    refine ⟨List.nodup_singleton 6, fun fd inside => ?_⟩
    by_contra other
    have away : fd ≠ 6 := fun same => other (List.mem_singleton.mpr same)
    apply inside
    by_cases same : fd = 5
    · subst same
      rfl
    · exact (Function.update_of_ne same ..).trans
        ((Function.update_of_ne away ..).trans (Function.update_of_ne same ..))
  obtain ⟨e', calls, destroyed, _, _, released⟩ :=
    (destroyRun_releases_iff halfClosed_run buckets).2
  refine ⟨e', calls, destroyed, released.mpr ?_⟩
  intro ⟨ds, p, r, chain, member, _⟩
  have start : halfClosed.loop.polls.dirtyList = none := rfl
  rw [start] at chain
  rw [chain.eq_nil] at member
  cases member

/-- Descriptor 5 is closed and the loop destroyed right after. -/
def closedLast : LoopState Nat Nat Nat Nat :=
  journalMachine.afterAll quietLoop [.watch 0 5 .read 0, .close 5]

def closedLastTrace :
    Trace (LoopOp Nat Nat Nat Nat) (LoopOutput Nat Nat Nat Nat × List (SysCall Nat)) :=
  [(.close 5, .done, [.close 5 (some 0)]), (.watch 0 5 .read 0, .done, [.xcalloc 0 5])]

/-- The record of a descriptor that was closed last is never freed. -/
theorem destroy_leaks_closed :
    Run journalMachine JournalOffers quietLoop closedLastTrace closedLast ∧
      Buckets closedLast.loop.polls [] ∧
      ∃ e' calls, evloopDestroy closedLast.loop.polls [] = .ok (e', calls) ∧
        ¬ Released (journal closedLastTrace ++ calls) := by
  refine ⟨.snoc (.snoc .nil ⟨by decide, .of_none 0, rfl⟩
    (Machine.step_eq rfl)) trivial (Machine.step_eq rfl), ⟨.nil, fun fd inside => ?_⟩, _, _, rfl,
    fun released => ?_⟩
  · by_cases same : fd = 5
    · subst same
      exact absurd rfl inside
    · exact absurd ((Function.update_of_ne same ..).trans (Function.update_of_ne same ..)) inside
  · exact absurd (released.freed 0) (by decide)

end CThread.Poll
