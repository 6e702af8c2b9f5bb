import CThread.Poll.Interest
import CThread.Poll.Unwatch

/-!
The calls that the loop makes to the allocator and to the kernel, in the order of the source.

The calls of the pass are those that the pass returns. The blocks and the masks that the
state has are those that one gets by carrying out the calls of a run.
-/
namespace CThread.Poll
open Faults GuardedRuns Chains Timers
variable {ρ ω τ φ : Type} {e e' : Pollers ρ ω φ} {slot : Int → EvEvent → Option ω}
  {start : Option ρ} {fd : Int} {p : ρ} {r : EvloopPoll ρ ω}

def callsOf : Except PollFault (Pollers ρ ω φ × List (SysCall ρ)) → List (SysCall ρ)
  | .ok (_, calls) => calls
  | .error _ => []

/-- The call that a cleaned record is due. -/
def recordCalls (p : ρ) (r : EvloopPoll ρ ω) : List (SysCall ρ) :=
  if r.fd < 0 then [.xfree p]
  else if r.interest ≠ 0 ∧ r.isAdded = false then [.ctlAdd r.fd ⟨r.interest ||| epollEt, p⟩]
  else if r.interest ≠ r.kernelMask then [.ctlMod r.fd ⟨r.interest ||| epollEt, p⟩]
  else []

section
variable [DecidableEq ρ]

/-- The calls of the pass. -/
def passCalls (e : Pollers ρ ω φ) : List (SysCall ρ) := callsOf (flushDirtyCalls e)

/-- `ev_watch` allocates a record for a new descriptor, `ev_close` closes, and a step that has
got to `epoll_wait` has run the pass. -/
def stepCalls (e : Pollers ρ ω φ) : LoopOp ρ ω τ φ → LoopOutput ρ ω τ φ → List (SysCall ρ)
  | .watch _ fd _ block, _ =>
      match e.table fd with
      | none => [.xcalloc block fd]
      | some _ => []
  | .close fd, _ => [.close fd (e.table fd)]
  | _, .waits _ => passCalls e
  | _, _ => []

variable [DecidableEq ω] [DecidableEq τ]

def journalStep (s : LoopState ρ ω τ φ) (op : LoopOp ρ ω τ φ) :
    Except LoopFault (LoopState ρ ω τ φ × LoopOutput ρ ω τ φ × List (SysCall ρ)) := do
  let (s', out) ← loopStep s op
  return (s', out, stepCalls s.loop.polls op out)

def journalMachine : Machine (LoopState ρ ω τ φ) (LoopOp ρ ω τ φ)
    (LoopOutput ρ ω τ φ × List (SysCall ρ)) LoopFault :=
  ⟨journalStep⟩

end

def loopPart (i : LoopOp ρ ω τ φ × LoopOutput ρ ω τ φ × List (SysCall ρ)) :
    Option (LoopOp ρ ω τ φ × LoopOutput ρ ω τ φ) :=
  some (i.1, i.2.1)

def loopTrace (tr : Trace (LoopOp ρ ω τ φ) (LoopOutput ρ ω τ φ × List (SysCall ρ))) :
    Trace (LoopOp ρ ω τ φ) (LoopOutput ρ ω τ φ) :=
  tr.filterMap loopPart

/-- The calls of a run, first call first. -/
def journal : Trace (LoopOp ρ ω τ φ) (LoopOutput ρ ω τ φ × List (SysCall ρ)) → List (SysCall ρ)
  | [] => []
  | (_, _, calls) :: tr => journal tr ++ calls

/-- What a call does to the interest list. -/
def SysCall.tellKernel (kernel : Int → Option (EpollEvent ρ)) :
    SysCall ρ → Int → Option (EpollEvent ρ)
  | .ctlAdd fd ev | .ctlMod fd ev => Function.update kernel fd (some ev)
  | .close fd _ => Function.update kernel fd none
  | _ => kernel

/-- What a call does to the live blocks. -/
def SysCall.moveBlock [DecidableEq ρ] (blocks : List ρ) : SysCall ρ → List ρ
  | .xcalloc block _ => block :: blocks
  | .xfree block => blocks.erase block
  | _ => blocks

/-- The kernel and the heap are where the calls have brought them. -/
structure Replays [DecidableEq ρ] (e e' : Pollers ρ ω φ) (calls : List (SysCall ρ)) : Prop where
  kernel : e'.kernel = calls.foldl SysCall.tellKernel e.kernel
  blocks : e'.allocated = calls.foldl SysCall.moveBlock e.allocated

variable [DecidableEq ρ]

theorem Replays.rfl : Replays e e [] := ⟨.refl _, .refl _⟩

theorem Replays.append {e₁ e₂ : Pollers ρ ω φ} {calls later : List (SysCall ρ)}
    (first : Replays e e₁ calls) (second : Replays e₁ e₂ later) :
    Replays e e₂ (calls ++ later) := by
  constructor
  · rw [List.foldl_append, ← first.kernel]
    exact second.kernel
  · rw [List.foldl_append, ← first.blocks]
    exact second.blocks

/-- What an update of the kernel calls, and that it does no more than the call says. -/
theorem updateKernelCalls_ok {calls : List (SysCall ρ)}
    (run : updateKernelCalls e p r = .ok (e', calls)) :
    calls = recordCalls p r ∧ Replays e e' calls := by
  unfold updateKernelCalls at run
  unfold recordCalls
  dsimp only at run
  split at run
  · next gone =>
      rw [if_pos gone]
      obtain ⟨e₁, freed, run⟩ := bind_eq_ok.mp run
      cases run
      unfold xfree at freed
      split at freed <;> cases freed
      exact ⟨rfl, rfl, rfl⟩
  next opened =>
  rw [if_neg opened]
  split at run
  · next fresh =>
      rw [if_pos fresh]
      obtain ⟨e₁, added, run⟩ := bind_eq_ok.mp run
      cases run
      unfold epollCtlAdd at added
      split at added <;> cases added
      exact ⟨rfl, rfl, rfl⟩
  next known =>
  rw [if_neg known]
  split at run
  · next changed =>
      rw [if_pos changed]
      obtain ⟨e₁, told, run⟩ := bind_eq_ok.mp run
      cases run
      unfold epollCtlMod at told
      split at told <;> cases told
      exact ⟨rfl, rfl, rfl⟩
  · next same =>
      rw [if_neg same]
      cases run
      exact ⟨rfl, rfl, rfl⟩

theorem flushRecord_replays {calls : List (SysCall ρ)}
    (run : flushRecordCalls e p r = .ok (e', calls)) : Replays e e' calls := by
  obtain ⟨-, kernel, blocks⟩ := updateKernelCalls_ok run
  exact ⟨kernel, blocks⟩

theorem flushFrom_replays (fuel : Nat) :
    ∀ {e e' : Pollers ρ ω φ} {start : Option ρ} {calls : List (SysCall ρ)},
      flushFromCalls fuel e start = .ok (e', calls) → Replays e e' calls := by
  induction fuel with
  | zero =>
      intro e e' start calls run
      cases start with
      | none =>
          cases run
          exact ⟨rfl, rfl⟩
      | some p => cases run
  | succ fuel ih =>
      intro e e' start calls run
      cases start with
      | none =>
          cases run
          exact ⟨rfl, rfl⟩
      | some p =>
          obtain ⟨r, _, run⟩ := bind_eq_ok.mp run
          obtain ⟨⟨e₁, first⟩, flushed, run⟩ := bind_eq_ok.mp run
          obtain ⟨⟨e₂, later⟩, rest, run⟩ := bind_eq_ok.mp run
          cases run
          exact (flushRecord_replays flushed).append (ih rest)

/-- The state and the calls of a pass that went through. -/
theorem flushDirty_calls (run : flushDirty e = .ok e') :
    flushDirtyCalls e = .ok (e', passCalls e) := by
  obtain ⟨⟨e₁, calls⟩, flushed, same⟩ := map_eq_ok.mp run
  cases same
  rw [passCalls, flushed]
  rfl

theorem evClose_replays (run : evClose e fd = .ok e') :
    Replays e e' [.close fd (e.table fd)] := by
  obtain ⟨_, allocated, kernel⟩ := evClose_effect run
  exact ⟨kernel, allocated⟩

variable {s s' : LoopState ρ ω τ φ} {op : LoopOp ρ ω τ φ} {out : LoopOutput ρ ω τ φ}

theorem stepCalls_of_quiet (calls : op.IsQuiet) (answers : out.IsQuiet) :
    stepCalls e op out = [] := by
  cases op with
  | watch | unwatch | close | setWatch => exact calls.elim
  | _ => cases out <;> first | rfl | exact answers.elim

theorem stepCalls_of_source {outer : List (LoopFrame ρ)} {todo : List (Event ρ × EvEvent)}
    (source : Source s op outer todo) (other : ∀ timeout, out ≠ .waits timeout) :
    stepCalls e op out = [] := by
  cases source <;> cases out <;> first | rfl | exact absurd rfl (other _)

variable [DecidableEq ω]

theorem evWatch_replays {w : ω} {ev : EvEvent} {block : ρ}
    (run : evWatch e w fd ev block = .ok e') :
    Replays e e' (match e.table fd with
      | none => [.xcalloc block fd]
      | some _ => []) := by
  obtain ⟨_, _, x, kept⟩ := evWatch_effect run
  cases inside : e.table fd with
  | none =>
      rw [recordFor_none inside] at kept
      exact ⟨kept.kernel, kept.allocated⟩
  | some p =>
      rw [recordFor_some inside] at kept
      exact ⟨kept.kernel, kept.allocated⟩

theorem evUnwatch_replays {w : ω} (run : evUnwatch e w = .ok e') : Replays e e' [] := by
  rcases evUnwatch_effect run with ⟨_, same⟩ | ⟨_, kept⟩
  · rw [same]
    exact .rfl
  · exact ⟨kept.kernel, kept.allocated⟩

variable [DecidableEq τ]

/-- Every step does what it calls for, and nothing else, to the kernel and to the heap. -/
theorem loopStep_replays (stepped : loopStep s op = .ok (s', out)) :
    Replays s.loop.polls s'.loop.polls (stepCalls s.loop.polls op out) := by
  have move := loopStep_move s op
  generalize loopStep s op = result at move stepped
  cases move with
  | watch =>
      obtain ⟨e', run, rfl, _⟩ := withPolls_eq_ok stepped
      exact evWatch_replays run
  | unwatch =>
      obtain ⟨e', run, rfl, rfl⟩ := withPolls_eq_ok stepped
      exact evUnwatch_replays run
  | close =>
      obtain ⟨e', run, rfl, _⟩ := withPolls_eq_ok stepped
      exact evClose_replays run
  | setWatch =>
      cases stepped
      exact ⟨rfl, rfl⟩
  | pass =>
      obtain ⟨e', run, rest⟩ := bind_eq_ok.mp stepped
      cases rest
      exact flushFrom_replays _ (flushDirty_calls (inPolls_eq_ok.mp run))
  | dispatched source polls =>
      obtain ⟨kept, _, calm⟩ := dispatchFrom_effect stepped
      rw [kept, polls, stepCalls_of_source source calm.ne_waits]
      exact .rfl
  | quiet polls pending waiting calls answers =>
      cases stepped
      rw [polls, stepCalls_of_quiet calls answers]
      exact .rfl
  | stop other => cases stepped

theorem journalStep_eq_ok {calls : List (SysCall ρ)} :
    journalStep s op = .ok (s', out, calls) ↔
      loopStep s op = .ok (s', out) ∧ calls = stepCalls s.loop.polls op out := by
  unfold journalStep
  cases loopStep s op with
  | error f => simp
  | ok result =>
      obtain ⟨s₁, out₁⟩ := result
      simp only [ok_bind, pure_eq_ok, Except.ok.injEq, Prod.mk.injEq]
      constructor
      · rintro ⟨rfl, rfl, rfl⟩
        exact ⟨⟨rfl, rfl⟩, rfl⟩
      · rintro ⟨⟨rfl, rfl⟩, rfl⟩
        exact ⟨rfl, rfl, rfl⟩

def JournalOffers (tr : Trace (LoopOp ρ ω τ φ) (LoopOutput ρ ω τ φ × List (SysCall ρ)))
    (s : LoopState ρ ω τ φ) (op : LoopOp ρ ω τ φ) : Prop :=
  (registry (loopTrace tr)).Offers s.loop.polls op

variable {timers : EvTimers τ φ} {watches : ω → Evwatch ρ φ}
  {tr : Trace (LoopOp ρ ω τ φ) (LoopOutput ρ ω τ φ × List (SysCall ρ))}

/-- Without its journal a run is one that the checks of the code let pass. -/
theorem journalRun_loopRun
    (run : Run journalMachine JournalOffers (LoopState.init timers watches) tr s) :
    Run loopMachine LoopAdmits (LoopState.init timers watches) (loopTrace tr) s := by
  refine Run.project (fun s => s) loopPart ?_ run
  intro tr s op s' out seen offered stepped
  obtain ⟨stepped, _⟩ := journalStep_eq_ok.mp stepped
  exact .inr ⟨op, out.1, rfl, offered.admits (run_sound seen) stepped, stepped⟩

theorem journalRun_replays {s₀ : LoopState ρ ω τ φ}
    (run : Run journalMachine JournalOffers s₀ tr s) :
    Replays s₀.loop.polls s.loop.polls (journal tr) := by
  refine Run.invariant (P := fun tr s => Replays s₀.loop.polls s.loop.polls (journal tr))
    .rfl ?_ run
  intro tr s op s' out replays _ stepped
  obtain ⟨stepped, same⟩ := journalStep_eq_ok.mp stepped
  rw [journal, same]
  exact replays.append (loopStep_replays stepped)

/-- What the pass calls for one record. -/
def callsAt (e : Pollers ρ ω φ) (p : ρ) : List (SysCall ρ) :=
  match e.records p with
  | none => []
  | some r => recordCalls p (cleanPoll r)

omit [DecidableEq ρ] [DecidableEq ω] in
theorem callsAt_eq (life : Lifetime e slot start) (record : e.records p = some r) :
    callsAt e p =
      if r.fd < 0 then [.xfree p]
      else if r.interest = 0 then []
      else if r.isAdded then [.ctlMod r.fd ⟨r.interest ||| epollEt, p⟩]
      else [.ctlAdd r.fd ⟨r.interest ||| epollEt, p⟩] := by
  have mask : (cleaned r r.isAdded).kernelMask = 0 := flagsOf_and_mask ..
  have bit : (cleaned r r.isAdded).isAdded = r.isAdded := EvloopPoll.isAdded_of_flags rfl
  have interest : (cleaned r r.isAdded).interest = r.interest := rfl
  have fd : (cleaned r r.isAdded).fd = r.fd := rfl
  simp only [callsAt, record, cleanPoll_eq (life.tidy p r record), recordCalls, mask, bit,
    interest, fd]
  by_cases wanted : r.interest = 0
  · simp only [wanted, ne_eq, not_true_eq_false, false_and, if_false, if_true]
  · cases r.isAdded <;> simp only [wanted, ne_eq, not_false_eq_true, and_true, and_false,
      Bool.true_eq_false, Bool.false_eq_true, if_false, if_true]

omit [DecidableEq ω] in
/-- An iteration that goes through makes the call that its record is due. -/
theorem flushRecordCalls_eq (run : flushRecord e p r = .ok e') :
    flushRecordCalls e p r = .ok (e', recordCalls p (cleanPoll r)) := by
  obtain ⟨⟨e₁, calls⟩, flushed, same⟩ := map_eq_ok.mp run
  cases same
  rw [flushed, (updateKernelCalls_ok flushed).1]

omit [DecidableEq ω] in
/-- The pass calls for one dirty record after the other, as each was before the pass. -/
theorem flushFromCalls_eq (fuel : Nat) :
    ∀ {e : Pollers ρ ω φ} {start : Option ρ} {ds : List ρ}, Lifetime e slot start →
      DirtyFrom e start ds → ds.length ≤ fuel →
      ∃ e', flushFromCalls fuel e start = .ok (e', ds.flatMap (callsAt e)) := by
  induction fuel with
  | zero =>
      intro e start ds life dirty enough
      cases ds with
      | nil =>
          cases dirty.1
          exact ⟨_, rfl⟩
      | cons q rest => simp at enough
  | succ fuel ih =>
      intro e start ds life dirty enough
      cases start with
      | none =>
          rw [dirty.1.eq_nil]
          exact ⟨_, rfl⟩
      | some p =>
          obtain ⟨r, e₁, rest, record, run, flushed, split, dirty₁⟩ := life.flush_head dirty
          subst split
          have outside : p ∉ rest := (List.nodup_cons.mp dirty.2.1).1
          have later : rest.flatMap (callsAt e₁) = rest.flatMap (callsAt e) := by
            refine List.flatMap_congr fun q member => ?_
            have other : q ≠ p := fun same => outside (same ▸ member)
            simp only [callsAt, flushed.there q other]
          obtain ⟨e₂, rest_run⟩ :=
            ih (flushed.lifetime life record) dirty₁ (Nat.le_of_succ_le_succ enough)
          refine ⟨e₂, ?_⟩
          rw [flushFromCalls, Pollers.get_ok record, ok_bind, flushRecordCalls_eq run, ok_bind]
          simp only [rest_run, ok_bind, pure_eq_ok, later, List.flatMap_cons, callsAt, record]

omit [DecidableEq ω] in
theorem Sound.passCalls_eq (sound : Sound e slot) : ∃ ds, DirtyFrom e e.dirtyList ds ∧
    passCalls e = ds.flatMap (callsAt e) := by
  obtain ⟨ds, dirty⟩ := sound.life.chain
  obtain ⟨e', run⟩ := flushFromCalls_eq _ sound.life dirty (sound.life.dirty_length dirty)
  refine ⟨ds, dirty, ?_⟩
  rw [passCalls, flushDirtyCalls, run]
  rfl

end CThread.Poll
