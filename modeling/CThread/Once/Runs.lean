import CThread.Once.Model

/-!
The key is created once, whoever calls when.

A run goes through three phases, told apart by the once word: nobody has won the
compare-and-swap, one caller creates the key while the others wait, and the key is there for
good. `Phase` says in each of them where the callers can be and what has been done so far.
-/
namespace CThread.Once
open Faults GuardedRuns
variable {ι : Type} [DecidableEq ι]

/-- The keys that were allocated and those that were stored. -/
@[ext] structure OnceLog where
  allocs : List Key
  stores : List Key

namespace OnceLog

def next {α : Type} (q : OnceLog) (_ : α) : OnceOutput → OnceLog
  | .allocated k => { q with allocs := k :: q.allocs }
  | .stored k => { q with stores := k :: q.stores }
  | _ => q

/-- A call returns only when one key was allocated and stored, and everybody uses that
one. -/
def Legal {α : Type} (q : OnceLog) (_ : α) : OnceOutput → Prop
  | .returns => ∃ k, q.allocs = [k] ∧ q.stores = [k]
  | .key k => q.allocs = [k] ∧ q.stores = [k]
  | _ => True

end OnceLog

def InitStep.Succeeds (code : Int) (allocated : Key) : InitStep → Prop
  | .tlsAlloc => allocated ≠ tlsOutOfIndexes
  | .keyCreate => code = 0
  | _ => True

/-- Threads call from outside, go on inside and use the key afterwards; an allocation
succeeds. -/
def OnceAdmits (_ : Trace (ι × OnceOp) OnceOutput) (s : OnceState ι) : ι × OnceOp → Prop
  | (i, .call) => s.caller i = .idle ∨ s.caller i = .returned
  | (i, .next code allocated) => s.caller i ≠ .idle ∧ s.caller i ≠ .returned ∧
      ∀ step rest key, s.caller i = .creating (step :: rest) key → step.Succeeds code allocated
  | (i, .readKey) => s.caller i = .returned

/-- The once word stays, or moves from 0 to 1 or from 1 to 2. -/
def Advances (old new : Int) : Prop :=
  new = old ∨ (old = 0 ∧ new = 1) ∨ (old = 1 ∧ new = 2)

namespace Copy

def alloc : Copy → InitStep
  | .tlsPosix => .keyCreate
  | _ => .tlsAlloc

/-- What follows the store of the key. -/
def ending : Copy → List InitStep
  | .tlsPosix => [.publish]
  | _ => [.checkKey, .publish]

theorem createTlsKey_eq (copy : Copy) :
    copy.createTlsKey = copy.alloc :: .storeKey :: copy.ending := by
  cases copy <;> rfl

/-- The copies that read the key back do not take `TLS_OUT_OF_INDEXES` for a key. -/
def Valid (copy : Copy) (key : Key) : Prop := .checkKey ∈ copy.ending → key ≠ tlsOutOfIndexes

end Copy

/-- How far the creation has got. -/
inductive Creating (copy : Copy) (cell : Key) : List InitStep → Option Key → OnceLog → Prop
  | starts : Creating copy cell copy.createTlsKey none ⟨[], []⟩
  | allocated {k : Key} (valid : copy.Valid k) :
      Creating copy cell (.storeKey :: copy.ending) (some k) ⟨[k], []⟩
  | stored (valid : copy.Valid cell) : Creating copy cell copy.ending (some cell) ⟨[cell], [cell]⟩
  | checked : Creating copy cell [.publish] (some cell) ⟨[cell], [cell]⟩

/-- Not yet past the compare-and-swap. -/
def Caller.Early : Caller → Prop
  | .idle | .entered => True
  | _ => False

def Caller.Waits : Caller → Prop
  | .idle | .entered | .spinning => True
  | _ => False

/-- With nothing left to do for the creation. -/
def Caller.Settled : Caller → Prop
  | .creating (_ :: _) _ => False
  | _ => True

inductive Phase (copy : Copy) (s : OnceState ι) (q : OnceLog) : Prop
  | before (word : s.once = 0) (log : q = ⟨[], []⟩) (callers : ∀ i, (s.caller i).Early)
  | during (word : s.once = 1) (w : ι) (rest : List InitStep) (key : Option Key)
      (creator : s.caller w = .creating rest key) (creating : Creating copy s.key rest key q)
      (callers : ∀ i, i ≠ w → (s.caller i).Waits)
  | after (word : s.once = 2) (log : q = ⟨[s.key], [s.key]⟩)
      (callers : ∀ i, (s.caller i).Settled)

variable {copy : Copy} {s : OnceState ι} {q : OnceLog} {i : ι} {op : OnceOp}

/-- What an admitted step does: it runs, answers as it may, and keeps the phases. -/
def StepOk (copy : Copy) (s : OnceState ι) (q : OnceLog) (i : ι) (op : OnceOp) : Prop :=
  ∃ s' o, onceStep copy s (i, op) = .ok (s', o) ∧ q.Legal (i, op) o ∧
    Phase copy s' (q.next (i, op) o) ∧ Advances s.once s'.once

theorem OnceState.move_self (s : OnceState ι) (i : ι) (c : Caller) :
    (s.move i c).caller i = c :=
  Function.update_self ..

theorem OnceState.move_of_ne (s : OnceState ι) {i j : ι} (ne : j ≠ i) (c : Caller) :
    (s.move i c).caller j = s.caller j :=
  Function.update_of_ne ne ..

/-- A property of all callers is kept when the one that moves has it afterwards. -/
theorem OnceState.move_all {P : ι → Caller → Prop} (all : ∀ j, P j (s.caller j)) {c : Caller}
    (here : P i c) (j : ι) : P j ((s.move i c).caller j) := by
  by_cases same : j = i
  · subst same
    rw [s.move_self]
    exact here
  · rw [s.move_of_ne same]
    exact all j

theorem before_step (word : s.once = 0) (log : q = ⟨[], []⟩)
    (callers : ∀ i, (s.caller i).Early) (admitted : OnceAdmits [] s (i, op)) :
    StepOk copy s q i op := by
  have early := callers i
  cases op with
  | call =>
      have idle : s.caller i = .idle := by
        refine admitted.resolve_right fun returned => ?_
        rw [returned] at early
        exact early
      refine ⟨s.move i .entered, .called, ?_, trivial, ?_, .inl rfl⟩
      · simp only [onceStep, idle]
      · exact .before word log (s.move_all callers trivial)
  | next code allocated =>
      cases at_i : s.caller i with
      | idle => exact absurd at_i admitted.1
      | entered =>
          let s' := { s.move i (.creating copy.createTlsKey none) with once := 1 }
          refine ⟨s', .compared s.once, ?_, trivial, ?_, .inr (.inl ⟨word, rfl⟩)⟩
          · simp only [onceStep, nextStep, at_i, if_pos word, s']
          · rw [log]
            refine .during rfl i copy.createTlsKey none (s.move_self i _) .starts fun j ne => ?_
            have at_j := callers j
            show ((s.move i _).caller j).Waits
            rw [s.move_of_ne ne]
            cases caller : s.caller j <;> rw [caller] at at_j <;> trivial
      | creating | spinning | returned =>
          rw [at_i] at early
          exact early.elim
  | readKey =>
      have returned : s.caller i = .returned := admitted
      rw [returned] at early
      exact early.elim

theorem Caller.Waits.settled {c : Caller} (waits : c.Waits) : c.Settled := by
  cases c with
  | creating rest key => exact waits.elim
  | _ => trivial

theorem alloc_ok (rest : List InitStep) (key : Option Key) {code : Int} {allocated : Key}
    (succeeds : copy.alloc.Succeeds code allocated) :
    initStep s i rest key code allocated copy.alloc =
      .ok (s.move i (.creating rest (some allocated)), .allocated allocated) ∧
      copy.Valid allocated := by
  cases copy with
  | cthreadWindows | tlsWindows => exact ⟨rfl, fun _ => succeeds⟩
  | tlsPosix =>
      have code : code = 0 := succeeds
      refine ⟨by simp only [Copy.alloc, initStep, code, ne_eq, not_true_eq_false, if_false], ?_⟩
      intro checks
      simp [Copy.ending] at checks

section During
variable (word : s.once = 1)
include word

/-- The caller that creates the key goes on, or publishes it. -/
theorem creator_step {rest : List InitStep} {key : Option Key}
    (at_i : s.caller i = .creating rest key) (creating : Creating copy s.key rest key q)
    (callers : ∀ j, j ≠ i → (s.caller j).Waits) {code : Int} {allocated : Key}
    (succeeds : ∀ step rest key, s.caller i = .creating (step :: rest) key →
      step.Succeeds code allocated) : StepOk copy s q i (.next code allocated) := by
  have step_eq : ∀ {step : InitStep} {rest : List InitStep} {key : Option Key},
      s.caller i = .creating (step :: rest) key →
        onceStep copy s (i, .next code allocated) =
          initStep s i rest key code allocated step := by
    intro step rest key here
    simp only [onceStep, nextStep, here]
  have others : ∀ c j, j ≠ i → ((s.move i c).caller j).Waits := by
    intro c j ne
    rw [s.move_of_ne ne]
    exact callers j ne
  have publishes : s.caller i = .creating [.publish] (some s.key) → q = ⟨[s.key], [s.key]⟩ →
      StepOk copy s q i (.next code allocated) := by
    intro here log
    refine ⟨_, .published, step_eq here, trivial, .after rfl log ?_, .inr (.inr ⟨word, rfl⟩)⟩
    intro j
    by_cases same : j = i
    · subst same
      show ((s.move j _).caller j).Settled
      rw [s.move_self]
      trivial
    · exact (others _ j same).settled
  cases creating with
  | starts =>
      rw [copy.createTlsKey_eq] at at_i
      obtain ⟨run, valid⟩ := alloc_ok (s := s) (i := i) (.storeKey :: copy.ending) none
        (succeeds _ _ _ at_i)
      exact ⟨_, .allocated allocated, (step_eq at_i).trans run, trivial,
        .during word i _ _ (s.move_self i _) (.allocated valid) (others _), .inl rfl⟩
  | @allocated k valid =>
      exact ⟨_, .stored k, step_eq at_i, trivial,
        .during word i _ _ (s.move_self i _) (.stored valid) (others _), .inl rfl⟩
  | stored valid =>
      cases copy with
      | tlsPosix => exact publishes at_i rfl
      | cthreadWindows | tlsWindows =>
          have usable : s.key ≠ tlsOutOfIndexes := valid (.head _)
          refine ⟨_, .checked, (step_eq at_i).trans (if_neg usable), trivial, ?_, .inl rfl⟩
          exact .during word i _ _ (s.move_self i _) .checked (others _)
  | checked => exact publishes at_i rfl

/-- Everybody else comes in and spins. -/
theorem waiting_step {w : ι} {rest : List InitStep} {key : Option Key}
    (creator : s.caller w = .creating rest key) (creating : Creating copy s.key rest key q)
    (callers : ∀ j, j ≠ w → (s.caller j).Waits) (other : i ≠ w)
    (admitted : OnceAdmits [] s (i, op)) : StepOk copy s q i op := by
  have waits := callers i other
  have still : ∀ c : Caller, c.Waits → Phase copy (s.move i c) q := by
    intro c here
    refine .during word w rest key ?_ creating ?_
    · rw [s.move_of_ne (Ne.symm other)]
      exact creator
    · exact s.move_all (P := fun j c => j ≠ w → c.Waits) callers fun _ => here
  cases op with
  | call =>
      have idle : s.caller i = .idle := by
        refine admitted.resolve_right fun returned => ?_
        rw [returned] at waits
        exact waits
      exact ⟨_, .called, by simp only [onceStep, idle], trivial, still .entered trivial, .inl rfl⟩
  | next code allocated =>
      cases at_i : s.caller i with
      | idle => exact absurd at_i admitted.1
      | entered =>
          have taken : s.once ≠ 0 := by omega
          refine ⟨_, .compared s.once, ?_, trivial, still .spinning trivial, .inl rfl⟩
          simp only [onceStep, nextStep, at_i, if_neg taken]
      | spinning =>
          refine ⟨s, .spins, ?_, trivial, .during word w rest key creator creating callers,
            .inl rfl⟩
          simp only [onceStep, nextStep, at_i, if_pos word]
      | creating | returned =>
          rw [at_i] at waits
          exact waits.elim
  | readKey =>
      have returned : s.caller i = .returned := admitted
      rw [returned] at waits
      exact waits.elim

end During

theorem after_step (word : s.once = 2) (log : q = ⟨[s.key], [s.key]⟩)
    (callers : ∀ i, (s.caller i).Settled) (admitted : OnceAdmits [] s (i, op)) :
    StepOk copy s q i op := by
  have still : ∀ c : Caller, c.Settled → Phase copy (s.move i c) q :=
    fun c here => .after word log (s.move_all callers here)
  have created : ∃ k, q.allocs = [k] ∧ q.stores = [k] := ⟨s.key, by rw [log], by rw [log]⟩
  cases op with
  | call =>
      refine ⟨_, .called, ?_, trivial, still .entered trivial, .inl rfl⟩
      rcases admitted with idle | returned
      · simp only [onceStep, idle]
      · simp only [onceStep, returned]
  | next code allocated =>
      have settled := callers i
      cases at_i : s.caller i with
      | idle => exact absurd at_i admitted.1
      | returned => exact absurd at_i admitted.2.1
      | entered =>
          have taken : s.once ≠ 0 := by omega
          refine ⟨_, .compared s.once, ?_, trivial, still .spinning trivial, .inl rfl⟩
          simp only [onceStep, nextStep, at_i, if_neg taken]
      | spinning =>
          have passed : s.once ≠ 1 := by omega
          refine ⟨_, .returns, ?_, created, still .returned trivial, .inl rfl⟩
          simp only [onceStep, nextStep, at_i, if_neg passed]
      | creating rest key =>
          cases rest with
          | nil =>
              refine ⟨_, .returns, ?_, created, still .returned trivial, .inl rfl⟩
              simp only [onceStep, nextStep, at_i]
          | cons step rest =>
              rw [at_i] at settled
              exact settled.elim
  | readKey =>
      have returned : s.caller i = .returned := admitted
      refine ⟨s, .key s.key, ?_, ?_, .after word log callers, .inl rfl⟩
      · simp only [onceStep, returned]
      · show q.allocs = [s.key] ∧ q.stores = [s.key]
        rw [log]
        exact ⟨rfl, rfl⟩

theorem Phase.step (phase : Phase copy s q) (admitted : OnceAdmits [] s (i, op)) :
    StepOk copy s q i op := by
  cases phase with
  | before word log callers => exact before_step word log callers admitted
  | during word w rest key creator creating callers =>
      by_cases same : i = w
      · subst same
        cases op with
        | call =>
            rcases admitted with idle | returned
            · rw [creator] at idle
              cases idle
            · rw [creator] at returned
              cases returned
        | next code allocated => exact creator_step word creator creating callers admitted.2.2
        | readKey =>
            have returned : s.caller i = .returned := admitted
            rw [creator] at returned
            cases returned
      · exact waiting_step word creator creating callers same admitted
  | after word log callers => exact after_step word log callers admitted

def onceLog (tr : Trace (ι × OnceOp) OnceOutput) : OnceLog :=
  monitor OnceLog.next ⟨[], []⟩ tr

theorem once_refines (copy : Copy) :
    Refines (onceMachine copy : Machine (OnceState ι) _ _ _) OnceAdmits OnceLog.next ⟨[], []⟩
      OnceLog.Legal (Phase copy) where
  step tr s input phase admitted := by
    obtain ⟨s', o, run, legal, phase', _⟩ := phase.step admitted
    exact ⟨s', o, run, legal, phase'⟩

omit [DecidableEq ι] in
theorem init_phase (garbage : Key) :
    Phase copy (OnceState.init garbage : OnceState ι) ⟨[], []⟩ :=
  .before rfl rfl fun _ => trivial

omit [DecidableEq ι] in
/-- Nothing is allocated or stored twice. -/
theorem Phase.once (phase : Phase copy s q) : q.allocs.length ≤ 1 ∧ q.stores.length ≤ 1 := by
  cases phase with
  | before word log callers => simp [log]
  | during word w rest key creator creating callers => cases creating <;> simp
  | after word log callers => simp [log]

/-- What was answered before stays true of the key that there is. -/
theorem OnceLog.Legal.later {α : Type} {x y : α} {o o' : OnceOutput} (legal : q.Legal x o)
    (once : (q.next y o').allocs.length ≤ 1 ∧ (q.next y o').stores.length ≤ 1) :
    (q.next y o').Legal x o := by
  have kept : ∀ k, q.allocs = [k] → q.stores = [k] → q.next y o' = q := by
    intro k allocs stores
    cases o' with
    | allocated k' => simp [OnceLog.next, allocs] at once
    | stored k' => simp [OnceLog.next, stores] at once
    | _ => rfl
  cases o with
  | returns =>
      obtain ⟨k, allocs, stores⟩ := legal
      rw [kept k allocs stores]
      exact ⟨k, allocs, stores⟩
  | key k =>
      rw [kept k legal.1 legal.2]
      exact legal
  | _ => trivial

/-- All that was answered in a run is true of the key at its end. -/
theorem onceRun_answers {garbage : Key} {tr : Trace (ι × OnceOp) OnceOutput}
    (run : Run (onceMachine copy) OnceAdmits (OnceState.init garbage) tr s) :
    ∀ input o, (input, o) ∈ tr → (onceLog tr).Legal input o := by
  induction run with
  | nil =>
      intro input o absurd
      cases absurd
  | @snoc tr s s' i o run admitted stepped ih =>
      have phase := ((once_refines copy).run (init_phase garbage) run).2
      obtain ⟨s'', o', run', legal, phase', _⟩ := phase.step admitted
      cases stepped.symm.trans run'
      intro input answer inside
      have before : (onceLog tr).Legal input answer := by
        rcases List.mem_cons.mp inside with here | earlier
        · cases here
          exact legal
        · exact ih input answer earlier
      exact before.later phase'.once

end CThread.Once
