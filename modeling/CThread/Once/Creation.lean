import CThread.Once.Runs

/-!
The creation of the key goes through to its end.

Of the callers that go on inside of a call the first one wins the compare-and-swap, and as
many steps as it makes after that, as much of the creation is done. When all of it is done
the other callers return as well.
-/
namespace CThread.Once
open Faults GuardedRuns
variable {ι : Type} [DecidableEq ι] {copy : Copy} {s s' : OnceState ι} {q : OnceLog} {i : ι}
  {op : OnceOp} {o : OnceOutput} {tr later : Trace (ι × OnceOp) OnceOutput}

/-- The step of the creation that an answer comes from. -/
def OnceOutput.creation (copy : Copy) : OnceOutput → Option InitStep
  | .allocated _ => some copy.alloc
  | .stored _ => some .storeKey
  | .checked => some .checkKey
  | .published => some .publish
  | _ => none

def OnceOp.isNext : OnceOp → Bool
  | .next .. => true
  | _ => false

/-- What was done of the creation, first step first. -/
def created (copy : Copy) (tr : Trace (ι × OnceOp) OnceOutput) : List InitStep :=
  (tr.filterMap fun e => e.2.creation copy).reverse

/-- How many steps a thread has made inside of its calls. -/
def stepsOf (i : ι) (tr : Trace (ι × OnceOp) OnceOutput) : Nat :=
  tr.countP fun e => decide (e.1.1 = i) && e.1.2.isNext

/-- The compare-and-swap of `w` has succeeded. -/
def Won (tr : Trace (ι × OnceOp) OnceOutput) (w : ι) : Prop :=
  ∃ op, ((w, op), .compared 0) ∈ tr

section Counting
variable {j w : ι}

omit [DecidableEq ι] in
theorem created_cons : created copy (((i, op), o) :: tr) =
    created copy tr ++ (o.creation copy).toList := by
  unfold created
  cases shows : o.creation copy with
  | none => simp [shows]
  | some step => simp [shows]

theorem stepsOf_cons : stepsOf j (((i, op), o) :: tr) =
    stepsOf j tr + if i = j ∧ op.isNext = true then 1 else 0 := by
  simp [stepsOf, List.countP_cons]

theorem stepsOf_other (other : j ≠ i) :
    stepsOf j (((i, op), o) :: tr) = stepsOf j tr := by
  rw [stepsOf_cons, if_neg fun here => other here.1.symm, Nat.add_zero]

omit [DecidableEq ι] in
theorem won_cons : Won (((i, op), o) :: tr) w ↔ (w = i ∧ o = .compared 0) ∨ Won tr w := by
  constructor
  · rintro ⟨op', inside⟩
    rcases List.mem_cons.mp inside with here | earlier
    · cases here
      exact .inl ⟨rfl, rfl⟩
    · exact .inr ⟨op', earlier⟩
  · rintro (⟨rfl, rfl⟩ | ⟨op', earlier⟩)
    · exact ⟨op, .head _⟩
    · exact ⟨op', .tail _ earlier⟩

omit [DecidableEq ι] in
theorem won_cons_other (answer : o ≠ .compared 0) :
    Won (((i, op), o) :: tr) w ↔ Won tr w := by
  rw [won_cons]
  exact or_iff_right fun here => answer here.2

end Counting

/-- What a step of `i` is for the creation of the key: the compare-and-swap that succeeds, one
step of the creation, or nothing. -/
inductive Does (copy : Copy) (s : OnceState ι) (i : ι) (op : OnceOp) (s' : OnceState ι)
    (o : OnceOutput) : Prop
  | wins (free : s.once = 0) (inside : op.isNext = true) (answer : o = .compared 0)
      (word : s'.once = 1) (creator : s'.caller i = .creating copy.createTlsKey none)
  | creates {step : InitStep} {rest : List InitStep} {key key' : Option Key}
      (at_step : s.caller i = .creating (step :: rest) key) (inside : op.isNext = true)
      (answer : o ≠ .compared 0)
      (shows : step ∈ copy.createTlsKey → o.creation copy = some step)
      (word : s'.once = if step = .publish then 2 else s.once)
      (creator : s'.caller i = .creating rest key')
  | other (early : op.isNext = true → (s.caller i).Early → s.once ≠ 0)
      (idle : ∀ step rest key, s.caller i ≠ .creating (step :: rest) key)
      (answer : o ≠ .compared 0) (quiet : o.creation copy = none) (word : s'.once = s.once)

theorem initStep_does {rest : List InitStep} {key : Option Key} {code : Int} {allocated : Key}
    {step : InitStep}
    (at_step : s.caller i = .creating (step :: rest) key)
    (run : initStep s i rest key code allocated step = .ok (s', o)) :
    Does copy s i (.next code allocated) s' o := by
  have here : ∀ key', (s.move i (.creating rest key')).caller i = .creating rest key' :=
    fun key' => s.move_self i _
  cases step with
  | tlsAlloc =>
      cases run
      refine .creates at_step rfl OnceOutput.noConfusion (fun inside => ?_) rfl (here _)
      cases copy with
      | tlsPosix => simp [Copy.createTlsKey] at inside
      | _ => rfl
  | keyCreate =>
      simp only [initStep] at run
      split at run
      · cases run
      · cases run
        refine .creates at_step rfl OnceOutput.noConfusion (fun inside => ?_) rfl (here _)
        cases copy with
        | tlsPosix => rfl
        | _ => simp [Copy.createTlsKey, doInit] at inside
  | storeKey =>
      cases key with
      | none => cases run
      | some k =>
          cases run
          exact .creates at_step rfl OnceOutput.noConfusion (fun _ => rfl) rfl (here _)
  | checkKey =>
      simp only [initStep] at run
      split at run
      · cases run
      · cases run
        exact .creates at_step rfl OnceOutput.noConfusion (fun _ => rfl) rfl (here _)
  | publish =>
      cases run
      exact .creates at_step rfl OnceOutput.noConfusion (fun _ => rfl) rfl (here _)

/-- The other callers stay where they are. -/
theorem initStep_others {rest : List InitStep} {key : Option Key} {code : Int} {allocated : Key}
    {step : InitStep} (run : initStep s i rest key code allocated step = .ok (s', o)) :
    ∀ j, j ≠ i → s'.caller j = s.caller j := by
  have others : ∀ c j, j ≠ i → (s.move i c).caller j = s.caller j :=
    fun c j ne => s.move_of_ne ne c
  cases step with
  | storeKey =>
      cases key <;> cases run
      exact others _
  | keyCreate | checkKey =>
      simp only [initStep] at run
      split at run <;> cases run
      exact others _
  | tlsAlloc | publish =>
      cases run
      exact others _

/-- A step of the machine, and what it is for the creation. -/
theorem onceStep_does (stepped : onceStep copy s (i, op) = .ok (s', o)) :
    Does copy s i op s' o ∧ ∀ j, j ≠ i → s'.caller j = s.caller j := by
  have others : ∀ c j, j ≠ i → (s.move i c).caller j = s.caller j :=
    fun c j ne => s.move_of_ne ne c
  cases op with
  | call =>
      cases at_i : s.caller i <;> simp only [onceStep, at_i] at stepped <;> cases stepped
      all_goals exact ⟨.other (fun inside => absurd inside Bool.false_ne_true) (by simp [at_i])
        OnceOutput.noConfusion rfl rfl, others _⟩
  | readKey =>
      cases at_i : s.caller i <;> simp only [onceStep, at_i] at stepped <;> cases stepped
      exact ⟨.other (fun inside => absurd inside Bool.false_ne_true) (by simp [at_i])
        OnceOutput.noConfusion rfl rfl, fun _ _ => rfl⟩
  | next code allocated =>
      cases at_i : s.caller i with
      | idle | returned =>
          simp only [onceStep, nextStep, at_i] at stepped
          cases stepped
      | entered =>
          simp only [onceStep, nextStep, at_i] at stepped
          split at stepped
          · next free =>
              cases stepped
              exact ⟨.wins free rfl (by rw [free]) rfl (s.move_self i _), others _⟩
          · next taken =>
              cases stepped
              exact ⟨.other (fun _ _ => taken) (by simp [at_i])
                (fun same => taken (OnceOutput.compared.inj same)) rfl rfl, others _⟩
      | spinning =>
          simp only [onceStep, nextStep, at_i] at stepped
          split at stepped <;> cases stepped
          · exact ⟨.other (by simp [at_i, Caller.Early]) (by simp [at_i])
              OnceOutput.noConfusion rfl rfl, fun _ _ => rfl⟩
          · exact ⟨.other (by simp [at_i, Caller.Early]) (by simp [at_i])
              OnceOutput.noConfusion rfl rfl, others _⟩
      | creating rest key =>
          cases rest with
          | nil =>
              simp only [onceStep, nextStep, at_i] at stepped
              cases stepped
              exact ⟨.other (by simp [at_i, Caller.Early]) (by simp [at_i])
                OnceOutput.noConfusion rfl rfl, others _⟩
          | cons step rest =>
              simp only [onceStep, nextStep, at_i] at stepped
              exact ⟨initStep_does at_i stepped, initStep_others stepped⟩

/-- Who has won so far, and how much of the creation it has done since. -/
inductive Counted (copy : Copy) (tr : Trace (ι × OnceOp) OnceOutput) (s : OnceState ι) : Prop
  | before (word : s.once = 0) (unmoved : ∀ i, stepsOf i tr = 0) (nobody : ∀ i, ¬ Won tr i)
      (nothing : created copy tr = [])
  | during (word : s.once = 1) (w : ι) (rest : List InitStep) (key : Option Key)
      (creator : s.caller w = .creating rest key) (winner : ∀ i, Won tr i ↔ i = w)
      (split : created copy tr ++ rest = copy.createTlsKey)
      (steps : stepsOf w tr = (created copy tr).length + 1)
  | after (word : s.once = 2) (w : ι) (winner : ∀ i, Won tr i ↔ i = w)
      (all : created copy tr = copy.createTlsKey)
      (steps : copy.createTlsKey.length < stepsOf w tr)

theorem Creating.pending {rest : List InitStep} {key : Option Key} {cell : Key}
    (creating : Creating copy cell rest key q) : ∃ step more, rest = step :: more := by
  cases creating with
  | starts => exact ⟨_, _, copy.createTlsKey_eq⟩
  | stored valid => cases copy <;> exact ⟨_, _, rfl⟩
  | allocated | checked => exact ⟨_, _, rfl⟩

omit [DecidableEq ι] in
/-- Once the key is published nobody has a part of the creation before it. -/
theorem Phase.settled (phase : Phase copy s q) (word : s.once = 2) (i : ι) :
    (s.caller i).Settled := by
  cases phase with
  | before word' | during word' => omega
  | after _ _ callers => exact callers i

omit [DecidableEq ι] in
/-- While the key is not published one caller creates it. -/
theorem Phase.creator (phase : Phase copy s q) (word : s.once = 1) :
    ∃ w, (∃ rest key, s.caller w = .creating rest key) ∧ ∀ i rest key,
      s.caller i = .creating rest key → i = w ∧ ∃ step more, rest = step :: more := by
  cases phase with
  | before zero | after two => omega
  | during _ w rest key creator creating callers =>
      refine ⟨w, ⟨rest, key, creator⟩, fun i rest' key' at_i => ?_⟩
      have same : i = w := by
        by_contra ne
        have waits := callers i ne
        rw [at_i] at waits
        exact waits
      subst same
      cases at_i.symm.trans creator
      exact ⟨rfl, creating.pending⟩

omit [DecidableEq ι] in
/-- Who has a step of the creation left has it while the word is 1. -/
theorem Phase.creating_word {step : InitStep} {rest : List InitStep} {key : Option Key}
    (phase : Phase copy s q) (at_step : s.caller i = .creating (step :: rest) key) :
    s.once = 1 := by
  cases phase with
  | before _ _ callers =>
      have early := callers i
      rw [at_step] at early
      exact early.elim
  | during one => exact one
  | after _ _ callers =>
      have settled := callers i
      rw [at_step] at settled
      exact settled.elim

section Step
variable (counted : Counted copy tr s) (stepped : onceStep copy s (i, op) = .ok (s', o))
include counted stepped

/-- A step that is nothing to the creation, by anybody when the key is there, and before that
by a caller that is not creating it. -/
theorem Counted.other (answer : o ≠ .compared 0) (quiet : o.creation copy = none)
    (word : s'.once = s.once)
    (unmoved : s.once = 0 → op.isNext = false)
    (away : s.once = 1 → ∀ rest key, s.caller i ≠ .creating rest key) :
    Counted copy (((i, op), o) :: tr) s' := by
  have same : created copy (((i, op), o) :: tr) = created copy tr := by
    rw [created_cons, quiet, Option.toList_none, List.append_nil]
  have won : ∀ w, Won (((i, op), o) :: tr) w ↔ Won tr w := fun _ => won_cons_other answer
  cases counted with
  | before zero unmoved' nobody nothing =>
      refine .before (word.trans zero) (fun j => ?_) (fun w => (won w).not.mpr (nobody w))
        (same.trans nothing)
      rw [stepsOf_cons, unmoved' j, unmoved zero]
      simp
  | during one w rest key creator winner split steps =>
      have ne : w ≠ i := by
        rintro rfl
        exact away one rest key creator
      refine .during (word.trans one) w rest key ?_ (fun j => (won j).trans (winner j)) ?_ ?_
      · rw [(onceStep_does stepped).2 w ne]
        exact creator
      · rw [same]
        exact split
      · rw [stepsOf_other ne, same]
        exact steps
  | after two w winner all steps =>
      refine .after (word.trans two) w (fun j => (won j).trans (winner j)) (same.trans all) ?_
      rw [stepsOf_cons]
      omega

omit stepped in
theorem Counted.wins (free : s.once = 0) (inside : op.isNext = true) (answer : o = .compared 0)
    (word : s'.once = 1) (creator : s'.caller i = .creating copy.createTlsKey none) :
    Counted copy (((i, op), o) :: tr) s' := by
  cases counted with
  | during one | after two => omega
  | before _ unmoved nobody nothing =>
      have same : created copy (((i, op), o) :: tr) = [] := by
        rw [created_cons, nothing, answer]
        rfl
      refine .during word i copy.createTlsKey none creator (fun j => ?_) ?_ ?_
      · rw [won_cons, or_iff_left (nobody j), and_iff_left answer]
      · rw [same, List.nil_append]
      · rw [stepsOf_cons, unmoved, if_pos ⟨rfl, inside⟩, same]
        rfl

omit stepped in
/-- The winner makes the next step of the creation. -/
theorem Counted.creates {step : InitStep} {rest : List InitStep} {key key' : Option Key}
    (phase : Phase copy s q) (phase' : Phase copy s' (q.next (i, op) o))
    (at_step : s.caller i = .creating (step :: rest) key) (inside : op.isNext = true)
    (answer : o ≠ .compared 0)
    (shows : step ∈ copy.createTlsKey → o.creation copy = some step)
    (word : s'.once = if step = .publish then 2 else s.once)
    (creator : s'.caller i = .creating rest key') : Counted copy (((i, op), o) :: tr) s' := by
  have one := phase.creating_word at_step
  cases counted with
  | before zero | after two => omega
  | during _ w rest' key'' creator' winner split steps =>
      have isWinner : i = w := by
        obtain ⟨v, -, only⟩ := phase.creator one
        exact (only i _ _ at_step).1.trans (only w _ _ creator').1.symm
      subst isWinner
      cases at_step.symm.trans creator'
      have shown : o.creation copy = some step := by
        refine shows ?_
        rw [← split]
        exact List.mem_append_right _ (.head _)
      have more : created copy (((i, op), o) :: tr) = created copy tr ++ [step] := by
        rw [created_cons, shown]
        rfl
      have split' : created copy (((i, op), o) :: tr) ++ rest = copy.createTlsKey := by
        rw [more, List.append_assoc]
        exact split
      have won : ∀ j, Won (((i, op), o) :: tr) j ↔ j = i := fun j =>
        (won_cons_other answer).trans (winner j)
      have steps' : stepsOf i (((i, op), o) :: tr) =
          (created copy (((i, op), o) :: tr)).length + 1 := by
        rw [stepsOf_cons, if_pos ⟨rfl, inside⟩, steps, more, List.length_append]
        rfl
      by_cases last : step = .publish
      · have two : s'.once = 2 := word.trans (if_pos last)
        have nothing : rest = [] := by
          have settled := phase'.settled two i
          rw [creator] at settled
          cases rest with
          | nil => rfl
          | cons step more => exact settled.elim
        rw [nothing, List.append_nil] at split'
        refine .after two i won split' ?_
        rw [steps', split']
        exact Nat.lt_succ_self _
      · exact .during (word.trans ((if_neg last).trans one)) i rest key' creator won split' steps'

theorem Counted.step (phase : Phase copy s q) (phase' : Phase copy s' (q.next (i, op) o)) :
    Counted copy (((i, op), o) :: tr) s' := by
  cases (onceStep_does stepped).1 with
  | wins free inside answer word creator => exact counted.wins free inside answer word creator
  | creates at_step inside answer shows word creator =>
      exact counted.creates phase phase' at_step inside answer shows word creator
  | other early idle answer quiet word =>
      refine counted.other stepped answer quiet word (fun zero => ?_) fun one rest key at_i => ?_
      · cases phase with
        | during one | after two => omega
        | before _ _ callers =>
            by_contra next
            exact early (by simpa using next) (callers i) zero
      · obtain ⟨w, -, only⟩ := phase.creator one
        obtain ⟨-, step, more, rfl⟩ := only i rest key at_i
        exact idle step more key at_i

end Step

variable {garbage : Key}

theorem onceRun_phase
    (run : Run (onceMachine copy) OnceAdmits (OnceState.init garbage) tr s) :
    Phase copy s (onceLog tr) :=
  ((once_refines copy).run (init_phase garbage) run).2

theorem onceRun_counted
    (run : Run (onceMachine copy) OnceAdmits (OnceState.init garbage) tr s) :
    Counted copy tr s := by
  induction run with
  | nil => exact .before rfl (fun _ => rfl) (fun _ ⟨_, inside⟩ => absurd inside List.not_mem_nil) rfl
  | snoc run admitted stepped ih =>
      exact ih.step stepped (onceRun_phase run) (onceRun_phase (run.snoc admitted stepped))

/-- How many steps a call takes to return when the key is there. -/
def Caller.stepsLeft : Caller → Nat
  | .entered => 2
  | .spinning | .creating _ _ => 1
  | _ => 0

/-- The thread is inside of a call. -/
def Caller.Calls (c : Caller) : Prop := c ≠ .idle ∧ c ≠ .returned

/-- A step that `i` makes when the key is there. -/
theorem Phase.next_after (phase : Phase copy s q) (word : s.once = 2)
    (calls : (s.caller i).Calls) (code : Int) (allocated : Key) :
    ∃ s' o, onceStep copy s (i, .next code allocated) = .ok (s', o) ∧ s'.once = 2 ∧
      (o = .returns ∨ o = .compared 2 ∧ s.caller i = .entered ∧ s'.caller i = .spinning) := by
  have settled := phase.settled word i
  cases at_i : s.caller i with
  | idle => exact absurd at_i calls.1
  | returned => exact absurd at_i calls.2
  | entered =>
      have taken : s.once ≠ 0 := by omega
      refine ⟨s.move i .spinning, .compared s.once, ?_, word, .inr ⟨by rw [word], rfl, ?_⟩⟩
      · simp only [onceStep, nextStep, at_i, if_neg taken]
      · exact s.move_self i _
  | spinning =>
      have passed : s.once ≠ 1 := by omega
      refine ⟨s.move i .returned, .returns, ?_, word, .inl rfl⟩
      simp only [onceStep, nextStep, at_i, if_neg passed]
  | creating rest key =>
      cases rest with
      | cons step rest =>
          rw [at_i] at settled
          exact settled.elim
      | nil =>
          refine ⟨s.move i .returned, .returns, ?_, word, .inl rfl⟩
          simp only [onceStep, nextStep, at_i]

/-- What has become of a call that was there when the key was. -/
def Ending (s s' : OnceState ι) (i : ι) (later : Trace (ι × OnceOp) OnceOutput) : Prop :=
  (∃ op, ((i, op), .returns) ∈ later) ∨
    ((s'.caller i).Calls ∧
      (s'.caller i).stepsLeft + stepsOf i later = (s.caller i).stepsLeft)

theorem Caller.Calls.stepsLeft {c : Caller} (calls : c.Calls) : 1 ≤ c.stepsLeft := by
  cases c with
  | idle => exact absurd rfl calls.1
  | returned => exact absurd rfl calls.2
  | _ => simp [Caller.stepsLeft]

theorem Ending.step {s₁ : OnceState ι} {j : ι} (phase : Phase copy s₁ q) (word : s₁.once = 2)
    (calls : (s₁.caller i).Calls)
    (left : (s₁.caller i).stepsLeft + stepsOf i later = (s.caller i).stepsLeft)
    (admitted : OnceAdmits tr s₁ (j, op)) (stepped : onceStep copy s₁ (j, op) = .ok (s', o)) :
    Ending s s' i (((j, op), o) :: later) := by
  by_cases same : j = i
  · subst same
    cases op with
    | call =>
        have outside : s₁.caller j = .idle ∨ s₁.caller j = .returned := admitted
        exact absurd outside (not_or.mpr calls)
    | readKey => exact absurd admitted calls.2
    | next code allocated =>
        obtain ⟨_, _, stepped', _, answer⟩ := phase.next_after word calls code allocated
        cases stepped.symm.trans stepped'
        rcases answer with rfl | ⟨_, entered, spinning⟩
        · exact .inl ⟨_, .head _⟩
        · refine .inr ⟨by simp [spinning, Caller.Calls], ?_⟩
          rw [entered] at left
          rw [spinning, stepsOf_cons, if_pos ⟨rfl, rfl⟩, ← left]
          simp only [Caller.stepsLeft]
          omega
  · have unmoved := (onceStep_does stepped).2 i (Ne.symm same)
    refine .inr ⟨unmoved ▸ calls, ?_⟩
    rw [unmoved, stepsOf_other (Ne.symm same)]
    exact left

theorem onceRun_ending (run : Run (onceMachine copy) OnceAdmits (OnceState.init garbage) tr s)
    (word : s.once = 2) (calls : (s.caller i).Calls) :
    ∀ {later : Trace (ι × OnceOp) OnceOutput} {s' : OnceState ι},
      Run (onceMachine copy) OnceAdmits (OnceState.init garbage) (later ++ tr) s' →
        s'.once = 2 ∧ Ending s s' i later := by
  intro later
  induction later with
  | nil =>
      intro s' run'
      cases run.unique run'
      exact ⟨word, .inr ⟨calls, rfl⟩⟩
  | cons e later ih =>
      intro s' run'
      cases run' with
      | @snoc _ s₁ _ input o before admitted stepped =>
          obtain ⟨two, ending⟩ := ih before
          have phase := onceRun_phase before
          obtain ⟨_, _, stepped', _, _, advances⟩ := phase.step admitted
          cases stepped.symm.trans stepped'
          refine ⟨by unfold Advances at advances; omega, ?_⟩
          rcases ending with ⟨op, returned⟩ | ⟨calls, left⟩
          · exact .inl ⟨op, .tail _ returned⟩
          · exact Ending.step phase two calls left admitted stepped

/-- In a run of any number of callers, whatever the order of their steps. -/
structure CreatesOnce (copy : Copy) (garbage : Key) (tr : Trace (ι × OnceOp) OnceOutput)
    (s : OnceState ι) : Prop where
  lawful : Lawful OnceLog.next ⟨[], []⟩ OnceLog.Legal tr
  /-- At most one key is allocated. -/
  once : (onceLog tr).allocs.length ≤ 1
  /-- A call returns when it was stored, and everybody reads that one. -/
  answers : ∀ input o, (input, o) ∈ tr → (onceLog tr).Legal input o
  word : s.once = 0 ∨ s.once = 1 ∨ s.once = 2
  /-- No step faults, and the once word goes from 0 to 1 to 2. -/
  steps : ∀ input, OnceAdmits tr s input → ∃ s' o,
    (onceMachine copy).step s input = .ok (s', o) ∧ (onceLog tr).Legal input o ∧
      Advances s.once s'.once
  /-- If anybody goes on inside of a call, exactly one caller has won. -/
  won : (∃ i, 0 < stepsOf i tr) → ∃! w, Won tr w
  /-- Its next steps are those of the creation, as many as it has made. -/
  creates : ∀ w, Won tr w → created copy tr = copy.createTlsKey.take (stepsOf w tr - 1)
  done : s.once = 2 ↔ created copy tr = copy.createTlsKey
  /-- Then exactly one key was allocated and stored. -/
  key : s.once = 2 → (onceLog tr).allocs = [s.key] ∧ (onceLog tr).stores = [s.key]
  /-- And every call returns with its next step, unless that is the compare-and-swap. -/
  returns : s.once = 2 → ∀ i, (s.caller i).Calls → ∀ code allocated, ∃ s' o,
    (onceMachine copy).step s (i, .next code allocated) = .ok (s', o) ∧
      (o = .returns ∨ o = .compared 2 ∧ s.caller i = .entered ∧ s'.caller i = .spinning)
  ends : s.once = 2 → ∀ i, (s.caller i).Calls → ∀ later s',
    Run (onceMachine copy) OnceAdmits (OnceState.init garbage) (later ++ tr) s' →
      2 ≤ stepsOf i later → ∃ op, ((i, op), .returns) ∈ later

/-- In every run of any number of callers, whatever the order of their steps, the caller that
wins creates one key, and everybody else waits for it and uses it. -/
theorem onceRun_creates_once (copy : Copy)
    (run : Run (onceMachine copy) OnceAdmits (OnceState.init garbage) tr s) :
    CreatesOnce copy garbage tr s where
  lawful := ((once_refines copy).run (init_phase garbage) run).1
  once := (onceRun_phase run).once.1
  answers := onceRun_answers run
  word := by
    cases onceRun_phase run with
    | before word => exact .inl word
    | during word => exact .inr (.inl word)
    | after word => exact .inr (.inr word)
  steps input admitted := by
    obtain ⟨s', o, run', legal, _, advances⟩ := (onceRun_phase run).step admitted
    exact ⟨s', o, run', legal, advances⟩
  won := by
    rintro ⟨i, moved⟩
    cases onceRun_counted run with
    | before _ unmoved => exact absurd (unmoved i) (Nat.ne_of_gt moved)
    | during _ w _ _ _ winner | after _ w winner =>
        exact ⟨w, (winner w).mpr rfl, fun j won => (winner j).mp won⟩
  creates w won := by
    cases onceRun_counted run with
    | before _ _ nobody => exact absurd won (nobody w)
    | during _ v rest _ _ winner split steps =>
        cases (winner w).mp won
        rw [steps, Nat.add_sub_cancel, ← split, List.take_left]
    | after _ v winner all steps =>
        cases (winner w).mp won
        rw [all, List.take_of_length_le]
        omega
  done := by
    cases onceRun_counted run with
    | before zero _ _ nothing =>
        refine iff_of_false (by omega) fun all => ?_
        rw [nothing, copy.createTlsKey_eq] at all
        cases all
    | during one w rest key creator winner split =>
        refine iff_of_false (by omega) fun all => ?_
        rw [all] at split
        obtain ⟨v, -, only⟩ := (onceRun_phase run).creator one
        obtain ⟨-, step, more, pending⟩ := only w rest key creator
        rw [List.append_right_eq_self.mp split] at pending
        cases pending
    | after two _ _ all => exact iff_of_true two all
  key two := by
    cases onceRun_phase run with
    | before zero | during one => omega
    | after _ log => exact ⟨by rw [log], by rw [log]⟩
  returns two i calls code allocated := by
    obtain ⟨s', o, stepped, _, answer⟩ := (onceRun_phase run).next_after two calls code allocated
    exact ⟨s', o, stepped, answer⟩
  ends two i calls later s' run' enough := by
    refine (onceRun_ending run two calls run').2.resolve_right fun still => ?_
    have left : (s.caller i).stepsLeft ≤ 2 := by
      cases s.caller i <;> simp [Caller.stepsLeft]
    have more : 1 ≤ (s'.caller i).stepsLeft := still.1.stepsLeft
    have sum := still.2
    omega

/-- Thread 1 calls while thread 0 creates the key, waits for it, and uses it. -/
def contended : Trace (Nat × OnceOp) OnceOutput :=
  [((1, .readKey), .key 7), ((1, .next 0 0), .returns), ((0, .next 0 0), .published),
    ((0, .next 0 0), .checked), ((0, .next 0 0), .stored 7), ((1, .next 0 0), .spins),
    ((0, .next 0 7), .allocated 7), ((1, .next 0 0), .compared 1),
    ((0, .next 0 0), .compared 0), ((1, .call), .called), ((0, .call), .called)]

def contendedState : OnceState Nat :=
  (onceMachine .cthreadWindows).afterAll (OnceState.init 0) (contended.reverse.map Prod.fst)

theorem contended_run :
    Run (onceMachine .cthreadWindows) OnceAdmits (OnceState.init 0) contended
      contendedState := by
  have succeeds : ∀ {c : Caller} {code : Int} {k : Key}, k ≠ tlsOutOfIndexes → code = 0 →
      ∀ step rest key, c = .creating (step :: rest) key → step.Succeeds code k := by
    intro c code k usable zero step rest key _
    cases step with
    | tlsAlloc => exact usable
    | keyCreate => exact zero
    | _ => trivial
  have next : ∀ {tr : Trace (Nat × OnceOp) OnceOutput} {s : OnceState Nat} {i : Nat} {k : Key},
      s.caller i ≠ .idle → s.caller i ≠ .returned → k ≠ tlsOutOfIndexes →
        OnceAdmits tr s (i, .next 0 k) :=
    fun inside pending usable => ⟨inside, pending, succeeds usable rfl⟩
  refine .snoc (.snoc (.snoc (.snoc (.snoc (.snoc (.snoc (.snoc (.snoc (.snoc (.snoc .nil
    (.inl rfl) (Machine.step_eq rfl)) (.inl rfl) (Machine.step_eq rfl))
    (next ?_ ?_ ?_) (Machine.step_eq rfl)) (next ?_ ?_ ?_) (Machine.step_eq rfl))
    (next ?_ ?_ ?_) (Machine.step_eq rfl)) (next ?_ ?_ ?_) (Machine.step_eq rfl))
    (next ?_ ?_ ?_) (Machine.step_eq rfl)) (next ?_ ?_ ?_) (Machine.step_eq rfl))
    (next ?_ ?_ ?_) (Machine.step_eq rfl)) (next ?_ ?_ ?_) (Machine.step_eq rfl))
    rfl (Machine.step_eq rfl)
  all_goals decide

/-- Thread 0 has made its five steps, and thread 1 has the key as well. -/
theorem onceRun_creates_once_contended : contendedState.once = 2 ∧
    created .cthreadWindows contended = doInit ++ [.publish] ∧
    (onceLog contended).allocs = [contendedState.key] ∧
    ∀ s' o, (onceMachine .cthreadWindows).step contendedState (1, .readKey) = .ok (s', o) →
      (onceLog contended).Legal (1, OnceOp.readKey) o := by
  have creates := onceRun_creates_once .cthreadWindows contended_run
  have won : Won contended 0 := ⟨.next 0 0, by decide⟩
  have all : created .cthreadWindows contended = doInit ++ [.publish] := creates.creates 0 won
  have two : contendedState.once = 2 := creates.done.mpr all
  refine ⟨two, all, (creates.key two).1, fun s' o stepped => ?_⟩
  obtain ⟨s'', o', run, legal, _⟩ := creates.steps (1, .readKey) rfl
  cases stepped.symm.trans run
  exact legal

end CThread.Once
