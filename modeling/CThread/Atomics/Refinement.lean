import CThread.Atomics.Model

/-!
The cooperative atomics against those of C11.

The C11 operations are taken one after the other. They differ from the code in two places: a
compare-exchange that fails reports the content of the cell through `expected`, and the
arithmetic of a fetch operation wraps around where that of C overflows. A sequence of
operations runs alike in both exactly when it comes to neither.
-/
namespace CThread.Atomics
open Faults CInt
variable {T : IntType} {ι : Type} [DecidableEq ι]

/-- Two's complement, silently. -/
def FetchOp.wrapping : FetchOp → T.Val → T.Val → T.Val
  | .add, a, b => a + b
  | .sub, a, b => a - b
  | .or, a, b => a ||| b
  | .xor, a, b => a ^^^ b
  | .and, a, b => a &&& b

def c11Step (s : Shared T ι) (i : ι) : AtomicOp T → Shared T ι × AtomicResult T
  | .init v => (s.withCell v, .done)
  | .load => (s, .value s.cell)
  | .store v => (s.withCell v, .done)
  | .exchange v => (s.withCell v, .value s.cell)
  | .compareExchange v =>
      if s.cell = s.expected i then (s.withCell v, .swapped true)
      else (s.expect i s.cell, .swapped false)
  | .fetch op v _ => (s.withCell (op.wrapping s.cell v), .value s.cell)
  | .setExpected v => (s.expect i v, .done)

def c11Run (s : Shared T ι) : List (ι × AtomicOp T) → Shared T ι × List (AtomicResult T)
  | [] => (s, [])
  | (i, op) :: rest =>
      let (s, r) := c11Step s i op
      let (s, rs) := c11Run s rest
      (s, r :: rs)

/-- At every point of the sequence the results so far, the cell and what the threads expect
are those of C11. -/
def Agrees (s : Shared T ι) (ops : List (ι × AtomicOp T)) : Prop :=
  ∀ n, ctRun s (ops.take n) = .ok (c11Run s (ops.take n))

/-- A compare-exchange finds what it expects, and a sum or a difference fits. -/
def Meets (s : Shared T ι) (i : ι) : AtomicOp T → Prop
  | .compareExchange _ => s.cell = s.expected i
  | .fetch .add v _ => ¬ T.Overflows (T.toInt s.cell + T.toInt v)
  | .fetch .sub v _ => ¬ T.Overflows (T.toInt s.cell - T.toInt v)
  | _ => True

/-- Every operation meets its condition in the state in which C11 would start it. -/
def Undisturbed (s : Shared T ι) : List (ι × AtomicOp T) → Prop
  | [] => True
  | (i, op) :: rest => Meets s i op ∧ Undisturbed (c11Step s i op).1 rest

section Fetch
variable {p v new : T.Val}

theorem ctFetch_iff {assign : T.Val → T.Val → Except ArithFault T.Val} :
    ctFetch T assign p v = .ok (new, p) ↔ assign p v = .ok new := by
  unfold ctFetch
  cases assign p v with
  | ok a => simp
  | error e => simp

/-- What is stored is the result of C11 unless the operator overflows. -/
theorem assign_iff (number : T ≠ .bool) {r : Int} (wraps : T.convert r = new) :
    T.assign r = .ok new ↔ ¬ T.Overflows r := by
  refine ⟨fun assigned exceeds => ?_, fun fits => ?_⟩
  · rw [IntType.assign_overflows exceeds] at assigned
    cases assigned
  · cases T with
    | bool => exact absurd rfl number
    | integer width signed => rw [IntType.assign_ok fits, wraps]

omit [DecidableEq ι] in
theorem fetch_iff (op : FetchOp) (number : T ≠ .bool) {s : Shared T ι} {i : ι} :
    op.run T s.cell v = .ok (op.wrapping s.cell v, s.cell) ↔ Meets s i (.fetch op v number) := by
  cases op with
  | add =>
      rw [FetchOp.run, ctFetchAdd, ctFetch_iff]
      refine assign_iff number ?_
      cases T with
      | bool => exact absurd rfl number
      | integer width signed => exact IntType.convert_add s.cell v
  | sub =>
      rw [FetchOp.run, ctFetchSub, ctFetch_iff]
      refine assign_iff number ?_
      cases T with
      | bool => exact absurd rfl number
      | integer width signed => exact IntType.convert_sub s.cell v
  | or | xor | and => exact iff_of_true rfl trivial

end Fetch

section Step
variable (s : Shared T ι) (i : ι)

theorem swap_eq (v : T.Val) : ctStep s i (.compareExchange v) =
    if s.cell = s.expected i then .ok (s.withCell v, .swapped true)
    else .ok (s, .swapped false) := by
  simp only [ctStep, ctCompareExchange]
  split <;> rfl

/-- One operation of the code is that of C11 exactly when its condition is met. -/
theorem ctStep_iff (op : AtomicOp T) : ctStep s i op = .ok (c11Step s i op) ↔ Meets s i op := by
  cases op with
  | compareExchange v =>
      rw [swap_eq]
      simp only [c11Step, Meets]
      split
      · next found => exact iff_of_true rfl found
      · next differs =>
          refine iff_of_false (fun same => ?_) differs
          have states : s = s.expect i s.cell :=
            congrArg Prod.fst (Except.ok.inj same)
          have reported : s.expected i = s.cell := by
            rw [congrArg Shared.expected states]
            exact Function.update_self ..
          exact differs reported.symm
  | fetch op v number =>
      rw [← fetch_iff op number]
      refine ⟨fun same => ?_, fun fetched => ?_⟩
      · obtain ⟨⟨p, r⟩, fetched, same⟩ := bind_eq_ok.mp same
        have cells : p = op.wrapping s.cell v :=
          congrArg (fun x => x.1.cell) (Except.ok.inj same)
        have results : r = s.cell :=
          AtomicResult.value.inj (congrArg Prod.snd (Except.ok.inj same))
        rw [fetched, cells, results]
      · simp only [ctStep, fetched]
        rfl
  | init v | load | store v | exchange v | setExpected v => exact iff_of_true rfl trivial

end Step

theorem ctRun_cons {s : Shared T ι} {i : ι} {op : AtomicOp T} {x : Shared T ι × AtomicResult T}
    (stepped : ctStep s i op = .ok x) (rest : List (ι × AtomicOp T)) :
    ctRun s ((i, op) :: rest) = do
      let (s', rs) ← ctRun x.1 rest
      return (s', x.2 :: rs) := by
  rw [ctRun, stepped]
  rfl

theorem agrees_cons (s : Shared T ι) (i : ι) (op : AtomicOp T) (rest : List (ι × AtomicOp T)) :
    Agrees s ((i, op) :: rest) ↔
      ctStep s i op = .ok (c11Step s i op) ∧ Agrees (c11Step s i op).1 rest := by
  refine ⟨fun agrees => ?_, fun ⟨stepped, agrees⟩ n => ?_⟩
  · have stepped : ctStep s i op = .ok (c11Step s i op) := by
      obtain ⟨⟨s', r⟩, stepped, ends⟩ := bind_eq_ok.mp (agrees 1)
      have same : (s', [r]) = c11Run s [(i, op)] := Except.ok.inj ends
      have states : s' = (c11Step s i op).1 := congrArg Prod.fst same
      have results : [r] = [(c11Step s i op).2] := congrArg Prod.snd same
      rw [stepped, states, List.singleton_inj.mp results]
    refine ⟨stepped, fun n => ?_⟩
    have whole := agrees (n + 1)
    rw [List.take_succ_cons, ctRun_cons stepped] at whole
    obtain ⟨⟨s', rs⟩, run, ends⟩ := bind_eq_ok.mp whole
    have same : (s', (c11Step s i op).2 :: rs) = c11Run s ((i, op) :: rest.take n) :=
      Except.ok.inj ends
    have states : s' = (c11Run (c11Step s i op).1 (rest.take n)).1 := congrArg Prod.fst same
    have results : rs = (c11Run (c11Step s i op).1 (rest.take n)).2 :=
      (List.cons.inj (congrArg Prod.snd same)).2
    rw [run, states, results]
  · cases n with
    | zero => rfl
    | succ n =>
        rw [List.take_succ_cons, ctRun_cons stepped, agrees n]
        rfl

theorem agrees_nil (s : Shared T ι) : Agrees s [] := by
  intro n
  rw [List.take_nil]
  rfl

/-- Thread `i` has failed once, nobody else has changed the cell since, and thread `i` tries
again with a value it likes. -/
def RetrySucceeds (s : Shared T ι) (i : ι) : Prop :=
  ∀ v w between s' rs, (∀ step ∈ between, step.1 ≠ i) →
    ctRun s ((i, .compareExchange v) :: between) = .ok (s', .swapped false :: rs) →
    s'.cell = s.cell → ctStep s' i (.compareExchange w) = .ok (s'.withCell w, .swapped true)

section Retry
variable {s : Shared T ι} {i : ι}

theorem c11Step_expected (op : AtomicOp T) {j : ι} (other : j ≠ i) :
    (c11Step s j op).1.expected i = s.expected i := by
  cases op with
  | compareExchange v =>
      simp only [c11Step]
      split
      · rfl
      · exact Function.update_of_ne other.symm ..
  | setExpected v => exact Function.update_of_ne other.symm ..
  | _ => rfl

theorem c11Run_expected (between : List (ι × AtomicOp T)) (others : ∀ step ∈ between, step.1 ≠ i) :
    (c11Run s between).1.expected i = s.expected i := by
  induction between generalizing s with
  | nil => rfl
  | cons step rest ih =>
      obtain ⟨j, op⟩ := step
      show (c11Run (c11Step s j op).1 rest).1.expected i = s.expected i
      rw [ih fun step inside => others step (.tail _ inside)]
      exact c11Step_expected op (others (j, op) (.head _))

/-- With the operations of C11 the second attempt succeeds: the first one has left the content
of the cell in `expected`. -/
theorem c11_retry_succeeds (v w : T.Val) (between : List (ι × AtomicOp T))
    (others : ∀ step ∈ between, step.1 ≠ i) (failed : (c11Step s i (.compareExchange v)).2 =
      .swapped false) {s' : Shared T ι}
    (run : s' = (c11Run (c11Step s i (.compareExchange v)).1 between).1)
    (still : s'.cell = s.cell) :
    c11Step s' i (.compareExchange w) = (s'.withCell w, .swapped true) := by
  have reported : s'.expected i = s.cell := by
    rw [run, c11Run_expected between others]
    simp only [c11Step] at failed ⊢
    split
    · next found =>
        rw [if_pos found] at failed
        cases failed
    · exact Function.update_self ..
  simp only [c11Step, still, reported, if_true]

/-- In the code an attempt that fails leaves everything, so the next one fails too. -/
theorem retry_iff : RetrySucceeds s i ↔ s.cell = s.expected i := by
  refine ⟨fun succeeds => ?_, fun found v w between s' rs _ run _ => ?_⟩
  · by_contra differs
    have failed : ∀ v, ctStep s i (.compareExchange v) = .ok (s, .swapped false) :=
      fun v => by rw [swap_eq, if_neg differs]
    have once : ctRun s [(i, .compareExchange s.cell)] = .ok (s, [.swapped false]) :=
      ctRun_cons (failed s.cell) []
    have again := succeeds s.cell s.cell [] s [] (by simp) once rfl
    rw [failed] at again
    cases again
  · have won : ctStep s i (.compareExchange v) = .ok (s.withCell v, .swapped true) := by
      rw [swap_eq, if_pos found]
    rw [ctRun_cons won] at run
    obtain ⟨_, _, ends⟩ := bind_eq_ok.mp run
    cases ends

end Retry

/-- A sequence of operations of any threads runs as with the atomics of C11 exactly when every
compare-exchange finds what it expects and no signed sum or difference overflows; a thread
whose compare-exchange has failed never succeeds by trying again. -/
theorem ctRun_agrees_iff (s : Shared T ι) (ops : List (ι × AtomicOp T)) :
    (Agrees s ops ↔ Undisturbed s ops) ∧ ∀ i, RetrySucceeds s i ↔ s.cell = s.expected i := by
  refine ⟨?_, fun i => retry_iff⟩
  induction ops generalizing s with
  | nil => exact iff_of_true (agrees_nil s) trivial
  | cons step rest ih =>
      obtain ⟨i, op⟩ := step
      rw [agrees_cons, ctStep_iff, ih]
      rfl

/-- Another thread has replaced 4 by 5. -/
def replaced : Shared .int Nat := ⟨5, fun _ => 4⟩

def full : Shared .int Nat := ⟨0x7fffffff, fun _ => 0⟩

theorem ctRun_differs : ¬ Agrees replaced [(0, .compareExchange 6)] ∧
    ¬ RetrySucceeds replaced 0 ∧ ¬ Agrees full [(0, .fetch .add 1 (by decide))] := by
  refine ⟨fun agrees => ?_, fun succeeds => ?_, fun agrees => ?_⟩
  · have expected := congrArg (fun x => x.1.expected 0) (Except.ok.inj (agrees 1))
    revert expected
    decide
  · have again := succeeds 6 7 [] replaced [] (by simp) rfl rfl
    cases again
  · have overflow : Except.error ArithFault.overflow = Except.ok _ := agrees 1
    cases overflow

end CThread.Atomics
