import CThread.Heap.Runs
import CThread.Timers.Refinement
import CThread.Timers.ThrdSleep

/-!
The `int` fields of the timer heap over the runs of the loop.

An operation that succeeds adds a slot or takes one away, whatever the order of the heap has
become. So as long as `ev_alarm` is called while fewer than `2^30 - 1` timers are armed, the
sizes, the capacities and the slot numbers that `heap.c` computes fit an `int`.
-/
namespace CThread.Heap
open Faults
variable {ν : Type} {h h' : HeapMod32 ν} {idx : Nat}

structure SameSizes (h h' : HeapMod32 ν) : Prop where
  size : h'.size = h.size
  cap : h'.cap = h.cap

namespace SameSizes

theorem refl (h : HeapMod32 ν) : SameSizes h h := ⟨rfl, rfl⟩

theorem trans {h₁ : HeapMod32 ν} (first : SameSizes h h₁) (second : SameSizes h₁ h') :
    SameSizes h h' :=
  ⟨second.size.trans first.size, second.cap.trans first.cap⟩

theorem write {e : HeapMod32Entry ν} (run : h.write idx e = .ok h') : SameSizes h h' := by
  unfold HeapMod32.write at run
  split at run <;> cases run
  exact ⟨rfl, rfl⟩

variable [DecidableEq ν]

theorem setIndex {p : Option ν} (run : h.setIndex p idx = .ok h') : SameSizes h h' := by
  cases p <;> cases run
  exact ⟨rfl, rfl⟩

theorem swap {a b : Nat} (run : heapSwap h a b = .ok h') : SameSizes h h' := by
  unfold heapSwap at run
  split at run
  · obtain ⟨ae, -, run⟩ := bind_eq_ok.mp run
    obtain ⟨be, -, run⟩ := bind_eq_ok.mp run
    obtain ⟨h₁, first, run⟩ := bind_eq_ok.mp run
    obtain ⟨h₂, second, run⟩ := bind_eq_ok.mp run
    obtain ⟨h₃, third, fourth⟩ := bind_eq_ok.mp run
    exact (((setIndex first).trans (setIndex second)).trans (write third)).trans (write fourth)
  · cases run

theorem bubbleUpLoop (fuel : Nat) :
    ∀ {h : HeapMod32 ν} {idx : Nat}, heapBubbleUpLoop fuel h idx = .ok h' → SameSizes h h' := by
  induction fuel with
  | zero => exact fun run => by cases run
  | succ fuel ih =>
      intro h idx run
      simp only [heapBubbleUpLoop] at run
      split at run
      · cases run
        exact refl _
      · obtain ⟨less, -, run⟩ := bind_eq_ok.mp run
        split at run
        · obtain ⟨h₁, swapped, run⟩ := bind_eq_ok.mp run
          exact (swap swapped).trans (ih run)
        · cases run
          exact refl _

theorem bubbleUp {value : BitVec 32} (run : heapBubbleUp h idx value = .ok h') :
    SameSizes h h' := by
  obtain ⟨e, -, run⟩ := bind_eq_ok.mp run
  obtain ⟨h₁, written, run⟩ := bind_eq_ok.mp run
  exact (write written).trans (bubbleUpLoop _ run)

theorem bubbleDownLoop (fuel : Nat) :
    ∀ {h : HeapMod32 ν} {parent : Nat}, heapBubbleDownLoop fuel h parent = .ok h' →
      SameSizes h h' := by
  induction fuel with
  | zero => exact fun run => by cases run
  | succ fuel ih =>
      intro h parent run
      simp only [heapBubbleDownLoop] at run
      split at run
      · cases run
        exact refl _
      · obtain ⟨smaller, -, run⟩ := bind_eq_ok.mp run
        obtain ⟨less, -, run⟩ := bind_eq_ok.mp run
        split at run
        · obtain ⟨h₁, swapped, run⟩ := bind_eq_ok.mp run
          exact (swap swapped).trans (ih run)
        · cases run
          exact refl _

end SameSizes

variable [DecidableEq ν]

theorem heapInsert_sizes {n : ν} {value : BitVec 32} (run : heapInsert h n value = .ok h') :
    h'.size = h.size + 1 ∧ h'.cap = (heapReserve h).cap := by
  have reserved : (heapReserve h).size = h.size := by
    unfold heapReserve
    split <;> rfl
  obtain ⟨h₁, pointed, run⟩ := bind_eq_ok.mp run
  obtain ⟨e, -, run⟩ := bind_eq_ok.mp run
  obtain ⟨h₂, written, run⟩ := bind_eq_ok.mp run
  have same := ((SameSizes.setIndex pointed).trans (.write written)).trans (.bubbleUp run)
  exact ⟨same.size.trans (congrArg (· + 1) reserved), same.cap⟩

theorem heapLastToHead_sizes (run : heapLastToHead h = .ok h') :
    h'.size = h.size - 1 ∧ h'.cap = h.cap := by
  obtain ⟨last, -, run⟩ := bind_eq_ok.mp run
  obtain ⟨h₁, written, run⟩ := bind_eq_ok.mp run
  obtain ⟨h₂, pointed, run⟩ := bind_eq_ok.mp run
  have same := ((SameSizes.write written).trans (.setIndex pointed)).trans
    (.bubbleDownLoop _ run)
  exact ⟨same.size, same.cap⟩

theorem heapRemove_sizes (run : heapRemove h idx = .ok h') :
    h'.size = h.size - 1 ∧ h'.cap = h.cap := by
  unfold heapRemove at run
  split at run
  · cases run
    exact ⟨rfl, rfl⟩
  split at run
  · obtain ⟨head, -, run⟩ := bind_eq_ok.mp run
    obtain ⟨h₁, risen, run⟩ := bind_eq_ok.mp run
    have same := SameSizes.bubbleUp risen
    obtain ⟨size, cap⟩ := heapLastToHead_sizes run
    exact ⟨size.trans (congrArg (· - 1) same.size), cap.trans same.cap⟩
  · exact heapLastToHead_sizes run

/-- The capacity is one that `heap_insert` makes. -/
structure FitsInt (h : HeapMod32 ν) : Prop where
  small : h.size < 2 ^ 30
  capacity : 16 ∣ h.cap ∧ h.cap ≤ 2 ^ 31 - 16

omit [DecidableEq ν] in
/-- The capacity and the number of the right child of the last slot are below `2^31`. -/
theorem FitsInt.inRange (fits : FitsInt h) : h.cap < 2 ^ 31 ∧ 2 * h.size + 1 < 2 ^ 31 := by
  have small := fits.small
  have capacity := fits.capacity.2
  omega

theorem FitsInt.insert {n : ν} {value : BitVec 32} (fits : FitsInt h)
    (few : h.size + 1 < 2 ^ 30) (run : heapInsert h n value = .ok h') : FitsInt h' := by
  obtain ⟨size, cap⟩ := heapInsert_sizes run
  exact ⟨size ▸ few, cap ▸ heapReserve_capacity few fits.capacity⟩

theorem FitsInt.remove (fits : FitsInt h) (run : heapRemove h idx = .ok h') : FitsInt h' := by
  obtain ⟨size, cap⟩ := heapRemove_sizes run
  have small := fits.small
  exact ⟨by omega, cap ▸ fits.capacity⟩

end CThread.Heap

namespace CThread.Timers
open Faults Heap GuardedRuns
variable {τ φ : Type} [DecidableEq τ] {e e' : EvTimers τ φ} {t : τ}

omit [DecidableEq τ] in
theorem inHeap_eq_ok {α : Type} {r : Except HeapFault α} {a : α} (run : inHeap r = .ok a) :
    r = .ok a := by
  cases r <;> cases run
  rfl

theorem evAlarm_fits {wakeup : BitVec 32} {fn : φ} (fits : FitsInt e.timers)
    (few : e.timers.size + 1 < 2 ^ 30) (run : evAlarm e t wakeup fn = .ok e') :
    FitsInt e'.timers := by
  obtain ⟨h, inserted, run⟩ := bind_eq_ok.mp run
  cases run
  exact fits.insert few (inHeap_eq_ok inserted)

theorem evStop_fits (fits : FitsInt e.timers) (run : evStop e t = .ok e') :
    FitsInt e'.timers := by
  unfold evStop at run
  split at run
  · obtain ⟨h, removed, run⟩ := bind_eq_ok.mp run
    cases run
    have fits' := fits.remove (inHeap_eq_ok removed)
    exact ⟨fits'.small, fits'.capacity⟩
  · cases run
    exact fits

theorem fireHead_fits {o : TimerOutcome τ φ} (fits : FitsInt e.timers)
    (run : fireHead e = .ok (e', o)) : FitsInt e'.timers := by
  obtain ⟨head, -, run⟩ := bind_eq_ok.mp run
  split at run
  · cases run
  · obtain ⟨h, removed, run⟩ := bind_eq_ok.mp run
    split at run <;> cases run
    exact fits.remove (inHeap_eq_ok removed)

theorem evStepTimers_fits {o : TimerOutcome τ φ} (fits : FitsInt e.timers)
    (run : evStepTimers e = .ok (e', o)) : FitsInt e'.timers := by
  obtain ⟨diff, -, run⟩ := bind_eq_ok.mp run
  split at run
  · cases run
    exact fits
  · exact fireHead_fits fits run

theorem evStepTimersResume_fits {o : TimerOutcome τ φ} (fits : FitsInt e.timers)
    (run : evStepTimersResume e = .ok (e', o)) : FitsInt e'.timers := by
  obtain ⟨diff, -, run⟩ := bind_eq_ok.mp run
  split at run
  · exact fireHead_fits fits run
  · cases run
    exact fits

omit [DecidableEq τ] in
theorem init_fits (garbage : Nat → BitVec 32) (index : τ → Nat) (fn : τ → Option φ)
    (now : BitVec 32) : FitsInt (TimerState.init garbage index fn now).loop.timers :=
  ⟨Nat.two_pow_pos 30, Nat.dvd_zero 16, Nat.zero_le _⟩

/-- Another timer may be armed. -/
def TimerOp.Few (e : EvTimers τ φ) : TimerOp τ φ → Prop
  | .alarm .. => e.timers.size + 1 < 2 ^ 30
  | _ => True

def DelayOp.Few (e : EvTimers τ φ) : DelayOp τ φ → Prop
  | .alarm .. => e.timers.size + 1 < 2 ^ 30
  | _ => True

def SleepOp.Few (e : EvTimers τ φ) : SleepOp τ φ → Prop
  | .thrdSleep .. => e.timers.size + 1 < 2 ^ 30
  | .other op => op.Few e

theorem timerStep_fits {s s' : TimerState τ φ} {op : TimerOp τ φ} {o : TimerOutput τ φ}
    (fits : FitsInt s.loop.timers) (few : op.Few s.loop) (run : timerStep s op = .ok (s', o)) :
    FitsInt s'.loop.timers := by
  have settles : ∀ {r : Except TimerFault (EvTimers τ φ × TimerOutcome τ φ)},
      settle r = .ok (s', o) → (∀ e' out, r = .ok (e', out) → FitsInt e'.timers) →
        FitsInt s'.loop.timers := by
    intro r run fits
    obtain ⟨⟨e', out⟩, stepped, run⟩ := bind_eq_ok.mp run
    cases run
    exact fits e' out stepped
  cases op with
  | alarm t wakeup fn =>
      obtain ⟨e', armed, run⟩ := bind_eq_ok.mp run
      cases run
      exact evAlarm_fits fits few armed
  | stop t =>
      obtain ⟨e', stopped, run⟩ := bind_eq_ok.mp run
      cases run
      exact evStop_fits fits stopped
  | getTicks now =>
      simp only [timerStep] at run
      split at run <;> cases run
      exact fits
  | stepTimers =>
      simp only [timerStep] at run
      split at run
      · exact settles run fun _ _ => evStepTimers_fits fits
      · cases run
  | callbackReturn =>
      simp only [timerStep] at run
      split at run
      · cases run
      · exact settles run fun _ _ => evStepTimersResume_fits fits

theorem delayStep_fits {s s' : DelayState τ φ} {op : DelayOp τ φ} {o : TimerOutput τ φ}
    (fits : FitsInt s.loop.timers) (few : op.Few s.loop) (run : delayStep s op = .ok (s', o)) :
    FitsInt s'.loop.timers := by
  have lands : ∀ {depth : Nat} {r : Except TimerFault (EvTimers τ φ × TimerOutcome τ φ)},
      land depth r = .ok (s', o) → (∀ e' out, r = .ok (e', out) → FitsInt e'.timers) →
        FitsInt s'.loop.timers := by
    intro depth r run fits
    obtain ⟨⟨e', out⟩, stepped, run⟩ := bind_eq_ok.mp run
    cases run
    exact fits e' out stepped
  cases op with
  | alarm t delay fn =>
      obtain ⟨e', armed, run⟩ := bind_eq_ok.mp run
      cases run
      exact evAlarm_fits fits few armed
  | getTicks clock =>
      cases run
      exact fits
  | stepTimers => exact lands run fun _ _ => evStepTimers_fits fits
  | callbackReturn =>
      simp only [delayStep] at run
      split at run
      · cases run
      · exact lands run fun _ _ => evStepTimersResume_fits fits

theorem sleepStep_fits {s s' : DelayState τ φ} {op : SleepOp τ φ} {o : TimerOutput τ φ}
    (fits : FitsInt s.loop.timers) (few : op.Few s.loop) (run : sleepStep s op = .ok (s', o)) :
    FitsInt s'.loop.timers := by
  have inTimer_eq_ok : ∀ {α : Type} {r : Except TimerFault α} {a : α},
      inTimer r = .ok a → r = .ok a := by
    intro α r a run
    cases r <;> cases run
    rfl
  cases op with
  | thrdSleep t d fn =>
      obtain ⟨e', slept, run⟩ := bind_eq_ok.mp run
      cases run
      obtain ⟨ms, -, armed⟩ := bind_eq_ok.mp slept
      exact evAlarm_fits fits few (inTimer_eq_ok armed)
  | other op => exact delayStep_fits fits few (inTimer_eq_ok run)

section Runs
variable {garbage : Nat → BitVec 32} {index : τ → Nat} {fn : τ → Option φ}

omit [DecidableEq τ] in
theorem run_inRange {σ ι ο ε : Type} {M : Machine σ ι ο ε} {ok : Guard σ ι ο}
    {tr : Trace ι ο} {s₀ s : σ} (loop : σ → EvTimers τ φ) (init : FitsInt (loop s₀).timers)
    (step : ∀ tr s i s' o, FitsInt (loop s).timers → ok tr s i → M.step s i = .ok (s', o) →
      FitsInt (loop s').timers) (run : Run M ok s₀ tr s) :
    (loop s).timers.cap < 2 ^ 31 ∧ 2 * (loop s).timers.size + 1 < 2 ^ 31 :=
  (Run.invariant (P := fun _ s => FitsInt (loop s).timers) init step run).inRange

/-- In every run in which timers are armed while there are few, what `heap.c` computes fits an
`int`. -/
theorem timerRun_inRange {ok : Guard (TimerState τ φ) (TimerOp τ φ) (TimerOutput τ φ)}
    (few : ∀ tr s op, ok tr s op → op.Few s.loop) {now : BitVec 32}
    {tr : Trace (TimerOp τ φ) (TimerOutput τ φ)} {s : TimerState τ φ}
    (run : Run timerMachine ok (TimerState.init garbage index fn now) tr s) :
    s.loop.timers.cap < 2 ^ 31 ∧ 2 * s.loop.timers.size + 1 < 2 ^ 31 :=
  run_inRange TimerState.loop (init_fits ..)
    (fun tr s op _ _ fits admitted => timerStep_fits fits (few tr s op admitted)) run

theorem wrappedRun_inRange {ok : Guard (TimerState τ φ) (IdealOp τ φ) (TimerOutput τ φ)}
    (few : ∀ tr s op, ok tr s op → op.truncate.Few s.loop) {now : BitVec 32}
    {tr : Trace (IdealOp τ φ) (TimerOutput τ φ)} {s : TimerState τ φ}
    (run : Run wrappedMachine ok (TimerState.init garbage index fn now) tr s) :
    s.loop.timers.cap < 2 ^ 31 ∧ 2 * s.loop.timers.size + 1 < 2 ^ 31 :=
  run_inRange TimerState.loop (init_fits ..)
    (fun tr s op _ _ fits admitted => timerStep_fits fits (few tr s op admitted)) run

theorem delayRun_inRange {ok : Guard (DelayState τ φ) (DelayOp τ φ) (TimerOutput τ φ)}
    (few : ∀ tr s op, ok tr s op → op.Few s.loop) {now : Int}
    {tr : Trace (DelayOp τ φ) (TimerOutput τ φ)} {s : DelayState τ φ}
    (run : Run delayMachine ok (DelayState.init garbage index fn now) tr s) :
    s.loop.timers.cap < 2 ^ 31 ∧ 2 * s.loop.timers.size + 1 < 2 ^ 31 :=
  run_inRange DelayState.loop (init_fits ..)
    (fun tr s op _ _ fits admitted => delayStep_fits fits (few tr s op admitted)) run

theorem sleepRun_inRange {ok : Guard (DelayState τ φ) (SleepOp τ φ) (TimerOutput τ φ)}
    (few : ∀ tr s op, ok tr s op → op.Few s.loop) {now : Int}
    {tr : Trace (SleepOp τ φ) (TimerOutput τ φ)} {s : DelayState τ φ}
    (run : Run sleepMachine ok (DelayState.init garbage index fn now) tr s) :
    s.loop.timers.cap < 2 ^ 31 ∧ 2 * s.loop.timers.size + 1 < 2 ^ 31 :=
  run_inRange DelayState.loop (init_fits ..)
    (fun tr s op _ _ fits admitted => sleepStep_fits fits (few tr s op admitted)) run

end Runs

end CThread.Timers
