import CThread.Heap.Operations
import CThread.Lib.Runs

/-!
Whole runs of `heap_insert` and `heap_remove` from the zeroed heap.

The machine carries the pairs that were inserted and not yet removed beside the
heap: an insertion records its pair, a removal forgets the pair that was in the
slot it was given. The `int` fields are natural numbers in the model; that they
stay in range is part of the result.
-/
namespace CThread.Heap
open SerialOrder GuardedRuns
variable {ν : Type}

inductive HeapOp (ν : Type)
  | insert (n : ν) (value : BitVec 32)
  | remove (idx : Nat)

structure HeapHistory (ν : Type) where
  heap : HeapMod32 ν
  pairs : ν → Option (BitVec 32)

def HeapHistory.start (garbage : Nat → BitVec 32) (index : ν → Nat) : HeapHistory ν :=
  ⟨HeapMod32.zeroed garbage index, fun _ => none⟩

structure HeapValid (s : HeapHistory ν) : Prop where
  exact : ∀ n x, s.pairs n = some x ↔
    ∃ k, 1 ≤ k ∧ k ≤ s.heap.size ∧ s.heap.v k = ⟨x, some n⟩
  backPointer : ∀ k, 1 ≤ k → k ≤ s.heap.size →
    ∃ n, (s.heap.v k).node = some n ∧ s.heap.index n = k
  distinct : ∀ j k, 1 ≤ j → j ≤ s.heap.size → 1 ≤ k → k ≤ s.heap.size →
    (s.heap.v j).node = (s.heap.v k).node → j = k
  ordered : HeapOrdered s.heap
  minimum : ∀ base, WindowAt base s.pairs → ∀ k, 1 ≤ k → k ≤ s.heap.size →
    offset base (s.heap.v heapHead).value ≤ offset base (s.heap.v k).value
  inRange : s.heap.cap < 2 ^ 31 ∧ 2 * s.heap.size + 1 < 2 ^ 31

/-- What every operation keeps. The capacity is a multiple of 16, which is what
leaves room for doubling it once more below `2^31`. -/
structure HeapInvariant (s : HeapHistory ν) : Prop where
  represents : Represents s.heap s.pairs
  ordered : HeapOrdered s.heap
  windowed : Windowed s.pairs
  small : s.heap.size < 2 ^ 30
  capacity : 16 ∣ s.heap.cap ∧ s.heap.cap ≤ 2 ^ 31 - 16

theorem start_invariant (garbage : Nat → BitVec 32) (index : ν → Nat) :
    HeapInvariant (HeapHistory.start garbage index) where
  represents := by
    refine ⟨.inl rfl, ?_, ?_⟩
    · intro k one hk
      have empty : k ≤ 0 := hk
      omega
    · intro n x member
      cases member
  ordered k two hk := by
    have empty : k ≤ 0 := hk
    omega
  windowed := ⟨0, fun _ _ member => by cases member⟩
  small := by
    show 0 < 2 ^ 30
    decide
  capacity := ⟨Nat.dvd_zero 16, Nat.zero_le _⟩

theorem heapReserve_capacity {h : HeapMod32 ν} (small : h.size + 1 < 2 ^ 30)
    (capacity : 16 ∣ h.cap ∧ h.cap ≤ 2 ^ 31 - 16) :
    16 ∣ (heapReserve h).cap ∧ (heapReserve h).cap ≤ 2 ^ 31 - 16 := by
  by_cases full : h.cap ≤ 1 + h.size
  · have grown : (heapReserve h).cap = h.cap * 2 + 16 := by simp [heapReserve, full]
    rw [grown]
    omega
  · have same : heapReserve h = h := by simp [heapReserve, full]
    rw [same]
    exact capacity

theorem HeapInvariant.valid {s : HeapHistory ν} (inv : HeapInvariant s) : HeapValid s where
  exact n x := by
    constructor
    · intro member
      obtain ⟨one, inside, entry⟩ := inv.represents.back n x member
      exact ⟨s.heap.index n, one, inside, entry⟩
    · rintro ⟨k, one, inside, entry⟩
      obtain ⟨m, node, _, member⟩ := inv.represents.slot k one inside
      rw [entry] at node member
      cases node
      exact member
  backPointer k one inside := by
    obtain ⟨n, node, index, _⟩ := inv.represents.slot k one inside
    exact ⟨n, node, index⟩
  distinct j k hj hj' hk hk' same := inv.represents.slot_inj hj hj' hk hk' same
  ordered := inv.ordered
  minimum base window k one inside :=
    inv.ordered.head_le inv.represents window one inside
  inRange := by
    have := inv.small
    have := inv.capacity.2
    omega

variable [DecidableEq ν]

def recorded (s : HeapHistory ν) : HeapOp ν → ν → Option (BitVec 32)
  | .insert n value => Function.update s.pairs n (some value)
  | .remove idx =>
      match (s.heap.v idx).node with
      | some n => Function.update s.pairs n none
      | none => s.pairs

def heapStep (s : HeapHistory ν) (op : HeapOp ν) :
    Except HeapFault (HeapHistory ν × Unit) := do
  let h ← match op with
    | .insert n value => heapInsert s.heap n value
    | .remove idx => heapRemove s.heap idx
  return (⟨h, recorded s op⟩, ())

def heapMachine : Machine (HeapHistory ν) (HeapOp ν) Unit HeapFault := ⟨heapStep⟩

/-- A node is inserted while it is out, a slot is removed while it is in, the size
stays below `2^30` and the values present keep fitting a window. -/
def HeapAdmits : Guard (HeapHistory ν) (HeapOp ν) Unit := fun _ s op =>
  Windowed (recorded s op) ∧
    match op with
    | .insert n _ => s.pairs n = none ∧ s.heap.size + 1 < 2 ^ 30
    | .remove idx => 1 ≤ idx ∧ idx ≤ s.heap.size

def resized (size : Nat) : HeapOp ν → Nat
  | .insert _ _ => size + 1
  | .remove _ => size - 1

/-- An admitted operation neither faults nor breaks the invariant. -/
theorem heapStep_ok {s : HeapHistory ν} (inv : HeapInvariant s) {tr : Trace (HeapOp ν) Unit}
    {op : HeapOp ν} (admitted : HeapAdmits tr s op) :
    ∃ s', heapStep s op = .ok (s', ()) ∧ s'.pairs = recorded s op ∧
      s'.heap.size = resized s.heap.size op ∧ HeapInvariant s' := by
  obtain ⟨windowed, admitted⟩ := admitted
  cases op with
  | insert n value =>
      obtain ⟨absent, small⟩ := admitted
      obtain ⟨h', run, inserted, order⟩ := heapInsert_ok inv.represents absent value
      refine ⟨⟨h', recorded s (.insert n value)⟩, by simp [heapStep, run], rfl,
        inserted.size, ?_⟩
      refine ⟨inserted.represents, order windowed inv.ordered, windowed, ?_, ?_⟩
      · show h'.size < 2 ^ 30
        rw [inserted.size]
        exact small
      · show 16 ∣ h'.cap ∧ h'.cap ≤ 2 ^ 31 - 16
        rw [inserted.cap]
        exact heapReserve_capacity small inv.capacity
  | remove idx =>
      obtain ⟨one, inside⟩ := admitted
      obtain ⟨n, node, _, _⟩ := inv.represents.slot idx one inside
      have erased : recorded s (.remove idx) = Function.update s.pairs n none := by
        simp [recorded, node]
      obtain ⟨h', run, removed, order⟩ :=
        heapRemove_ok inv.represents inv.windowed inv.ordered one inside node
      refine ⟨⟨h', recorded s (.remove idx)⟩, by simp [heapStep, run], rfl,
        removed.size, ?_⟩
      refine ⟨by rw [erased]; exact removed.represents, order, windowed, ?_, ?_⟩
      · have := inv.small
        show h'.size < 2 ^ 30
        rw [removed.size]
        omega
      · show 16 ∣ h'.cap ∧ h'.cap ≤ 2 ^ 31 - 16
        rw [removed.cap]
        exact inv.capacity

theorem heapRun_invariant {garbage : Nat → BitVec 32} {index : ν → Nat}
    {tr : Trace (HeapOp ν) Unit} {s : HeapHistory ν}
    (run : Run heapMachine HeapAdmits (HeapHistory.start garbage index) tr s) :
    HeapInvariant s := by
  refine Run.invariant (P := fun _ s => HeapInvariant s) (start_invariant garbage index)
    ?_ run
  intro tr s op s' o inv admitted stepped
  obtain ⟨t, stepped', _, _, inv'⟩ := heapStep_ok inv admitted
  have same : (.ok (s', o) : Except HeapFault _) = .ok (t, ()) := stepped.symm.trans stepped'
  cases same
  exact inv'

/-- Every state of every run represents the recorded pairs in heap order, and every
operation offered to it ends inside the allocated slots with its pair added or
the pair of its slot taken away. -/
theorem heapRun_represents {garbage : Nat → BitVec 32} {index : ν → Nat}
    {tr : Trace (HeapOp ν) Unit} {s : HeapHistory ν}
    (run : Run heapMachine HeapAdmits (HeapHistory.start garbage index) tr s) :
    HeapValid s ∧ ∀ op, HeapAdmits tr s op →
      ∃ s', heapMachine.step s op = .ok (s', ()) ∧ s'.pairs = recorded s op ∧
        HeapValid s' := by
  have inv := heapRun_invariant run
  refine ⟨inv.valid, ?_⟩
  intro op admitted
  obtain ⟨s', stepped, pairs, _, inv'⟩ := heapStep_ok inv admitted
  exact ⟨s', stepped, pairs, inv'.valid⟩

theorem heapRun_represents_wrapped :
    ∃ s : HeapHistory Nat, HeapValid s ∧ s.pairs 0 = none ∧ s.pairs 1 = some 0xfffffff0 := by
  let s₀ : HeapHistory Nat := HeapHistory.start (fun _ => 0) (fun _ => 0)
  have window : ∀ M : Nat → Option (BitVec 32),
      (∀ n x, M n = some x → x = 3 ∨ x = 0xfffffff0) → Windowed M := by
    intro M values
    refine ⟨0xfffffff0, fun n x member => ?_⟩
    rcases values n x member with rfl | rfl <;> simp [InWindow, offset]
  have admits₁ : HeapAdmits [] s₀ (.insert 0 3) := by
    refine ⟨window _ ?_, rfl, by decide⟩
    intro n x member
    by_cases zero : n = 0 <;> simp_all [recorded, s₀, HeapHistory.start]
  obtain ⟨s₁, step₁, pairs₁, size₁, inv₁⟩ := heapStep_ok (start_invariant _ _) admits₁
  have admits₂ : HeapAdmits [(.insert 0 3, ())] s₁ (.insert 1 0xfffffff0) := by
    refine ⟨window _ ?_, by rw [pairs₁]; rfl, by rw [size₁]; decide⟩
    intro n x member
    by_cases zero : n = 0 <;> by_cases one : n = 1 <;>
      simp_all [recorded, s₀, HeapHistory.start]
  obtain ⟨s₂, step₂, pairs₂, size₂, inv₂⟩ := heapStep_ok inv₁ admits₂
  have run : Run heapMachine HeapAdmits s₀ _ s₂ :=
    .snoc (.snoc .nil admits₁ step₁) admits₂ step₂
  obtain ⟨k, one, inside, entry⟩ := ((heapRun_represents run).1.exact 0 3).mp (by
    rw [pairs₂]
    simp [recorded, pairs₁])
  have admits₃ : HeapAdmits [(.insert 1 0xfffffff0, ()), (.insert 0 3, ())] s₂
      (.remove k) := by
    refine ⟨window _ ?_, one, inside⟩
    intro n x member
    by_cases zero : n = 0 <;> by_cases one : n = 1 <;>
      simp_all [recorded, s₀, HeapHistory.start]
  obtain ⟨s₃, step₃, pairs₃, valid₃⟩ := (heapRun_represents run).2 (.remove k) admits₃
  exact ⟨s₃, valid₃, by simp [pairs₃, recorded, entry], by
    simp [pairs₃, recorded, entry, pairs₂]⟩

end CThread.Heap
