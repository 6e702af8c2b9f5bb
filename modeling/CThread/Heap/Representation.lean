import CThread.Heap.Model
import CThread.Lib.HeapOrder

/-!
What the heap holds and how each routine of `heap.c` changes it.

`Represents h M` says that the slots `1..size` hold exactly the pairs of the
finite map `M`, each node pointing back at its slot. It says nothing about the
order of the values: the swaps keep it whatever the comparisons answer.
-/
namespace CThread.Heap
open SerialOrder Faults HeapOrder
variable {ν : Type}

structure Represents (h : HeapMod32 ν) (M : ν → Option (BitVec 32)) : Prop where
  room : h.size = 0 ∨ h.size < h.cap
  slot : ∀ k, 1 ≤ k → k ≤ h.size → ∃ n, (h.v k).node = some n ∧ h.index n = k ∧
    M n = some (h.v k).value
  back : ∀ n x, M n = some x → 1 ≤ h.index n ∧ h.index n ≤ h.size ∧
    h.v (h.index n) = ⟨x, some n⟩

/-- What a sift leaves alone. -/
structure Sifted (M : ν → Option (BitVec 32)) (h h' : HeapMod32 ν) : Prop where
  size : h'.size = h.size
  cap : h'.cap = h.cap
  spare : h'.v 0 = h.v 0
  outside : ∀ n, M n = none → h'.index n = h.index n

theorem Sifted.refl (M : ν → Option (BitVec 32)) (h : HeapMod32 ν) : Sifted M h h :=
  ⟨rfl, rfl, rfl, fun _ _ => rfl⟩

theorem Sifted.trans {M : ν → Option (BitVec 32)} {a b c : HeapMod32 ν}
    (first : Sifted M a b) (second : Sifted M b c) : Sifted M a c where
  size := second.size.trans first.size
  cap := second.cap.trans first.cap
  spare := second.spare.trans first.spare
  outside n hn := (second.outside n hn).trans (first.outside n hn)

theorem read_ok {h : HeapMod32 ν} {i : Nat} (hi : i < h.cap) :
    h.read i = .ok (h.v i) := by
  simp [HeapMod32.read, hi]

theorem write_ok {h : HeapMod32 ν} {i : Nat} (e : HeapMod32Entry ν) (hi : i < h.cap) :
    h.write i e = .ok { h with v := Function.update h.v i e } := by
  simp [HeapMod32.write, hi]

variable {h : HeapMod32 ν} {M : ν → Option (BitVec 32)}

theorem Represents.slot_lt_cap (rep : Represents h M) {k : Nat} (one : 1 ≤ k)
    (hk : k ≤ h.size) : k < h.cap := by
  cases rep.room with
  | inl empty => omega
  | inr room => omega

theorem Represents.entry (rep : Represents h M) {k : Nat} (one : 1 ≤ k)
    (hk : k ≤ h.size) : ∃ n, h.v k = ⟨(h.v k).value, some n⟩ ∧ h.index n = k ∧
      M n = some (h.v k).value := by
  obtain ⟨n, node, index, member⟩ := rep.slot k one hk
  exact ⟨n, by rw [← node], index, member⟩

theorem Represents.holder (rep : Represents h M) {k : Nat} {p : ν} (one : 1 ≤ k)
    (hk : k ≤ h.size) (node : (h.v k).node = some p) :
    h.index p = k ∧ M p = some (h.v k).value := by
  obtain ⟨q, node', index, member⟩ := rep.slot k one hk
  rw [node] at node'
  cases node'
  exact ⟨index, member⟩

/-- A node is not in a slot that holds another one. -/
theorem Represents.index_ne (rep : Represents h M) {k : Nat} {p q : ν} {x : BitVec 32}
    (member : M p = some x) (node : (h.v k).node = some q) (ne : p ≠ q) : h.index p ≠ k := by
  intro same
  obtain ⟨_, _, entry⟩ := rep.back p x member
  rw [same] at entry
  rw [entry] at node
  cases node
  exact ne rfl

/-- Two slots never hold the same node. -/
theorem Represents.slot_inj (rep : Represents h M) {j k : Nat} (hj : 1 ≤ j)
    (hj' : j ≤ h.size) (hk : 1 ≤ k) (hk' : k ≤ h.size)
    (same : (h.v j).node = (h.v k).node) : j = k := by
  obtain ⟨n, node, index, _⟩ := rep.slot j hj hj'
  exact index.symm.trans (rep.holder hk hk' (same.symm.trans node)).1

theorem heapLess_ok (rep : Represents h M) {a b : Nat} (ha : 1 ≤ a) (ha' : a ≤ h.size)
    (hb : 1 ≤ b) (hb' : b ≤ h.size) :
    heapLess h a b = .ok (precedes (h.v a).value (h.v b).value) := by
  simp [heapLess, read_ok (rep.slot_lt_cap ha ha'), read_ok (rep.slot_lt_cap hb hb')]

variable [DecidableEq ν]

/-- The index of a node outside the heap is nobody's business. -/
theorem Represents.setIndex {t : ν} (rep : Represents h M)
    (absent : M t = none) (i : Nat) :
    Represents { h with index := Function.update h.index t i } M where
  room := rep.room
  slot k one inside := by
    obtain ⟨n, node, index, member⟩ := rep.slot k one inside
    have ne : n ≠ t := by
      intro same
      subst same
      simp [absent] at member
    exact ⟨n, node, by simpa [ne] using index, member⟩
  back n x member := by
    have ne : n ≠ t := by
      intro same
      subst same
      simp [absent] at member
    simpa [ne] using rep.back n x member

/-- The heap after the slots `a` and `b`, holding the nodes `m` and `n`, are
exchanged. -/
def swapped (h : HeapMod32 ν) (a b : Nat) (m n : ν) : HeapMod32 ν :=
  { h with
    v := exchange h.v a b
    index := Function.update (Function.update h.index m b) n a }

theorem swapped_represents (rep : Represents h M) {a b : Nat} {m n : ν}
    (ha : 1 ≤ a) (ha' : a ≤ h.size) (hb : 1 ≤ b) (hb' : b ≤ h.size)
    (nodeA : (h.v a).node = some m) (nodeB : (h.v b).node = some n) :
    Represents (swapped h a b m n) M := by
  obtain ⟨indexA, memberA⟩ := rep.holder ha ha' nodeA
  obtain ⟨indexB, memberB⟩ := rep.holder hb hb' nodeB
  refine ⟨rep.room, ?_, ?_⟩
  · intro k one hk
    by_cases atA : k = a
    · subst atA
      exact ⟨n, by simpa [swapped] using nodeB, by simp [swapped],
        by simpa [swapped] using memberB⟩
    · by_cases atB : k = b
      · subst atB
        have ne : m ≠ n := by
          rintro rfl
          exact atA (indexB.symm.trans indexA)
        exact ⟨m, by simpa [swapped] using nodeA, by simp [swapped, ne],
          by simpa [swapped] using memberA⟩
      · obtain ⟨p, node, index, member⟩ := rep.slot k one hk
        have neM : p ≠ m := by
          rintro rfl
          exact atA (index.symm.trans indexA)
        have neN : p ≠ n := by
          rintro rfl
          exact atB (index.symm.trans indexB)
        refine ⟨p, ?_, ?_, ?_⟩
        · simpa [swapped, exchange_other h.v atA atB] using node
        · simpa [swapped, neM, neN] using index
        · simpa [swapped, exchange_other h.v atA atB] using member
  · intro p x member
    obtain ⟨one, hk, entry⟩ := rep.back p x member
    by_cases isN : p = n
    · subst isN
      rw [indexB] at entry
      simpa [swapped, entry] using ⟨ha, ha'⟩
    · by_cases isM : p = m
      · subst isM
        rw [indexA] at entry
        simpa [swapped, entry, isN] using ⟨hb, hb'⟩
      · have atA : h.index p ≠ a := rep.index_ne member nodeA isM
        have atB : h.index p ≠ b := rep.index_ne member nodeB isN
        simpa [swapped, isM, isN, exchange_other h.v atA atB, entry] using ⟨one, hk⟩

/-- A swap inside the heap passes its assertion, exchanges two slots and keeps
the contents. -/
theorem heapSwap_ok (rep : Represents h M) {a b : Nat} (ha : 1 ≤ a) (ha' : a ≤ h.size)
    (hb : 1 ≤ b) (hb' : b ≤ h.size) :
    ∃ h', heapSwap h a b = .ok h' ∧ h'.v = exchange h.v a b ∧
      Represents h' M ∧ Sifted M h h' := by
  obtain ⟨m, nodeA, indexA, memberA⟩ := rep.slot a ha ha'
  obtain ⟨n, nodeB, indexB, memberB⟩ := rep.slot b hb hb'
  have capA := rep.slot_lt_cap ha ha'
  have capB := rep.slot_lt_cap hb hb'
  have slots : Function.update (Function.update h.v a (h.v b)) b (h.v a) =
      exchange h.v a b := by
    funext j
    by_cases atB : j = b
    · subst atB
      simp
    · by_cases atA : j = a
      · subst atA
        simp [atB]
      · simp [atA, atB, exchange_other]
  refine ⟨swapped h a b m n, ?_, rfl,
    swapped_represents rep ha ha' hb hb' nodeA nodeB, rfl, rfl,
    exchange_other h.v (by omega) (by omega), ?_⟩
  · simp [heapSwap, show 0 < a from ha, show 0 < b from hb, ha', hb', read_ok capA,
      read_ok capB, nodeA, nodeB, HeapMod32.setIndex, write_ok, capA, capB, slots,
      swapped]
  · intro p hp
    have neM : p ≠ m := by
      rintro rfl
      simp [hp] at memberA
    have neN : p ≠ n := by
      rintro rfl
      simp [hp] at memberB
    simp [swapped, neM, neN]

end CThread.Heap
