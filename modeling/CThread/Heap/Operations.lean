import CThread.Heap.Sift

/-!
`heap_insert` and `heap_remove` as operations on the finite map of a heap.

The contents of an insertion and of a removal of the head are right whatever the
values are. Removing an inner slot rewrites the victim to one below the head and
relies on it climbing to the root, so that its contents need the window: the
values present must fit a half range of the circle of words.
-/
namespace CThread.Heap
open SerialOrder Faults HeapOrder
variable {ν : Type}

/-- No entry is less than its parent. -/
def HeapOrdered (h : HeapMod32 ν) : Prop :=
  ∀ k, 2 ≤ k → k ≤ h.size → precedes (h.v k).value (h.v (k / 2)).value = false

def WindowAt (base : BitVec 32) (M : ν → Option (BitVec 32)) : Prop :=
  ∀ n x, M n = some x → InWindow base x

/-- The values present fit a circular window whose largest distance is at most
`2^31 - 1`. -/
def Windowed (M : ν → Option (BitVec 32)) : Prop := ∃ base, WindowAt base M

def offsetKey (base : BitVec 32) (e : HeapMod32Entry ν) : Int := offset base e.value

variable {h : HeapMod32 ν} {M : ν → Option (BitVec 32)} {base : BitVec 32}

theorem Represents.inWindow (rep : Represents h M) (window : WindowAt base M) {k : Nat}
    (one : 1 ≤ k) (hk : k ≤ h.size) : InWindow base (h.v k).value := by
  obtain ⟨n, _, _, member⟩ := rep.slot k one hk
  exact window n _ member

theorem agrees_offsetKey (rep : Represents h M) (window : WindowAt base M) :
    Agrees (offsetKey base) h := by
  intro i j hi hi' hj hj'
  rw [precedes_of_window (rep.inWindow window hi hi') (rep.inWindow window hj hj')]
  simp only [offsetKey]
  omega

theorem heapOrdered_iff (rep : Represents h M) (window : WindowAt base M) :
    HeapOrdered h ↔ Ordered h.size (keys (offsetKey base) h) := by
  have compare : ∀ k, 2 ≤ k → k ≤ h.size →
      (precedes (h.v k).value (h.v (k / 2)).value = false ↔
        keys (offsetKey base) h (k / 2) ≤ keys (offsetKey base) h k) := by
    intro k two hk
    have := agrees_offsetKey rep window k (k / 2) (by omega) hk (by omega) (by omega)
    rw [← Bool.not_eq_true, this]
    exact Int.not_lt
  constructor
  · intro order k two hk
    exact (compare k two hk).mp (order k two hk)
  · intro order k two hk
    exact (compare k two hk).mpr (order k two hk)

/-- The head of an ordered heap is a minimum of the window order. -/
theorem HeapOrdered.head_le (order : HeapOrdered h) (rep : Represents h M)
    (window : WindowAt base M) {k : Nat} (one : 1 ≤ k) (hk : k ≤ h.size) :
    offset base (h.v 1).value ≤ offset base (h.v k).value := by
  have := ((heapOrdered_iff rep window).mp order).root_le k one hk
  simpa [keys, offsetKey] using this

theorem HeapOrdered.dropLast (order : HeapOrdered h) :
    HeapOrdered { h with size := h.size - 1 } := by
  intro k two hk
  have inside : k ≤ h.size - 1 := hk
  exact order k two (by omega)

theorem WindowAt.erase [DecidableEq ν] (window : WindowAt base M) (n : ν) :
    WindowAt base (Function.update M n none) := by
  intro p x member
  by_cases same : p = n
  · subst same
    simp at member
  · rw [Function.update_of_ne same] at member
    exact window p x member

theorem Windowed.erase [DecidableEq ν] (windowed : Windowed M) (n : ν) :
    Windowed (Function.update M n none) := by
  obtain ⟨base, window⟩ := windowed
  exact ⟨base, window.erase n⟩

/-- The effect of an insertion. Slot 0 is never written. -/
structure Inserted [DecidableEq ν] (M : ν → Option (BitVec 32)) (n : ν) (x : BitVec 32)
    (h h' : HeapMod32 ν) : Prop where
  represents : Represents h' (Function.update M n (some x))
  size : h'.size = h.size + 1
  cap : h'.cap = (heapReserve h).cap
  spare : h'.v 0 = h.v 0
  outside : ∀ p, p ≠ n → M p = none → h'.index p = h.index p

/-- The effect of a removal. The victim keeps some index. -/
structure Removed [DecidableEq ν] (M : ν → Option (BitVec 32)) (n : ν)
    (h h' : HeapMod32 ν) : Prop where
  represents : Represents h' (Function.update M n none)
  size : h'.size = h.size - 1
  cap : h'.cap = h.cap
  spare : h'.v 0 = h.v 0
  outside : ∀ p, p ≠ n → M p = none → h'.index p = h.index p

theorem heapReserve_represents (rep : Represents h M) :
    Represents (heapReserve h) M ∧ (heapReserve h).size = h.size ∧
      (heapReserve h).v = h.v ∧ (heapReserve h).index = h.index ∧
      h.size + 1 < (heapReserve h).cap := by
  by_cases full : h.cap ≤ 1 + h.size
  · have grown : heapReserve h = { h with cap := h.cap * 2 + 16 } := by
      simp [heapReserve, full]
    have room : h.size + 1 < h.cap * 2 + 16 := by
      cases rep.room with
      | inl empty => omega
      | inr below => omega
    rw [grown]
    exact ⟨⟨.inr (Nat.lt_of_succ_lt room), rep.slot, rep.back⟩, rfl, rfl, rfl, room⟩
  · have same : heapReserve h = h := by simp [heapReserve, full]
    rw [same]
    exact ⟨rep, rfl, rfl, rfl, by omega⟩

variable [DecidableEq ν]

/-- The heap on which `heap_insert` starts to bubble up. -/
def placed (h : HeapMod32 ν) (n : ν) (x : BitVec 32) : HeapMod32 ν :=
  { heapReserve h with
    v := Function.update h.v (h.size + 1) ⟨x, some n⟩
    size := h.size + 1
    index := Function.update h.index n (h.size + 1) }

theorem placed_represents (rep : Represents h M) {n : ν} (absent : M n = none)
    (x : BitVec 32) : Represents (placed h n x) (Function.update M n (some x)) := by
  obtain ⟨_, _, _, _, room⟩ := heapReserve_represents rep
  refine ⟨.inr room, ?_, ?_⟩
  · intro k one hk
    by_cases last : k = h.size + 1
    · subst last
      exact ⟨n, by simp [placed], by simp [placed], by simp [placed]⟩
    · have inside : k ≤ h.size := by
        have : k ≤ h.size + 1 := hk
        omega
      obtain ⟨p, node, index, member⟩ := rep.slot k one inside
      have ne : p ≠ n := by
        rintro rfl
        simp [absent] at member
      exact ⟨p, by simpa [placed, last] using node, by simpa [placed, ne] using index,
        by simpa [placed, ne, last] using member⟩
  · intro p y member
    by_cases same : p = n
    · subst same
      have value : x = y := by simpa using member
      subst value
      simp [placed]
    · rw [Function.update_of_ne same] at member
      obtain ⟨one, inside, entry⟩ := rep.back p y member
      have notLast : h.index p ≠ h.size + 1 := by omega
      refine ⟨by simpa [placed, same] using one, ?_, ?_⟩
      · simp only [placed, ne_eq, same, not_false_eq_true, Function.update_of_ne]
        omega
      · simpa [placed, same, notLast] using entry

theorem heapInsert_eq (rep : Represents h M) (n : ν) (x : BitVec 32) :
    heapInsert h n x = heapBubbleUpLoop (h.size + 2) (placed h n x) (h.size + 1) := by
  obtain ⟨_, size, slots, index, room⟩ := heapReserve_represents rep
  simp [heapInsert, heapBubbleUp, HeapMod32.setIndex, HeapMod32.read, HeapMod32.write,
    size, slots, index, room, placed, Nat.add_comm 1 h.size]

/-- Insertion adds one pair. -/
theorem heapInsert_ok (rep : Represents h M) {n : ν} (absent : M n = none)
    (x : BitVec 32) :
    ∃ h', heapInsert h n x = .ok h' ∧ Inserted M n x h h' ∧
      (Windowed (Function.update M n (some x)) → HeapOrdered h → HeapOrdered h') := by
  have rep₁ := placed_represents rep absent x
  obtain ⟨h', run, rep', sifted, order⟩ :=
    heapBubbleUpLoop_ok (h.size + 2) rep₁ (show 1 ≤ h.size + 1 by omega)
      (Nat.le_refl _) (by omega)
  have spare : h'.v 0 = h.v 0 := by
    rw [sifted.spare]
    simp [placed]
  refine ⟨h', by rw [heapInsert_eq rep, run],
    ⟨rep', sifted.size, sifted.cap, spare, ?_⟩, ?_⟩
  · intro p ne outside
    rw [sifted.outside p (by rw [Function.update_of_ne ne]; exact outside)]
    simp [placed, ne]
  · rintro ⟨base, window⟩ ordered
    have window₀ : WindowAt base M := by
      intro p y member
      apply window p y
      rw [Function.update_of_ne]
      · exact member
      · rintro rfl
        simp [absent] at member
    have same : ∀ j, 1 ≤ j → j ≤ h.size →
        keys (offsetKey base) (placed h n x) j = keys (offsetKey base) h j := by
      intro j _ hj
      have notLast : j ≠ h.size + 1 := by omega
      simp [keys, placed, notLast]
    have start := ((heapOrdered_iff rep window₀).mp ordered).append same
    have agrees := agrees_offsetKey rep₁ window
    have result := order (offsetKey base)
      (fun j one hj ne => agrees (h.size + 1) j (by omega) (Nat.le_refl _) one hj) start
    refine (heapOrdered_iff rep' window).mpr ?_
    rw [sifted.size]
    exact result

/-- The heap on which `heap_remove` starts to bubble down: the last entry, whose
node is `l`, stands at the head. -/
def headReplaced (h : HeapMod32 ν) (l : ν) : HeapMod32 ν :=
  { h with
    v := Function.update h.v 1 (h.v h.size)
    size := h.size - 1
    index := Function.update h.index l 1 }

theorem headReplaced_represents (rep : Represents h M) (two : 2 ≤ h.size) {n l : ν}
    (first : (h.v 1).node = some n) (last : (h.v h.size).node = some l) :
    Represents (headReplaced h l) (Function.update M n none) := by
  have one : 1 ≤ h.size := by omega
  obtain ⟨indexL, memberL⟩ := rep.holder one (Nat.le_refl _) last
  obtain ⟨indexN, _⟩ := rep.holder (Nat.le_refl 1) one first
  have distinct : l ≠ n := by
    rintro rfl
    omega
  refine ⟨?_, ?_, ?_⟩
  · have := rep.slot_lt_cap one (Nat.le_refl _)
    right
    simp only [headReplaced]
    omega
  · intro k hk hk'
    have inside : k ≤ h.size - 1 := hk'
    by_cases head : k = 1
    · subst head
      exact ⟨l, by simpa [headReplaced] using last, by simp [headReplaced],
        by simpa [headReplaced, distinct] using memberL⟩
    · obtain ⟨p, node, index, member⟩ := rep.slot k hk (by omega)
      have neN : p ≠ n := by
        rintro rfl
        omega
      have neL : p ≠ l := by
        rintro rfl
        omega
      exact ⟨p, by simpa [headReplaced, head] using node,
        by simpa [headReplaced, neL] using index,
        by simpa [headReplaced, neN, head] using member⟩
  · intro p x member
    have neN : p ≠ n := by
      rintro rfl
      simp at member
    rw [Function.update_of_ne neN] at member
    obtain ⟨hk, hk', entry⟩ := rep.back p x member
    by_cases isL : p = l
    · subst isL
      rw [indexL] at entry
      refine ⟨by simp [headReplaced], ?_, by simpa [headReplaced] using entry⟩
      simp only [headReplaced, Function.update_self]
      omega
    · have notHead : h.index p ≠ 1 := rep.index_ne member first neN
      have notLast : h.index p ≠ h.size := rep.index_ne member last isL
      refine ⟨by simpa [headReplaced, isL] using hk, ?_, ?_⟩
      · simp only [headReplaced, ne_eq, isL, not_false_eq_true, Function.update_of_ne]
        omega
      · simpa [headReplaced, isL, notHead] using entry

/-- The pair at the head goes; the rest stays and is put back in order, if it was
in order below the head. -/
theorem heapLastToHead_ok (rep : Represents h M) (two : 2 ≤ h.size) {n : ν}
    (first : (h.v 1).node = some n) :
    ∃ h', heapLastToHead h = .ok h' ∧ Removed M n h h' ∧ h'.index n = h.index n ∧
      (∀ base, WindowAt base (Function.update M n none) →
        (∀ j, 2 ≤ j → j ≤ h.size → j / 2 ≠ 1 →
          offset base (h.v (j / 2)).value ≤ offset base (h.v j).value) →
        HeapOrdered h') := by
  obtain ⟨l, last, indexL, memberL⟩ := rep.slot h.size (by omega) (Nat.le_refl _)
  obtain ⟨indexN, _⟩ := rep.holder (Nat.le_refl 1) (by omega) first
  have rep₁ := headReplaced_represents rep two first last
  have capLast := rep.slot_lt_cap (k := h.size) (by omega) (Nat.le_refl _)
  have capHead : 1 < h.cap := by omega
  have slotLast : 1 + h.size - 1 = h.size := by omega
  have start : heapLastToHead h = heapBubbleDown (headReplaced h l) := by
    simp [heapLastToHead, slotLast, HeapMod32.read, capLast, HeapMod32.write, capHead,
      HeapMod32.setIndex, last, headReplaced]
  obtain ⟨h', run, rep', sifted, order⟩ :=
    heapBubbleDownLoop_ok ((headReplaced h l).size + 1) rep₁
      (Nat.le_refl 1) (.inr rfl) (by omega)
  have kept : ∀ p, p ≠ l → Function.update M n none p = none →
      h'.index p = h.index p := by
    intro p neL gone
    rw [sifted.outside p gone]
    simp [headReplaced, neL]
  have spare : h'.v 0 = h.v 0 := by
    rw [sifted.spare]
    simp [headReplaced]
  refine ⟨h', by rw [start]; exact run,
    ⟨rep', sifted.size, sifted.cap, spare, ?_⟩, ?_, ?_⟩
  · intro p ne absent
    apply kept p
    · rintro rfl
      simp [absent] at memberL
    · simpa [ne] using absent
  · apply kept n
    · rintro rfl
      omega
    · simp
  · intro base window below
    refine (heapOrdered_iff rep' window).mpr ?_
    rw [sifted.size]
    apply order (offsetKey base) (agrees_offsetKey rep₁ window)
    constructor
    · intro j twoJ hj notChild
      have inside : j ≤ h.size - 1 := hj
      have := below j twoJ (by omega) notChild
      have parentNe : j / 2 ≠ 1 := notChild
      have selfNe : j ≠ 1 := by omega
      simp only [keys, headReplaced, offsetKey, ne_eq, parentNe, selfNe,
        not_false_eq_true, Function.update_of_ne]
      omega
    · intro j top
      omega

/-- Forgetting the last slot removes its pair. -/
theorem dropLast_represents (rep : Represents h M) {n : ν} (one : 1 ≤ h.size)
    (last : (h.v h.size).node = some n) :
    Represents { h with size := h.size - 1 } (Function.update M n none) := by
  obtain ⟨indexN, _⟩ := rep.holder one (Nat.le_refl _) last
  refine ⟨?_, ?_, ?_⟩
  · have := rep.slot_lt_cap one (Nat.le_refl _)
    right
    show h.size - 1 < h.cap
    omega
  · intro k hk hk'
    have inside : k ≤ h.size - 1 := hk'
    obtain ⟨p, nodeP, index, member⟩ := rep.slot k hk (by omega)
    have ne : p ≠ n := by
      rintro rfl
      omega
    exact ⟨p, nodeP, index, by simpa [ne] using member⟩
  · intro p x member
    have ne : p ≠ n := by
      rintro rfl
      simp at member
    rw [Function.update_of_ne ne] at member
    obtain ⟨hk, hk', entry⟩ := rep.back p x member
    have notLast : h.index p ≠ h.size := rep.index_ne member last ne
    refine ⟨hk, ?_, entry⟩
    show h.index p ≤ h.size - 1
    omega

/-- Removing the head needs no assumption on the order. -/
theorem heapRemove_head_ok (rep : Represents h M) (one : 1 ≤ h.size) {n : ν}
    (first : (h.v 1).node = some n) :
    ∃ h', heapRemove h 1 = .ok h' ∧ Removed M n h h' ∧ h'.index n = h.index n ∧
      (Windowed M → HeapOrdered h → HeapOrdered h') := by
  by_cases single : h.size = 1
  · have run : heapRemove h 1 = .ok { h with size := h.size - 1 } := by
      simp [heapRemove, single]
    exact ⟨_, run, ⟨dropLast_represents rep one (by rwa [single]), rfl, rfl, rfl,
      fun _ _ _ => rfl⟩, rfl, fun _ order => order.dropLast⟩
  · obtain ⟨h', run, removed, index, order⟩ := heapLastToHead_ok rep (by omega) first
    refine ⟨h', by simp [heapRemove, Ne.symm single, run], removed, index, ?_⟩
    rintro ⟨base, window⟩ ordered
    apply order base (window.erase n)
    intro j two hj _
    have := (heapOrdered_iff rep window).mp ordered j two hj
    simpa [keys, offsetKey] using this

/-- The key that puts the victim `n` of a removal below the whole window. -/
def victimKey (base : BitVec 32) (n : ν) (e : HeapMod32Entry ν) : Int :=
  if e.node = some n then -1 else offset base e.value

/-- The heap on which `heap_remove` lets the victim in slot `i` climb. -/
def lowered (h : HeapMod32 ν) (i : Nat) (n : ν) : HeapMod32 ν :=
  { h with v := Function.update h.v i ⟨(h.v 1).value - 1, some n⟩ }

theorem lowered_represents (rep : Represents h M) {i : Nat} {n : ν} (one : 1 ≤ i)
    (hi : i ≤ h.size) (victim : (h.v i).node = some n) :
    Represents (lowered h i n) (Function.update M n (some ((h.v 1).value - 1))) := by
  obtain ⟨indexN, _⟩ := rep.holder one hi victim
  refine ⟨rep.room, ?_, ?_⟩
  · intro k hk hk'
    by_cases same : k = i
    · subst same
      exact ⟨n, by simp [lowered], indexN, by simp [lowered]⟩
    · obtain ⟨p, nodeP, index, member⟩ := rep.slot k hk hk'
      have ne : p ≠ n := by
        rintro rfl
        exact same (index.symm.trans indexN)
      exact ⟨p, by simpa [lowered, same] using nodeP, index,
        by simpa [lowered, same, ne] using member⟩
  · intro p x member
    by_cases same : p = n
    · subst same
      have value : (h.v 1).value - 1 = x := by simpa using member
      subst value
      refine ⟨by simpa [lowered, indexN] using one, by simpa [lowered, indexN] using hi, ?_⟩
      simp [lowered, indexN]
    · rw [Function.update_of_ne same] at member
      obtain ⟨hk, hk', entry⟩ := rep.back p x member
      have ne : h.index p ≠ i := rep.index_ne member victim same
      exact ⟨hk, hk', by simpa [lowered, ne] using entry⟩

/-- The lowered victim climbs to the head, and the rest stays in order below. -/
theorem heapBubbleUp_victim (rep : Represents h M) (window : WindowAt base M)
    (order : HeapOrdered h) {i : Nat} {n : ν} (one : 1 ≤ i) (hi : i ≤ h.size)
    (victim : (h.v i).node = some n) :
    ∃ h', heapBubbleUp h i ((h.v 1).value - 1) = .ok h' ∧
      Represents h' (Function.update M n (some ((h.v 1).value - 1))) ∧
      h'.size = h.size ∧ h'.cap = h.cap ∧ h'.v 0 = h.v 0 ∧
      (∀ p, p ≠ n → M p = none → h'.index p = h.index p) ∧
      (h'.v 1).node = some n ∧
      (∀ j, 2 ≤ j → j ≤ h.size → j / 2 ≠ 1 →
        offset base (h'.v (j / 2)).value ≤ offset base (h'.v j).value) := by
  have rep₁ := lowered_represents rep one hi victim
  have cap := rep.slot_lt_cap one hi
  have start : heapBubbleUp h i ((h.v 1).value - 1) =
      heapBubbleUpLoop (i + 1) (lowered h i n) i := by
    simp [heapBubbleUp, HeapMod32.read, HeapMod32.write, cap, victim, lowered]
  obtain ⟨h', run, rep', sifted, ordered⟩ :=
    heapBubbleUpLoop_ok (i + 1) rep₁ one hi (Nat.lt_succ_self i)
  have others : ∀ j, 1 ≤ j → j ≤ h.size → j ≠ i →
      victimKey base n ((lowered h i n).v j) = offset base (h.v j).value := by
    intro j hj hj' ne
    have notVictim : (h.v j).node ≠ some n := by
      intro same
      exact ne (rep.slot_inj hj hj' one hi (same.trans victim.symm))
    simp [victimKey, lowered, ne, notVictim]
  have self : victimKey base n ((lowered h i n).v i) = -1 := by
    simp [victimKey, lowered]
  have agrees : AgreesAt (victimKey base n) (lowered h i n) i := by
    intro j hj hj' ne
    have first := order.head_le rep window hj hj'
    have smaller : precedes ((h.v 1).value - 1) (h.v j).value = true :=
      pred_precedes (by decide) (rep.inWindow window hj hj') first
    rw [self, others j hj hj' ne]
    simp only [lowered, Function.update_self, ne_eq, ne, not_false_eq_true,
      Function.update_of_ne, smaller, true_iff]
    omega
  have exception : OrderedUp h.size (keys (victimKey base n) (lowered h i n)) i := by
    apply ((heapOrdered_iff rep window).mp order).decrease
    · intro j hj hj' ne
      exact others j hj hj' ne
    · simp only [keys, self, offsetKey]
      omega
  have sorted : Ordered h.size (keys (victimKey base n) h') :=
    ordered (victimKey base n) agrees exception
  have size : h'.size = h.size := sifted.size
  have atRoot : (h'.v 1).node = some n := by
    obtain ⟨hk, hk', entry⟩ := rep'.back n _ (Function.update_self n _ M)
    have least := sorted.root_le (h'.index n) hk (by rw [← size]; exact hk')
    have key : keys (victimKey base n) h' (h'.index n) = -1 := by
      simp [keys, entry, victimKey]
    rw [key] at least
    by_contra other
    simp only [keys, victimKey, other, if_false] at least
    omega
  have spare : h'.v 0 = h.v 0 := by
    rw [sifted.spare]
    simp [lowered, show (0 : Nat) ≠ i by omega]
  refine ⟨h', by rw [start, run], rep', size, sifted.cap, spare, ?_, atRoot, ?_⟩
  · intro p ne outside
    exact sifted.outside p (by rw [Function.update_of_ne ne]; exact outside)
  · intro j two hj notChild
    have plain : ∀ k, 2 ≤ k → k ≤ h.size →
        keys (victimKey base n) h' k = offset base (h'.v k).value := by
      intro k hk hk'
      have notVictim : (h'.v k).node ≠ some n := by
        intro same
        have := rep'.slot_inj (j := k) (k := 1) (by omega) (by rw [size]; omega)
          (Nat.le_refl 1) (by rw [size]; omega) (same.trans atRoot.symm)
        omega
      simp [keys, victimKey, notVictim]
    have := sorted j two hj
    rw [plain j two hj, plain (j / 2) (by omega) (by omega)] at this
    omega

/-- Removal at any slot takes away exactly the pair that was there. -/
theorem heapRemove_ok (rep : Represents h M) (windowed : Windowed M)
    (order : HeapOrdered h) {i : Nat} {n : ν} (one : 1 ≤ i) (hi : i ≤ h.size)
    (victim : (h.v i).node = some n) :
    ∃ h', heapRemove h i = .ok h' ∧ Removed M n h h' ∧ HeapOrdered h' := by
  by_cases last : i = h.size
  · subst last
    have run : heapRemove h h.size = .ok { h with size := h.size - 1 } := by
      simp [heapRemove]
    exact ⟨_, run, ⟨dropLast_represents rep one victim, rfl, rfl, rfl, fun _ _ _ => rfl⟩,
      order.dropLast⟩
  · by_cases head : i = 1
    · subst head
      obtain ⟨h', run, removed, _, order'⟩ := heapRemove_head_ok rep (by omega) victim
      exact ⟨h', run, removed, order' windowed order⟩
    · obtain ⟨base, window⟩ := windowed
      obtain ⟨h₁, climb, rep₁, size₁, cap₁, spare₁, index₁, root, below⟩ :=
        heapBubbleUp_victim rep window order one hi victim
      obtain ⟨h₂, drop, removed, _, order₂⟩ := heapLastToHead_ok rep₁ (by omega) root
      have notLast : i ≠ 1 + h.size - 1 := by omega
      have capHead := rep.slot_lt_cap (k := 1) (Nat.le_refl 1) (by omega)
      have rep₂ := removed.represents
      rw [Function.update_idem] at rep₂ order₂
      refine ⟨h₂, ?_, ⟨rep₂, by rw [removed.size, size₁], removed.cap.trans cap₁,
        removed.spare.trans spare₁, ?_⟩, ?_⟩
      · simp only [heapRemove, heapHead_eq, notLast, if_false, ne_eq, head,
          not_false_eq_true, if_true, read_ok capHead, ok_bind, climb, drop]
      · intro p ne outside
        rw [removed.outside p ne (by rw [Function.update_of_ne ne]; exact outside)]
        exact index₁ p ne outside
      · apply order₂ base (window.erase n)
        intro j two hj notChild
        exact below j two (by rw [← size₁]; exact hj) notChild

/-- Popping an empty heap reads slot 0, which holds no node. -/
theorem heapRemove_empty (empty : h.size = 0) (spare : (h.v 0).node = none) :
    ∃ f, heapRemove h 1 = .error f := by
  have start : heapRemove h 1 = heapLastToHead h := by
    simp [heapRemove, empty]
  rw [start]
  by_cases zero : 0 < h.cap
  · by_cases one : 1 < h.cap
    · exact ⟨.wildNode, by simp [heapLastToHead, empty, HeapMod32.read, zero,
        HeapMod32.write, one, spare, HeapMod32.setIndex]⟩
    · exact ⟨.outOfBounds, by simp [heapLastToHead, empty, HeapMod32.read, zero,
        HeapMod32.write, one]⟩
  · exact ⟨.outOfBounds, by simp [heapLastToHead, empty, HeapMod32.read, zero]⟩

end CThread.Heap
