import CThread.Heap.Representation

/-!
The two sift loops of `heap.c`.

Each loop ends, stays inside the slots of the heap and keeps its contents for
every outcome of the comparisons. The order of the result needs more: the
comparisons must agree with some integer key, for the moving entry in
`heap_bubble_up` and for all entries in `heap_bubble_down`.
-/
namespace CThread.Heap
open SerialOrder Faults HeapOrder
variable {ν : Type}

def keys (key : HeapMod32Entry ν → Int) (h : HeapMod32 ν) : Nat → Int :=
  fun k => key (h.v k)

/-- The comparison of slot `i` with any other slot is that of their keys. -/
def AgreesAt (key : HeapMod32Entry ν → Int) (h : HeapMod32 ν) (i : Nat) : Prop :=
  ∀ j, 1 ≤ j → j ≤ h.size → j ≠ i →
    (precedes (h.v i).value (h.v j).value = true ↔ key (h.v i) < key (h.v j))

def Agrees (key : HeapMod32Entry ν → Int) (h : HeapMod32 ν) : Prop :=
  ∀ i j, 1 ≤ i → i ≤ h.size → 1 ≤ j → j ≤ h.size →
    (precedes (h.v i).value (h.v j).value = true ↔ key (h.v i) < key (h.v j))

theorem keys_exchange (key : HeapMod32Entry ν → Int) {h h' : HeapMod32 ν} {a b : Nat}
    (slots : h'.v = exchange h.v a b) :
    keys key h' = exchange (keys key h) a b := by
  funext k
  simp only [keys, slots]
  rfl

theorem AgreesAt.exchange {key : HeapMod32Entry ν → Int} {h h' : HeapMod32 ν}
    {a b : Nat} (agrees : AgreesAt key h a) (size : h'.size = h.size)
    (hb : 1 ≤ b) (hb' : b ≤ h.size) (slots : h'.v = exchange h.v a b) :
    AgreesAt key h' b := by
  intro j one hj ne
  rw [size] at hj
  rw [slots, exchange_right]
  by_cases atA : j = a
  · subst atA
    rw [exchange_left]
    exact agrees b hb hb' (fun same => ne same.symm)
  · rw [exchange_other h.v atA ne]
    exact agrees j one hj atA

/-- An exchange only renames the slots. -/
theorem exchange_slot (f : Nat → HeapMod32Entry ν) {a b n : Nat} (ha : 1 ≤ a)
    (ha' : a ≤ n) (hb : 1 ≤ b) (hb' : b ≤ n) (i : Nat) (one : 1 ≤ i) (hi : i ≤ n) :
    ∃ j, 1 ≤ j ∧ j ≤ n ∧ exchange f a b i = f j := by
  by_cases atA : i = a
  · subst atA
    exact ⟨b, hb, hb', exchange_left f⟩
  · by_cases atB : i = b
    · subst atB
      exact ⟨a, ha, ha', exchange_right f⟩
    · exact ⟨i, one, hi, exchange_other f atA atB⟩

theorem Agrees.exchange {key : HeapMod32Entry ν → Int} {h h' : HeapMod32 ν}
    {a b : Nat} (agrees : Agrees key h) (size : h'.size = h.size)
    (ha : 1 ≤ a) (ha' : a ≤ h.size) (hb : 1 ≤ b) (hb' : b ≤ h.size)
    (slots : h'.v = exchange h.v a b) : Agrees key h' := by
  intro i j hi hi' hj hj'
  rw [size] at hi' hj'
  obtain ⟨i', one, hi₁, slotI⟩ := exchange_slot h.v ha ha' hb hb' i hi hi'
  obtain ⟨j', one', hj₁, slotJ⟩ := exchange_slot h.v ha ha' hb hb' j hj hj'
  rw [slots, slotI, slotJ]
  exact agrees i' j' one hi₁ one' hj₁

variable {M : ν → Option (BitVec 32)}

theorem heapSmaller_ok {h : HeapMod32 ν} (rep : Represents h M) {left : Nat}
    (one : 1 ≤ left) (hleft : left ≤ h.size) :
    ∃ c, heapSmaller h left = .ok c ∧ (c = left ∨ c = left + 1) ∧ c ≤ h.size ∧
      ∀ key, Agrees key h → ∀ j, (j = left ∨ j = left + 1) → j ≤ h.size →
        keys key h c ≤ keys key h j := by
  by_cases right : left + 1 ≤ h.size
  · have compared := heapLess_ok rep (by omega) right one hleft
    cases less : precedes (h.v (left + 1)).value (h.v left).value with
    | false =>
        rw [less] at compared
        refine ⟨left, by simp [heapSmaller, right, compared], .inl rfl, hleft, ?_⟩
        intro key agrees j hj _
        have := agrees (left + 1) left (by omega) right one hleft
        rw [less] at this
        cases hj with
        | inl same => rw [same]
        | inr same =>
            rw [same]
            exact Int.not_lt.mp (by simpa [keys] using this)
    | true =>
        rw [less] at compared
        refine ⟨left + 1, by simp [heapSmaller, right, compared], .inr rfl, right, ?_⟩
        intro key agrees j hj _
        have := (agrees (left + 1) left (by omega) right one hleft).mp less
        cases hj with
        | inl same =>
            rw [same]
            exact Int.le_of_lt this
        | inr same => rw [same]
  · refine ⟨left, by simp [heapSmaller, right], .inl rfl, hleft, ?_⟩
    intro key _ j hj bound
    have same : j = left := by omega
    rw [same]

variable [DecidableEq ν]

theorem heapBubbleUpLoop_ok (fuel : Nat) :
    ∀ {h : HeapMod32 ν} {idx : Nat}, Represents h M → 1 ≤ idx → idx ≤ h.size →
      idx < fuel →
      ∃ h', heapBubbleUpLoop fuel h idx = .ok h' ∧ Represents h' M ∧ Sifted M h h' ∧
        ∀ key, AgreesAt key h idx → OrderedUp h.size (keys key h) idx →
          Ordered h.size (keys key h') := by
  induction fuel with
  | zero => intro h idx _ _ _ enough; omega
  | succ fuel ih =>
      intro h idx rep one hidx enough
      by_cases root : heapParent idx = 0
      · refine ⟨h, by simp [heapBubbleUpLoop, root], rep, Sifted.refl M h, ?_⟩
        intro key _ order
        apply order.done
        intro two
        simp only [heapParent] at root
        omega
      · have parentLe : heapParent idx ≤ h.size := by
          simp only [heapParent]
          omega
        have parentOne : 1 ≤ heapParent idx := Nat.pos_of_ne_zero root
        have two : 2 ≤ idx := by
          simp only [heapParent] at root
          omega
        have compared := heapLess_ok rep one hidx parentOne parentLe
        cases less : precedes (h.v idx).value (h.v (heapParent idx)).value with
        | false =>
            rw [less] at compared
            refine ⟨h, by simp [heapBubbleUpLoop, root, compared], rep,
              Sifted.refl M h, ?_⟩
            intro key agrees order
            apply order.done
            intro _ _
            have differ : heapParent idx ≠ idx := by
              simp only [heapParent]
              omega
            have := agrees (heapParent idx) parentOne parentLe differ
            rw [less] at this
            exact Int.not_lt.mp (by simpa [keys, heapParent] using this)
        | true =>
            rw [less] at compared
            obtain ⟨h₁, swap, slots, rep₁, sifted₁⟩ :=
              heapSwap_ok rep one hidx parentOne parentLe
            obtain ⟨h₂, run, rep₂, sifted₂, order₂⟩ :=
              ih rep₁ parentOne (by rw [sifted₁.size]; exact parentLe)
                (by simp only [heapParent]; omega)
            refine ⟨h₂, by simp [heapBubbleUpLoop, root, compared, swap, run], rep₂,
              sifted₁.trans sifted₂, ?_⟩
            intro key agrees order
            have differ : heapParent idx ≠ idx := by
              simp only [heapParent]
              omega
            have smaller : keys key h idx < keys key h (idx / 2) :=
              (agrees (heapParent idx) parentOne parentLe differ).mp less
            have moved := order.exchange two hidx smaller
            have result := order₂ key
              (agrees.exchange sifted₁.size parentOne parentLe slots)
            rw [sifted₁.size, keys_exchange key slots] at result
            exact result moved

theorem heapBubbleDownLoop_ok (fuel : Nat) :
    ∀ {h : HeapMod32 ν} {parent : Nat}, Represents h M → 1 ≤ parent →
      (parent ≤ h.size ∨ parent = 1) → h.size + 1 < fuel + parent →
      ∃ h', heapBubbleDownLoop fuel h parent = .ok h' ∧ Represents h' M ∧
        Sifted M h h' ∧
        ∀ key, Agrees key h → OrderedDown h.size (keys key h) parent →
          Ordered h.size (keys key h') := by
  induction fuel with
  | zero =>
      intro h parent _ _ inside enough
      omega
  | succ fuel ih =>
      intro h parent rep one _ enough
      by_cases leaf : heapLeft parent > h.size
      · refine ⟨h, by simp [heapBubbleDownLoop, leaf], rep, Sifted.refl M h, ?_⟩
        intro key _ order
        apply order.done
        intro j two hj below
        simp only [heapLeft] at leaf
        omega
      · have leftLe : heapLeft parent ≤ h.size := by omega
        have leftOne : 1 ≤ heapLeft parent := by
          simp only [heapLeft]
          omega
        obtain ⟨c, pick, which, hc, least⟩ := heapSmaller_ok rep leftOne leftLe
        have child : c / 2 = parent := by
          simp only [heapLeft] at which
          omega
        have cOne : 1 ≤ c := by omega
        have parentLe : parent ≤ h.size := by omega
        have compared := heapLess_ok rep cOne hc one parentLe
        have siblings : ∀ j, 2 ≤ j → j / 2 = parent →
            (j = heapLeft parent ∨ j = heapLeft parent + 1) := by
          intro j two below
          simp only [heapLeft]
          omega
        cases less : precedes (h.v c).value (h.v parent).value with
        | false =>
            rw [less] at compared
            refine ⟨h, by simp [heapBubbleDownLoop, leaf, pick, compared], rep,
              Sifted.refl M h, ?_⟩
            intro key agrees order
            apply order.done
            intro j two hj below
            have := agrees c parent cOne hc one parentLe
            rw [less] at this
            have above : keys key h parent ≤ keys key h c :=
              Int.not_lt.mp (by simpa [keys] using this)
            exact Int.le_trans above (least key agrees j (siblings j two below) hj)
        | true =>
            rw [less] at compared
            obtain ⟨h₁, swap, slots, rep₁, sifted₁⟩ := heapSwap_ok rep cOne hc one parentLe
            obtain ⟨h₂, run, rep₂, sifted₂, order₂⟩ :=
              ih rep₁ cOne (.inl (by rw [sifted₁.size]; exact hc))
                (by rw [sifted₁.size]; omega)
            refine ⟨h₂, by simp [heapBubbleDownLoop, leaf, pick, compared, swap, run],
              rep₂, sifted₁.trans sifted₂, ?_⟩
            intro key agrees order
            have smaller : keys key h c < keys key h parent :=
              (agrees c parent cOne hc one parentLe).mp less
            have moved := order.exchange one child hc smaller
              (fun j two hj below => least key agrees j (siblings j two below) hj)
            have result := order₂ key
              (agrees.exchange sifted₁.size cOne hc one parentLe slots)
            rw [sifted₁.size, keys_exchange key slots] at result
            exact result moved

end CThread.Heap
