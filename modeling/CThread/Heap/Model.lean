import Mathlib.Logic.Function.Basic
import CThread.Lib.Faults
import CThread.Lib.SerialOrder

/-!
The timer heap of `heap.c`.

The slots, the back-pointers `node->index` and the two sizes are kept apart, as
in the source. `HEAP_HEAD` is 1, so slot 0 is allocated but never written. An
access to a slot at or beyond `cap`, a dereference of a node pointer that was
never written and a failed `heap_swap` assertion are faults. The two `for (;;)`
loops run on fuel; running out of it is a fault as well.
-/
namespace CThread.Heap
open SerialOrder Faults

inductive HeapFault
  | outOfBounds
  | wildNode
  | assertion
  | diverges
  deriving DecidableEq, Repr

/-- `struct heap_mod32_entry`. The node of an entry that was never written is
`none`. -/
structure HeapMod32Entry (ν : Type) where
  value : BitVec 32
  node : Option ν
  deriving DecidableEq, Repr

/-- `struct heap_mod32`, together with the `index` field of every node. -/
structure HeapMod32 (ν : Type) where
  v : Nat → HeapMod32Entry ν
  size : Nat
  cap : Nat
  index : ν → Nat

def heapInvalid : Nat := 0
def heapHead : Nat := 1

@[simp] theorem heapInvalid_eq : heapInvalid = 0 := rfl
@[simp] theorem heapHead_eq : heapHead = 1 := rfl

variable {ν : Type} [DecidableEq ν]

def HeapMod32.read (h : HeapMod32 ν) (i : Nat) : Except HeapFault (HeapMod32Entry ν) :=
  if i < h.cap then .ok (h.v i) else .error .outOfBounds

def HeapMod32.write (h : HeapMod32 ν) (i : Nat) (e : HeapMod32Entry ν) :
    Except HeapFault (HeapMod32 ν) :=
  if i < h.cap then .ok { h with v := Function.update h.v i e }
  else .error .outOfBounds

/-- `p->index = i`. -/
def HeapMod32.setIndex (h : HeapMod32 ν) (p : Option ν) (i : Nat) :
    Except HeapFault (HeapMod32 ν) :=
  match p with
  | some n => .ok { h with index := Function.update h.index n i }
  | none => .error .wildNode

def heapParent (idx : Nat) : Nat := idx / 2
def heapLeft (idx : Nat) : Nat := 2 * idx

def heapLess (h : HeapMod32 ν) (a b : Nat) : Except HeapFault Bool := do
  let x ← h.read a
  let y ← h.read b
  return precedes x.value y.value

def heapSwap (h : HeapMod32 ν) (a b : Nat) : Except HeapFault (HeapMod32 ν) :=
  if 0 < a ∧ a ≤ h.size ∧ 0 < b ∧ b ≤ h.size then do
    let ae ← h.read a
    let be ← h.read b
    let h ← h.setIndex ae.node b
    let h ← h.setIndex be.node a
    let h ← h.write a be
    h.write b ae
  else .error .assertion

/-- The loop of `heap_bubble_up`. -/
def heapBubbleUpLoop : Nat → HeapMod32 ν → Nat → Except HeapFault (HeapMod32 ν)
  | 0, _, _ => .error .diverges
  | fuel + 1, h, idx =>
      let parent := heapParent idx
      if parent = 0 then .ok h
      else do
        let less ← heapLess h idx parent
        if less then do
          let h ← heapSwap h idx parent
          heapBubbleUpLoop fuel h parent
        else .ok h

def heapBubbleUp (h : HeapMod32 ν) (idx : Nat) (value : BitVec 32) :
    Except HeapFault (HeapMod32 ν) := do
  let e ← h.read idx
  let h ← h.write idx { e with value := value }
  heapBubbleUpLoop (idx + 1) h idx

/-- The child that `heap_bubble_down` compares with its parent. -/
def heapSmaller (h : HeapMod32 ν) (left : Nat) : Except HeapFault Nat :=
  let right := left + 1
  if right ≤ h.size then do
    let less ← heapLess h right left
    return if less then right else left
  else .ok left

/-- The loop of `heap_bubble_down`. -/
def heapBubbleDownLoop : Nat → HeapMod32 ν → Nat → Except HeapFault (HeapMod32 ν)
  | 0, _, _ => .error .diverges
  | fuel + 1, h, parent =>
      let left := heapLeft parent
      if left > h.size then .ok h
      else do
        let smaller ← heapSmaller h left
        let less ← heapLess h smaller parent
        if less then do
          let h ← heapSwap h smaller parent
          heapBubbleDownLoop fuel h smaller
        else .ok h

def heapBubbleDown (h : HeapMod32 ν) : Except HeapFault (HeapMod32 ν) :=
  heapBubbleDownLoop (h.size + 1) h heapHead

/-- The growth step of `heap_insert`. `xrealloc` keeps the old slots; the new
ones hold whatever was there. -/
def heapReserve (h : HeapMod32 ν) : HeapMod32 ν :=
  if heapHead + h.size ≥ h.cap then { h with cap := h.cap * 2 + 16 } else h

def heapInsert (h : HeapMod32 ν) (n : ν) (value : BitVec 32) :
    Except HeapFault (HeapMod32 ν) := do
  let h := heapReserve h
  let idx := heapHead + h.size
  let h := { h with size := h.size + 1 }
  let h ← h.setIndex (some n) idx
  let e ← h.read idx
  let h ← h.write idx { e with node := some n }
  heapBubbleUp h idx value

/-- The second half of `heap_remove`: the last item, in slot
`HEAP_HEAD + --h->size`, moves to the head and sinks. -/
def heapLastToHead (h : HeapMod32 ν) : Except HeapFault (HeapMod32 ν) := do
  let lastSlot := heapHead + h.size - 1
  let h := { h with size := h.size - 1 }
  let last ← h.read lastSlot
  let h ← h.write heapHead last
  let h ← h.setIndex last.node heapHead
  heapBubbleDown h

def heapRemove (h : HeapMod32 ν) (idx : Nat) : Except HeapFault (HeapMod32 ν) :=
  if idx = heapHead + h.size - 1 then .ok { h with size := h.size - 1 }
  else if idx ≠ heapHead then do
    let head ← h.read heapHead
    let h ← heapBubbleUp h idx (head.value - 1)
    heapLastToHead h
  else heapLastToHead h

/-- `memset(h, 0, sizeof *h)`: no slots. What the nodes' `index` fields and the
memory later handed out by `xrealloc` hold is left open, except that no node
pointer in it was ever written. -/
def HeapMod32.zeroed (garbage : Nat → BitVec 32) (index : ν → Nat) : HeapMod32 ν where
  v i := ⟨garbage i, none⟩
  size := 0
  cap := 0
  index := index

end CThread.Heap
