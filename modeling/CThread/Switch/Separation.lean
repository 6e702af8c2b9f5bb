import CThread.Switch.Model

/-!
Who may write where. The words that the C code relies on while a context is suspended are its
frame, the cell that points to the frame, and the pointer from a thread to the
`cthread_main`; each of them is out of reach of every other valid.
-/
namespace CThread.Switch
open Faults GuardedRuns X64
open X64.Cpu
open CThread.Threads (null cthreadAddress)

namespace Layout
variable {L : Layout} {a : Word} {b c d t u : Word} {i n : Nat}

/-- `n` words from `a` upwards lie in the stack of `c`. -/
def Stack (L : Layout) (c a : Word) (n : Nat) : Prop :=
  L.low c ≤ a.toNat ∧ a.toNat + 8 * n ≤ L.high c

instance (L : Layout) (c a : Word) (n : Nat) : Decidable (L.Stack c a n) :=
  inferInstanceAs (Decidable (_ ∧ _))

/-- Where the stack pointer of a suspended context is kept. -/
def cell (L : Layout) (c : Word) : Word := if c = null then L.m else c

/-- The words outside the stacks that only the C code above writes. -/
def Fixed (L : Layout) (a : Word) : Prop :=
  a = L.m ∨ ∃ t, L.thread t ∧ (a = t ∨ a = mainField t)

/-- Memory that any context may write. -/
def Free (L : Layout) (a : Word) : Prop := (∀ d, ¬ L.Stack d a 1) ∧ ¬ L.Fixed a

/-- The words that `c` may write while it runs. -/
def Own (L : Layout) (c a : Word) : Prop := L.Stack c a 1 ∨ L.Free a

@[simp] theorem cell_null : L.cell null = L.m := if_pos rfl

theorem cell_of_ne (ne : c ≠ null) : L.cell c = c := if_neg ne

theorem Stack.word (stack : L.Stack c a n) (inside : i < n) : L.Stack c (slot a i) 1 := by
  have fits := L.stack_fits c
  unfold Stack at *
  rw [slot_toNat (by omega)]
  omega

theorem Stack.short {n' : Nat} (stack : L.Stack c a n) (fewer : n' ≤ n) : L.Stack c a n' := by
  unfold Stack at *
  omega

theorem Stack.off (stack : L.Stack c a 1) (ne : c ≠ d) : ¬ L.Stack d a 1 := by
  have apart := L.stacks_apart c d ne
  unfold Stack at *
  omega

theorem Stack.own (stack : L.Stack c a n) (inside : i < n) : L.Own c (slot a i) :=
  .inl (stack.word inside)

theorem block_toNat (thread : L.thread t) (inside : i < 11) :
    (slot t i).toNat = t.toNat + 8 * i :=
  slot_toNat (by have := L.block_fits t thread; omega)

theorem block_off (thread : L.thread t) (inside : i < 11) : ¬ L.Stack d (slot t i) 1 := by
  have apart := L.block_off_stack t d thread
  unfold Stack
  rw [block_toNat thread inside]
  omega

theorem main_off : ¬ L.Stack d L.m 1 := by
  have apart := L.main_off_stack d
  unfold Stack
  omega

theorem main_ne_block (thread : L.thread t) (inside : i < 11) : L.m ≠ slot t i := fun same => by
  have apart := L.main_off_block t thread
  have here := block_toNat thread inside
  rw [← same] at here
  omega

/-- Two words of control blocks are the same only as the same word of one block. -/
theorem block_inj {j : Nat} (first : L.thread t) (second : L.thread u) (inside : i < 11)
    (inside' : j < 11) (same : slot t i = slot u j) : t = u ∧ i = j := by
  have here := block_toNat first inside
  have there := block_toNat second inside'
  rw [same] at here
  by_cases ne : t = u
  · subst ne
    exact ⟨rfl, by omega⟩
  · have apart := L.blocks_apart t u first second ne
    omega

theorem Fixed.off (fixed : L.Fixed a) : ¬ L.Stack d a 1 := by
  obtain rfl | ⟨t, thread, rfl | rfl⟩ := fixed
  · exact main_off
  · have off := block_off (d := d) thread (show 0 < 11 by decide)
    rwa [slot_zero] at off
  · exact block_off thread (by decide)

theorem Fixed.not_own (fixed : L.Fixed a) : ¬ L.Own d a := fun own =>
  own.elim fixed.off fun outside => outside.2 fixed

/-- A field other than `stack` and `main` may be written by anyone. -/
theorem field_free (thread : L.thread t) (inside : i < 11) (notStack : i ≠ 0) (notMain : i ≠ 4) :
    L.Free (slot t i) := by
  refine ⟨fun c => block_off thread inside, ?_⟩
  rintro (same | ⟨u, other, same | same⟩)
  · exact main_ne_block thread inside same.symm
  · rw [← slot_zero u] at same
    exact notStack (block_inj thread other inside (by decide) same).2
  · exact notMain (block_inj thread other inside (by decide) same).2

theorem Stack.not_own (stack : L.Stack c a 1) (ne : c ≠ d) : ¬ L.Own d a := fun own =>
  own.elim (stack.off ne) fun outside => outside.1 c stack

def Valid (L : Layout) (c : Word) : Prop := c = null ∨ L.thread c

theorem cell_eq_block (thread : L.thread t) : L.cell t = slot t 0 := by
  rw [cell_of_ne (L.thread_ne_null t thread), slot_zero]

theorem Valid.fixed (valid : L.Valid c) : L.Fixed (L.cell c) := by
  obtain rfl | thread := valid
  · exact .inl cell_null
  · rw [cell_of_ne (L.thread_ne_null c thread)]
    exact .inr ⟨c, thread, .inl rfl⟩

theorem Valid.aligned (valid : L.Valid c) : Aligned (L.cell c) := by
  obtain rfl | thread := valid
  · rw [cell_null]
    exact L.main_aligned
  · rw [cell_of_ne (L.thread_ne_null c thread)]
    exact L.thread_aligned c thread

theorem Valid.cell_ne (first : L.Valid c) (second : L.Valid d) (ne : c ≠ d) :
    L.cell c ≠ L.cell d := by
  obtain rfl | thread := first <;> obtain rfl | other := second
  · exact absurd rfl ne
  · rw [cell_null, cell_eq_block other]
    exact main_ne_block other (by decide)
  · rw [cell_null, cell_eq_block thread]
    exact (main_ne_block thread (by decide)).symm
  · rw [cell_eq_block thread, cell_eq_block other]
    exact fun same => ne (block_inj thread other (by decide) (by decide) same).1

theorem Valid.field_ne_cell (valid : L.Valid d) (thread : L.thread t) (inside : i < 11)
    (notStack : i ≠ 0) : slot t i ≠ L.cell d := by
  obtain rfl | other := valid
  · rw [cell_null]
    exact (main_ne_block thread inside).symm
  · rw [cell_eq_block other]
    exact fun same => notStack (block_inj thread other inside (by decide) same).2

end Layout

variable {L : Layout} {mem mem' : Word → Word} {saved : Word → Option Context}
  {a c d run src tgt : Word} {k : Context}

/-- A thread can be found from `cthread_self`, and its `cthread_main` from it. -/
def Known (L : Layout) (mem : Word → Word) (c : Word) : Prop :=
  c = null ∨ L.thread c ∧ mem (mainField c) = L.m

theorem Known.valid (known : Known L mem c) : L.Valid c := known.imp_right And.left

/-- `c` is suspended with context `k`. -/
structure Parked (L : Layout) (mem : Word → Word) (c : Word) (k : Context) : Prop where
  known : Known L mem c
  aligned : Aligned k.rsp
  stack : mem (L.cell c) = k.rsp - 56
  room : L.Stack c (k.rsp - 56) 7
  frame : Holds mem (k.rsp - 56) (frameWords k)

structure Separated (L : Layout) (saved : Word → Option Context) (run : Word)
    (mem : Word → Word) : Prop where
  known : Known L mem run
  running : saved run = none
  parked : ∀ c k, saved c = some k → Parked L mem c k
  main : run ≠ null → ∃ k, saved null = some k

/-- `d` has run: what it may not write is as it was, apart from where its stack pointer is
kept. -/
def Touched (L : Layout) (d : Word) (mem mem' : Word → Word) : Prop :=
  ∀ a, ¬ L.Own d a → a ≠ L.cell d → mem' a = mem a

theorem Touched.update (v : Word) (own : L.Own d a) :
    Touched L d mem (Function.update mem a v) := fun b notOwn _ =>
  Function.update_of_ne (fun same : b = a => notOwn (same ▸ own)) ..

theorem Known.congr (known : Known L mem c)
    (same : L.thread c → mem' (mainField c) = mem (mainField c)) : Known L mem' c :=
  known.imp_right fun ⟨thread, main⟩ => ⟨thread, (same thread).trans main⟩

theorem Parked.congr (parked : Parked L mem c k)
    (main : L.thread c → mem' (mainField c) = mem (mainField c))
    (cell : mem' (L.cell c) = mem (L.cell c))
    (frame : ∀ i, i < 7 → mem' (slot (k.rsp - 56) i) = mem (slot (k.rsp - 56) i)) :
    Parked L mem' c k :=
  ⟨parked.known.congr main, parked.aligned, cell.trans parked.stack, parked.room,
    parked.frame.congr frame⟩

/-- The words that a suspended context relies on. -/
def Relies (L : Layout) (c a : Word) : Prop :=
  L.Stack c a 1 ∨ a = L.cell c ∨ L.thread c ∧ a = mainField c

theorem Parked.of_relies (parked : Parked L mem c k)
    (same : ∀ a, Relies L c a → mem' a = mem a) : Parked L mem' c k :=
  parked.congr (fun thread => same _ (.inr (.inr ⟨thread, rfl⟩))) (same _ (.inr (.inl rfl)))
    fun _ inside => same _ (.inl (parked.room.word inside))

section Relies
variable (valid : L.Valid c) (ne : c ≠ d) (relies : Relies L c a)
include valid ne relies

theorem Relies.not_own : ¬ L.Own d a := by
  obtain stack | rfl | ⟨thread, rfl⟩ := relies
  · exact stack.not_own ne
  · exact valid.fixed.not_own
  · exact Layout.Fixed.not_own (.inr ⟨c, thread, .inr rfl⟩)

theorem Relies.ne_cell (other : L.Valid d) : a ≠ L.cell d := by
  obtain stack | rfl | ⟨thread, rfl⟩ := relies
  · exact fun same => other.fixed.off (same ▸ stack)
  · exact valid.cell_ne other ne
  · exact other.field_ne_cell thread (by decide) (by decide)

theorem Relies.ne_mainField (other : L.thread d) : a ≠ mainField d := by
  have fixed : L.Fixed (mainField d) := .inr ⟨d, other, .inr rfl⟩
  obtain stack | rfl | ⟨thread, rfl⟩ := relies
  · exact fun same => fixed.off (same ▸ stack)
  · exact (valid.field_ne_cell other (by decide) (by decide)).symm
  · exact fun same => ne (Layout.block_inj thread other (by decide) (by decide) same).1

end Relies

theorem Known.touch (known : Known L mem c) (touched : Touched L d mem mem')
    (valid : L.Valid d) : Known L mem' c :=
  known.congr fun thread => touched _ (Layout.Fixed.not_own (.inr ⟨c, thread, .inr rfl⟩))
    (valid.field_ne_cell thread (by decide) (by decide))

theorem Parked.touch (parked : Parked L mem c k) (touched : Touched L d mem mem')
    (valid : L.Valid d) (ne : c ≠ d) : Parked L mem' c k :=
  have own := parked.known.valid
  parked.of_relies fun a relies =>
    touched a (relies.not_own own ne) (relies.ne_cell own ne valid)

/-- The run rule for what happens inside of one valid. -/
theorem Separated.touch (sep : Separated L saved run mem) (touched : Touched L run mem mem') :
    Separated L saved run mem' := by
  have valid := sep.known.valid
  refine ⟨sep.known.touch touched valid, sep.running, fun c k at_c => ?_, sep.main⟩
  refine (sep.parked c k at_c).touch touched valid fun same => ?_
  rw [same, sep.running] at at_c
  cases at_c

end CThread.Switch
