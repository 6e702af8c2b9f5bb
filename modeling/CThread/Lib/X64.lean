import CThread.Lib.Faults
import Mathlib.Algebra.Group.Nat.Defs
import Mathlib.Logic.Function.Basic

/-!
The integer fragment of x86-64 that hand-written context switches use.

Memory holds a 64-bit word at every address that is a multiple of 8, and an access anywhere
else is a fault, so that no two words overlap. A routine is straight-line code that ends in
`ret`; the code reached by an indirect call is a function from the state at its entry to the
state after its own `ret`.
-/
namespace X64
open Faults

abbrev Word := BitVec 64

inductive Reg
  | rax | rbx | rcx | rdx | rsi | rdi | rbp | rsp
  | r8 | r9 | r10 | r11 | r12 | r13 | r14 | r15
  deriving DecidableEq, Repr

inductive Fault
  | misaligned
  | wildReturn
  | trap
  deriving DecidableEq, Repr

structure Cpu where
  reg : Reg → Word
  mem : Word → Word
  rip : Word

/-- AT&T operand order: sources first. -/
inductive Instr
  | lea (disp : Word) (base dst : Reg)
  | mov (src dst : Reg)
  | load (disp : Word) (base dst : Reg)
  | store (src : Reg) (disp : Word) (base : Reg)
  | push (src : Reg)
  | pop (dst : Reg)
  | xchg (a b : Reg)
  /-- `call *src`, where `next` is the address of the following instruction. -/
  | call (src : Reg) (next : Word)
  | ret
  deriving DecidableEq, Repr

def Aligned (a : Word) : Prop := a.toNat % 8 = 0

instance (a : Word) : Decidable (Aligned a) := inferInstanceAs (Decidable (_ = _))

theorem Aligned.add {a b : Word} (left : Aligned a) (right : Aligned b) : Aligned (a + b) := by
  unfold Aligned at *
  rw [BitVec.toNat_add]
  omega

theorem Aligned.sub {a b : Word} (left : Aligned a) (right : Aligned b) : Aligned (a - b) := by
  unfold Aligned at *
  rw [BitVec.toNat_sub]
  omega

theorem displace_zero (a : Word) : a + 0 = a := BitVec.add_zero a

namespace Cpu
variable {c : Cpu} {a v : Word} {r : Reg}

def set (c : Cpu) (r : Reg) (v : Word) : Cpu := { c with reg := Function.update c.reg r v }

def read (c : Cpu) (a : Word) : Except Fault Word :=
  if Aligned a then .ok (c.mem a) else .error .misaligned

def write (c : Cpu) (a v : Word) : Except Fault Cpu :=
  if Aligned a then .ok { c with mem := Function.update c.mem a v } else .error .misaligned

def pushWord (c : Cpu) (v : Word) : Except Fault Cpu :=
  (c.set .rsp (c.reg .rsp - 8)).write (c.reg .rsp - 8) v

def popWord (c : Cpu) : Except Fault (Word × Cpu) := do
  let v ← c.read (c.reg .rsp)
  return (v, c.set .rsp (c.reg .rsp + 8))

/-- A call of the function at `fn`, where the caller goes on at `next`. -/
def callFunction (c : Cpu) (body : Cpu → Cpu) (fn next : Word) : Except Fault Cpu := do
  let entry ← c.pushWord next
  let c := body { entry with rip := fn }
  if c.rip = next then return c else .error .wildReturn

/-- One instruction, with the function that an indirect call runs. -/
def step (body : Cpu → Cpu) (c : Cpu) : Instr → Except Fault Cpu
  | .lea disp base dst => .ok (c.set dst (c.reg base + disp))
  | .mov src dst => .ok (c.set dst (c.reg src))
  | .load disp base dst => do
      let v ← c.read (c.reg base + disp)
      return c.set dst v
  | .store src disp base => c.write (c.reg base + disp) (c.reg src)
  | .push src => c.pushWord (c.reg src)
  | .pop dst => do
      let (v, c) ← c.popWord
      return c.set dst v
  | .xchg a b => .ok ((c.set a (c.reg b)).set b (c.reg a))
  | .call src next => c.callFunction body (c.reg src) next
  | .ret => do
      let (v, c) ← c.popWord
      return { c with rip := v }

def exec (body : Cpu → Cpu) : List Instr → Cpu → Except Fault Cpu
  | [], c => .ok c
  | i :: rest, c => do
      let c ← c.step body i
      exec body rest c

/-- A routine that is called is straight-line code, and its `ret` ends the call. -/
def callRoutine (body : Cpu → Cpu) (code : List Instr) (next : Word) (c : Cpu) :
    Except Fault Cpu := do
  let c ← c.pushWord next
  exec body code c

/-- Words stored from `a` upwards. -/
def storeAll (c : Cpu) (a : Word) : List Word → Except Fault Cpu
  | [] => .ok c
  | v :: vs => do
      let c ← c.write a v
      c.storeAll (a + 8) vs

theorem exec_cons {body : Cpu → Cpu} {i : Instr} {rest : List Instr} {c' : Cpu}
    (first : c.step body i = .ok c') : exec body (i :: rest) c = exec body rest c' := by
  rw [exec, first, ok_bind]

theorem read_ok (aligned : Aligned a) : c.read a = .ok (c.mem a) := if_pos aligned

/-- The state after a store of `v` at `a`. -/
def stored (c : Cpu) (a v : Word) : Cpu := { c with mem := Function.update c.mem a v }

theorem write_ok (aligned : Aligned a) : c.write a v = .ok (c.stored a v) := if_pos aligned

/-- The state after a push of `v`. -/
def pushed (c : Cpu) (v : Word) : Cpu where
  reg := Function.update c.reg .rsp (c.reg .rsp - 8)
  mem := Function.update c.mem (c.reg .rsp - 8) v
  rip := c.rip

theorem pushWord_ok (aligned : Aligned (c.reg .rsp)) : c.pushWord v = .ok (c.pushed v) :=
  write_ok (aligned.sub (by decide))

theorem callFunction_ok {body : Cpu → Cpu} {fn next : Word} (aligned : Aligned (c.reg .rsp))
    (returned : (body { c.pushed next with rip := fn }).rip = next) :
    c.callFunction body fn next = .ok (body { c.pushed next with rip := fn }) := by
  rw [callFunction, pushWord_ok aligned, ok_bind]
  exact if_pos returned

theorem popWord_ok (aligned : Aligned (c.reg .rsp)) :
    c.popWord = .ok (c.mem (c.reg .rsp), c.set .rsp (c.reg .rsp + 8)) := by
  simp only [popWord, read_ok aligned, ok_bind, pure_eq_ok]

@[simp] theorem set_mem (c : Cpu) (r : Reg) (v : Word) : (c.set r v).mem = c.mem := rfl

@[simp] theorem set_reg_self (c : Cpu) (r : Reg) (v : Word) : (c.set r v).reg r = v :=
  Function.update_self ..

@[simp] theorem stored_reg (c : Cpu) (a v : Word) : (c.stored a v).reg = c.reg := rfl

@[simp] theorem stored_mem_self (c : Cpu) (a v : Word) : (c.stored a v).mem a = v :=
  Function.update_self (f := c.mem) ..

theorem stored_mem_of_ne (c : Cpu) {a b : Word} (ne : b ≠ a) (v : Word) :
    (c.stored a v).mem b = c.mem b :=
  Function.update_of_ne ne ..

theorem set_reg_of_ne (c : Cpu) {r s : Reg} (ne : s ≠ r) (v : Word) :
    (c.set r v).reg s = c.reg s :=
  Function.update_of_ne ne ..

@[simp] theorem pushed_rsp (c : Cpu) (v : Word) :
    (c.pushed v).reg .rsp = c.reg .rsp - 8 := by
  simp only [pushed, Function.update_self]

theorem pushed_reg (c : Cpu) (v : Word) (ne : r ≠ .rsp) : (c.pushed v).reg r = c.reg r :=
  Function.update_of_ne ne ..

end Cpu

/-- What a function keeps for its caller: the callee-saved registers, and where the caller
goes on. -/
@[ext] structure Context where
  rip : Word
  rsp : Word
  rbp : Word
  rbx : Word
  r12 : Word
  r13 : Word
  r14 : Word
  r15 : Word
  deriving DecidableEq, Repr

def Cpu.context (c : Cpu) : Context :=
  ⟨c.rip, c.reg .rsp, c.reg .rbp, c.reg .rbx, c.reg .r12, c.reg .r13, c.reg .r14, c.reg .r15⟩

/-- The context of a caller as it is to be when its call has returned. -/
def Cpu.returning (c : Cpu) (next : Word) : Context := { c.context with rip := next }

/-- The `i`-th word from `a` upwards. -/
def slot (a : Word) (i : Nat) : Word := a + BitVec.ofNat 64 (8 * i)

theorem slot_zero (a : Word) : slot a 0 = a := by simp [slot]

theorem slot_succ (a : Word) (i : Nat) : slot a (i + 1) = slot (a + 8) i := by
  simp only [slot]
  bv_omega

/-- The words from `a` upwards are `vs`. -/
def Holds (mem : Word → Word) : Word → List Word → Prop
  | _, [] => True
  | a, v :: vs => mem a = v ∧ Holds mem (a + 8) vs

theorem Holds.congr {mem mem' : Word → Word} {a : Word} {vs : List Word}
    (holds : Holds mem a vs) (same : ∀ i, i < vs.length → mem' (slot a i) = mem (slot a i)) :
    Holds mem' a vs := by
  induction vs generalizing a with
  | nil => trivial
  | cons v vs ih =>
      refine ⟨?_, ih holds.2 fun i inside => ?_⟩
      · have first := same 0 (Nat.zero_lt_succ _)
        rw [slot_zero] at first
        exact first.trans holds.1
      · rw [← slot_succ]
        exact same (i + 1) (Nat.succ_lt_succ inside)

theorem slot_slot (a : Word) (i j : Nat) : slot (slot a i) j = slot a (i + j) := by
  simp only [slot]
  bv_omega

theorem Holds.left {mem : Word → Word} {a : Word} {vs ws : List Word}
    (holds : Holds mem a (vs ++ ws)) : Holds mem a vs := by
  induction vs generalizing a with
  | nil => trivial
  | cons v vs ih => exact ⟨holds.1, ih holds.2⟩

theorem Holds.get {mem : Word → Word} {a : Word} {vs : List Word} (holds : Holds mem a vs)
    (i : Nat) (inside : i < vs.length) : mem (slot a i) = vs[i] := by
  induction vs generalizing a i with
  | nil => cases inside
  | cons v vs ih =>
      cases i with
      | zero =>
          rw [slot_zero]
          exact holds.1
      | succ i =>
          rw [slot_succ]
          exact ih holds.2 i (Nat.lt_of_succ_lt_succ inside)

theorem slot_ne_below {a : Word} {i : Nat} (short : i < 2 ^ 60) : slot a i ≠ a - 8 := by
  simp only [slot]
  bv_omega

theorem Aligned.slot {a : Word} (aligned : Aligned a) (i : Nat) : Aligned (slot a i) := by
  refine aligned.add ?_
  simp only [Aligned, BitVec.toNat_ofNat]
  omega

theorem slot_toNat {a : Word} {i : Nat} (fits : a.toNat + 8 * i < 2 ^ 64) :
    (slot a i).toNat = a.toNat + 8 * i := by
  simp only [slot, BitVec.toNat_add, BitVec.toNat_ofNat]
  omega

/-- What stores from `a` upwards leave. -/
structure Stored (c c' : Cpu) (a : Word) (vs : List Word) : Prop where
  reg : c'.reg = c.reg
  rip : c'.rip = c.rip
  holds : Holds c'.mem a vs
  kept : ∀ b, (∀ i, i < vs.length → b ≠ slot a i) → c'.mem b = c.mem b

theorem storeAll_ok (c : Cpu) {a : Word} (vs : List Word) (aligned : Aligned a)
    (short : vs.length < 2 ^ 60) : ∃ c', c.storeAll a vs = .ok c' ∧ Stored c c' a vs := by
  induction vs generalizing c a with
  | nil => exact ⟨c, rfl, rfl, rfl, trivial, fun _ _ => rfl⟩
  | cons v vs ih =>
      have short : vs.length + 1 < 2 ^ 60 := short
      have above : Aligned (a + 8) := aligned.add (by decide)
      obtain ⟨c', run, reg, rip, holds, kept⟩ :=
        ih (c.stored a v) above (Nat.lt_of_succ_lt short)
      have first : ∀ i, i < vs.length → a ≠ slot (a + 8) i := fun i inside => by
        have apart := slot_ne_below (a := a + 8) (i := i) (by omega)
        rw [BitVec.add_sub_cancel] at apart
        exact apart.symm
      refine ⟨c', ?_, reg, rip, ⟨?_, holds⟩, fun b outside => ?_⟩
      · rw [Cpu.storeAll, Cpu.write_ok aligned, ok_bind, run]
      · rw [kept a first, Cpu.stored_mem_self]
      · have ne : b ≠ a := by
          rw [← slot_zero a]
          exact outside 0 (Nat.zero_lt_succ _)
        rw [kept b fun i inside => ?_, Cpu.stored_mem_of_ne _ ne]
        rw [← slot_succ]
        exact outside (i + 1) (Nat.succ_lt_succ inside)

/-- A push puts a word below those that are there. -/
theorem Holds.push {c : Cpu} {vs : List Word} (holds : Holds c.mem (c.reg .rsp) vs)
    (short : vs.length < 2 ^ 60) (v : Word) :
    Holds (c.pushed v).mem ((c.pushed v).reg .rsp) (v :: vs) := by
  rw [Cpu.pushed_rsp]
  refine ⟨Function.update_self .., ?_⟩
  rw [BitVec.sub_add_cancel]
  refine holds.congr fun i inside => ?_
  exact Function.update_of_ne (slot_ne_below (Nat.lt_trans inside short)) ..

namespace Cpu
variable {c : Cpu} {body : Cpu → Cpu} {rs : List Reg}

/-- What a list of pushes leaves. -/
structure Pushes (c c' : Cpu) (rs : List Reg) : Prop where
  rsp : c'.reg .rsp = c.reg .rsp - BitVec.ofNat 64 (8 * rs.length)
  reg : ∀ r, r ≠ .rsp → c'.reg r = c.reg r
  holds : ∀ vs, vs.length + rs.length < 2 ^ 60 → Holds c.mem (c.reg .rsp) vs →
    Holds c'.mem (c'.reg .rsp) ((rs.map c.reg).reverse ++ vs)
  mem : ∀ a, (∀ i, i < rs.length → a ≠ slot (c'.reg .rsp) i) → c'.mem a = c.mem a

theorem exec_pushes (body : Cpu → Cpu) (aligned : Aligned (c.reg .rsp)) (off : .rsp ∉ rs)
    (rest : List Instr) :
    ∃ c', exec body (rs.map .push ++ rest) c = exec body rest c' ∧ Pushes c c' rs := by
  induction rs generalizing c with
  | nil =>
      refine ⟨c, rfl, by simp, fun _ _ => rfl, fun vs _ holds => by simpa using holds, ?_⟩
      exact fun _ _ => rfl
  | cons r rs ih =>
      have off : .rsp ∉ rs := fun inside => off (.tail _ inside)
      have first : c.step body (.push r) = .ok (c.pushed (c.reg r)) := pushWord_ok aligned
      have aligned' : Aligned ((c.pushed (c.reg r)).reg .rsp) := by
        rw [pushed_rsp]
        exact aligned.sub (by decide)
      obtain ⟨c', run, pushes⟩ := ih aligned' off
      have kept : rs.map (c.pushed (c.reg r)).reg = rs.map c.reg := by
        refine List.map_congr_left fun q inside => pushed_reg c _ ?_
        exact fun same => off (same ▸ inside)
      have bottom : slot (c'.reg .rsp) rs.length = c.reg .rsp - 8 := by
        rw [pushes.rsp, pushed_rsp, slot, BitVec.sub_add_cancel]
      refine ⟨c', (exec_cons first).trans run, ?_, ?_, ?_, ?_⟩
      · rw [pushes.rsp, pushed_rsp, List.length_cons]
        bv_omega
      · exact fun q ne => (pushes.reg q ne).trans (pushed_reg c _ ne)
      · intro vs short holds
        have short : (c.reg r :: vs).length + rs.length < 2 ^ 60 := by
          simp only [List.length_cons] at short ⊢
          omega
        have deeper := pushes.holds _ short (holds.push (by simp at short; omega) (c.reg r))
        rw [kept] at deeper
        simpa using deeper
      · intro a outside
        have below : a ≠ c.reg .rsp - 8 := by
          rw [← bottom]
          exact outside rs.length (Nat.lt_succ_self _)
        rw [pushes.mem a fun i inside => outside i (Nat.lt_succ_of_lt inside)]
        exact Function.update_of_ne below ..

/-- What a list of pops finds on the stack. -/
structure Pops (c c' : Cpu) (rs : List Reg) (f : Reg → Word) (ws : List Word) : Prop where
  mem : c'.mem = c.mem
  rsp : c'.reg .rsp = c.reg .rsp + BitVec.ofNat 64 (8 * rs.length)
  popped : ∀ r, r ∈ rs → c'.reg r = f r
  kept : ∀ r, r ∉ rs → r ≠ .rsp → c'.reg r = c.reg r
  rest : Holds c'.mem (c'.reg .rsp) ws

theorem exec_pops (body : Cpu → Cpu) (aligned : Aligned (c.reg .rsp)) (off : .rsp ∉ rs)
    {f : Reg → Word} {ws : List Word} (holds : Holds c.mem (c.reg .rsp) (rs.map f ++ ws))
    (rest : List Instr) :
    ∃ c', exec body (rs.map .pop ++ rest) c = exec body rest c' ∧ Pops c c' rs f ws := by
  induction rs generalizing c with
  | nil =>
      refine ⟨c, rfl, rfl, by simp, fun r inside => (by cases inside), fun _ _ _ => rfl, ?_⟩
      exact holds
  | cons r rs ih =>
      have notRsp : r ≠ .rsp := fun same => off (same ▸ .head _)
      have off : .rsp ∉ rs := fun inside => off (.tail _ inside)
      obtain ⟨here, holds⟩ := holds
      let c₁ := (c.set .rsp (c.reg .rsp + 8)).set r (f r)
      have first : c.step body (.pop r) = .ok c₁ := by
        simp only [step, popWord_ok aligned, ok_bind, pure_eq_ok, here, c₁]
      have rsp : c₁.reg .rsp = c.reg .rsp + 8 := by
        rw [set_reg_of_ne _ (Ne.symm notRsp), set_reg_self]
      have aligned' : Aligned (c₁.reg .rsp) := by
        rw [rsp]
        exact aligned.add (by decide)
      obtain ⟨c', run, pops⟩ := ih aligned' off (by rw [rsp]; exact holds)
      refine ⟨c', (exec_cons first).trans run, pops.mem, ?_, ?_, ?_, pops.rest⟩
      · rw [pops.rsp, rsp, List.length_cons]
        bv_omega
      · intro q inside
        by_cases again : q ∈ rs
        · exact pops.popped q again
        · have same : q = r := (List.mem_cons.mp inside).resolve_right again
          subst same
          rw [pops.kept q again notRsp]
          exact set_reg_self ..
      · intro q outside ne
        have other : q ≠ r := fun same => outside (same ▸ .head _)
        rw [pops.kept q (fun inside => outside (.tail _ inside)) ne, set_reg_of_ne _ other,
          set_reg_of_ne _ ne]

end Cpu

end X64
