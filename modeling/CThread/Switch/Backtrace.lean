import CThread.Switch.Links
import CThread.Switch.Entry

/-!
What a debugger that uses `unwinder.py` shows.

The threads from the running one along `yield_to` are those that wait for the one above them.
While nobody calls a thread of that chain, each of them is linked to the context below it as
that context was left, so the frames that the unwinder finds are where the contexts go on.
-/
namespace CThread.Switch
open Faults GuardedRuns X64
open X64.Cpu
open CThread.Threads (null cthreadAddress)

variable {L : Layout} {saved saved' : Word → Option Context} {s s' : Contexts}
  {t c next : Word} {l chain : List Word} {mem mem' : Word → Word}

/-- `t` is the running thread or one that waits for the thread above it. -/
inductive Contexts.OnChain (s : Contexts) : Word → Prop
  | self (running : s.self ≠ null) : OnChain s s.self
  | next {t : Word} (above : OnChain s t) (more : s.cpu.mem (yieldToField t) ≠ null) :
      OnChain s (s.cpu.mem (yieldToField t))

theorem Contexts.OnChain.running (on : s.OnChain t) : s.self ≠ null := by
  induction on with
  | self running => exact running
  | next _ _ ih => exact ih

/-- Each thread of the list is linked to the context below it, as that one was left. -/
def Backed (L : Layout) (saved : Word → Option Context) (mem : Word → Word) :
    List Word → Prop
  | [] => True
  | t :: rest =>
      L.thread t ∧ (∃ k, saved (rest.headD null) = some k ∧ Linked mem t (rest.headD null) k) ∧
        Backed L saved mem rest

theorem headD_mem (l : List Word) : l.headD null ∈ l ++ [null] := by
  cases l with
  | nil => exact .head _
  | cons t rest => exact .head _

theorem mem_of_tail (inside : c ∈ l.tail ++ [null]) : c ∈ l ++ [null] := by
  rcases List.mem_append.mp inside with inside | inside
  · exact List.mem_append_left _ (List.mem_of_mem_tail inside)
  · exact List.mem_append_right _ inside

namespace Backed

theorem keep (backed : Backed L saved mem l)
    (links : ∀ t, t ∈ l → L.thread t → ∀ c k, Linked mem t c k → Linked mem' t c k)
    (same : ∀ c, c ∈ l.tail ++ [null] → saved' c = saved c) : Backed L saved' mem' l := by
  induction l with
  | nil => trivial
  | cons t rest ih =>
      obtain ⟨thread, ⟨k, at_next, linked⟩, below⟩ := backed
      refine ⟨thread, ⟨k, ?_, links t (.head _) thread _ _ linked⟩,
        ih below (fun u inside => links u (.tail _ inside)) fun c inside => ?_⟩
      · exact (same _ (headD_mem rest)).trans at_next
      · exact same c (mem_of_tail inside)

theorem fields (backed : Backed L saved mem l) (kept : BlocksKept L 1 7 mem mem') :
    Backed L saved mem' l :=
  backed.keep (fun t _ thread _ _ linked => linked.congr fun i low high =>
    kept t i thread low high) fun _ _ => rfl

theorem member (backed : Backed L saved mem l) (inside : t ∈ l) :
    L.thread t ∧ ∃ k, saved (mem (yieldToField t)) = some k ∧
      Linked mem t (mem (yieldToField t)) k ∧ mem (yieldToField t) ∈ l.tail ++ [null] := by
  induction l with
  | nil => cases inside
  | cons u rest ih =>
      obtain ⟨thread, ⟨k, at_next, linked⟩, below⟩ := backed
      cases inside with
      | head =>
          have yieldTo := linked.yieldTo
          rw [yieldTo]
          exact ⟨thread, k, at_next, linked, headD_mem rest⟩
      | tail _ inside =>
          obtain ⟨thread, k, at_next, linked, more⟩ := ih below inside
          exact ⟨thread, k, at_next, linked, mem_of_tail more⟩

end Backed

theorem leave_of_ne {src tgt : Word} {left : Context} (notSource : c ≠ src) (notTarget : c ≠ tgt) :
    leave saved src left tgt c = saved c := by
  rw [leave, Function.update_of_ne notTarget, Function.update_of_ne notSource]

/-- The chain of the running context. -/
structure Chain (L : Layout) (saved : Word → Option Context) (s : Contexts)
    (chain : List Word) : Prop where
  self : s.self = chain.headD null
  nodup : (chain ++ [null]).Nodup
  backed : Backed L saved s.cpu.mem chain

namespace Chain

theorem not_null (here : Chain L saved s chain) (inside : t ∈ chain) : t ≠ null :=
  L.thread_ne_null t (here.backed.member inside).1

theorem stack_eq (here : Chain L saved s chain) (running : s.self ≠ null) :
    chain = s.self :: chain.tail := by
  cases chain with
  | nil => exact absurd here.self running
  | cons t rest =>
      have self := here.self
      exact congrArg (· :: rest) self.symm

theorem spelled (backed : Backed L saved s.cpu.mem l)
    (head : l.headD null ≠ null → s.OnChain (l.headD null)) (inside : t ∈ l) : s.OnChain t := by
  induction l with
  | nil => cases inside
  | cons u rest ih =>
      obtain ⟨thread, ⟨k, _, linked⟩, below⟩ := backed
      have here : s.OnChain u := head (L.thread_ne_null u thread)
      cases inside with
      | head => exact here
      | tail _ inside =>
          refine ih below (fun more => ?_) inside
          rw [← linked.yieldTo] at more ⊢
          exact .next here more

theorem onChain (here : Chain L saved s chain) (inside : t ∈ chain) : s.OnChain t := by
  refine spelled here.backed (fun running => ?_) inside
  rw [← here.self] at running ⊢
  exact .self running

/-- The contexts below the running one stay suspended when it is left. -/
theorem below_ne (here : Chain L saved s chain) (inside : c ∈ chain.tail ++ [null])
    (running : s.self ≠ null) : c ≠ s.self := fun same => by
  have nodup := here.nodup
  rw [here.stack_eq running] at nodup
  exact (List.nodup_cons.mp nodup).1 (same ▸ inside)

theorem stay (here : Chain L saved s chain) (self : s'.self = s.self)
    (kept : BlocksKept L 1 7 s.cpu.mem s'.cpu.mem) : Chain L saved s' chain :=
  ⟨self.trans here.self, here.nodup, here.backed.fields kept⟩

/-- What is below the running thread is as it was when that is left. -/
theorem backed_leave (here : Chain L saved s chain) (off : t ∉ chain ++ [null])
    {left : Context} (links : ∀ u, u ∈ chain → L.thread u → ∀ c k, Linked s.cpu.mem u c k →
      Linked mem' u c k) : Backed L (leave saved s.self left t) mem' chain := by
  cases chain with
  | nil => trivial
  | cons u rest =>
      have self : s.self = u := here.self
      have running : s.self ≠ null := self ▸ here.not_null (.head _)
      refine here.backed.keep links fun c inside => ?_
      exact leave_of_ne (here.below_ne inside running)
        fun same => off (same ▸ mem_of_tail inside)

theorem push (here : Chain L saved s chain) (thread : L.thread t) (off : t ∉ chain ++ [null])
    (links : LinksOver L s t next s') :
    Chain L (leave saved s.self (s.cpu.returning next) t) s' (t :: chain) := by
  have other : ∀ c, c ∈ chain ++ [null] → c ≠ t := fun c inside same => off (same ▸ inside)
  have top : s.self ≠ t := here.self ▸ other _ (headD_mem chain)
  refine ⟨links.self, List.nodup_cons.mpr ⟨off, here.nodup⟩, thread,
    ⟨s.cpu.returning next, ?_, ?_⟩, here.backed_leave off ?_⟩
  · rw [← here.self, leave, Function.update_of_ne top, Function.update_self]
  · rw [← here.self]
    exact links.linked
  · exact fun u inside thread _ _ linked =>
      linked.kept links.kept thread (other u (List.mem_append_left _ inside))

section Running
variable (here : Chain L saved s chain) (running : s.self ≠ null)
include here running

/-- The thread below, or the main context. -/
theorem below : ∃ k, saved (chain.tail.headD null) = some k ∧
    Linked s.cpu.mem s.self (chain.tail.headD null) k := by
  have backed := here.backed
  rw [here.stack_eq running] at backed
  exact backed.2.1

theorem tail_nodup : (chain.tail ++ [null]).Nodup := by
  have nodup := here.nodup
  rw [here.stack_eq running] at nodup
  exact (List.nodup_cons.mp nodup).2

theorem tail_backed : Backed L saved s.cpu.mem chain.tail := by
  have backed := here.backed
  rw [here.stack_eq running] at backed
  exact backed.2.2

theorem pop (self : s'.self = s.cpu.mem (yieldToField s.self))
    (kept : FieldsKept L null s.cpu.mem s'.cpu.mem) (left : Context) :
    Chain L (leave saved s.self left s'.self) s' chain.tail := by
  obtain ⟨k, _, linked⟩ := here.below running
  have top : s'.self = chain.tail.headD null := self.trans linked.yieldTo
  have nodup := here.tail_nodup running
  refine ⟨top, nodup, ?_⟩
  have backed := (here.tail_backed running).fields (kept.blocks (by decide) (by decide))
  cases rest : chain.tail with
  | nil => trivial
  | cons u more =>
      rw [rest] at top nodup backed
      refine backed.keep (fun _ _ _ _ _ => id) fun c inside => leave_of_ne ?_ fun same => ?_
      · exact here.below_ne (rest ▸ mem_of_tail inside) running
      · have same : c = u := same.trans top
        exact (List.nodup_cons.mp nodup).1 (same ▸ inside)

theorem replace (thread : L.thread t) (off : t ∉ chain ++ [null])
    (links : LinksInstead L s t s') (left : Context) :
    Chain L (leave saved s.self left t) s' (t :: chain.tail) := by
  obtain ⟨k, at_next, linked⟩ := here.below running
  have offTail : t ∉ chain.tail ++ [null] := fun inside => off (mem_of_tail inside)
  have kept : ∀ c, c ∈ chain.tail ++ [null] → leave saved s.self left t c = saved c :=
    fun c inside => leave_of_ne (here.below_ne inside running) fun same => offTail (same ▸ inside)
  refine ⟨links.self, List.nodup_cons.mpr ⟨offTail, here.tail_nodup running⟩, thread,
    ⟨k, (kept _ (headD_mem _)).trans at_next, links.linked _ k linked⟩, ?_⟩
  refine (here.tail_backed running).keep (fun u inside thread c k linked => ?_) fun c inside => ?_
  · refine linked.kept links.kept thread fun same => offTail ?_
    exact same ▸ List.mem_append_left _ inside
  · exact kept c (mem_of_tail inside)

end Running

end Chain

/-- The words that a call on the alternate stack pushes lie on stacks. -/
theorem altstackCall_fields {fn arg0 arg1 ret : Word} (sep : Separated L saved s.self s.cpu.mem)
    (room : AltRoom L s) :
    FieldsKept L null s.cpu.mem (altstackCall L s fn arg0 arg1 next ret).mem := by
  have pushed : ∀ {mem : Word → Word} {c a v : Word}, L.Stack c a 1 →
      FieldsKept L null mem (Function.update mem a v) := fun stack t i thread _ _ inside =>
    Function.update_of_ne (fun same => Layout.block_off thread inside (same ▸ stack)) ..
  by_cases main : s.self = null
  · rw [altstackCall, if_pos main]
    exact pushed room.stack
  · obtain ⟨first, -⟩ := altstack_below sep main room 8 (.inl rfl)
    obtain ⟨second, -⟩ := altstack_below sep main room 16 (.inr rfl)
    rw [altstackCall_mem _ _ _ _ _ main]
    exact (pushed room.stack).trans ((pushed first).trans (pushed second))

theorem cthreadAltstack_fields {body : Cpu → Cpu} {fn arg0 arg1 ret : Word}
    (sep : Separated L saved s.self s.cpu.mem) (room : AltRoom L s)
    (obeys : Obeys L body (altstackCall L s fn arg0 arg1 next ret))
    (kept : FieldsKept L null (altstackCall L s fn arg0 arg1 next ret).mem
      (body (altstackCall L s fn arg0 arg1 next ret)).mem)
    (run : cthreadAltstack s body fn arg0 arg1 next ret = .ok s') :
    s'.self = s.self ∧ FieldsKept L null s.cpu.mem s'.cpu.mem := by
  have called : FieldsKept L null s.cpu.mem (altstackCall L s fn arg0 arg1 next ret).mem :=
    altstackCall_fields sep room
  by_cases main : s.self = null
  · obtain ⟨c', again, returned, _⟩ := cthreadAltstack_main_ok main room obeys
    rw [run] at again
    cases again
    exact ⟨rfl, called.trans (returned.mem ▸ kept)⟩
  · obtain ⟨c', again, returned⟩ := cthreadAltstack_thread_ok sep main room obeys
    rw [run] at again
    cases again
    exact ⟨rfl, called.trans (returned.mem ▸ kept)⟩

/-- Following `yield_to` from `c` gives `l` and ends at `NULL`. -/
def Spells (mem : Word → Word) : Word → List Word → Prop
  | c, [] => c = null
  | c, t :: rest => c = t ∧ Spells mem (mem (yieldToField t)) rest

theorem Backed.spells (backed : Backed L saved mem l) : Spells mem (l.headD null) l := by
  induction l with
  | nil => rfl
  | cons t rest ih =>
      obtain ⟨_, ⟨_, _, linked⟩, below⟩ := backed
      refine ⟨rfl, ?_⟩
      rw [linked.yieldTo]
      exact ih below

/-- At any instruction of `__morestack`, with the frame pointer that a thread has there, the
unwinder finds the context that the thread is linked to. -/
theorem Linked.unwinds {k : Context} (linked : Linked mem t c k) {base pc : Word}
    (inside : (pc - base).toNat ≤ 9) :
    unwinder base pc (t + 16) mem = some (k.rsp, k.rbp, k.rip) := by
  have details := unwinder_callerDetails base t mem
  have offset : (base + 9 - base).toNat ≤ 9 := by
    rw [add_sub_base]
    decide
  have word := fun j (low : j < 3) => linked.caller.get j low
  rw [unwinder, if_pos offset] at details
  rw [unwinder, if_pos inside, details, callerDetails, word 0 (by decide), word 1 (by decide),
    word 2 (by decide)]
  rfl

end CThread.Switch
