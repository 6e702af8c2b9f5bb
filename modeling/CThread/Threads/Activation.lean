import CThread.Threads.Model
import Mathlib.Data.List.Nodup

/-!
The abstract coroutine machine: an activation stack whose bottom is the main context.

`start` and `call` push, `yield` pops, `tailcall` replaces the top. A `join` on a
finished thread returns, any other one pops and waits, and `exit` hands control to the
context that joined the thread last, or pops. The invariant `Settled` is kept by every
operation that is allowed, with any number of joins on a thread; `WellFormed` says besides
that no joiner is forgotten, and is kept as long as no thread is joined twice at a time.
Neither speaks of a stack pointer.
-/
namespace CThread.Threads
open GuardedRuns

structure Activation where
  /-- The threads above the main context, the running one first. -/
  stack : List Word
  live : List Word
  exited : Word → Option Word
  joiner : Word → Option Word
  waiting : Word → Pending

namespace Activation

def init : Activation :=
  ⟨[], [], fun _ => none, fun _ => none, fun _ => .call⟩

/-- The running context. -/
def top (a : Activation) : Word := a.stack.headD null

/-- The context below it. -/
def below (a : Activation) : Word := a.stack.tail.headD null

/-- All contexts that wait for the one above them, and the running one. -/
def chain (a : Activation) : List Word := a.stack ++ [null]

def push (a : Activation) (t : Word) (p : Pending) : Activation :=
  { a with
    stack := t :: a.stack
    waiting := Function.update a.waiting a.top p }

def pop (a : Activation) (p : Pending) : Activation :=
  { a with
    stack := a.stack.tail
    waiting := Function.update a.waiting a.top p }

def replace (a : Activation) (t : Word) (p : Pending) : Activation :=
  { a with
    stack := t :: a.stack.tail
    waiting := Function.update a.waiting a.top p }

/-- A new thread; the handle may be that of one that has exited. -/
def spawn (a : Activation) (t : Word) : Activation :=
  { a with
    live := t :: a.live
    exited := Function.update a.exited t none }

def block (a : Activation) (t j : Word) : Activation :=
  { a with joiner := Function.update a.joiner t (some j) }

def release (a : Activation) (t : Word) : Activation :=
  { a with joiner := Function.update a.joiner t none }

def finish (a : Activation) (t code : Word) : Activation :=
  { a with
    live := a.live.erase t
    exited := Function.update a.exited t (some code) }

def codeOf (code : Word) : Int := (code.setWidth 32).toInt

/-- Control goes to `c`, which returns from the call it waits in. -/
def returnTo (a : Activation) (c value : Word) : ThreadOutput :=
  .resumes c (a.waiting c) value

def exit (a : Activation) (code : Word) : Activation × ThreadOutput :=
  match a.joiner a.top with
  | some j => (((a.release a.top).replace j .exit).finish a.top code,
      .joined j a.top (codeOf code))
  | none => ((a.pop .exit).finish a.top code, a.returnTo a.below null)

def step (a : Activation) : ThreadOp → Activation × ThreadOutput
  | .mainStart fn arg stack sz =>
      let t := cthreadAddress stack sz
      ((a.spawn t).push t (.mainStart t), .resumes t (.entry fn) arg)
  | .start fn arg stack sz =>
      let t := cthreadAddress stack sz
      ((a.spawn t).push t (.start t), .resumes t (.entry fn) arg)
  | .call tgt data => (a.push tgt .call, a.returnTo tgt data)
  | .tailcall tgt data => (a.replace tgt .tailcall, a.returnTo tgt data)
  | .yield data => (a.pop .yield, a.returnTo a.below data)
  | .join t =>
      match a.exited t with
      | some code => (a, .joined a.top t (codeOf code))
      | none => ((a.pop (.join t)).block t a.top, a.returnTo a.below null)
  | .exit code => a.exit code
  | .fnReturn rax => a.exit rax

/-- `c` returns from the call `p`; a join gives the code of its thread. -/
def reply (a : Activation) (c : Word) (p : Pending) (value : Word) : ThreadOutput :=
  match p with
  | .join t => .joined c t (codeOf ((a.exited t).getD 0))
  | p => .resumes c p value

/-- The answer of `step`, but for a call of a thread that nobody woke from its join. -/
def answer (a : Activation) : ThreadOp → ThreadOutput
  | .call tgt data => a.reply tgt (a.waiting tgt) data
  | .tailcall tgt data => a.reply tgt (a.waiting tgt) data
  | op => (a.step op).2

def next (a : Activation) (i : CallSite × ThreadOp) (_ : ThreadOutput) : Activation :=
  (a.step i.2).1

/-- The machine is deterministic: it allows one answer. -/
def Legal (a : Activation) (i : CallSite × ThreadOp) (o : ThreadOutput) : Prop :=
  o = (a.step i.2).2

def Fresh (a : Activation) (t : Word) : Prop :=
  t ≠ null ∧ t ∉ a.live

def Unjoining (a : Activation) (t : Word) : Prop :=
  ∀ u, a.joiner u ≠ some t

/-- A created, unfinished, suspended thread that is neither on the chain nor joining. -/
structure Callable (a : Activation) (t : Word) : Prop where
  live : t ∈ a.live
  off : t ∉ a.stack
  unjoining : a.Unjoining t

structure Joinable (a : Activation) (t : Word) : Prop where
  other : t ≠ a.top
  created : t ∈ a.live ∨ a.exited t ≠ none
  unjoined : a.joiner t = none

/-- An unfinished thread off the chain that may return from the call it waits in. -/
structure Resumable (a : Activation) (t : Word) : Prop where
  live : t ∈ a.live
  off : t ∉ a.stack
  joins : ∀ u, a.waiting t = .join u → a.exited u ≠ none

/-- What may be called when any number of threads may join the same one. -/
def Allows (a : Activation) : ThreadOp → Prop
  | .mainStart _ _ stack sz => a.stack = [] ∧ a.Fresh (cthreadAddress stack sz)
  | .start _ _ stack sz => a.stack ≠ [] ∧ a.Fresh (cthreadAddress stack sz)
  | .call tgt _ => a.Resumable tgt
  | .tailcall tgt _ => a.stack ≠ [] ∧ a.Resumable tgt
  | .yield _ => a.stack ≠ []
  | .join t => a.stack ≠ [] ∧ (t ∈ a.live ∨ a.exited t ≠ none)
  | .exit _ => a.stack ≠ []
  | .fnReturn _ => a.stack ≠ []

/-- A thread that has not finished is joined by one thread at a time. -/
def JoinsOnce (a : Activation) (op : ThreadOp) : Prop :=
  ∀ t, op = .join t → a.exited t = none → a.joiner t = none

def Admits (a : Activation) : ThreadOp → Prop
  | .mainStart _ _ stack sz => a.stack = [] ∧ a.Fresh (cthreadAddress stack sz)
  | .start _ _ stack sz => a.stack ≠ [] ∧ a.Fresh (cthreadAddress stack sz)
  | .call tgt _ => a.Callable tgt
  | .tailcall tgt _ => a.stack ≠ [] ∧ a.Callable tgt
  | .yield _ => a.stack ≠ []
  | .join t => a.stack ≠ [] ∧ a.Joinable t
  | .exit _ => a.stack ≠ []
  | .fnReturn _ => a.stack ≠ []

/-- The calls that leave their caller below the new top. -/
def Pushes : Pending → Prop
  | .call | .start _ | .mainStart _ => True
  | _ => False

/-- The calls in which a thread waits off the chain. -/
def Parks (a : Activation) (t : Word) : Prop :=
  a.waiting t = .yield ∨ a.waiting t = .tailcall ∨ ∃ u, a.waiting t = .join u

/-- `moving` is a thread in transit, about which `parked` is silent; `null` is nobody. -/
structure Settled (a : Activation) (moving : Word) : Prop where
  nodup : a.chain.Nodup
  onstack : ∀ t, t ∈ a.stack → t ∈ a.live
  live_nodup : a.live.Nodup
  null_dead : null ∉ a.live
  unfinished : ∀ t, t ∈ a.live → a.exited t = none
  pushes : ∀ c, c ∈ a.chain.tail → Pushes (a.waiting c)
  parked : ∀ t, t ∈ a.live → t ∉ a.stack → t ≠ moving → a.Parks t
  joined : ∀ u t, a.joiner u = some t →
    u ∈ a.live ∧ t ∈ a.live ∧ t ∉ a.stack ∧ a.waiting t = .join u

/-- Every thread that waits in a join is the one that its thread will wake. -/
def Recorded (a : Activation) (moving : Word) : Prop :=
  ∀ t u, t ∈ a.live → t ∉ a.stack → t ≠ moving → a.waiting t = .join u → a.joiner u = some t

structure WellFormed (a : Activation) (moving : Word) : Prop extends Settled a moving where
  recorded : a.Recorded moving

variable {a : Activation} {t x : Word} {p : Pending}

theorem chain_eq (a : Activation) : a.chain = a.top :: a.chain.tail := by
  unfold chain top
  cases a.stack <;> rfl

theorem top_mem (running : a.stack ≠ []) : a.top ∈ a.stack := by
  unfold top
  cases stack : a.stack with
  | nil => exact absurd stack running
  | cons t rest => exact .head _

theorem stack_eq (running : a.stack ≠ []) : a.stack = a.top :: a.stack.tail := by
  unfold top
  cases stack : a.stack with
  | nil => exact absurd stack running
  | cons t rest => rfl

theorem chain_tail (running : a.stack ≠ []) : a.chain.tail = a.stack.tail ++ [null] := by
  unfold chain
  rw [stack_eq running]
  rfl

theorem Settled.top_fresh (wf : Settled a x) : a.top ∉ a.chain.tail := by
  have nodup := wf.nodup
  rw [chain_eq] at nodup
  exact (List.nodup_cons.mp nodup).1

theorem Settled.top_gone (wf : Settled a x) (running : a.stack ≠ []) :
    a.top ∉ a.stack.tail := by
  intro inside
  apply wf.top_fresh
  rw [chain_tail running]
  exact List.mem_append_left _ inside

theorem Settled.null_off (wf : Settled a x) : null ∉ a.stack :=
  fun inside => wf.null_dead (wf.onstack null inside)

theorem Settled.ne_top (wf : Settled a x) (live : t ∈ a.live) (off : t ∉ a.stack) :
    t ≠ a.top := by
  intro same
  cases stack : a.stack with
  | nil =>
      have null : a.top = null := by simp [top, stack]
      exact wf.null_dead (null ▸ same ▸ live)
  | cons u rest =>
      have running : a.stack ≠ [] := by simp [stack]
      exact off (same ▸ top_mem running)

theorem Settled.transit (wf : Settled a null) (t : Word) : Settled a t := by
  refine { wf with parked := ?_ }
  intro u live off _
  exact wf.parked u live off (fun same => wf.null_dead (same ▸ live))

/-- A thread below the top waits in a call that pushed the one above it. -/
theorem Settled.pushed (wf : Settled a x) (inside : t ∈ a.stack) (ne : t ≠ a.top) :
    Pushes (a.waiting t) := by
  apply wf.pushes
  have member : t ∈ a.chain := List.mem_append_left _ inside
  rw [chain_eq] at member
  exact (List.mem_cons.mp member).resolve_left ne

theorem joiner_eq (notNull : t ≠ null) {u : Word} (joiner : (a.joiner u).getD null = t) :
    a.joiner u = some t := by
  cases stored : a.joiner u with
  | none =>
      rw [stored] at joiner
      exact absurd joiner.symm notNull
  | some j =>
      rw [stored] at joiner
      exact congrArg some joiner

theorem Settled.unjoined (wf : Settled a x) (joiner : (a.joiner t).getD null = null) :
    a.joiner t = none := by
  cases stored : a.joiner t with
  | none => rfl
  | some j =>
      rw [stored] at joiner
      have isNull : j = null := joiner
      exact absurd (isNull ▸ (wf.joined t j stored).2.1) wf.null_dead

/-- No context that may be resumed waits in an exit. -/
theorem Settled.alive (wf : Settled a null) {c : Word} (other : c ≠ a.top)
    (created : c = null ∨ c ∈ a.live) : a.waiting c ≠ .exit := by
  intro waits
  by_cases inside : c ∈ a.chain.tail
  · have pushes := wf.pushes c inside
    rw [waits] at pushes
    exact pushes
  · have off : c ∉ a.chain := by
      rw [chain_eq]
      intro member
      cases member with
      | head => exact other rfl
      | tail _ member => exact inside member
    have notNull : c ≠ null := by
      intro same
      exact off (List.mem_append_right _ (List.mem_singleton.mpr same))
    have live : c ∈ a.live := created.resolve_left notNull
    have offstack : c ∉ a.stack := fun member => off (List.mem_append_left _ member)
    rcases wf.parked c live offstack notNull with yield | tailcall | ⟨u, join⟩
    · rw [waits] at yield
      cases yield
    · rw [waits] at tailcall
      cases tailcall
    · rw [waits] at join
      cases join

theorem Settled.settle (wf : Settled a x)
    (parks : x ∈ a.live → x ∉ a.stack → a.Parks x) : Settled a null := by
  refine { wf with parked := ?_ }
  intro t live off _
  by_cases same : t = x
  · subst same
    exact parks live off
  · exact wf.parked t live off same

theorem Settled.spawn (wf : Settled a null) (fresh : a.Fresh t) :
    Settled (a.spawn t) t := by
  refine { wf with onstack := ?_, live_nodup := ?_, null_dead := ?_, unfinished := ?_,
                   parked := ?_, joined := ?_ }
  · intro u inside
    exact .tail _ (wf.onstack u inside)
  · exact List.nodup_cons.mpr ⟨fresh.2, wf.live_nodup⟩
  · intro inside
    cases inside with
    | head => exact fresh.1 rfl
    | tail _ inside => exact wf.null_dead inside
  · intro u inside
    cases inside with
    | head => exact Function.update_self ..
    | tail _ inside =>
        have ne : u ≠ t := fun same => fresh.2 (same ▸ inside)
        simpa [Activation.spawn, ne] using wf.unfinished u inside
  · intro u inside off ne
    cases inside with
    | head => exact absurd rfl ne
    | tail _ inside =>
        refine wf.parked u inside off ?_
        intro same
        exact wf.null_dead (same ▸ inside)
  · intro u j joins
    obtain ⟨live, liveJ, rest⟩ := wf.joined u j joins
    exact ⟨.tail _ live, .tail _ liveJ, rest⟩

theorem Settled.push (wf : Settled a t) (live : t ∈ a.live) (off : t ∉ a.stack)
    (unjoining : a.Unjoining t) (pushes : Pushes p) : Settled (a.push t p) null where
  nodup := by
    refine List.nodup_cons.mpr ⟨?_, wf.nodup⟩
    intro inside
    cases List.mem_append.mp inside with
    | inl inside => exact off inside
    | inr bottom => exact wf.null_dead (List.mem_singleton.mp bottom ▸ live)
  onstack u inside := by
    cases inside with
    | head => exact live
    | tail _ inside => exact wf.onstack u inside
  live_nodup := wf.live_nodup
  null_dead := wf.null_dead
  unfinished := wf.unfinished
  pushes c inside := by
    have inside : c ∈ a.chain := inside
    rw [chain_eq] at inside
    cases inside with
    | head => simpa [Activation.push] using pushes
    | tail _ inside =>
        have ne : c ≠ a.top := fun same => wf.top_fresh (same ▸ inside)
        simpa [Activation.push, ne] using wf.pushes c inside
  parked u inside out _ := by
    have ne : u ≠ t := fun same => out (same ▸ .head _)
    have offstack : u ∉ a.stack := fun old => out (.tail _ old)
    have notTop := wf.ne_top inside offstack
    simpa [Activation.push, Parks, notTop] using wf.parked u inside offstack ne
  joined u j joins := by
    obtain ⟨liveU, liveJ, offJ, waits⟩ := wf.joined u j joins
    refine ⟨liveU, liveJ, ?_, ?_⟩
    · intro inside
      cases inside with
      | head => exact unjoining u joins
      | tail _ inside => exact offJ inside
    · simpa [Activation.push, wf.ne_top liveJ offJ] using waits

theorem Settled.pop (wf : Settled a null) (running : a.stack ≠ []) :
    Settled (a.pop p) a.top where
  nodup := by
    have nodup := wf.nodup
    rw [chain_eq, chain_tail running] at nodup
    exact (List.nodup_cons.mp nodup).2
  onstack u inside := wf.onstack u (List.mem_of_mem_tail inside)
  live_nodup := wf.live_nodup
  null_dead := wf.null_dead
  unfinished := wf.unfinished
  pushes c inside := by
    have inside : c ∈ a.chain.tail := by
      rw [chain_tail running]
      exact List.mem_of_mem_tail inside
    have ne : c ≠ a.top := fun same => wf.top_fresh (same ▸ inside)
    simpa [Activation.pop, ne] using wf.pushes c inside
  parked u live off ne := by
    have out : u ∉ a.stack := by
      intro inside
      rw [stack_eq running] at inside
      cases inside with
      | head => exact ne rfl
      | tail _ inside => exact off inside
    have notNull : u ≠ null := fun same => wf.null_dead (same ▸ live)
    simpa [Activation.pop, Parks, ne] using wf.parked u live out notNull
  joined u j joins := by
    obtain ⟨liveU, liveJ, offJ, waits⟩ := wf.joined u j joins
    refine ⟨liveU, liveJ, fun inside => offJ (List.mem_of_mem_tail inside), ?_⟩
    simpa [Activation.pop, wf.ne_top liveJ offJ] using waits

theorem Settled.replace (wf : Settled a t) (running : a.stack ≠ []) (live : t ∈ a.live)
    (off : t ∉ a.stack) (unjoining : a.Unjoining t) : Settled (a.replace t p) a.top where
  nodup := by
    have nodup := wf.nodup
    rw [chain_eq, chain_tail running] at nodup
    refine List.nodup_cons.mpr ⟨?_, (List.nodup_cons.mp nodup).2⟩
    intro inside
    cases List.mem_append.mp inside with
    | inl inside => exact off (List.mem_of_mem_tail inside)
    | inr bottom => exact wf.null_dead (List.mem_singleton.mp bottom ▸ live)
  onstack u inside := by
    cases inside with
    | head => exact live
    | tail _ inside => exact wf.onstack u (List.mem_of_mem_tail inside)
  live_nodup := wf.live_nodup
  null_dead := wf.null_dead
  unfinished := wf.unfinished
  pushes c inside := by
    have inside : c ∈ a.chain.tail := by
      rw [chain_tail running]
      exact inside
    have ne : c ≠ a.top := fun same => wf.top_fresh (same ▸ inside)
    simpa [Activation.replace, ne] using wf.pushes c inside
  parked u liveU out ne := by
    have notT : u ≠ t := fun same => out (same ▸ .head _)
    have offstack : u ∉ a.stack := by
      intro inside
      rw [stack_eq running] at inside
      cases inside with
      | head => exact ne rfl
      | tail _ inside => exact out (.tail _ inside)
    simpa [Activation.replace, Parks, ne] using wf.parked u liveU offstack notT
  joined u j joins := by
    obtain ⟨liveU, liveJ, offJ, waits⟩ := wf.joined u j joins
    refine ⟨liveU, liveJ, ?_, ?_⟩
    · intro inside
      cases inside with
      | head => exact unjoining u joins
      | tail _ inside => exact offJ (List.mem_of_mem_tail inside)
    · simpa [Activation.replace, wf.ne_top liveJ offJ] using waits

/-- The joiner `x` has left the chain and waits for `t`. -/
theorem Settled.block (wf : Settled a x) (live : x ∈ a.live) (off : x ∉ a.stack)
    (waits : a.waiting x = .join t) (target : t ∈ a.live) : Settled (a.block t x) null := by
  refine { wf with parked := ?_, joined := ?_ }
  · intro u inside out _
    by_cases same : u = x
    · subst same
      exact .inr (.inr ⟨t, waits⟩)
    · exact wf.parked u inside out same
  · intro u j joins
    by_cases same : u = t
    · subst same
      have whom : x = j := by simpa [Activation.block] using joins
      subst whom
      exact ⟨target, live, off, waits⟩
    · exact wf.joined u j (by simpa [Activation.block, same] using joins)

theorem Settled.release (wf : Settled a null) (t : Word) : Settled (a.release t) null := by
  refine { wf with parked := wf.parked, joined := ?_ }
  intro u k joinsK
  by_cases same : u = t
  · subst same
    simp [Activation.release] at joinsK
  · exact wf.joined u k (by simpa [Activation.release, same] using joinsK)

theorem Settled.release_unjoining (wf : Settled a null) {j : Word}
    (joins : a.joiner t = some j) : (a.release t).Unjoining j := by
  intro u again
  by_cases same : u = t
  · subst same
    simp [Activation.release] at again
  · have first := (wf.joined t j joins).2.2.2
    have second := (wf.joined u j (by simpa [Activation.release, same] using again)).2.2.2
    rw [first] at second
    cases second
    exact same rfl

theorem Settled.finish (wf : Settled a x) (off : x ∉ a.stack)
    (unjoined : a.joiner x = none) (unjoining : a.Unjoining x) (code : Word) :
    Settled (a.finish x code) null where
  nodup := wf.nodup
  onstack u inside := by
    have ne : u ≠ x := fun same => off (same ▸ inside)
    exact (List.mem_erase_of_ne ne).mpr (wf.onstack u inside)
  live_nodup := wf.live_nodup.erase x
  null_dead inside := wf.null_dead (List.mem_of_mem_erase inside)
  unfinished u inside := by
    have ne : u ≠ x := fun same => wf.live_nodup.not_mem_erase (same ▸ inside)
    simpa [Activation.finish, ne] using wf.unfinished u (List.mem_of_mem_erase inside)
  pushes := wf.pushes
  parked u inside out _ := by
    have ne : u ≠ x := fun same => wf.live_nodup.not_mem_erase (same ▸ inside)
    exact wf.parked u (List.mem_of_mem_erase inside) out ne
  joined u j joins := by
    obtain ⟨liveU, liveJ, rest⟩ := wf.joined u j joins
    have target : u ≠ x := by
      intro same
      rw [same] at joins
      exact absurd (unjoined.symm.trans joins) (Option.some_ne_none j).symm
    have whom : j ≠ x := fun same => unjoining u (same ▸ joins)
    exact ⟨(List.mem_erase_of_ne target).mpr liveU, (List.mem_erase_of_ne whom).mpr liveJ, rest⟩

theorem below_mem (running : a.stack ≠ []) : a.below ∈ a.chain.tail := by
  rw [chain_tail running]
  unfold below
  cases a.stack.tail with
  | nil => exact .head _
  | cons u rest => exact .head _

/-- The thread that the top was joined by last is not the top itself. -/
theorem Settled.joiner_ne_top (wf : Settled a null) (running : a.stack ≠ []) {j : Word}
    (joiner : a.joiner t = some j) : j ≠ a.top := by
  intro same
  exact (wf.joined t j joiner).2.2.1 (same ▸ top_mem running)

theorem exit_settled (wf : Settled a null) (running : a.stack ≠ []) (code : Word) :
    Settled (a.exit code).1 null := by
  have unjoining : a.Unjoining a.top := fun u joins => wf.joiner_ne_top running joins rfl
  have gone := wf.top_gone running
  unfold exit
  cases joiner : a.joiner a.top with
  | none => exact (wf.pop running).finish gone joiner unjoining code
  | some j =>
      obtain ⟨_, live, off, _⟩ := wf.joined a.top j joiner
      have formed : Settled ((a.release a.top).replace j .exit) a.top :=
        ((wf.release a.top).transit j).replace running live off (wf.release_unjoining joiner)
      refine formed.finish ?_ (by simp [Activation.replace, release]) ?_ code
      · intro inside
        cases inside with
        | head => exact off (top_mem running)
        | tail _ inside => exact gone inside
      · intro u joins
        by_cases same : u = a.top
        · subst same
          simp [Activation.replace, release] at joins
        · exact unjoining u (by simpa [Activation.replace, release, same] using joins)

/-- Nobody will wake a thread that may be called. -/
theorem Resumable.unjoining (resumable : a.Resumable t) (wf : Settled a null) :
    a.Unjoining t := by
  intro u joins
  obtain ⟨live, _, _, waits⟩ := wf.joined u t joins
  exact resumable.joins u waits (wf.unfinished u live)

/-- Every operation that is allowed keeps the invariant. -/
theorem Settled.step (wf : Settled a null) {op : ThreadOp} (allowed : a.Allows op) :
    Settled (a.step op).1 null := by
  have spawned : ∀ t p, a.Fresh t → Pushes p → Settled ((a.spawn t).push t p) null := by
    intro t p fresh pushes
    refine (wf.spawn fresh).push (.head _) ?_ ?_ pushes
    · exact fun inside => fresh.2 (wf.onstack t inside)
    · exact fun u joins => fresh.2 (wf.joined u t joins).2.1
  cases op with
  | mainStart fn arg stack sz => exact spawned _ _ allowed.2 trivial
  | start fn arg stack sz => exact spawned _ _ allowed.2 trivial
  | call tgt data =>
      exact (wf.transit tgt).push allowed.live allowed.off (allowed.unjoining wf) trivial
  | tailcall tgt data =>
      have formed := (wf.transit tgt).replace (p := .tailcall) allowed.1
        allowed.2.live allowed.2.off (allowed.2.unjoining wf)
      exact formed.settle fun _ _ => .inr (.inl (by simp [Activation.replace]))
  | yield data =>
      exact (wf.pop allowed).settle fun _ _ => .inl (by simp [Activation.pop])
  | join t =>
      obtain ⟨running, created⟩ := allowed
      simp only [Activation.step]
      cases exited : a.exited t with
      | some code => exact wf
      | none =>
          have live : t ∈ a.live := created.resolve_right fun finished => finished exited
          exact (wf.pop running).block (wf.onstack _ (top_mem running)) (wf.top_gone running)
            (by simp [Activation.pop]) live
  | exit code => exact exit_settled wf allowed code
  | fnReturn rax => exact exit_settled wf allowed rax

/-- The top leaves in a call that is no join. -/
theorem Recorded.leave (recorded : a.Recorded null) (wf : Settled a null) {a' : Activation}
    (alone : ∀ u, p ≠ .join u) (waiting : a'.waiting = Function.update a.waiting a.top p)
    (live : ∀ c, c ∈ a'.live → c ∉ a'.stack → c ∈ a.live)
    (stack : ∀ c, c ∈ a.stack → c ≠ a.top → c ∈ a'.stack)
    (joiner : ∀ u c, c ∉ a'.stack → a.joiner u = some c → a'.joiner u = some c) :
    a'.Recorded null := by
  intro c u inside off _ waits
  rw [waiting] at waits
  have notTop : c ≠ a.top := by
    intro same
    rw [same, Function.update_self] at waits
    exact alone u waits
  rw [Function.update_of_ne notTop] at waits
  have created : c ∈ a.live := live c inside off
  have notNull : c ≠ null := fun same => wf.null_dead (same ▸ created)
  have offstack : c ∉ a.stack := fun old => off (stack c old notTop)
  exact joiner u c off (recorded c u created offstack notNull waits)

theorem mem_tail (running : a.stack ≠ []) {c : Word} (inside : c ∈ a.stack) (ne : c ≠ a.top) :
    c ∈ a.stack.tail := by
  rw [stack_eq running] at inside
  exact (List.mem_cons.mp inside).resolve_left ne

theorem Recorded.spawn (recorded : a.Recorded null) (wf : Settled a null)
    (alone : ∀ u, p ≠ .join u) : ((a.spawn t).push t p).Recorded null := by
  refine recorded.leave wf alone rfl ?_ (fun _ inside _ => .tail _ inside) fun _ _ _ => id
  intro c inside off
  cases inside with
  | head => exact absurd (.head _) off
  | tail _ inside => exact inside

/-- The joiner `a.top` is recorded where nobody else was. -/
theorem Recorded.block (recorded : a.Recorded null) (running : a.stack ≠ [])
    (unjoined : a.joiner t = none) :
    ((a.pop (.join t)).block t a.top).Recorded null := by
  intro c u inside off notNull waits
  by_cases top : c = a.top
  · subst top
    have same : t = u := by simpa [Activation.block, Activation.pop] using waits
    subst same
    exact Function.update_self ..
  · have offstack : c ∉ a.stack := fun old => off (mem_tail running old top)
    have before : a.waiting c = .join u := by
      simpa [Activation.block, Activation.pop, top] using waits
    have joins := recorded c u inside offstack notNull before
    have other : u ≠ t := by
      intro same
      rw [same, unjoined] at joins
      cases joins
    exact (Function.update_of_ne other ..).trans joins

theorem Recorded.exit (recorded : a.Recorded null) (wf : Settled a null)
    (running : a.stack ≠ []) (code : Word) : (a.exit code).1.Recorded null := by
  unfold Activation.exit
  cases joiner : a.joiner a.top with
  | none =>
      exact recorded.leave (p := .exit) wf (fun _ => Pending.noConfusion) rfl
        (fun c inside _ => List.mem_of_mem_erase inside) (fun c => mem_tail running)
        fun _ _ _ => id
  | some j =>
      refine recorded.leave (p := .exit) wf (fun _ => Pending.noConfusion) rfl
        (fun c inside _ => List.mem_of_mem_erase inside)
        (fun c inside ne => .tail _ (mem_tail running inside ne)) ?_
      intro u c off joins
      have other : u ≠ a.top := by
        intro same
        rw [same, joiner] at joins
        cases joins
        exact off (.head _)
      exact (Function.update_of_ne other ..).trans joins

/-- As long as a thread is joined by one thread at a time, no joiner is forgotten. -/
theorem Recorded.step (recorded : a.Recorded null) (wf : Settled a null) {op : ThreadOp}
    (allowed : a.Allows op) (once : a.JoinsOnce op) : (a.step op).1.Recorded null := by
  cases op with
  | mainStart fn arg stack sz => exact recorded.spawn wf fun _ => Pending.noConfusion
  | start fn arg stack sz => exact recorded.spawn wf fun _ => Pending.noConfusion
  | call tgt data =>
      exact recorded.leave (p := .call) wf (fun _ => Pending.noConfusion) rfl
        (fun c inside _ => inside) (fun c inside _ => .tail _ inside) fun _ _ _ => id
  | tailcall tgt data =>
      exact recorded.leave (p := .tailcall) wf (fun _ => Pending.noConfusion) rfl
        (fun c inside _ => inside)
        (fun c inside ne => .tail _ (mem_tail allowed.1 inside ne)) fun _ _ _ => id
  | yield data =>
      exact recorded.leave (p := .yield) wf (fun _ => Pending.noConfusion) rfl
        (fun c inside _ => inside) (fun c => mem_tail allowed) fun _ _ _ => id
  | join t =>
      simp only [Activation.step]
      cases exited : a.exited t with
      | some code => exact recorded
      | none => exact recorded.block allowed.1 (once t rfl exited)
  | exit code => exact recorded.exit wf allowed code
  | fnReturn rax => exact recorded.exit wf allowed rax

/-- A callable thread waits in a yield or in a tailcall. -/
theorem WellFormed.callable_waits (wf : WellFormed a null) (callable : a.Callable t) :
    a.waiting t = .yield ∨ a.waiting t = .tailcall := by
  have notNull : t ≠ null := fun same => wf.null_dead (same ▸ callable.live)
  rcases wf.parked t callable.live callable.off notNull with yield | tailcall | ⟨u, join⟩
  · exact .inl yield
  · exact .inr tailcall
  · exact absurd (wf.recorded t u callable.live callable.off notNull join)
      (callable.unjoining u)

theorem WellFormed.resumable (wf : WellFormed a null) (callable : a.Callable t) :
    a.Resumable t := by
  refine ⟨callable.live, callable.off, fun u join => ?_⟩
  rcases wf.callable_waits callable with yield | tailcall
  · rw [yield] at join
    cases join
  · rw [tailcall] at join
    cases join

/-- With one joiner at a time there is nothing more to allow. -/
theorem WellFormed.allows (wf : WellFormed a null) {op : ThreadOp} (admitted : a.Admits op) :
    a.Allows op ∧ a.JoinsOnce op := by
  cases op with
  | call tgt data => exact ⟨wf.resumable admitted, fun t same => by cases same⟩
  | tailcall tgt data =>
      exact ⟨⟨admitted.1, wf.resumable admitted.2⟩, fun t same => by cases same⟩
  | join t =>
      refine ⟨⟨admitted.1, admitted.2.created⟩, fun u same _ => ?_⟩
      cases same
      exact admitted.2.unjoined
  | _ => exact ⟨admitted, fun t same => by cases same⟩

theorem WellFormed.answer (wf : WellFormed a null) {op : ThreadOp} (admitted : a.Admits op) :
    a.answer op = (a.step op).2 := by
  cases op with
  | call tgt data =>
      rcases wf.callable_waits admitted with waits | waits <;>
        simp [Activation.answer, Activation.step, reply, returnTo, waits]
  | tailcall tgt data =>
      rcases wf.callable_waits admitted.2 with waits | waits <;>
        simp [Activation.answer, Activation.step, reply, returnTo, waits]
  | _ => rfl

/-- Every admitted operation keeps the invariant. -/
theorem WellFormed.step (wf : WellFormed a null) {op : ThreadOp} (admitted : a.Admits op) :
    WellFormed (a.step op).1 null := by
  obtain ⟨allowed, once⟩ := wf.allows admitted
  exact ⟨wf.toSettled.step allowed, wf.recorded.step wf.toSettled allowed once⟩

/-- The caller is left in a call, which is a tailcall or a join only for the operation of that
name; nobody else waits in another call than before. -/
theorem step_waits {op : ThreadOp} {c : Word} (waits : (a.step op).1.waiting c = p) :
    a.waiting c = p ∨ (p = .tailcall → ∃ tgt data, op = .tailcall tgt data) ∧
      ∀ t, p = .join t → op = .join t := by
  have left : ∀ {q : Pending}, (q = .tailcall → ∃ tgt data, op = .tailcall tgt data) →
      (∀ t, q = .join t → op = .join t) → Function.update a.waiting a.top q c = p →
      a.waiting c = p ∨ (p = .tailcall → ∃ tgt data, op = .tailcall tgt data) ∧
        ∀ t, p = .join t → op = .join t := by
    intro q tailcall join waits
    by_cases top : c = a.top
    · rw [top, Function.update_self] at waits
      exact .inr (waits ▸ ⟨tailcall, join⟩)
    · rw [Function.update_of_ne top] at waits
      exact .inl waits
  have exits : ∀ code, (a.exit code).1.waiting = Function.update a.waiting a.top .exit := by
    intro code
    unfold exit
    cases a.joiner a.top <;> rfl
  cases op with
  | join t =>
      simp only [step] at waits
      cases exited : a.exited t with
      | some code =>
          rw [exited] at waits
          exact .inl waits
      | none =>
          rw [exited] at waits
          exact left Pending.noConfusion (fun u same => by cases same; rfl) waits
  | tailcall tgt data =>
      exact left (fun _ => ⟨tgt, data, rfl⟩) (fun _ => Pending.noConfusion) waits
  | exit code =>
      exact left Pending.noConfusion (fun _ => Pending.noConfusion) ((exits code) ▸ waits)
  | fnReturn rax =>
      exact left Pending.noConfusion (fun _ => Pending.noConfusion) ((exits rax) ▸ waits)
  | mainStart | start => exact left Pending.noConfusion (fun _ => Pending.noConfusion) waits
  | call | yield => exact left Pending.noConfusion (fun _ => Pending.noConfusion) waits

theorem init_settled : Settled init null where
  nodup := by simp [chain, init]
  onstack t inside := by cases inside
  live_nodup := List.nodup_nil
  null_dead inside := by cases inside
  unfinished t inside := by cases inside
  pushes c inside := by cases inside
  parked t inside := by cases inside
  joined u t joins := by cases joins

theorem init_wellFormed : WellFormed init null :=
  ⟨init_settled, fun t u inside => by cases inside⟩

end Activation
end CThread.Threads
