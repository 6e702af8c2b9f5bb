import CThread.Hash.Runs
import CThread.Poll.Destroy

/-!
The loop with the poll table in `e->pollers`, the hash table, where it was a finite map before.

`ev_watch` and `ev_close` look their descriptor up in the hash table and change it; nothing
else touches the table until `evloop_destroy`, which goes through the buckets. A descriptor is
an `int` and its key the word with the same bits. What the hash table stands for is the map of
the loop that has been modelled so far, and the two loops have the same runs.
-/
namespace CThread.Poll
open Faults GuardedRuns Hash OpenAddressing Timers

inductive TableFault
  | hash (f : KhFault)
  | loop (f : LoopFault)
  deriving DecidableEq, Repr

/-- The loop state with the hash table. The map of `rest` plays no part. -/
structure TableState (ρ ω τ φ : Type) where
  rest : LoopState ρ ω τ φ
  pollers : Khash (BitVec 32) ρ

def inHash {α : Type} : Except KhFault α → Except TableFault α
  | .ok a => .ok a
  | .error f => .error (.hash f)

def inLoop {α : Type} : Except LoopFault α → Except TableFault α
  | .ok a => .ok a
  | .error f => .error (.loop f)

/-- The `khint32_t` that a descriptor is converted to. -/
def evfdKey (fd : Int) : BitVec 32 := BitVec.ofInt 32 fd

/-- `kh_int_hash_func` -/
def khIntHashFunc (key : BitVec 32) : BitVec 32 := key

section Model
variable {ρ ω τ φ : Type} [DecidableEq ρ] [DecidableEq ω] [DecidableEq τ]

/-- `xcalloc` returned `block`. -/
def newPoll (e : Pollers ρ ω φ) (fd : Int) (block : ρ) : Pollers ρ ω φ :=
  { e.put block (emptyPoll fd) with allocated := block :: e.allocated }

/-- `kh_put` and what follows it, up to the pointer to the record. -/
def tableRecordFor (h : Khash (BitVec 32) ρ) (e : Pollers ρ ω φ) (fd : Int) (block : ρ) :
    Except KhFault (Khash (BitVec 32) ρ × Pollers ρ ω φ × ρ) := do
  let (h, ii, sts) ← h.khPut khIntHashFunc (evfdKey fd)
  if sts ≠ 0 then
    let h ← h.writeVal ii block
    return (h, newPoll e fd block, block)
  else
    let p ← h.khVal ii
    return (h, e, p)

/-- `ev_watch` from `w->poll_data = p` on. -/
def setWatcher (e : Pollers ρ ω φ) (w : ω) (ev : EvEvent) (p : ρ) :
    Except PollFault (Pollers ρ ω φ) := do
  let e := e.putWatch w { e.watches w with pollData := some p }
  let r ← e.get p
  if (r.slot ev).isSome then .error .assertion
  else markDirty (e.put p (r.setSlot ev (some w))) p

def tableEvWatch (h : Khash (BitVec 32) ρ) (e : Pollers ρ ω φ) (w : ω) (fd : Int)
    (ev : EvEvent) (block : ρ) : Except TableFault (Khash (BitVec 32) ρ × Pollers ρ ω φ) := do
  if (e.watches w).fn.isNone then .error (.loop (.poll .assertion))
  else do
    let (h, e, p) ← inHash (tableRecordFor h e fd block)
    let e ← inLoop (inPolls (setWatcher e w ev p))
    return (h, e)

/-- `ev_close` between `kh_del` and `close`. -/
def closePoll (e : Pollers ρ ω φ) (p : ρ) : Except PollFault (Pollers ρ ω φ) := do
  let r ← e.get p
  markDirty (e.put p { r with fd := -1, rd := none, wr := none }) p

def tableEvClose (h : Khash (BitVec 32) ρ) (e : Pollers ρ ω φ) (fd : Int) :
    Except TableFault (Khash (BitVec 32) ρ × Pollers ρ ω φ) := do
  let ii ← inHash (h.khGet khIntHashFunc (evfdKey fd))
  if ii ≠ h.khEnd then
    let p ← inHash (h.khVal ii)
    let h ← inHash (h.khDel ii)
    let e ← inLoop (inPolls (closePoll e p))
    return (h, closeFd e fd)
  else return (h, closeFd e fd)

def tableStep (s : TableState ρ ω τ φ) (op : LoopOp ρ ω τ φ) :
    Except TableFault (TableState ρ ω τ φ × LoopOutput ρ ω τ φ) :=
  match s.rest.waiting, op with
  | none, .watch w fd ev block => do
      let (h, e) ← tableEvWatch s.pollers s.rest.loop.polls w fd ev block
      return (⟨s.rest.withPolls e, h⟩, .done)
  | none, .close fd => do
      let (h, e) ← tableEvClose s.pollers s.rest.loop.polls fd
      return (⟨s.rest.withPolls e, h⟩, .done)
  | _, op => do
      let (rest, out) ← inLoop (loopStep s.rest op)
      return (⟨rest, s.pollers⟩, out)

def tableMachine :
    Machine (TableState ρ ω τ φ) (LoopOp ρ ω τ φ) (LoopOutput ρ ω τ φ) TableFault :=
  ⟨tableStep⟩

/-- The loop of `evloop_destroy`, of which `rest` buckets are left from `ii` on. -/
def tableDestroyFrom (h : Khash (BitVec 32) ρ) :
    Nat → Nat → Pollers ρ ω φ → Except TableFault (Pollers ρ ω φ × List (SysCall ρ))
  | 0, _, e => .ok (e, [])
  | rest + 1, ii, e => do
      if ← inHash (h.khExist ii) then
        let p ← inHash (h.khVal ii)
        let r ← inLoop (inPolls (e.get p))
        let e ← inLoop (inPolls (xfree (closeFd e r.fd) p))
        let (e, calls) ← tableDestroyFrom h rest (ii + 1) e
        return (e, .close r.fd (some p) :: .xfree p :: calls)
      else tableDestroyFrom h rest (ii + 1) e

/-- `evloop_destroy`, with `kh_destroy` and `close(e->efd)`. -/
def tableEvloopDestroy (h : Khash (BitVec 32) ρ) (e : Pollers ρ ω φ) :
    Except TableFault (Pollers ρ ω φ × List (SysCall ρ)) := do
  let (e, calls) ← tableDestroyFrom h h.khEnd 0 e
  return ({ e with table := fun _ => none, kernel := fun _ => none }, calls)

end Model

end CThread.Poll
