import CThread.Threads.Lifetime

/-!
The frames that a debugger follows.

The switch that puts a thread above its caller writes the caller's frame into the thread;
a thread that takes the place of another one takes over its frame. So `caller` of each
thread on the `yield_to` chain is where the context below it was last suspended, and the
saved stack pointer of that context belongs to the same place.
-/
namespace CThread.Threads
open Faults GuardedRuns World

/-- The frame of the context that enters `cthread_asm_switch` at `site`. -/
def CallSite.caller (site : CallSite) : CthreadCaller :=
  ⟨site.rsp + 8, site.rbp, site.returnAddress⟩

/-- Where each context was when it was last suspended. -/
def lastSite : Trace (CallSite × ThreadOp) ThreadOutput → Word → CallSite
  | [] => fun _ => ⟨0, 0, 0⟩
  | (i, o) :: tr =>
      if o.context = runner tr then lastSite tr
      else Function.update (lastSite tr) (runner tr) i.1

def World.callerOf (w : World) (t : Word) : Option CthreadCaller :=
  (w.threads t).map Cthread.caller

variable {w w' : World} {site : CallSite} {p : Pending} {tgt udata load psave t : Word}
  {o : ThreadOutput} {c : Cthread}

theorem get_eq_ok (found : w.get t = .ok c) : w.threads t = some c := by
  unfold World.get at found
  cases thread : w.threads t with
  | none => simp [thread] at found
  | some d =>
      simp only [thread, Except.ok.injEq] at found
      rw [found]

theorem callerOf_put (w : World) (t : Word) (c : Cthread) :
    (w.put t c).callerOf = Function.update w.callerOf t (some c.caller) := by
  funext u
  by_cases same : u = t
  · subst same
    simp [callerOf, put]
  · simp [callerOf, put, same]

theorem callerOf_put_same (thread : w.threads t = some c) {d : Cthread}
    (same : d.caller = c.caller) : (w.put t d).callerOf = w.callerOf := by
  have known : w.callerOf t = some c.caller := by simp [callerOf, thread]
  rw [callerOf_put, same, ← known, Function.update_eq_self]

/-- The two fields a debugger relies on are as they were. -/
structure SameFrames (w w' : World) : Prop where
  callers : w'.callerOf = w.callerOf
  slots : w'.slot = w.slot

theorem SameFrames.put (thread : w.threads t = some c) {d : Cthread}
    (caller : d.caller = c.caller) (stack : d.stack = c.stack) : SameFrames w (w.put t d) :=
  ⟨callerOf_put_same thread caller, funext fun u => slot_put thread stack u⟩

theorem deliver_frames {frame : Frame} (run : deliver w frame udata = .ok (w', o)) :
    SameFrames w w' := by
  unfold deliver at run
  split at run
  · cases run
  · next u _ =>
      obtain ⟨k, found, run⟩ := bind_eq_ok.mp run
      cases finished : k.finished with
      | false => simp [finished] at run
      | true =>
          simp only [finished, if_true, pure_eq_ok, Except.ok.injEq, Prod.mk.injEq] at run
          rw [← run.1]
          exact .put (get_eq_ok found) rfl rfl
  · cases run
    exact ⟨rfl, rfl⟩

theorem loadStack_frames (run : loadStack w load udata = .ok (w', o)) : SameFrames w w' := by
  unfold loadStack at run
  split at run
  · cases run
  · have frames := deliver_frames run
    exact ⟨frames.callers, frames.slots⟩

theorem saveStack_frames {sp : Word} (run : saveStack w psave sp = .ok w') :
    w'.callerOf = w.callerOf ∧ w'.slot = Function.update w.slot psave (some sp) := by
  unfold saveStack at run
  by_cases isMain : psave = null
  · rw [if_pos isMain] at run
    cases run
    refine ⟨rfl, funext fun u => ?_⟩
    by_cases same : u = psave
    · subst same
      simp [slot, isMain]
    · have ne : u ≠ null := fun other => same (other.trans isMain.symm)
      simp [slot, same, ne]
  · rw [if_neg isMain] at run
    obtain ⟨k, found, run⟩ := bind_eq_ok.mp run
    cases run
    refine ⟨callerOf_put_same (get_eq_ok found) (by rfl), funext fun u => ?_⟩
    by_cases same : u = psave
    · subst same
      simp [slot, put, isMain]
    · simp [slot, put, same]

/-- What a switch writes: the stack pointer of `src`, and the frames as in `callers`. -/
structure Leaves (w w' : World) (site : CallSite) (src : Word)
    (callers : Word → Option CthreadCaller) : Prop where
  callers : w'.callerOf = callers
  slots : w'.slot = Function.update w.slot src (some (site.rsp - 48))

theorem Leaves.of_same {w₁ : World} {callers : Word → Option CthreadCaller} {src : Word}
    (leaves : Leaves w₁ w' site src callers) (same : w₁.slot = w.slot) :
    Leaves w w' site src callers :=
  ⟨leaves.callers, same ▸ leaves.slots⟩

theorem cthreadAsmSwitch_leaves
    (run : cthreadAsmSwitch w site p udata load psave none = .ok (w', o)) :
    Leaves w w' site psave w.callerOf := by
  obtain ⟨w₁, called, rest⟩ := bind_eq_ok.mp run
  obtain ⟨w₂, stored, loaded⟩ := bind_eq_ok.mp rest
  cases called
  have stores := saveStack_frames stored
  have loads := loadStack_frames loaded
  exact ⟨loads.callers.trans stores.1, loads.slots.trans stores.2⟩

theorem cthreadAsmSwitch_leaves_into
    (run : cthreadAsmSwitch w site p udata load psave (some t) = .ok (w', o)) :
    Leaves w w' site psave (Function.update w.callerOf t (some site.caller)) := by
  obtain ⟨w₁, called, rest⟩ := bind_eq_ok.mp run
  obtain ⟨w₂, stored, loaded⟩ := bind_eq_ok.mp rest
  obtain ⟨k, found, written⟩ := bind_eq_ok.mp called
  cases written
  have stores := saveStack_frames stored
  have loads := loadStack_frames loaded
  have slots : (w.put t { k with caller := site.caller }).slot = w.slot :=
    funext fun u => slot_put (get_eq_ok found) (by rfl) u
  constructor
  · rw [loads.callers, stores.1]
    exact callerOf_put w t _
  · rw [loads.slots, stores.2, ← slots]
    rfl

theorem cthreadCall_leaves (run : cthreadCall w site tgt udata = .ok (w', o)) :
    Leaves w w' site w.self (Function.update w.callerOf tgt (some site.caller)) := by
  obtain ⟨k, found, switch⟩ := bind_eq_ok.mp run
  have frames : SameFrames w (w.put tgt { k with yieldTo := w.self }) :=
    .put (get_eq_ok found) rfl rfl
  have leaves := cthreadAsmSwitch_leaves_into switch
  exact .of_same ⟨by rw [leaves.callers, ← frames.callers]; rfl, leaves.slots⟩ frames.slots

theorem cthreadTailcall_leaves (run : cthreadTailcall w site p tgt udata = .ok (w', o)) :
    Leaves w w' site w.self (Function.update w.callerOf tgt (w.callerOf w.self)) := by
  obtain ⟨f, source, rest⟩ := bind_eq_ok.mp run
  obtain ⟨k, found, switch⟩ := bind_eq_ok.mp rest
  have leaves := cthreadAsmSwitch_leaves switch
  have own : w.callerOf w.self = some f.caller := by simp [callerOf, get_eq_ok source]
  refine .of_same ⟨?_, leaves.slots⟩ (funext fun u => slot_put (get_eq_ok found) (by rfl) u)
  rw [leaves.callers, own]
  exact callerOf_put w tgt { k with yieldTo := f.yieldTo, caller := f.caller }

theorem doYield_leaves {src : Word} (run : doYield w site p udata src = .ok (w', o)) :
    Leaves w w' site src w.callerOf := by
  obtain ⟨f, _, rest⟩ := bind_eq_ok.mp run
  by_cases isMain : f.yieldTo = null
  · rw [if_pos isMain] at rest
    have leaves := cthreadAsmSwitch_leaves rest
    exact ⟨leaves.callers, leaves.slots⟩
  · rw [if_neg isMain] at rest
    obtain ⟨k, _, switch⟩ := bind_eq_ok.mp rest
    have leaves := cthreadAsmSwitch_leaves switch
    exact ⟨leaves.callers, leaves.slots⟩

/-- A new thread overwrites what was at its address. -/
theorem launch_leaves {fn x : Word}
    (run : cthreadAsmSwitch
      (setThread ((prepareThread w t fn).put t { zeroedThread t with yieldTo := x }) t)
      site p udata load psave (some t) = .ok (w', o)) :
    w'.callerOf = Function.update w.callerOf t (some site.caller) ∧
      ∀ u, u ≠ t → w'.slot u = Function.update w.slot psave (some (site.rsp - 48)) u := by
  have leaves := cthreadAsmSwitch_leaves_into run
  have callers : (setThread ((prepareThread w t fn).put t
      { zeroedThread t with yieldTo := x }) t).callerOf =
      Function.update w.callerOf t (some ⟨0, 0, 0⟩) := by
    show ((prepareThread w t fn).put t _).callerOf = _
    rw [callerOf_put]
    show Function.update (w.put t (zeroedThread t)).callerOf t _ = _
    rw [callerOf_put, Function.update_idem]
    rfl
  constructor
  · rw [leaves.callers, callers, Function.update_idem]
  · intro u other
    have slot : (setThread ((prepareThread w t fn).put t
        { zeroedThread t with yieldTo := x }) t).slot u = w.slot u := by
      simp [World.slot, setThread, put, prepareThread, other]
    rw [leaves.slots]
    by_cases same : u = psave
    · subst same
      simp
    · rw [Function.update_of_ne same, Function.update_of_ne same, slot]

/-- How the frames move when the stack of running threads changes from one list to another. -/
inductive Reframes (w w' : World) (site : CallSite) : List Word → List Word → Prop
  | stay {l : List Word} (same : SameFrames w w') : Reframes w w' site l l
  | push {t : Word} {l : List Word} (notNull : t ≠ null) (off : t ∉ l)
      (callers : w'.callerOf = Function.update w.callerOf t (some site.caller))
      (slots : ∀ u, u ≠ t →
        w'.slot u = Function.update w.slot (l.headD null) (some (site.rsp - 48)) u) :
      Reframes w w' site l (t :: l)
  | pop {t : Word} {l : List Word} (leaves : Leaves w w' site t w.callerOf) :
      Reframes w w' site (t :: l) l
  | replace {t u : Word} {l : List Word} (notNull : u ≠ null) (off : u ∉ t :: l)
      (leaves : Leaves w w' site t (Function.update w.callerOf u (w.callerOf t))) :
      Reframes w w' site (t :: l) (u :: l)

/-- Each thread of the list holds the frame of the context below it. -/
def Framed (w : World) (sites : Word → CallSite) : List Word → Prop
  | [] => True
  | t :: rest =>
      w.callerOf t = some (sites (rest.headD null)).caller ∧
        w.slot (rest.headD null) = some ((sites (rest.headD null)).rsp - 48) ∧
        Framed w sites rest

theorem headD_mem (l : List Word) : l.headD null ∈ l ++ [null] := by
  cases l with
  | nil => exact .head _
  | cons t rest => exact .head _

theorem mem_tail_append {l : List Word} {u : Word} (inside : u ∈ l.tail ++ [null]) :
    u ∈ l ++ [null] := by
  rcases List.mem_append.mp inside with inside | inside
  · exact List.mem_append_left _ (List.mem_of_mem_tail inside)
  · exact List.mem_append_right _ inside

theorem Framed.keep {sites sites' : Word → CallSite} {l : List Word} (framed : Framed w sites l)
    (callers : ∀ u, u ∈ l → w'.callerOf u = w.callerOf u)
    (slots : ∀ u, u ∈ l.tail ++ [null] → w'.slot u = w.slot u)
    (same : ∀ u, u ∈ l.tail ++ [null] → sites' u = sites u) : Framed w' sites' l := by
  induction l with
  | nil => trivial
  | cons t rest ih =>
      obtain ⟨caller, slot, below⟩ := framed
      have inside := headD_mem rest
      refine ⟨?_, ?_, ih below (fun u member => callers u (.tail _ member))
        (fun u member => slots u (mem_tail_append member))
        fun u member => same u (mem_tail_append member)⟩
      · rw [callers t (.head _), same _ inside, caller]
      · rw [slots _ inside, same _ inside, slot]

/-- A context that is not below the head of the list is suspended. -/
theorem Framed.leave {sites : Word → CallSite} {l : List Word} (framed : Framed w sites l)
    (gone : t ∉ l.tail ++ [null]) (callers : ∀ u, u ∈ l → w'.callerOf u = w.callerOf u)
    (slots : ∀ u, u ∈ l.tail ++ [null] →
      w'.slot u = Function.update w.slot t (some (site.rsp - 48)) u) :
    Framed w' (Function.update sites t site) l := by
  have other : ∀ u, u ∈ l.tail ++ [null] → u ≠ t := fun u inside same => gone (same ▸ inside)
  refine framed.keep callers ?_ ?_
  · intro u inside
    rw [slots u inside, Function.update_of_ne (other u inside)]
  · intro u inside
    exact Function.update_of_ne (other u inside) ..

/-- The sites after a switch from the head of `l` to that of `l'`. -/
def sitesAfter (sites : Word → CallSite) (site : CallSite) (l l' : List Word) : Word → CallSite :=
  if l'.headD null = l.headD null then sites
  else Function.update sites (l.headD null) site

theorem sitesAfter_ne {sites : Word → CallSite} {l l' : List Word}
    (moves : l'.headD null ≠ l.headD null) :
    sitesAfter sites site l l' = Function.update sites (l.headD null) site :=
  if_neg moves

theorem Framed.step {sites : Word → CallSite} {l l' : List Word} (framed : Framed w sites l)
    (nodup : (l ++ [null]).Nodup) (moves : Reframes w w' site l l') :
    Framed w' (sitesAfter sites site l l') l' := by
  cases moves with
  | stay same =>
      rw [sitesAfter, if_pos rfl]
      exact framed.keep (fun u _ => by rw [same.callers]) (fun u _ => by rw [same.slots])
        fun u _ => rfl
  | @push t _ notNull off callers slots =>
      have fresh : t ∉ l ++ [null] := by simp [off, notNull]
      have other : ∀ u, u ∈ l ++ [null] → u ≠ t := fun u inside same => fresh (same ▸ inside)
      have top := other _ (headD_mem l)
      rw [sitesAfter_ne (show (t :: l).headD null ≠ _ from top.symm)]
      refine ⟨?_, ?_, ?_⟩
      · rw [callers, Function.update_self, Function.update_self]
      · rw [slots _ top, Function.update_self, Function.update_self]
      · cases l with
        | nil => trivial
        | cons h rest =>
            refine framed.leave (List.nodup_cons.mp nodup).1 ?_ ?_
            · intro u inside
              rw [callers, Function.update_of_ne (other u (List.mem_append_left _ inside))]
            · intro u inside
              exact slots u (other u (.tail _ inside))
  | @pop t _ leaves =>
      have gone : t ∉ l' ++ [null] := (List.nodup_cons.mp nodup).1
      have top : l'.headD null ≠ t := fun same => gone (same ▸ headD_mem l')
      rw [sitesAfter_ne (show _ ≠ (t :: l').headD null from top)]
      refine framed.2.2.leave (fun inside => gone (mem_tail_append inside)) ?_ ?_
      · exact fun u _ => by rw [leaves.callers]
      · exact fun u _ => by rw [leaves.slots]; rfl
  | @replace t u rest notNull off leaves =>
      have gone : t ∉ rest ++ [null] := (List.nodup_cons.mp nodup).1
      have top : u ≠ t := fun same => off (same ▸ .head _)
      have next : rest.headD null ≠ t := fun same => gone (same ▸ headD_mem rest)
      obtain ⟨caller, slot, below⟩ := framed
      rw [sitesAfter_ne (show (u :: rest).headD null ≠ (t :: rest).headD null from top)]
      refine ⟨?_, ?_, below.leave (fun inside => gone (mem_tail_append inside)) ?_ ?_⟩
      · rw [leaves.callers, Function.update_self, caller]
        exact congrArg (fun s : CallSite => some s.caller) (Function.update_of_ne next ..).symm
      · rw [leaves.slots, Function.update_of_ne next, slot]
        exact congrArg (fun s : CallSite => some (s.rsp - 48)) (Function.update_of_ne next ..).symm
      · intro v inside
        have other : v ≠ u := fun same => off (same ▸ .tail _ inside)
        rw [leaves.callers, Function.update_of_ne other]
      · exact fun v _ => by rw [leaves.slots]; rfl

namespace Tracks
variable {a : Activation}

theorem head (rel : Tracks w a) : w.self = a.stack.headD null :=
  rel.self

theorem start_reframes {fn arg stack sz : Word} (rel : Tracks w a)
    (fresh : a.Fresh (cthreadAddress stack sz))
    (run : cthreadStart w site fn arg stack sz = .ok (w', o)) :
    Reframes w w' site a.stack (cthreadAddress stack sz :: a.stack) := by
  obtain ⟨_, _, rest⟩ := bind_eq_ok.mp run
  have created : (prepareThread w (cthreadAddress stack sz) fn).get (cthreadAddress stack sz) =
      .ok (zeroedThread (cthreadAddress stack sz)) := get_ok (Function.update_self ..)
  simp only [createCthread, created, ok_bind] at rest
  obtain ⟨callers, slots⟩ := launch_leaves rest
  refine .push fresh.1 (fun inside => fresh.2 (rel.settled.onstack _ inside)) callers ?_
  rw [← rel.head]
  exact slots

theorem mainStart_reframes {fn arg stack sz : Word} (rel : Tracks w a)
    (isMain : a.stack = []) (fresh : a.Fresh (cthreadAddress stack sz))
    (run : cthreadMainStart w site fn arg stack sz = .ok (w', o)) :
    Reframes w w' site a.stack (cthreadAddress stack sz :: a.stack) := by
  have self : w.self = null := by
    rw [rel.head, isMain]
    rfl
  have created : (prepareThread w (cthreadAddress stack sz) fn).get (cthreadAddress stack sz) =
      .ok (zeroedThread (cthreadAddress stack sz)) := get_ok (Function.update_self ..)
  simp only [cthreadMainStart, self, ne_eq, not_true_eq_false, if_false, createCthread,
    created, ok_bind, show (zeroedThread (cthreadAddress stack sz)).yieldTo = null from rfl] at run
  obtain ⟨callers, slots⟩ := launch_leaves run
  refine .push fresh.1 (fun inside => fresh.2 (rel.settled.onstack _ inside)) callers ?_
  rw [isMain]
  exact slots

theorem call_reframes (rel : Tracks w a) (resumable : a.Resumable t)
    (run : cthreadCall w site t udata = .ok (w', o)) :
    Reframes w w' site a.stack (t :: a.stack) := by
  have leaves := cthreadCall_leaves run
  have notNull : t ≠ null := fun same => rel.settled.null_dead (same ▸ resumable.live)
  refine .push notNull resumable.off leaves.callers fun u _ => ?_
  rw [leaves.slots, rel.head]

theorem replace_reframes (rel : Tracks w a) (running : a.stack ≠ []) (live : t ∈ a.live)
    (off : t ∉ a.stack)
    (leaves : Leaves w w' site w.self (Function.update w.callerOf t (w.callerOf w.self))) :
    Reframes w w' site a.stack (t :: a.stack.tail) := by
  have notNull : t ≠ null := fun same => rel.settled.null_dead (same ▸ live)
  rw [rel.self] at leaves
  rw [Activation.stack_eq running] at off ⊢
  exact .replace notNull off leaves

theorem pop_reframes (rel : Tracks w a) (running : a.stack ≠ [])
    (leaves : Leaves w w' site w.self w.callerOf) :
    Reframes w w' site a.stack a.stack.tail := by
  rw [rel.self] at leaves
  rw [Activation.stack_eq running]
  exact .pop leaves

theorem join_reframes (rel : Tracks w a) (allowed : a.Allows (.join t))
    (run : cthreadJoin w site t = .ok (w', o)) :
    Reframes w w' site a.stack (a.step (.join t)).1.stack := by
  have running : a.stack ≠ [] := allowed.1
  simp only [cthreadJoin, if_neg (rel.self_ne_null running)] at run
  obtain ⟨k, found, rest⟩ := bind_eq_ok.mp run
  have known := get_eq_ok found
  simp only [Activation.step]
  cases exited : a.exited t with
  | some code =>
      obtain ⟨d, thread, finished, _⟩ := rel.exited_thread exited
      rw [known] at thread
      cases thread
      rw [if_pos finished] at rest
      cases rest
      exact .stay ⟨rfl, rfl⟩
  | none =>
      have live : t ∈ a.live := allowed.2.resolve_right fun done => done exited
      obtain ⟨d, thread, unfinished, _⟩ := rel.thread live
      rw [known] at thread
      cases thread
      rw [if_neg (by rw [unfinished]; exact Bool.false_ne_true)] at rest
      have frames : SameFrames w (w.put t { k with exitTo := w.self }) := .put known rfl rfl
      have leaves := doYield_leaves rest
      rw [frames.callers] at leaves
      exact rel.pop_reframes running (leaves.of_same frames.slots)

theorem exit_reframes {code : Word} (rel : Tracks w a) (running : a.stack ≠ [])
    (run : cthreadExit w site code = .ok (w', o)) :
    Reframes w w' site a.stack (a.exit code).1.stack := by
  obtain ⟨c, retires⟩ := rel.retires running code
  have frames : SameFrames w (w.put w.self { c with finished := true, exitCode := code }) :=
    .put retires.thread rfl rfl
  have callers : (retire w c code).callerOf = w.callerOf := frames.callers
  have slots : (retire w c code).slot = w.slot := frames.slots
  simp only [cthreadExit, if_neg retires.caller, get_ok retires.thread, ok_bind,
    retires.finished, Bool.false_eq_true, if_false] at run
  unfold Activation.exit
  cases joiner : a.joiner a.top with
  | none =>
      have nobody : c.exitTo = null := by
        rw [retires.exitTo, joiner]
        rfl
      rw [if_pos nobody] at run
      have leaves := doYield_leaves run
      rw [callers] at leaves
      exact rel.pop_reframes running (leaves.of_same slots)
  | some j =>
      obtain ⟨_, live, off, _⟩ := rel.settled.joined a.top j joiner
      have notNull : j ≠ null := fun same => rel.settled.null_dead (same ▸ live)
      have somebody : c.exitTo = j := by
        rw [retires.exitTo, joiner]
        rfl
      rw [if_neg (by rw [somebody]; exact notNull), somebody] at run
      have leaves := cthreadTailcall_leaves run
      rw [callers] at leaves
      exact rel.replace_reframes running live off (leaves.of_same slots)

/-- What every operation does to the frames. -/
theorem step_reframes (rel : Tracks w a) {op : ThreadOp} (allowed : a.Allows op)
    (run : threadStep w (site, op) = .ok (w', o)) :
    Reframes w w' site a.stack (a.step op).1.stack := by
  cases op with
  | mainStart fn arg stack sz => exact rel.mainStart_reframes allowed.1 allowed.2 run
  | start fn arg stack sz => exact rel.start_reframes allowed.2 run
  | call tgt data => exact rel.call_reframes allowed run
  | tailcall tgt data =>
      exact rel.replace_reframes allowed.1 allowed.2.live allowed.2.off (cthreadTailcall_leaves run)
  | yield data => exact rel.pop_reframes allowed (doYield_leaves run)
  | join t => exact rel.join_reframes allowed run
  | exit code => exact rel.exit_reframes allowed run
  | fnReturn rax => exact rel.exit_reframes allowed run

end Tracks

theorem threadRun_framed {tr : Trace (CallSite × ThreadOp) ThreadOutput}
    (run : Run threadMachine ThreadAllows World.init tr w) :
    Lives tr w ∧ Framed w (lastSite tr) (activationOf tr).stack := by
  induction run with
  | nil => exact ⟨threadRun_lives .nil, trivial⟩
  | @snoc tr w w' i o run allowed stepped ih =>
      obtain ⟨lives, framed⟩ := ih
      have lives' := threadRun_lives (.snoc run allowed stepped)
      refine ⟨lives', ?_⟩
      have moves := lives.rel.step_reframes allowed.1 stepped
      have after := framed.step lives.rel.settled.nodup moves
      have sites : lastSite ((i, o) :: tr) =
          sitesAfter (lastSite tr) i.1 (activationOf tr).stack
            ((activationOf tr).step i.2).1.stack := by
        have runs : runner tr = (activationOf tr).stack.headD null := lives.runs
        have runs' : o.context = ((activationOf tr).step i.2).1.stack.headD null := lives'.runs
        rw [lastSite, sitesAfter, runs, runs']
      rw [sites]
      exact after

/-- The threads on the `yield_to` chain from `cthread_self()`. -/
inductive World.OnChain (w : World) : Word → Prop
  | self (running : w.self ≠ null) : OnChain w w.self
  | next {t : Word} {k : Cthread} (above : OnChain w t) (known : w.threads t = some k)
      (more : k.yieldTo ≠ null) : OnChain w k.yieldTo

/-- A thread of a framed chain holds the frame of the context it yields to. -/
theorem Framed.member {sites : Word → CallSite} {l : List Word} (framed : Framed w sites l)
    {x : Word} (spells : Spells w.control x l) (inside : t ∈ l) :
    ∃ k, w.threads t = some k ∧ k.caller = (sites k.yieldTo).caller ∧
      w.slot k.yieldTo = some ((sites k.yieldTo).rsp - 48) ∧ k.yieldTo ∈ l.tail ++ [null] := by
  induction l generalizing x with
  | nil => cases inside
  | cons u rest ih =>
      obtain ⟨caller, slot, below⟩ := framed
      obtain ⟨_, link, found, tail⟩ := spells
      cases inside with
      | head =>
          obtain ⟨k, known, same⟩ := thread_of_control found
          subst same
          have next : k.yieldTo = rest.headD null := tail.head
          rw [← next] at caller slot
          refine ⟨k, known, ?_, slot, next ▸ headD_mem rest⟩
          simpa [callerOf, known] using caller
      | tail _ inside =>
          obtain ⟨k, known, caller, slot, under⟩ := ih below tail inside
          exact ⟨k, known, caller, slot, mem_tail_append under⟩

/-- In every run, `caller` of each thread on the chain is the frame at which the context it
yields to was last suspended; that context still is, and the stack pointer saved for it is
the one its registers were pushed down to there. -/
theorem threadRun_callers {tr : Trace (CallSite × ThreadOp) ThreadOutput}
    (run : Run threadMachine ThreadAllows World.init tr w) (chained : w.OnChain t) :
    ∃ k, w.threads t = some k ∧ k.caller = (lastSite tr k.yieldTo).caller ∧
      w.slot k.yieldTo = some ((lastSite tr k.yieldTo).rsp - 48) ∧
      ∃ p, w.Suspended k.yieldTo p := by
  obtain ⟨lives, framed⟩ := threadRun_framed run
  have rel := lives.rel
  have spells : Spells w.control w.self (activationOf tr).stack := rel.self ▸ rel.chain
  have inside : t ∈ (activationOf tr).stack := by
    induction chained with
    | self running =>
        rw [rel.self] at running ⊢
        exact Activation.top_mem (rel.may_exit (rel.running ▸ running))
    | next above known more ih =>
        obtain ⟨l, found, _, _, under⟩ := framed.member spells ih
        rw [known] at found
        cases found
        rcases List.mem_append.mp under with under | bottom
        · exact List.mem_of_mem_tail under
        · exact absurd (List.mem_singleton.mp bottom) more
  obtain ⟨k, known, caller, slot, under⟩ := framed.member spells inside
  refine ⟨k, known, caller, slot, _, rel.suspended k.yieldTo ?_ ?_⟩
  · intro same
    apply rel.settled.top_fresh
    rw [Activation.chain_tail (List.ne_nil_of_mem inside), ← same]
    exact under
  · rcases List.mem_append.mp under with under | bottom
    · exact .inr (rel.settled.onstack _ (List.mem_of_mem_tail under))
    · exact .inl (List.mem_singleton.mp bottom)

theorem threadRun_callers_handover :
    (handover.threads 20384).map Cthread.caller = some ⟨1048584, 0, 0⟩ := by
  have chained : handover.OnChain 20384 := World.OnChain.self (w := handover) (by decide +kernel)
  obtain ⟨k, known, caller, _⟩ := threadRun_callers (threadRun_allows handover_run) chained
  have bottom : (handover.threads 20384).map Cthread.yieldTo = some null := by decide +kernel
  rw [known] at bottom ⊢
  have isMain : k.yieldTo = null := Option.some.inj bottom
  rw [isMain] at caller
  exact congrArg some (caller.trans (by decide +kernel))

end CThread.Threads
