import CThread.Threads.Model

/-!
What one switch does. `Switched` is the world after `cthread_asm_switch` seen from
outside: the caller is suspended in its call, the context that was loaded runs, and all
other contexts and all links between threads are as before.
-/
namespace CThread.Threads
open Faults

/-- The fields of a thread that say who resumes whom. -/
structure Control where
  yieldTo : Word
  exitTo : Word
  exitData : Word
  exitCode : Word
  finished : Bool

def Cthread.control (c : Cthread) : Control :=
  ⟨c.yieldTo, c.exitTo, c.exitData, c.exitCode, c.finished⟩

def Control.redirect (k : Control) (x : Word) : Control :=
  { k with yieldTo := x }

namespace World
variable {w : World} {t u : Word} {c : Cthread} {p : Pending}

def control (w : World) (t : Word) : Option Control :=
  (w.threads t).map Cthread.control

/-- The saved stack pointer of a context; `NULL` names the main context. -/
def slot (w : World) (c : Word) : Option Word :=
  if c = null then some w.main.stack else (w.threads c).map Cthread.stack

/-- The context `c` left a frame at its saved stack pointer and waits in `p`. -/
def Suspended (w : World) (c : Word) (p : Pending) : Prop :=
  ∃ sp, w.slot c = some sp ∧ w.saved sp = some ⟨c, p⟩

theorem get_ok (thread : w.threads t = some c) : w.get t = .ok c := by
  simp [get, thread]

theorem control_put (w : World) (t : Word) (c : Cthread) :
    (w.put t c).control = Function.update w.control t (some c.control) := by
  funext u
  by_cases same : u = t
  · subst same
    simp [control, put]
  · simp [control, put, same]

/-- A write to a thread that leaves its links alone. -/
theorem control_put_same (thread : w.threads t = some c) {c' : Cthread}
    (same : c'.control = c.control) : (w.put t c').control = w.control := by
  have known : w.control t = some c.control := by simp [control, thread]
  rw [control_put, same, ← known, Function.update_eq_self]

theorem slot_put (thread : w.threads t = some c) {c' : Cthread} (stack : c'.stack = c.stack)
    (u : Word) : (w.put t c').slot u = w.slot u := by
  by_cases same : u = t
  · subst same
    simp [slot, put, thread, stack]
  · simp [slot, put, same]

theorem Suspended.put (suspended : w.Suspended u p) (thread : w.threads t = some c)
    {c' : Cthread} (stack : c'.stack = c.stack) : (w.put t c').Suspended u p := by
  obtain ⟨sp, slot, saved⟩ := suspended
  exact ⟨sp, (slot_put thread stack u).trans slot, saved⟩

/-- A context is suspended in one call at a time. -/
theorem Suspended.unique {q : Pending} (first : w.Suspended u p) (second : w.Suspended u q) :
    p = q := by
  obtain ⟨sp, slot, saved⟩ := first
  obtain ⟨sp', slot', saved'⟩ := second
  rw [slot] at slot'
  cases slot'
  rw [saved] at saved'
  cases saved'
  rfl

theorem slot_thread (notNull : t ≠ null) (thread : w.threads t = some c) :
    w.slot t = some c.stack := by
  simp [slot, notNull, thread]

theorem thread_of_control {k : Control} (known : w.control t = some k) :
    ∃ c, w.threads t = some c ∧ c.control = k :=
  Option.map_eq_some_iff.mp known

/-- Nothing at `sp` will be resumed: no frame is there, or that of a thread that has
exited, whose stack may be used again. -/
def Free (w : World) (sp : Word) : Prop :=
  ∀ frame, w.saved sp = some frame → frame.pending = .exit

theorem free_of_none {sp : Word} (empty : w.saved sp = none) : w.Free sp := by
  intro frame saved
  rw [empty] at saved
  cases saved

theorem Free.ne {sp sp' : Word} (room : w.Free sp) {frame : Frame}
    (saved : w.saved sp' = some frame) (alive : frame.pending ≠ .exit) : sp' ≠ sp := by
  intro same
  subst same
  exact alive (room frame saved)

end World
open World

/-- From `w` to `w'` the running context was suspended in `p` and `d` was resumed. -/
structure Switched (w w' : World) (p : Pending) (d : Word) : Prop where
  running : w'.running = d
  self : w'.self = w.self
  numThreads : w'.main.numThreads = w.main.numThreads
  control : w'.control = w.control
  suspended : w'.Suspended w.running p
  kept : ∀ c q, c ≠ w.running → c ≠ d → q ≠ .exit → w.Suspended c q → w'.Suspended c q

variable {w : World} {site : CallSite} {pending p : Pending} {src tgt udata load : Word}

theorem saveCaller_ok (site : CallSite) (pcaller : Option Word)
    (known : ∀ t, pcaller = some t → ∃ c, w.threads t = some c) :
    ∃ w', saveCaller w site pcaller = .ok w' ∧ w'.main = w.main ∧ w'.self = w.self ∧
      w'.running = w.running ∧ w'.saved = w.saved ∧ w'.control = w.control ∧
      w'.slot = w.slot := by
  cases pcaller with
  | none => exact ⟨w, rfl, rfl, rfl, rfl, rfl, rfl, rfl⟩
  | some t =>
      obtain ⟨c, thread⟩ := known t rfl
      refine ⟨w.put t { c with caller := ⟨site.rsp + 8, site.rbp, site.returnAddress⟩ },
        by simp [saveCaller, get_ok thread], rfl, rfl, rfl, rfl,
        control_put_same thread rfl, ?_⟩
      funext u
      exact slot_put thread (by rfl) u

theorem saveStack_ok (known : src ≠ null → ∃ c, w.threads src = some c) (rsp : Word) :
    ∃ w', saveStack w src rsp = .ok w' ∧ w'.main.numThreads = w.main.numThreads ∧
      w'.self = w.self ∧ w'.running = w.running ∧ w'.saved = w.saved ∧
      w'.control = w.control ∧ w'.slot = Function.update w.slot src (some rsp) := by
  by_cases isMain : src = null
  · refine ⟨{ w with main := { w.main with stack := rsp } }, by simp [saveStack, isMain], rfl,
      rfl, rfl, rfl, rfl, ?_⟩
    funext u
    by_cases same : u = src
    · subst same
      simp [slot, isMain]
    · have ne : u ≠ null := fun other => same (other.trans isMain.symm)
      simp [slot, same, ne]
  · obtain ⟨c, thread⟩ := known isMain
    refine ⟨w.put src { c with stack := rsp }, by simp [saveStack, isMain, get_ok thread], rfl,
      rfl, rfl, rfl, ?_, ?_⟩
    · have same : w.control src = some c.control := by simp [World.control, thread]
      rw [control_put, show ({ c with stack := rsp } : Cthread).control = c.control from rfl,
        ← same, Function.update_eq_self]
    · funext u
      by_cases same : u = src
      · subst same
        simp [slot, put, isMain]
      · simp [slot, put, same]

/-- A switch to a live frame, from a context whose own stack has room for its frame. -/
theorem cthreadAsmSwitch_ok (room : w.Free (site.rsp - 48))
    (source : src = w.running) (known : src ≠ null → ∃ c, w.threads src = some c)
    {pcaller : Option Word} (caller : ∀ t, pcaller = some t → ∃ c, w.threads t = some c)
    (target : w.saved load = some ⟨tgt, p⟩) (alive : p ≠ .exit) :
    ∃ w', cthreadAsmSwitch w site pending udata load src pcaller =
        deliver w' ⟨tgt, p⟩ udata ∧ Switched w w' pending tgt := by
  obtain ⟨w₁, called, main₁, self₁, running₁, saved₁, control₁, slot₁⟩ :=
    saveCaller_ok site pcaller caller
  have known₁ : src ≠ null → ∃ c, (pushFrame w₁ site pending).threads src = some c := by
    intro ne
    obtain ⟨c, thread⟩ := known ne
    have same : w₁.control src = some c.control := by
      rw [control₁]
      simp [World.control, thread]
    obtain ⟨c₁, thread₁, _⟩ := thread_of_control same
    exact ⟨c₁, thread₁⟩
  obtain ⟨w₂, stored, num₂, self₂, running₂, saved₂, control₂, slot₂⟩ :=
    saveStack_ok known₁ (site.rsp - 48)
  have frames : w₂.saved =
      Function.update w.saved (site.rsp - 48) (some ⟨w.running, pending⟩) := by
    rw [saved₂, pushFrame, saved₁, running₁]
  have slots : w₂.slot = Function.update w.slot src (some (site.rsp - 48)) := by
    rw [slot₂, ← slot₁]
    rfl
  have apart : load ≠ site.rsp - 48 := room.ne target alive
  have found : w₂.saved load = some ⟨tgt, p⟩ := by
    rw [frames, Function.update_of_ne apart, target]
  have slots' : (popFrame w₂ load tgt).slot =
      Function.update w.slot src (some (site.rsp - 48)) := slots
  have frames' : (popFrame w₂ load tgt).saved = Function.update w₂.saved load none := rfl
  refine ⟨popFrame w₂ load tgt, ?_, rfl, self₂.trans self₁,
    num₂.trans (congrArg CthreadMain.numThreads main₁), control₂.trans control₁, ?_, ?_⟩
  · simp only [cthreadAsmSwitch, called, stored, loadStack, found, ok_bind]
  · refine ⟨site.rsp - 48, ?_, ?_⟩
    · rw [slots', ← source, Function.update_self]
    · rw [frames', Function.update_of_ne (Ne.symm apart), frames, Function.update_self]
  · intro c q notSource notTarget waits suspended
    obtain ⟨sp, slot, saved⟩ := suspended
    have notRoom : sp ≠ site.rsp - 48 := room.ne saved waits
    have notLoad : sp ≠ load := by
      intro same
      rw [same, target] at saved
      cases saved
      exact notTarget rfl
    refine ⟨sp, ?_, ?_⟩
    · rw [slots', Function.update_of_ne (source ▸ notSource), slot]
    · rw [frames', Function.update_of_ne notLoad, frames, Function.update_of_ne notRoom, saved]

theorem cthreadCall_ok (room : w.Free (site.rsp - 48)) (self : w.self = w.running)
    (known : w.self ≠ null → ∃ c, w.threads w.self = some c) {c : Cthread}
    (thread : w.threads tgt = some c) (notNull : tgt ≠ null) (target : w.Suspended tgt p)
    (alive : p ≠ .exit) (udata : Word) :
    ∃ w', cthreadCall w site tgt udata = deliver w' ⟨tgt, p⟩ udata ∧
      Switched (setThread (w.put tgt { c with yieldTo := w.self }) tgt) w' .call tgt := by
  obtain ⟨sp, slot, saved⟩ := target
  rw [slot_thread notNull thread] at slot
  cases slot
  simp only [cthreadCall, get_ok thread, ok_bind]
  refine cthreadAsmSwitch_ok (w := setThread (w.put tgt _) tgt) room self ?_ ?_ saved alive
  · intro ne
    by_cases same : w.self = tgt
    · exact ⟨_, by simp [setThread, put, same]; rfl⟩
    · obtain ⟨c, thread⟩ := known ne
      exact ⟨c, by simp [setThread, put, same, thread]⟩
  · intro t same
    cases same
    exact ⟨_, by simp [setThread, put]; rfl⟩

theorem cthreadTailcall_ok (room : w.Free (site.rsp - 48))
    (self : w.self = w.running) {f : Cthread} (source : w.threads w.self = some f)
    {c : Cthread} (thread : w.threads tgt = some c) (notNull : tgt ≠ null)
    (target : w.Suspended tgt p) (alive : p ≠ .exit) (pending : Pending) (udata : Word) :
    ∃ w', cthreadTailcall w site pending tgt udata = deliver w' ⟨tgt, p⟩ udata ∧
      Switched (setThread (w.put tgt { c with yieldTo := f.yieldTo, caller := f.caller }) tgt)
        w' pending tgt := by
  obtain ⟨sp, slot, saved⟩ := target
  rw [slot_thread notNull thread] at slot
  cases slot
  simp only [cthreadTailcall, get_ok source, get_ok thread, ok_bind]
  refine cthreadAsmSwitch_ok (w := setThread (w.put tgt _) tgt) room self ?_ ?_ saved alive
  · intro _
    by_cases same : w.self = tgt
    · exact ⟨_, by simp [setThread, put, same]; rfl⟩
    · exact ⟨f, by simp [setThread, put, same, source]⟩
  · intro t same
    cases same

theorem doYield_ok (room : w.Free (site.rsp - 48)) (source : src = w.running)
    {f : Cthread} (thread : w.threads src = some f) (target : w.Suspended f.yieldTo p)
    (alive : p ≠ .exit) (pending : Pending) (udata : Word) :
    ∃ w', doYield w site pending udata src = deliver w' ⟨f.yieldTo, p⟩ udata ∧
      Switched (setThread w f.yieldTo) w' pending f.yieldTo := by
  obtain ⟨sp, slot, saved⟩ := target
  have known : src ≠ null → ∃ c, (setThread w f.yieldTo).threads src = some c :=
    fun _ => ⟨f, thread⟩
  have dummy : ∀ t, none = some t → ∃ c, (setThread w f.yieldTo).threads t = some c := by
    intro t same
    cases same
  simp only [doYield, get_ok thread, ok_bind]
  by_cases isMain : f.yieldTo = null
  · rw [if_pos isMain]
    have stack : w.main.stack = sp := by simpa [World.slot, isMain] using slot
    rw [stack]
    exact cthreadAsmSwitch_ok (w := setThread w f.yieldTo) room source known dummy saved alive
  · rw [if_neg isMain]
    obtain ⟨c, other, stack⟩ : ∃ c, w.threads f.yieldTo = some c ∧ c.stack = sp := by
      simpa [World.slot, isMain] using slot
    rw [get_ok other, ok_bind, stack]
    exact cthreadAsmSwitch_ok (w := setThread w f.yieldTo) room source known dummy saved alive

theorem deliver_pushes {c : Word} (enters : ∀ t, p ≠ .join t) (alive : p ≠ .exit) :
    deliver w ⟨c, p⟩ udata = .ok (w, .resumes c p udata) := by
  cases p with
  | join t => exact absurd rfl (enters t)
  | exit => exact absurd rfl alive
  | _ => rfl

theorem deliver_join {c t : Word} {k : Cthread} (thread : w.threads t = some k)
    (finished : k.finished = true) :
    deliver w ⟨c, .join t⟩ udata =
      .ok (w.put t { k with exitTo := null }, .joined c t (exitResult k)) := by
  simp [deliver, get_ok thread, finished]

end CThread.Threads
