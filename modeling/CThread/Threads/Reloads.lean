import CThread.Threads.Frames

/-!
The frames on the stacks: a switch leaves one where its caller is, and takes off the one at
the stack pointer that it loads.
-/
namespace CThread.Threads
open Faults World

variable {w w' : World} {site : CallSite} {o : ThreadOutput} {p : Pending}
  {t tgt psave load data sp fn arg stack sz : Word} {f : Frame} {pcaller : Option Word}

/-- The caller has left its frame in `p`, and the one at `load` is gone. -/
def Reloads (w w' : World) (site : CallSite) (p : Pending) (load : Word) : Prop :=
  w'.saved =
    Function.update (Function.update w.saved (site.rsp - 48) (some ⟨w.running, p⟩)) load none

/-- A frame is the one that was left, or it was there before. -/
theorem Reloads.cases (reloads : Reloads w w' site p load) (saved : w'.saved sp = some f) :
    sp ≠ load ∧ (sp = site.rsp - 48 ∧ f = ⟨w.running, p⟩ ∨ w.saved sp = some f) := by
  rw [reloads] at saved
  have other : sp ≠ load := fun same => by
    rw [same, Function.update_self] at saved
    cases saved
  rw [Function.update_of_ne other] at saved
  refine ⟨other, ?_⟩
  by_cases here : sp = site.rsp - 48
  · rw [here, Function.update_self] at saved
    exact .inl ⟨here, (Option.some.inj saved).symm⟩
  · rw [Function.update_of_ne here] at saved
    exact .inr saved

theorem saveCaller_saved (run : saveCaller w site pcaller = .ok w') :
    w'.saved = w.saved ∧ w'.running = w.running := by
  cases pcaller with
  | none =>
      cases run
      exact ⟨rfl, rfl⟩
  | some t =>
      obtain ⟨c, _, rest⟩ := bind_eq_ok.mp run
      cases rest
      exact ⟨rfl, rfl⟩

theorem saveStack_saved (run : saveStack w psave sp = .ok w') : w'.saved = w.saved := by
  unfold saveStack at run
  split at run
  · cases run
    rfl
  · obtain ⟨c, _, rest⟩ := bind_eq_ok.mp run
    cases rest
    rfl

theorem deliver_saved (run : deliver w f data = .ok (w', o)) : w'.saved = w.saved := by
  unfold deliver at run
  split at run
  · cases run
  · obtain ⟨c, _, rest⟩ := bind_eq_ok.mp run
    split at rest
    · cases rest
      rfl
    · cases rest
  · cases run
    rfl

theorem cthreadAsmSwitch_reloads
    (run : cthreadAsmSwitch w site p data load psave pcaller = .ok (w', o)) :
    Reloads w w' site p load := by
  obtain ⟨w₁, called, rest⟩ := bind_eq_ok.mp run
  obtain ⟨w₂, stored, loaded⟩ := bind_eq_ok.mp rest
  obtain ⟨saved₁, running₁⟩ := saveCaller_saved called
  have saved₂ := saveStack_saved stored
  unfold loadStack at loaded
  split at loaded
  · cases loaded
  · next frame _ =>
      rw [Reloads, deliver_saved loaded]
      show Function.update w₂.saved load none = _
      rw [saved₂]
      show Function.update (Function.update w₁.saved _ (some ⟨w₁.running, p⟩)) load none = _
      rw [saved₁, running₁]

theorem cthreadCall_reloads (notNull : tgt ≠ null)
    (run : cthreadCall w site tgt data = .ok (w', o)) :
    ∃ load, w.slot tgt = some load ∧ Reloads w w' site .call load := by
  obtain ⟨c, found, switch⟩ := bind_eq_ok.mp run
  have reloads := cthreadAsmSwitch_reloads switch
  exact ⟨c.stack, slot_thread notNull (get_eq_ok found), reloads⟩

theorem cthreadTailcall_reloads (notNull : tgt ≠ null)
    (run : cthreadTailcall w site p tgt data = .ok (w', o)) :
    ∃ load, w.slot tgt = some load ∧ Reloads w w' site p load := by
  obtain ⟨_, _, rest⟩ := bind_eq_ok.mp run
  obtain ⟨c, found, switch⟩ := bind_eq_ok.mp rest
  have reloads := cthreadAsmSwitch_reloads switch
  exact ⟨c.stack, slot_thread notNull (get_eq_ok found), reloads⟩

theorem doYield_reloads {src : Word} {k : Cthread} (thread : w.threads src = some k)
    (run : doYield w site p data src = .ok (w', o)) :
    ∃ load, w.slot k.yieldTo = some load ∧ Reloads w w' site p load := by
  simp only [doYield, get_ok thread, ok_bind] at run
  by_cases isMain : k.yieldTo = null
  · rw [if_pos isMain] at run
    have reloads := cthreadAsmSwitch_reloads run
    exact ⟨w.main.stack, by simp [slot, isMain], reloads⟩
  · rw [if_neg isMain] at run
    obtain ⟨c, found, switch⟩ := bind_eq_ok.mp run
    have reloads := cthreadAsmSwitch_reloads switch
    exact ⟨c.stack, slot_thread isMain (get_eq_ok found), reloads⟩

/-- The frame of the new thread is taken off at once. -/
theorem launch_reloads {x : Word}
    (run : cthreadAsmSwitch
      (setThread ((prepareThread w t fn).put t { zeroedThread t with yieldTo := x }) t)
      site p data (t - 64) psave (some t) = .ok (w', o)) :
    Reloads w w' site p (t - 64) := by
  have reloads := cthreadAsmSwitch_reloads run
  have same : w'.saved = Function.update (Function.update
      (Function.update w.saved (t - 64) (some ⟨t, .entry fn⟩)) (site.rsp - 48)
      (some ⟨w.running, p⟩)) (t - 64) none := reloads
  rw [Reloads, same]
  funext sp
  by_cases here : sp = t - 64
  · rw [here, Function.update_self, Function.update_self]
  · rw [Function.update_of_ne here, Function.update_of_ne here]
    by_cases left : sp = site.rsp - 48
    · rw [left, Function.update_self, Function.update_self]
    · rw [Function.update_of_ne left, Function.update_of_ne left, Function.update_of_ne here]

theorem cthreadStart_reloads (run : cthreadStart w site fn arg stack sz = .ok (w', o)) :
    Reloads w w' site (.start (cthreadAddress stack sz)) (cthreadAddress stack sz - 64) := by
  obtain ⟨_, _, rest⟩ := bind_eq_ok.mp run
  have created : (prepareThread w (cthreadAddress stack sz) fn).get (cthreadAddress stack sz) =
      .ok (zeroedThread (cthreadAddress stack sz)) := get_ok (Function.update_self ..)
  simp only [createCthread, created, ok_bind] at rest
  exact launch_reloads rest

theorem cthreadMainStart_reloads (self : w.self = null)
    (run : cthreadMainStart w site fn arg stack sz = .ok (w', o)) :
    Reloads w w' site (.mainStart (cthreadAddress stack sz)) (cthreadAddress stack sz - 64) := by
  have created : (prepareThread w (cthreadAddress stack sz) fn).get (cthreadAddress stack sz) =
      .ok (zeroedThread (cthreadAddress stack sz)) := get_ok (Function.update_self ..)
  simp only [cthreadMainStart, self, ne_eq, not_true_eq_false, if_false, createCthread,
    created, ok_bind, show (zeroedThread (cthreadAddress stack sz)).yieldTo = null from rfl] at run
  exact launch_reloads run

theorem cthreadJoin_reloads {c k : Cthread} (target : w.threads t = some c)
    (unfinished : c.finished = false) (source : w.threads w.self = some k)
    (run : cthreadJoin w site t = .ok (w', o)) :
    ∃ load, w.slot k.yieldTo = some load ∧ Reloads w w' site (.join t) load := by
  unfold cthreadJoin at run
  split at run
  · cases run
  · simp only [get_ok target, ok_bind] at run
    rw [if_neg (by rw [unfinished]; exact Bool.false_ne_true)] at run
    -- A thread that joins itself yields with its own `exit_to` written.
    obtain ⟨k', source', yieldTo⟩ : ∃ k', (w.put t { c with exitTo := w.self }).threads w.self =
        some k' ∧ k'.yieldTo = k.yieldTo := by
      by_cases itself : w.self = t
      · rw [itself, target] at source
        cases source
        exact ⟨{ c with exitTo := w.self }, itself ▸ Function.update_self .., rfl⟩
      · exact ⟨k, (Function.update_of_ne itself ..).trans source, rfl⟩
    obtain ⟨load, at_slot, reloads⟩ := doYield_reloads source' run
    rw [yieldTo] at at_slot
    exact ⟨load, (slot_put target (by rfl) _).symm.trans at_slot, reloads⟩

theorem cthreadExit_reloads {k : Cthread} {code : Word} (source : w.threads w.self = some k)
    (run : cthreadExit w site code = .ok (w', o)) :
    ∃ load, w.slot (if k.exitTo = null then k.yieldTo else k.exitTo) = some load ∧
      Reloads w w' site .exit load := by
  have source' : (retire w k code).threads w.self =
      some { k with finished := true, exitCode := code } := Function.update_self ..
  have slots : ∀ u, (retire w k code).slot u = w.slot u := slot_put source rfl
  unfold cthreadExit at run
  split at run
  · cases run
  · simp only [get_ok source, ok_bind] at run
    split at run
    · cases run
    · by_cases nobody : k.exitTo = null
      · rw [if_pos nobody] at run ⊢
        obtain ⟨load, at_slot, reloads⟩ := doYield_reloads source' run
        exact ⟨load, (slots _).symm.trans at_slot, reloads⟩
      · rw [if_neg nobody] at run ⊢
        obtain ⟨load, at_slot, reloads⟩ := cthreadTailcall_reloads nobody run
        exact ⟨load, (slots _).symm.trans at_slot, reloads⟩

/-- A join of a thread that has exited changes nothing. -/
theorem cthreadJoin_exited {a : Activation} {code : Word} (rel : Tracks w a)
    (notMain : w.self ≠ null) (exited : a.exited t = some code) (site : CallSite) :
    threadStep w (site, .join t) = .ok (w, .joined w.self t (Activation.codeOf code)) := by
  obtain ⟨c, known, done, result⟩ := rel.exited_thread exited
  simp only [threadStep, cthreadJoin, if_neg notMain, get_ok known, ok_bind, done, if_true,
    pure_eq_ok, result]

/-- A call from which the caller returns at once. -/
theorem lastSite_stays {i : CallSite × ThreadOp}
    {tr : GuardedRuns.Trace (CallSite × ThreadOp) ThreadOutput} (same : o.context = runner tr) : lastSite ((i, o) :: tr) = lastSite tr :=
  if_pos same

namespace Activation
variable {a : Activation} {op : ThreadOp}

theorem step_exited {code : Word} (exited : a.exited t = some code) :
    a.step (.join t) = (a, .joined a.top t (codeOf code)) := by
  simp only [step, exited]

/-- An operation that switches leaves the top in a call, which is a join for a join. -/
theorem step_waiting (switches : ∀ t, op = .join t → a.exited t = none) :
    ∃ p, (a.step op).1.waiting = Function.update a.waiting a.top p ∧
      ∀ t, p = .join t ↔ op = .join t := by
  have exits : ∀ code, (a.exit code).1.waiting = Function.update a.waiting a.top .exit := by
    intro code
    unfold Activation.exit
    cases a.joiner a.top <;> rfl
  cases op with
  | join t =>
      refine ⟨.join t, by simp [step, switches t rfl, block, pop], fun u => ?_⟩
      constructor <;> rintro ⟨⟩ <;> rfl
  | exit code => exact ⟨.exit, exits code, fun _ => by simp⟩
  | fnReturn rax => exact ⟨.exit, exits rax, fun _ => by simp⟩
  | mainStart fn arg stack sz | start fn arg stack sz => exact ⟨_, rfl, fun _ => by simp⟩
  | call tgt data => exact ⟨.call, rfl, fun _ => by simp⟩
  | tailcall tgt data => exact ⟨.tailcall, rfl, fun _ => by simp⟩
  | yield data => exact ⟨.yield, rfl, fun _ => by simp⟩

theorem exit_fields (a : Activation) (code : Word) :
    (a.exit code).1.live = a.live.erase a.top ∧
      (a.exit code).1.exited = Function.update a.exited a.top (some code) ∧
      ∀ u, u ≠ a.top → (a.exit code).1.joiner u = a.joiner u := by
  unfold Activation.exit
  cases a.joiner a.top with
  | none => exact ⟨rfl, rfl, fun _ _ => rfl⟩
  | some j => exact ⟨rfl, rfl, fun u ne => Function.update_of_ne ne ..⟩

/-- Who waits in a join returns from it with the code of its thread, anybody else with a
value. -/
def Replies (a : Activation) (c : Word) (o : ThreadOutput) : Prop :=
  (∃ t code, a.waiting c = .join t ∧ o = .joined c t code) ∨
    (∀ t, a.waiting c ≠ .join t) ∧ ∃ p v, o = .resumes c p v

theorem replies_reply (a : Activation) (c data : Word) :
    a.Replies c (a.reply c (a.waiting c) data) := by
  cases waits : a.waiting c with
  | join t => exact .inl ⟨t, _, waits, rfl⟩
  | _ => exact .inr ⟨fun t join => (by rw [waits] at join; cases join), _, _, rfl⟩

theorem Settled.replies_below (settled : a.Settled null) (running : a.stack ≠ [])
    (data : Word) : a.Replies a.below (a.returnTo a.below data) := by
  refine .inr ⟨fun t join => ?_, _, _, rfl⟩
  have pushes := settled.pushes _ (below_mem running)
  rw [join] at pushes
  exact pushes

theorem Settled.replies_exit (settled : a.Settled null) (running : a.stack ≠ [])
    (code : Word) : a.Replies (a.exit code).1.top (a.exit code).2 := by
  unfold Activation.exit
  cases joiner : a.joiner a.top with
  | none => exact settled.replies_below running null
  | some j => exact .inl ⟨a.top, _, (settled.joined _ j joiner).2.2.2, rfl⟩

theorem Settled.replies (settled : a.Settled null) (allowed : a.Allows op)
    (old : op.creates = none) (switches : ∀ t, op = .join t → a.exited t = none) :
    a.Replies (a.step op).1.top (a.answer op) := by
  cases op with
  | mainStart fn arg stack sz | start fn arg stack sz => cases old
  | call tgt data => exact a.replies_reply tgt data
  | tailcall tgt data => exact a.replies_reply tgt data
  | yield data => exact settled.replies_below allowed data
  | join t =>
      simp only [Activation.answer, Activation.step, switches t rfl]
      exact settled.replies_below allowed.1 null
  | exit code => exact settled.replies_exit allowed code
  | fnReturn rax => exact settled.replies_exit allowed rax

end Activation

end CThread.Threads
