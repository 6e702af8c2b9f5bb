import CThread.Switch.Simulation
import CThread.Threads.JoinResult

/-!
The model of the C code follows the machine, step by step.

What a join waits for is known on both levels, from the last call on the machine and from the
frame in the model. Where the two differ is at a joiner that is taken up: it has returned from
its join in the model, and is about to on the machine.
-/
namespace CThread.Switch
open Faults GuardedRuns X64
open X64.Cpu
open CThread.Threads (null cthreadAddress World CallSite ThreadOp ThreadOutput Activation
  threadMachine threadStep ThreadAllows activationOf lastSite)

variable {L : Layout} {s s' : Contexts} {op : CodeOp} {out : CodeOutput}
  {tr : Trace CodeOp CodeOutput} {tr' : Trace (CallSite × ThreadOp) ThreadOutput}
  {w w' : World} {call : ThreadOp} {c t tgt next : Word} {k : Context}

/-- A step of the machine as an operation of the C code. -/
def codeEvent : CodeOp × CodeOutput → Option (CallSite × ThreadOp)
  | (op, .context (.switched _ left _)) => op.threadOp.map (siteOf left, ·)
  | (.join t _ _, .joined _ _ _ left) => some (siteOf left, .join t)
  | _ => none

/-- A join that returns: to whom, from which thread and with what. -/
def codeResult : CodeOp × CodeOutput → Option (Word × Word × Int)
  | (_, .joined c t code _) => some (c, t, code)
  | _ => none

def threadResult : (CallSite × ThreadOp) × ThreadOutput → Option (Word × Word × Int)
  | (_, .joined c t code) => some (c, t, code)
  | _ => none

/-- The thread that exits in a step, and its code. -/
def ending : CodeOp × CodeOutput → Option (Word × Word)
  | (.exit code _ _, .context (.switched src _ _)) => some (src, code)
  | _ => none

/-- The word with which the thread at `t` has exited, unless another one was created there. -/
def exitCodeOf (t : Word) : Trace CodeOp CodeOutput → Option Word
  | [] => none
  | e :: tr =>
      if e.1.threadOp.bind ThreadOp.creates = some t then none
      else match ending e with
        | some (src, code) => if src = t then some code else exitCodeOf t tr
        | none => exitCodeOf t tr

theorem exits_eq (calls : op.threadOp = some call) : op.exits = call.code.isSome := by
  cases op with
  | context op => cases op <;> cases calls <;> rfl
  | joinReturn t => cases calls
  | join | exit =>
      cases calls
      rfl

/-- The running context enters a join only by that call. -/
theorem joining_source {left : Context} (idle : joining tr c = none)
    (calls : op.threadOp = some call) :
    joining ((op, .context (.switched c left tgt)) :: tr) c = some t ↔ call = .join t := by
  cases op with
  | join u dummy next =>
      cases calls
      show Function.update (joining tr) c (some u) c = some t ↔ _
      simp
  | joinReturn u => cases calls
  | context op =>
      have same : joining ((.context op, .context (.switched c left tgt)) :: tr) c = none := idle
      rw [same]
      cases op <;> cases calls <;> simp
  | exit code dummy next =>
      have same : joining ((.exit code dummy next, .context (.switched c left tgt)) :: tr) c =
          none := idle
      rw [same]
      cases calls
      simp

theorem exitCodeOf_switched {left : Context} (calls : op.threadOp = some call) :
    exitCodeOf t ((op, .context (.switched c left tgt)) :: tr) =
      if call.creates = some t then none
      else if call.code ≠ none ∧ t = c then call.code else exitCodeOf t tr := by
  have creates : op.threadOp.bind ThreadOp.creates = call.creates := by
    rw [calls]
    rfl
  have ends : ending (op, .context (.switched c left tgt)) = call.code.map (c, ·) := by
    cases op with
    | context op => cases op <;> cases calls <;> rfl
    | joinReturn u => cases calls
    | join | exit =>
        cases calls
        rfl
  rw [exitCodeOf, creates, ends]
  cases call.code with
  | none => simp
  | some code => simp [eq_comm]

theorem joining_other {src : Word} {left : Context} (ne : c ≠ src) :
    joining ((op, .context (.switched src left tgt)) :: tr) c = joining tr c := by
  cases op with
  | join u dummy next => exact Function.update_of_ne ne ..
  | joinReturn | context | exit => rfl

/-- The run `tr` of the machine has come as far as the run `tr'` of the model. -/
structure CodeSimulates (L : Layout) (tr : Trace CodeOp CodeOutput) (s : Contexts)
    (tr' : Trace (CallSite × ThreadOp) ThreadOutput) (w : World) : Prop
    extends Simulates L (parked tr) s tr' w where
  events : tr'.map Prod.fst = tr.filterMap codeEvent
  created : ∀ t, WasCreated tr t →
    t ∈ (activationOf tr').live ∨ (activationOf tr').exited t ≠ none
  exits : ∀ t, exitCodeOf t tr = (activationOf tr').exited t
  joins : ∀ c k, parked tr c = some k → ∀ t,
    joining tr c = some t ↔ (activationOf tr').waiting c = .join t
  inside : ∀ c, joining tr c ≠ none → c = s.self ∨ ∃ k, parked tr c = some k
  results : joining tr s.self = none → tr'.filterMap threadResult = tr.filterMap codeResult
  returns : ∀ t, joining tr s.self = some t → ∃ code,
    (activationOf tr').exited t = some code ∧
      tr'.filterMap threadResult =
        (s.self, t, Activation.codeOf code) :: tr.filterMap codeResult

/-- A join that returns gives the code of a thread that has exited. -/
def Reports (a : Activation) (out : CodeOutput) : Prop :=
  ∀ c t result left, out = .joined c t result left →
    ∃ code, a.exited t = some code ∧ result = Activation.codeOf code

/-- What has become of a step of the machine. -/
inductive Follows (L : Layout) (tr : Trace CodeOp CodeOutput) (op : CodeOp)
    (tr' : Trace (CallSite × ThreadOp) ThreadOutput) (w : World) (s' : Contexts)
    (out : CodeOutput) : Prop
  | stays (quiet : codeEvent (op, out) = none) (reports : Reports (activationOf tr') out)
      (sim : CodeSimulates L ((op, out) :: tr) s' tr' w)
  | steps {i : CallSite × ThreadOp} {o : ThreadOutput} {w' : World}
      (event : codeEvent (op, out) = some i) (reports : Reports (activationOf tr') out)
      (stepped : threadStep w i = .ok (w', o)) (context : o.context = s'.self)
      (restores : ∀ k, parked tr s'.self = some k → s'.cpu.context = k)
      (rax : ∀ c p v, o = .resumes c p v → s'.cpu.reg .rax = v)
      (sim : CodeSimulates L ((op, out) :: tr) s' ((i, o) :: tr') w')

namespace CodeSimulates

section Switched
variable {left : Context} (sim : CodeSimulates L tr s tr' w) (idle : joining tr s.self = none)
  (calls : op.threadOp = some call)

include calls in
theorem parked_switched : parked ((op, .context (.switched c left tgt)) :: tr) =
    depart call.code.isSome (parked tr) c left tgt := by
  rw [← exits_eq calls]
  rfl

include sim idle calls

theorem joins_switched (ne : tgt ≠ s.self) {p : Threads.Pending}
    (isJoin : ∀ t, p = .join t ↔ call = .join t)
    (at_c : parked ((op, .context (.switched s.self left tgt)) :: tr) c = some k) (t : Word) :
    joining ((op, .context (.switched s.self left tgt)) :: tr) c = some t ↔
      Function.update (activationOf tr').waiting s.self p c = .join t := by
  rw [parked_switched calls] at at_c
  have notTarget : c ≠ tgt := fun same => by
    rw [same, depart_target ne] at at_c
    cases at_c
  by_cases isSource : c = s.self
  · rw [isSource, Function.update_self, joining_source idle calls, isJoin]
  · rw [depart_of_ne isSource notTarget] at at_c
    rw [Function.update_of_ne isSource, joining_other isSource]
    exact sim.joins c k at_c t

theorem inside_switched (ne : tgt ≠ s.self)
    (inJoin : joining ((op, .context (.switched s.self left tgt)) :: tr) c ≠ none) :
    c = tgt ∨ ∃ k, parked ((op, .context (.switched s.self left tgt)) :: tr) c = some k := by
  rw [parked_switched calls]
  by_cases isSource : c = s.self
  · subst isSource
    obtain ⟨t, inJoin⟩ := Option.ne_none_iff_exists'.mp inJoin
    have join := (joining_source idle calls).mp inJoin
    subst join
    exact .inr ⟨_, depart_source ne⟩
  · rw [joining_other isSource] at inJoin
    by_cases isTarget : c = tgt
    · exact .inl isTarget
    · obtain ⟨k, at_c⟩ := (sim.inside c inJoin).resolve_left isSource
      exact .inr ⟨k, (depart_of_ne isSource isTarget).trans at_c⟩

end Switched

/-- A thread that is taken up returns from the join that it is in, and nobody else does. -/
theorem takenUp (sim : CodeSimulates L tr s tr' w)
    (allowed : (activationOf tr').Allows call) (ne : tgt ≠ s.self)
    (resumed : ((activationOf tr').step call).1.top = tgt)
    (alive : tgt = null ∨ tgt ∈ ((activationOf tr').step call).1.live)
    (unused : ∀ t, call.creates = some t → parked tr tgt = none)
    (waits : ∀ t, call = .join t → (activationOf tr').exited t = none) :
    (∃ t code, joining tr tgt = some t ∧ (activationOf tr').answer call = .joined tgt t code) ∨
      joining tr tgt = none ∧ ∃ p v, (activationOf tr').answer call = .resumes tgt p v := by
  have settled := sim.settled
  cases creates : call.creates with
  | none =>
      have replies := settled.replies allowed creates waits
      rw [resumed] at replies
      obtain ⟨k, target⟩ : ∃ k, parked tr tgt = some k := by
        refine (sim.same.alive _).mpr ⟨ne, alive.imp_right fun live => ?_⟩
        rw [settled.live_step, creates] at live
        exact (live.resolve_left (by simp)).1
      rcases replies with ⟨t, code, join, answer⟩ | ⟨noJoin, answer⟩
      · exact .inl ⟨t, code, (sim.joins _ k target t).mpr join, answer⟩
      · refine .inr ⟨?_, answer⟩
        cases inJoin : joining tr tgt with
        | none => rfl
        | some t => exact absurd ((sim.joins _ k target t).mp inJoin) (noJoin t)
  | some t =>
      refine .inr ⟨?_, ?_⟩
      · by_contra inJoin
        obtain ⟨k, target⟩ := (sim.inside _ inJoin).resolve_left ne
        exact absurd ((unused t creates).symm.trans target) (Option.some_ne_none k).symm
      · rw [← resumed]
        cases call with
        | mainStart | start => exact ⟨_, _, rfl⟩
        | _ => cases creates

/-- A switch, for which the state of both levels is known. -/
theorem switch (sim : CodeSimulates L tr s tr' w) (idle : joining tr s.self = none)
    (calls : op.threadOp = some call) (performs : Performs L (parked tr) s next call tr' w s')
    (unused : ∀ t, call.creates = some t → parked tr s'.self = none)
    (waits : ∀ t, call = .join t → (activationOf tr').exited t = none) :
    Follows L tr op tr' w s' (.context (.switched s.self (s.cpu.returning next) s'.self)) := by
  obtain ⟨allowed, ne, restores, rax, w', stepped, after⟩ := performs
  have settled := sim.settled
  have event : codeEvent (op, .context (.switched s.self (s.cpu.returning next) s'.self)) =
      some (siteOf (s.cpu.returning next), call) := by
    show op.threadOp.map _ = _
    rw [calls]
    rfl
  have resumed : ((activationOf tr').step call).1.top = s'.self := after.top.symm
  obtain ⟨p, waiting, isJoin⟩ := Activation.step_waiting waits
  rw [← sim.top] at waiting
  have quiet : codeResult
      (op, .context (.switched s.self (s.cpu.returning next) s'.self)) = none := rfl
  have takenUp := sim.takenUp allowed ne resumed after.source_alive unused waits
  refine .steps event (fun _ _ _ _ => CodeOutput.noConfusion) stepped
    ((Activation.answer_context _ _).trans resumed) restores rax
    ⟨parked_switched calls ▸ after, ?_, ?_, fun t => ?_, fun c k at_c t => ?_,
      fun c => sim.inside_switched idle calls ne, fun outside => ?_, fun t inJoin => ?_⟩
  · rw [List.filterMap_cons_some event, ← sim.events]
    rfl
  · rintro t ⟨e, inside, creates⟩
    cases inside with
    | head =>
        rw [show op.threadOp.bind ThreadOp.creates = call.creates by rw [calls]; rfl] at creates
        exact .inl (settled.live_step call |>.mpr (.inl creates))
    | tail _ inside => exact settled.created_step (sim.created t ⟨e, inside, creates⟩)
  · rw [exitCodeOf_switched calls, sim.exits t, sim.top]
    exact (Activation.exited_step _ call t).symm
  · rw [sim.joins_switched idle calls ne isJoin at_c t, ← waiting]
    rfl
  · rw [joining_other ne] at outside
    rcases takenUp with ⟨t, code, inJoin, _⟩ | ⟨_, p, v, answer⟩
    · exact absurd (outside.symm.trans inJoin) (Option.some_ne_none t).symm
    · rw [List.filterMap_cons_none quiet, ← sim.results idle]
      refine List.filterMap_cons_none ?_
      rw [answer]
      rfl
  · rw [joining_other ne] at inJoin
    rcases takenUp with ⟨u, code, inJoin', answer⟩ | ⟨outside, _⟩
    · cases inJoin.symm.trans inJoin'
      obtain ⟨result, exited, same⟩ := allowed.joined answer
      refine ⟨result, exited, ?_⟩
      rw [List.filterMap_cons_none quiet, ← sim.results idle, ← same]
      refine List.filterMap_cons_some ?_
      rw [answer]
      rfl
    · exact absurd (outside.symm.trans inJoin) (Option.some_ne_none t).symm

/-- A function that switches and is no join. -/
theorem context (sim : CodeSimulates L tr s tr' w) (idle : joining tr s.self = none)
    {op : ContextOp} (calls : op.threadOp = some call)
    (run : contextStep L s op = .ok (switched s s' next))
    (performs : Performs L (parked tr) s next call tr' w s')
    (unused : ∀ t, call.creates = some t → parked tr s'.self = none) :
    ∃ s' out, codeStep L s (.context op) = .ok (s', out) ∧
      Follows L tr (.context op) tr' w s' out := by
  have noJoin : ∀ t, call ≠ .join t := by
    cases op <;> cases calls <;> exact fun _ => ThreadOp.noConfusion
  refine ⟨s', _, ?_, sim.switch idle calls performs unused fun t same => absurd same (noJoin t)⟩
  rw [codeStep, run]
  rfl

/-- A step that is none of the model, and of no call of a function that creates. -/
theorem quiet (sim : CodeSimulates L tr s tr' w) (event : codeEvent (op, out) = none)
    (created : op.threadOp.bind ThreadOp.creates = none) (goesOn : op.exits = false)
    (same : parked ((op, out) :: tr) = parked tr) (after : Simulates L (parked tr) s' tr' w)
    (self : s'.self = s.self)
    (joins : ∀ c k, parked tr c = some k → joining ((op, out) :: tr) c = joining tr c)
    (inside : ∀ c, joining ((op, out) :: tr) c ≠ none → joining tr c ≠ none)
    (results : joining ((op, out) :: tr) s'.self = none →
      tr'.filterMap threadResult = ((op, out) :: tr).filterMap codeResult)
    (returns : ∀ t, joining ((op, out) :: tr) s'.self = some t → ∃ code,
      (activationOf tr').exited t = some code ∧ tr'.filterMap threadResult =
        (s'.self, t, Activation.codeOf code) :: ((op, out) :: tr).filterMap codeResult) :
    CodeSimulates L ((op, out) :: tr) s' tr' w := by
  refine ⟨same.symm ▸ after, ?_, ?_, fun t => ?_, ?_, ?_, results, returns⟩
  · rw [List.filterMap_cons_none event, sim.events]
  · rintro t ⟨e, inside, creates⟩
    cases inside with
    | head => exact absurd (created.symm.trans creates) (Option.some_ne_none t).symm
    | tail _ inside => exact sim.created t ⟨e, inside, creates⟩
  · rw [exitCodeOf, created, if_neg (Option.some_ne_none t).symm, ← sim.exits t]
    have stays : ending (op, out) = none := by
      cases op with
      | exit => cases goesOn
      | _ => rfl
    rw [stays]
  · intro c k at_c t
    rw [same] at at_c
    rw [joins c k at_c]
    exact sim.joins c k at_c t
  · intro c inJoin
    rw [same, self]
    exact sim.inside c (inside c inJoin)

/-- A step in which the running context calls nothing that is modelled. -/
theorem stays (sim : CodeSimulates L tr s tr' w) {op : ContextOp} (idle : joining tr s.self = none)
    (outside : op.threadOp = none) (sep : Separated L (parked tr) s'.self s'.cpu.mem)
    (self : s'.self = s.self) (kept : FieldsKept L null s.cpu.mem s'.cpu.mem) :
    Follows L tr (.context op) tr' w s' (.context .stayed) := by
  refine .stays rfl (fun _ _ _ _ => CodeOutput.noConfusion) (sim.quiet rfl ?_ rfl rfl
    (sim.stay sep self kept) self (fun _ _ _ => rfl) (fun _ => id) (fun _ => sim.results idle)
    fun t inJoin => ?_)
  · show op.threadOp.bind _ = none
    rw [outside]
    rfl
  · have inJoin : joining tr s'.self = some t := inJoin
    rw [self, idle] at inJoin
    cases inJoin

/-- The end of a join that has waited. -/
theorem joinReturn (sim : CodeSimulates L tr s tr' w) (inJoin : joining tr s.self = some t) :
    ∃ s' out, codeStep L s (.joinReturn t) = .ok (s', out) ∧
      Follows L tr (.joinReturn t) tr' w s' out := by
  obtain ⟨code, exited, results⟩ := sim.returns t inJoin
  obtain ⟨thread, finished, value⟩ := sim.ends.exited t code exited
  have free : L.Own s.self (exitToField t) :=
    .inr (Layout.field_free thread (by decide) (by decide) (by decide))
  have after : Simulates L (parked tr) { s with cpu := s.cpu.stored (exitToField t) null } tr' w :=
    ⟨sim.run, sim.separated.touch (Touched.update null free),
      sim.chain.stay rfl (BlocksKept.field thread (by decide) (by decide) (by decide) null),
      sim.same, sim.ends.clear sim.settled exited⟩
  refine ⟨_, _, joinReturn_ok thread finished, .stays rfl ?_ (sim.quiet rfl rfl rfl rfl after rfl
    (fun c k at_c => ?_) (fun c inJoin => ?_) (fun _ => ?_) fun u inJoin => ?_)⟩
  · rintro _ _ _ _ ⟨⟩
    exact ⟨code, exited, by rw [value]; rfl⟩
  · have ne : c ≠ s.self := fun same => by
      rw [same, sim.separated.running] at at_c
      cases at_c
    exact Function.update_of_ne ne ..
  · have inJoin : Function.update (joining tr) s.self none c ≠ none := inJoin
    by_cases same : c = s.self
    · rw [same, Function.update_self] at inJoin
      exact absurd rfl inJoin
    · rwa [Function.update_of_ne same] at inJoin
  · rw [results, value]
    rfl
  · have inJoin : Function.update (joining tr) s.self none s.self = some u := inJoin
    rw [Function.update_self] at inJoin
    cases inJoin

/-- A join of a thread that has exited. -/
theorem joinsAtOnce (sim : CodeSimulates L tr s tr' w) {dummy code : Word}
    (idle : joining tr s.self = none) (leaving : Leaving L s dummy)
    (exited : (activationOf tr').exited t = some code) (next : Word) :
    ∃ s' out, codeStep L s (.join t dummy next) = .ok (s', out) ∧
      Follows L tr (.join t dummy next) tr' w s' out := by
  obtain ⟨thread, finished, value⟩ := sim.ends.exited t code exited
  let site := siteOf (s.cpu.returning next)
  have stepped : threadStep w (site, .join t) =
      .ok (w, .joined s.self t (Activation.codeOf code)) := by
    have fromThread : w.self ≠ null := sim.self.symm ▸ leaving.fromThread
    rw [Threads.cthreadJoin_exited sim.tracks fromThread exited, sim.self]
  have created : t ∈ (activationOf tr').live ∨ (activationOf tr').exited t ≠ none := by
    rw [exited]
    exact .inr (Option.some_ne_none code)
  have admitted : ThreadAllows tr' w (site, .join t) :=
    ⟨⟨sim.above leaving.fromThread, created⟩, sim.free_own leaving.room next⟩
  have run : Run threadMachine ThreadAllows World.init
      (((site, .join t), .joined s.self t (Activation.codeOf code)) :: tr') w :=
    .snoc sim.run admitted stepped
  have activation : activationOf (((site, .join t),
      .joined s.self t (Activation.codeOf code)) :: tr') = activationOf tr' := by
    exact congrArg Prod.fst (Activation.step_exited exited)
  have sites : lastSite (((site, .join t),
      .joined s.self t (Activation.codeOf code)) :: tr') = lastSite tr' :=
    Threads.lastSite_stays sim.runs.symm
  refine ⟨_, _, cthreadJoin_returns leaving.fromThread thread finished, .steps rfl ?_ stepped
    rfl (fun k at_self => ?_) (fun _ _ _ => ThreadOutput.noConfusion)
    ⟨⟨run, sim.separated, ?_, ?_, ?_⟩, ?_, ?_, fun u => ?_, ?_, sim.inside, fun _ => ?_,
      fun u inJoin => ?_⟩⟩
  · rintro _ _ _ _ ⟨⟩
    exact ⟨code, exited, by rw [value]; rfl⟩
  · exact absurd (sim.separated.running.symm.trans at_self) (Option.some_ne_none k).symm
  · rw [activation]
    exact sim.chain
  · rw [activation, sites]
    exact sim.same
  · rw [activation]
    exact sim.ends
  · exact congrArg (List.cons _) sim.events
  · rintro u ⟨e, inside, creates⟩
    rw [activation]
    cases inside with
    | head => cases creates
    | tail _ inside => exact sim.created u ⟨e, inside, creates⟩
  · rw [activation]
    exact sim.exits u
  · rw [activation]
    exact sim.joins
  · rw [value]
    exact congrArg (List.cons _) (sim.results idle)
  · exact absurd (idle.symm.trans inJoin) (Option.some_ne_none u).symm

theorem resumable (sim : CodeSimulates L tr s tr' w) (calling : Calling L tr s tgt)
    (target : parked tr tgt = some k) : (activationOf tr').Resumable tgt := by
  obtain ⟨-, alive⟩ := (sim.same.alive tgt).mp ⟨k, target⟩
  refine ⟨alive.resolve_left calling.notNull, fun on => calling.off (sim.chain.onChain on),
    fun u join => ?_⟩
  have finished := calling.spares u ((sim.joins tgt k target u).mpr join)
  refine ((Threads.threadRun_joinResults sim.run).created tgt u join).resolve_left fun live => ?_
  rw [(sim.ends.live u live).2.1] at finished
  cases finished

theorem context_step (sim : CodeSimulates L tr s tr' w) (idle : joining tr s.self = none)
    {op : ContextOp} (permits : Permits L tr s (.context op)) :
    ∃ s' out, codeStep L s (.context op) = .ok (s', out) ∧
      Follows L tr (.context op) tr' w s' out := by
  cases op with
  | own cpu =>
      obtain ⟨own, kept⟩ := permits
      exact ⟨_, _, rfl, sim.stays idle rfl
        (sim.separated.touch fun a notOwn _ => own a notOwn) rfl kept⟩
  | altstack body fn arg0 arg1 next ret =>
      obtain ⟨room, obeys, kept⟩ := permits
      obtain ⟨s', run, sep, calls⟩ := altstackStep_ok sim.separated room obeys
      refine ⟨s', _, ?_, sim.stays idle rfl sep calls.self
        (cthreadAltstack_fields sim.separated room obeys kept run).2⟩
      rw [codeStep, contextStep, run]
      rfl
  | mainStart fn arg stack sz next =>
      obtain ⟨fromMain, fresh, unused, room⟩ := permits
      obtain ⟨s', run, performs⟩ := sim.mainStart fromMain fresh unused room fn arg next
      have self : s'.self = cthreadAddress stack sz :=
        (cthreadMainStart_launches sim.separated fromMain fresh room run).self
      exact sim.context idle rfl (by rw [contextStep, run]; rfl) performs fun _ _ => self ▸ unused
  | start fn arg stack sz next =>
      obtain ⟨fromThread, fresh, unused, room⟩ := permits
      obtain ⟨s', run, performs⟩ := sim.start fromThread fresh unused room fn arg next
      have self : s'.self = cthreadAddress stack sz :=
        (cthreadStart_launches sim.separated fromThread fresh room run).self
      exact sim.context idle rfl (by rw [contextStep, run]; rfl) performs fun _ _ => self ▸ unused
  | call tgt data next =>
      obtain ⟨k, target⟩ := permits.target
      obtain ⟨s', run, performs⟩ := sim.call target permits.notNull
        (sim.resumable permits target) permits.room data next
      exact sim.context idle rfl (by rw [contextStep, run]; rfl) performs (creates_none rfl)
  | tailcall tgt data dummy next =>
      obtain ⟨calling, leaving⟩ := permits
      obtain ⟨k, target⟩ := calling.target
      obtain ⟨s', run, performs⟩ := sim.tailcall leaving target calling.notNull
        (sim.resumable calling target) data next
      exact sim.context idle rfl (by rw [contextStep, run]; rfl) performs (creates_none rfl)
  | yield data dummy next =>
      obtain ⟨s', run, performs⟩ := sim.yield permits data next
      exact sim.context idle rfl (by rw [contextStep, run]; rfl) performs (creates_none rfl)

/-- A join of a thread that has not exited. -/
theorem joinsLater (sim : CodeSimulates L tr s tr' w) {dummy : Word}
    (idle : joining tr s.self = none) (leaving : Leaving L s dummy)
    (exited : (activationOf tr').exited t = none) (live : t ∈ (activationOf tr').live)
    (next : Word) : ∃ s' out, codeStep L s (.join t dummy next) = .ok (s', out) ∧
      Follows L tr (.join t dummy next) tr' w s' out := by
  obtain ⟨thread, finished, -⟩ := sim.ends.live t live
  obtain ⟨s', run, performs⟩ := sim.join leaving live next
  refine ⟨s', _, ?_, sim.switch idle rfl performs (creates_none rfl) fun u same => ?_⟩
  · rw [codeStep, cthreadJoin_waits leaving.fromThread thread finished, run]
    rfl
  · cases same
    exact exited

/-- Every step that is permitted is made, and followed by the model. -/
theorem step (sim : CodeSimulates L tr s tr' w) (admitted : CodeAdmits L tr s op) :
    ∃ s' out, codeStep L s op = .ok (s', out) ∧ Follows L tr op tr' w s' out := by
  unfold CodeAdmits at admitted
  cases idle : joining tr s.self with
  | some t =>
      rw [idle] at admitted
      subst admitted
      exact sim.joinReturn idle
  | none =>
      rw [idle] at admitted
      cases op with
      | context op => exact sim.context_step idle admitted
      | joinReturn t => exact admitted.elim
      | join t dummy next =>
          obtain ⟨created, leaving⟩ := admitted
          cases exited : (activationOf tr').exited t with
          | some code => exact sim.joinsAtOnce idle leaving exited next
          | none =>
              exact sim.joinsLater idle leaving exited
                ((sim.created t created).resolve_right fun done => done exited) next
      | exit code dummy next =>
          obtain ⟨s', run, performs⟩ := sim.exit admitted code next
          refine ⟨s', _, ?_, sim.switch idle rfl performs (creates_none rfl)
            fun _ => ThreadOp.noConfusion⟩
          rw [codeStep, run]
          rfl

end CodeSimulates

end CThread.Switch
