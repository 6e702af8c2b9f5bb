import CThread.Threads.Activation

/-!
The threads that wait in a yield off the activation stack: an operation lets one in by a
yield, takes one out by a call, and otherwise leaves them as they are.
-/
namespace CThread.Threads
namespace Activation
variable {a : Activation} {c t x : Word} {p : Pending}

structure Asleep (a : Activation) (c : Word) : Prop where
  live : c ∈ a.live
  off : c ∉ a.stack
  yields : a.waiting c = .yield

theorem Asleep.callable (asleep : a.Asleep c) (wf : a.WellFormed null) : a.Callable c := by
  refine ⟨asleep.live, asleep.off, ?_⟩
  intro u joins
  have waits := (wf.joined u c joins).2.2.2
  rw [asleep.yields] at waits
  cases waits

theorem Asleep.ne_top (asleep : a.Asleep c) (wf : a.Settled x) : c ≠ a.top :=
  wf.ne_top asleep.live asleep.off

theorem top_ne_null (wf : a.WellFormed null) (running : a.stack ≠ []) : a.top ≠ null :=
  fun same => wf.null_off (same ▸ top_mem running)

theorem asleep_push (wf : a.Settled x) :
    (a.push t p).Asleep c ↔ a.Asleep c ∧ c ≠ t := by
  constructor
  · rintro ⟨live, out, yields⟩
    have ne : c ≠ t := fun same => out (same ▸ .head _)
    have out : c ∉ a.stack := fun inside => out (.tail _ inside)
    have notTop := wf.ne_top live out
    exact ⟨⟨live, out, by simpa [push, notTop] using yields⟩, ne⟩
  · rintro ⟨asleep, ne⟩
    refine ⟨asleep.live, ?_, ?_⟩
    · intro inside
      cases inside with
      | head => exact ne rfl
      | tail _ inside => exact asleep.off inside
    · simpa [push, asleep.ne_top wf] using asleep.yields

theorem asleep_pop (wf : a.Settled x) (running : a.stack ≠ []) :
    (a.pop p).Asleep c ↔ a.Asleep c ∨ (c = a.top ∧ p = .yield) := by
  by_cases top : c = a.top
  · subst top
    constructor
    · intro asleep
      exact .inr ⟨rfl, by simpa [pop] using asleep.yields⟩
    · intro either
      cases either with
      | inl asleep => exact absurd rfl (asleep.ne_top wf)
      | inr yields =>
          refine ⟨wf.onstack _ (top_mem running), wf.top_gone running, ?_⟩
          simp [pop, yields.2]
  · constructor
    · rintro ⟨live, out, yields⟩
      refine .inl ⟨live, ?_, by simpa [pop, top] using yields⟩
      rw [stack_eq running]
      intro inside
      cases inside with
      | head => exact top rfl
      | tail _ inside => exact out inside
    · intro either
      cases either with
      | inl asleep =>
          refine ⟨asleep.live, fun inside => asleep.off (List.mem_of_mem_tail inside), ?_⟩
          simpa [pop, top] using asleep.yields
      | inr yields => exact absurd yields.1 top

theorem asleep_replace (wf : a.Settled x) (running : a.stack ≠ []) (other : p ≠ .yield) :
    (a.replace t p).Asleep c ↔ a.Asleep c ∧ c ≠ t := by
  by_cases top : c = a.top
  · subst top
    constructor
    · intro asleep
      exact absurd (by simpa [replace] using asleep.yields) other
    · intro asleep
      exact absurd rfl (asleep.1.ne_top wf)
  · constructor
    · rintro ⟨live, out, yields⟩
      have ne : c ≠ t := fun same => out (same ▸ .head _)
      refine ⟨⟨live, ?_, by simpa [replace, top] using yields⟩, ne⟩
      rw [stack_eq running]
      intro inside
      cases inside with
      | head => exact top rfl
      | tail _ inside => exact out (.tail _ inside)
    · rintro ⟨asleep, ne⟩
      refine ⟨asleep.live, ?_, by simpa [replace, top] using asleep.yields⟩
      intro inside
      cases inside with
      | head => exact ne rfl
      | tail _ inside => exact asleep.off (List.mem_of_mem_tail inside)

theorem asleep_spawn (fresh : a.Fresh t) : (a.spawn t).Asleep c ∧ c ≠ t ↔ a.Asleep c := by
  constructor
  · rintro ⟨⟨live, off, yields⟩, ne⟩
    exact ⟨(List.mem_cons.mp live).resolve_left ne, off, yields⟩
  · intro asleep
    exact ⟨⟨.tail _ asleep.live, asleep.off, asleep.yields⟩,
      fun same => fresh.2 (same ▸ asleep.live)⟩

theorem asleep_finish (nodup : a.live.Nodup) {code : Word} :
    (a.finish t code).Asleep c ↔ a.Asleep c ∧ c ≠ t := by
  have members : c ∈ a.live.erase t ↔ c ≠ t ∧ c ∈ a.live := nodup.mem_erase_iff
  constructor
  · rintro ⟨live, off, yields⟩
    exact ⟨⟨(members.mp live).2, off, yields⟩, (members.mp live).1⟩
  · rintro ⟨asleep, ne⟩
    exact ⟨members.mpr ⟨ne, asleep.live⟩, asleep.off, asleep.yields⟩

/-- Creation, `join` and `exit` neither put a thread to sleep nor wake one. -/
theorem asleep_step (wf : a.WellFormed null) {op : ThreadOp} (admitted : a.Admits op)
    (noYield : ∀ data, op ≠ .yield data) (noCall : ∀ tgt data, op ≠ .call tgt data)
    (noTailcall : ∀ tgt data, op ≠ .tailcall tgt data) :
    (a.step op).1.Asleep c ↔ a.Asleep c := by
  have created : ∀ t p, a.Fresh t → (((a.spawn t).push t p).Asleep c ↔ a.Asleep c) := by
    intro t p fresh
    rw [asleep_push (wf.spawn fresh), asleep_spawn fresh]
  have exits : a.stack ≠ [] → ∀ code, (a.exit code).1.Asleep c ↔ a.Asleep c := by
    intro running code
    unfold exit
    cases joiner : a.joiner a.top with
    | none =>
        show ((a.pop .exit).finish a.top code).Asleep c ↔ _
        rw [asleep_finish (a := a.pop .exit) wf.live_nodup, asleep_pop wf.toSettled running]
        refine ⟨fun both => both.1.resolve_right fun top => both.2 top.1, ?_⟩
        exact fun asleep => ⟨.inl asleep, asleep.ne_top wf.toSettled⟩
    | some j =>
        have waits := (wf.joined a.top j joiner).2.2.2
        have released : (a.release a.top).Asleep c ↔ a.Asleep c :=
          ⟨fun asleep => ⟨asleep.live, asleep.off, asleep.yields⟩,
            fun asleep => ⟨asleep.live, asleep.off, asleep.yields⟩⟩
        show (((a.release a.top).replace j .exit).finish a.top code).Asleep c ↔ _
        rw [asleep_finish (a := (a.release a.top).replace j .exit) wf.live_nodup,
          asleep_replace (wf.release a.top) running Pending.noConfusion, released]
        refine ⟨fun both => both.1.1, fun asleep => ⟨⟨asleep, ?_⟩, asleep.ne_top wf.toSettled⟩⟩
        intro same
        have yields := asleep.yields
        rw [same, waits] at yields
        cases yields
  cases op with
  | mainStart fn arg stack sz => exact created _ _ admitted.2
  | start fn arg stack sz => exact created _ _ admitted.2
  | call tgt data => exact absurd rfl (noCall tgt data)
  | tailcall tgt data => exact absurd rfl (noTailcall tgt data)
  | yield data => exact absurd rfl (noYield data)
  | join t =>
      simp only [step]
      cases a.exited t with
      | some code => exact Iff.rfl
      | none =>
          have blocked : ((a.pop (.join t)).block t a.top).Asleep c ↔ (a.pop (.join t)).Asleep c :=
            ⟨fun asleep => ⟨asleep.live, asleep.off, asleep.yields⟩,
              fun asleep => ⟨asleep.live, asleep.off, asleep.yields⟩⟩
          rw [blocked, asleep_pop wf.toSettled admitted.1]
          exact ⟨fun either => either.resolve_right fun top => (by cases top.2), .inl⟩
  | exit code => exact exits admitted code
  | fnReturn rax => exact exits admitted rax

/-- Only a call resumes a thread in its yield. -/
theorem step_resumes_pushes (wf : a.WellFormed null) {op : ThreadOp} (admitted : a.Admits op)
    (noCall : ∀ tgt data, op ≠ .call tgt data) (noTailcall : ∀ tgt data, op ≠ .tailcall tgt data)
    {v : Word} (resumed : (a.step op).2 = .resumes c p v) : p ≠ .yield := by
  have below : a.stack ≠ [] → ∀ data, a.returnTo a.below data = .resumes c p v → p ≠ .yield := by
    intro running data resumed yields
    cases resumed
    have pushes := wf.pushes a.below (below_mem running)
    rw [yields] at pushes
    exact pushes
  have exits : a.stack ≠ [] → ∀ code, (a.exit code).2 = .resumes c p v → p ≠ .yield := by
    intro running code resumed
    unfold exit at resumed
    cases joiner : a.joiner a.top with
    | none => exact below running null (by simpa [joiner] using resumed)
    | some j => simp [joiner] at resumed
  cases op with
  | mainStart fn arg stack sz =>
      cases resumed
      exact Pending.noConfusion
  | start fn arg stack sz =>
      cases resumed
      exact Pending.noConfusion
  | call tgt data => exact absurd rfl (noCall tgt data)
  | tailcall tgt data => exact absurd rfl (noTailcall tgt data)
  | yield data => exact below admitted data resumed
  | join t =>
      cases exited : a.exited t with
      | some code => simp [step, exited] at resumed
      | none => exact below admitted.1 null (by simpa [step, exited] using resumed)
  | exit code => exact exits admitted code resumed
  | fnReturn rax => exact exits admitted rax resumed

/-- The resumed context is the new top, and it is new or goes on with the call it waits in. -/
theorem step_resumes_top {op : ThreadOp} (admitted : a.Admits op) {v : Word}
    (resumed : (a.step op).2 = .resumes c p v) :
    (a.step op).1.top = c ∧ ((∃ fn, p = .entry fn ∧ a.Fresh c) ∨ p = a.waiting c) := by
  have exits : ∀ code, (a.exit code).2 = .resumes c p v →
      (a.exit code).1.top = c ∧ ((∃ fn, p = .entry fn ∧ a.Fresh c) ∨ p = a.waiting c) := by
    intro code resumed
    unfold exit at resumed ⊢
    cases joiner : a.joiner a.top with
    | none =>
        simp only [joiner] at resumed ⊢
        cases resumed
        exact ⟨rfl, .inr rfl⟩
    | some j => simp [joiner] at resumed
  cases op with
  | mainStart fn arg stack sz =>
      cases resumed
      exact ⟨rfl, .inl ⟨fn, rfl, admitted.2⟩⟩
  | start fn arg stack sz =>
      cases resumed
      exact ⟨rfl, .inl ⟨fn, rfl, admitted.2⟩⟩
  | call tgt data =>
      cases resumed
      exact ⟨rfl, .inr rfl⟩
  | tailcall tgt data =>
      cases resumed
      exact ⟨rfl, .inr rfl⟩
  | yield data =>
      cases resumed
      exact ⟨rfl, .inr rfl⟩
  | join t =>
      simp only [step] at resumed ⊢
      cases exited : a.exited t with
      | some code => simp [exited] at resumed
      | none =>
          simp only [exited] at resumed ⊢
          cases resumed
          exact ⟨rfl, .inr rfl⟩
  | exit code => exact exits code resumed
  | fnReturn rax => exact exits rax resumed

/-- What the main context waits in is settled when it leaves. -/
theorem step_waiting_null (wf : a.WellFormed null) (running : a.stack ≠ []) (op : ThreadOp) :
    (a.step op).1.waiting null = a.waiting null := by
  have notTop : null ≠ a.top := Ne.symm (top_ne_null wf running)
  have exits : ∀ code, (a.exit code).1.waiting null = a.waiting null := by
    intro code
    unfold exit
    cases a.joiner a.top with
    | none => exact Function.update_of_ne notTop ..
    | some j => exact Function.update_of_ne notTop ..
  cases op with
  | mainStart fn arg stack sz => exact Function.update_of_ne notTop ..
  | start fn arg stack sz => exact Function.update_of_ne notTop ..
  | call tgt data => exact Function.update_of_ne notTop ..
  | tailcall tgt data => exact Function.update_of_ne notTop ..
  | yield data => exact Function.update_of_ne notTop ..
  | join t =>
      simp only [step]
      cases a.exited t with
      | some code => rfl
      | none => exact Function.update_of_ne notTop ..
  | exit code => exact exits code
  | fnReturn rax => exact exits rax

end Activation
end CThread.Threads
