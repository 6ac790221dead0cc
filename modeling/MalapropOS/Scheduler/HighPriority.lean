import MalapropOS.Scheduler.Queues

/-! What high priority gives a process. Once a process of the high queue has the processor, the
others get it back when all that were in that queue have left it, and a process leaves it by an
exit, by a kill or by blocking. -/
namespace MalapropOS.Scheduler
open PartialMachine

/-- The steps that take `p` out of the queues: its own `exit` or blocking `waitpid`, and a kill. -/
def Leaves (p : Int) (s : State) (i : Trap × Ctx) : Prop :=
  (s.currentPid = p ∧ (i.1 = .svc .exit ∨ i.1 = .svc .waitpid ∧ ¬ isNohang (i.2.gpr 2))) ∨
    (signed (i.2.gpr 0) = p ∧ signed (i.2.gpr 1) = sigkill ∧ ∃ u, i.1 = .svc (.kill u))

/-- -1 tells `scheduler_run` that the high queue is empty; it is no pid to raise. -/
def NotMinusOne (_ : State) (i : Trap × Ctx) : Prop :=
  i.1 = .svc .setpriority → signed (i.2.gpr 0) ≠ -1

/-- What a step does to the high queue. -/
structure HighStep (s : State) (i : Trap × Ctx) (s' : State) : Prop where
  stays : ∀ p ∈ s.highQueue, p ∈ s'.highQueue ∨ Leaves p s i
  noMinusOne : -1 ∉ s.highQueue → NotMinusOne s i → -1 ∉ s'.highQueue
  current : -1 ∉ s.highQueue → s.currentPid ∈ s.highQueue →
    s'.highQueue = [] ∨ s'.currentPid ∈ s'.highQueue

section Steps
variable {s s' t u : State} {ctx ctx' : Ctx} {trap : Trap}

theorem chooseNext_high (hne : s.highQueue ≠ []) (h : -1 ∉ s.highQueue) :
    (chooseNext s).1 ∈ s.highQueue := by
  cases hq : s.highQueue with
  | nil => exact absurd hq hne
  | cons x xs =>
    have hx : x ≠ -1 := fun he => h (by simp [hq, he])
    simp [chooseNext, getNextProcess, hq, hx]

theorem Switched.high_first (hs : Switched s ctx s' ctx') (h : -1 ∉ s.highQueue) :
    s'.highQueue = [] ∨ s'.currentPid ∈ s'.highQueue := by
  by_cases hne : s.highQueue = []
  · exact Or.inl (List.perm_nil.mp (hne ▸ hs.high))
  · rw [hs.chosen]
    exact Or.inr (hs.high.mem_iff.mpr (chooseNext_high hne h))

theorem HighStep.same (hq : s'.highQueue = s.highQueue) (hc : s'.currentPid = s.currentPid) :
    HighStep s (trap, ctx) s' where
  stays p hp := Or.inl (hq ▸ hp)
  noMinusOne h _ := hq ▸ h
  current _ h := by
    rw [hq, hc]
    exact Or.inr h

/-- The handlers that ask for another process take at most one out of the queue before. -/
theorem HighStep.switched (hsub : ∀ p ∈ u.highQueue, p ∈ s.highQueue)
    (hstay : ∀ p ∈ s.highQueue, p ∈ u.highQueue ∨ Leaves p s (trap, ctx))
    (hs : Switched u ctx t ctx') (hq : s'.highQueue = t.highQueue)
    (hc : s'.currentPid = t.currentPid) : HighStep s (trap, ctx) s' where
  stays p hp := by
    rw [hq, hs.high.mem_iff]
    exact hstay p hp
  noMinusOne h _ := by
    rw [hq, hs.high.mem_iff]
    exact fun hm => h (hsub _ hm)
  current h _ := by
    rw [hq, hc]
    exact hs.high_first fun hm => h (hsub _ hm)

/-- The switch without the process `x`, which leaves by this step. -/
theorem HighStep.removed {x : Int} (hx : Leaves x s (trap, ctx))
    (hu : u.highQueue = s.highQueue.filter (· ≠ x)) (hs : Switched u ctx t ctx')
    (hq : s'.highQueue = t.highQueue) (hc : s'.currentPid = t.currentPid) :
    HighStep s (trap, ctx) s' := by
  refine HighStep.switched (fun p hp => ?_) (fun p hp => ?_) hs hq hc
  · rw [hu] at hp
    exact List.mem_of_mem_filter hp
  · by_cases hpx : p = x
    · exact Or.inr (hpx ▸ hx)
    · exact Or.inl (by simp [hu, hp, hpx])

theorem HighStep.terminated {x : Int} (hx : Leaves x s (trap, ctx))
    (ht : Terminated x s ctx s' ctx') : HighStep s (trap, ctx) s' := by
  obtain ⟨t, hrun, -, rfl⟩ := ht.switch
  have hem := schedulerEmitEvent_emitted ⟨processEventExited, x⟩ { t with
    processList := updateProcess x (fun p => { p with status := .terminated }) t.processList }
  rw [removePid_both] at hrun
  exact HighStep.removed hx rfl (schedulerRun_switched hrun) hem.high hem.current

theorem HighStep.setPriority : HighStep s (.svc .setpriority, ctx)
    (setPriority (signed (ctx.gpr 0)) (signed (ctx.gpr 2)) s) := by
  by_cases h0 : signed (ctx.gpr 2) = 0
  · rw [h0, setPriority_high]
    constructor
    · intro p hp
      exact Or.inl (mem_requeued.mpr (Or.inl hp))
    · intro h hpid hm
      cases mem_requeued.mp hm with
      | inl hm => exact h hm
      | inr he => exact hpid rfl he.symm
    · intro _ hcur
      exact Or.inr (mem_requeued.mpr (Or.inl hcur))
  · by_cases h1 : signed (ctx.gpr 2) = 1
    · rw [h1, setPriority_low]
      exact HighStep.same rfl rfl
    · rw [setPriority_other h0 h1]
      exact HighStep.same rfl rfl

theorem highStep_of_handled (h : Handled s ctx trap s' ctx') : HighStep s (trap, ctx) s' := by
  cases h with
  | quiet => exact HighStep.same rfl rfl
  | switch _ hr =>
    exact HighStep.switched (fun _ hp => hp) (fun _ hp => Or.inl hp) (schedulerRun_switched hr)
      rfl rfl
  | exit hr =>
    have hx : Leaves s.currentPid s (.svc .exit, ctx) := Or.inl ⟨rfl, Or.inl rfl⟩
    cases schedulerExit_some hr with
    | inl ht => exact HighStep.terminated hx ht
    | inr hkept =>
      have hrun := hkept.1
      rw [removePid_both] at hrun
      exact HighStep.removed hx rfl (schedulerRun_switched hrun) rfl rfl
  | fork hf =>
    cases schedulerFork_some hf with
    | inl hnone =>
      rw [hnone.2]
      exact HighStep.same rfl rfl
    | inr hmade =>
      obtain ⟨parent, -, -, rfl⟩ := hmade
      have hem := schedulerEmitEvent_emitted ⟨processEventCreated, s.nextPid⟩
        (setPriority s.nextPid 1 (addChild (forkChild ctx (ctx.gpr 0) (ctx.gpr 1) parent s) s))
      rw [setPriority_low] at hem ⊢
      exact HighStep.same hem.high hem.current
  | block hn hb =>
    obtain ⟨-, -, hrun⟩ := schedulerBlockProcess_some hb
    have hem := schedulerEmitEvent_emitted ⟨processEventBlocked, s.currentPid⟩
      (markBlocked ctx ⟨signed (ctx.gpr 0), signed (ctx.gpr 1)⟩ s)
    exact HighStep.removed (Or.inl ⟨rfl, Or.inr ⟨rfl, hn⟩⟩) hem.high
      (schedulerRun_switched hrun) rfl rfl
  | kill hk hr =>
    exact HighStep.terminated (Or.inr ⟨rfl, hk, _, rfl⟩) (schedulerKill_some hr).2
  | setpriority => exact HighStep.setPriority
  | exec he =>
    obtain ⟨-, rfl⟩ := schedulerExec_some he
    exact HighStep.same rfl rfl

end Steps

/-- When a process that is not in the high queue gets the processor from those that are, each of
these has exited, blocked or been killed. -/
theorem high_priority_first {is : List (Trap × Ctx)} {s t : State} (h : run is s = some t)
    (hg : Along step NotMinusOne is s) (hs : -1 ∉ s.highQueue)
    (hc : s.currentPid ∈ s.highQueue) (ht : t.currentPid ∉ t.highQueue) :
    ∀ p ∈ s.highQueue, Took step (Leaves p) is s := by
  induction is generalizing s with
  | nil =>
    obtain rfl := Option.some.inj h
    exact absurd hc ht
  | cons i is ih =>
    obtain ⟨v, hv, hrest⟩ := run_cons h
    obtain ⟨ctx', hh⟩ := step_handled hv
    have hstep : HighStep s i v := highStep_of_handled hh
    intro p hp
    rw [took_cons hv]
    cases hstep.stays p hp with
    | inr hleaves => exact Or.inl hleaves
    | inl hin =>
      have hcur := (hstep.current hs hc).resolve_left (List.ne_nil_of_mem hin)
      exact Or.inr (ih hrest (hg.2 v hv) (hstep.noMinusOne hs hg.1) hcur p hin)

/-- The shell forks twice and raises both children; the next tick gives the processor to one. -/
def raisedChildren : List (Trap × Ctx) :=
  [(.svc .fork, zeroCtx), (.svc .fork, zeroCtx), (.svc .setpriority, argCtx 2 1 0),
    (.svc .setpriority, argCtx 3 1 0), (.timer, zeroCtx)]

/-- The first is preempted, the second kills it and exits. -/
def childrenEnd : List (Trap × Ctx) :=
  [(.timer, zeroCtx), (.svc (.kill 0), argCtx 2 9 0), (.svc .exit, zeroCtx)]

theorem childrenEnd_shell_last : ∃ s t,
    run raisedChildren (schedulerInitialise 0 0 zeroPcb) = some s ∧
    run childrenEnd s = some t ∧ s.highQueue = [3, 2] ∧ t.currentPid = 1 ∧
    ∀ p ∈ s.highQueue, Took step (Leaves p) childrenEnd s := by
  have hr : (run raisedChildren (schedulerInitialise 0 0 zeroPcb)).bind (fun s =>
      (run childrenEnd s).map fun t => (s.highQueue, s.currentPid, t.highQueue, t.currentPid)) =
        some ([3, 2], 2, [], 1) := by decide
  obtain ⟨s, hs, hr⟩ := Option.bind_eq_some_iff.mp hr
  obtain ⟨t, ht, hr⟩ := Option.map_eq_some_iff.mp hr
  simp only [Prod.mk.injEq] at hr
  obtain ⟨hq, hc, hq', hc'⟩ := hr
  have hg : ∀ i ∈ childrenEnd, i.1 = .svc .setpriority → signed (i.2.gpr 0) ≠ -1 := by decide
  exact ⟨s, t, hs, ht, hq, hc', high_priority_first ht
    (along_of_inputs (fun i hi _ => hg i hi) s) (by simp [hq]) (by simp [hq, hc])
    (by simp [hq'])⟩

end MalapropOS.Scheduler
