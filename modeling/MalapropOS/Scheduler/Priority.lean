import MalapropOS.Scheduler.Queues

/-! The queues against the priorities that `set_priority` assigned. The cases of priority 0
in `remove_pid` and `add_pid` run on into those of priority 1, and a pid set to 1 is not
taken out of the high queue, so the two queues agree with the assigned priorities only
as long as nobody asks for priority 0. -/
namespace MalapropOS.Scheduler

/-- The queue a runnable process is in is the one of its assigned priority. -/
def QueuesMatch (s : State) : Prop :=
  ∀ p ∈ s.processList, p.status = .running ∨ p.status = .ready →
    (p.pid ∈ s.highQueue ↔ s.prio p.pid = 0) ∧ (p.pid ∈ s.lowQueue ↔ s.prio p.pid = 1) ∧
      ¬ (p.pid ∈ s.highQueue ∧ p.pid ∈ s.lowQueue)

def NotRaised (_ : State) (i : Trap × Ctx) : Prop :=
  i.1 = .svc .setpriority → signed (i.2.gpr 2) ≠ 0

structure AllLow (s : State) : Prop where
  high : s.highQueue = []
  prio : ∀ x, s.prio x = 1

theorem AllLow.switched {s s' : State} {ctx ctx' : Ctx} (h : AllLow s)
    (hsw : Switched s ctx s' ctx') : AllLow s' where
  high := List.perm_nil.mp (h.high ▸ hsw.high)
  prio := fun x => by rw [hsw.prio]; exact h.prio x

theorem AllLow.emitted {event : Event} {s s' : State} (h : AllLow s)
    (hem : Emitted event s s') : AllLow s' where
  high := hem.high.trans h.high
  prio := fun x => by rw [hem.prio, h.prio, ite_self]

theorem AllLow.removed {s : State} (h : AllLow s) (pid : Int) :
    AllLow (removePid pid 1 (removePid pid 0 s)) := by
  rw [removePid_both]
  exact ⟨by simp [h.high], h.prio⟩

theorem AllLow.terminated {s s' : State} {ctx ctx' : Ctx} {pid : Int} (h : AllLow s)
    (ht : Terminated pid s ctx s' ctx') : AllLow s' := by
  obtain ⟨t, hrun, -, rfl⟩ := ht.switch
  have hsw := (h.removed pid).switched (schedulerRun_switched hrun)
  refine AllLow.emitted ?_ (schedulerEmitEvent_emitted _ _)
  exact ⟨hsw.high, hsw.prio⟩

theorem AllLow.setPriority {s : State} (h : AllLow s) (pid : Int) {priority : Int}
    (hp : priority ≠ 0) : AllLow (setPriority pid priority s) := by
  by_cases h1 : priority = 1
  · subst h1
    rw [setPriority_low]
    refine ⟨h.high, fun x => ?_⟩
    by_cases hx : x = pid
    · simp [hx]
    · simp [Function.update, hx, h.prio]
  · rwa [setPriority_other hp h1]

theorem AllLow.handled {trap : Trap} {s s' : State} {ctx ctx' : Ctx} (h : AllLow s)
    (hg : NotRaised s (trap, ctx)) (hh : Handled s ctx trap s' ctx') : AllLow s' := by
  cases hh with
  | quiet => exact h
  | switch _ hr => exact h.switched (schedulerRun_switched hr)
  | exit hr =>
    rcases schedulerExit_some hr with ht | ⟨hrun, -⟩
    · exact h.terminated ht
    · exact (h.removed s.currentPid).switched (schedulerRun_switched hrun)
  | fork hf =>
    rcases schedulerFork_some hf with ⟨-, rfl⟩ | ⟨parent, -, -, rfl⟩
    · exact h
    · refine AllLow.emitted ?_ (schedulerEmitEvent_emitted _ _)
      have hc : AllLow (addChild (forkChild ctx (ctx.gpr 0) (ctx.gpr 1) parent s) s) :=
        ⟨h.high, h.prio⟩
      exact hc.setPriority s.nextPid one_ne_zero
  | block _ hb =>
    obtain ⟨-, -, hrun⟩ := schedulerBlockProcess_some hb
    have hm : AllLow (markBlocked ctx ⟨signed (ctx.gpr 0), signed (ctx.gpr 1)⟩ s) :=
      ⟨by simp [markBlocked, h.high], h.prio⟩
    exact (hm.emitted (schedulerEmitEvent_emitted _ _)).switched (schedulerRun_switched hrun)
  | kill _ hk => exact h.terminated (schedulerKill_some hk).2
  | setpriority => exact h.setPriority _ (hg rfl)
  | exec he =>
    obtain ⟨-, rfl⟩ := schedulerExec_some he
    exact ⟨h.high, h.prio⟩

/-- In every run without a call for priority 0 every runnable process is in the queue of
the priority last assigned to it and in no other. -/
theorem queues_match_priorities (entrySh stackTopUsr : UInt32) (fresh : Pcb)
    (is : List (Trap × Ctx)) (s : State)
    (hg : PartialMachine.Along step NotRaised is (schedulerInitialise entrySh stackTopUsr fresh))
    (h : run is (schedulerInitialise entrySh stackTopUsr fresh) = some s) : QueuesMatch s := by
  have h0 : AllLow (schedulerInitialise entrySh stackTopUsr fresh) := ⟨rfl, fun _ => rfl⟩
  have hl : AllLow s := by
    refine PartialMachine.along_invariant AllLow (fun u i v hgu hu hv => ?_) hg h0 h
    obtain ⟨ctx', hh⟩ := step_handled hv
    exact hu.handled hgu hh
  intro p hp hr
  have hm := (run_queueInv h).queued p hp hr
  simp [hl.high, hl.prio, hm]

/-- One call for priority 0 is enough to break it: the process is then in both queues. -/
theorem raised_in_both_queues (s : State) (p : Pcb) (hp : p ∈ s.processList)
    (hr : p.status = .running ∨ p.status = .ready) :
    ¬ QueuesMatch (setPriority p.pid 0 s) := by
  intro h
  rw [setPriority_high] at h
  exact (h p hp hr).2.2 ⟨mem_requeued.mpr (Or.inr rfl), mem_requeued.mpr (Or.inr rfl)⟩

/-- The shell forks, is preempted, and lowers its child. -/
def loweredChild : List (Trap × Ctx) :=
  [(.svc .fork, zeroCtx), (.timer, zeroCtx), (.svc .setpriority, argCtx 2 1 1)]

theorem loweredChild_matches : ∃ s,
    run loweredChild (schedulerInitialise 0 0 zeroPcb) = some s ∧ s.lowQueue = [1, 2] ∧
      QueuesMatch s := by
  have hr : (run loweredChild (schedulerInitialise 0 0 zeroPcb)).map State.lowQueue
      = some [1, 2] := by decide
  obtain ⟨s, hs, hc⟩ := Option.map_eq_some_iff.mp hr
  have hg : ∀ i ∈ loweredChild, i.1 = .svc .setpriority → signed (i.2.gpr 2) ≠ 0 := by decide
  exact ⟨s, hs, hc, queues_match_priorities 0 0 zeroPcb loweredChild s
    (PartialMachine.along_of_inputs (fun i hi _ => hg i hi) _) hs⟩

/-- The child is raised and lowered again, and is still in the high queue. -/
def raisedAndLowered : List (Trap × Ctx) :=
  [(.svc .fork, zeroCtx), (.svc .setpriority, argCtx 2 1 0), (.svc .setpriority, argCtx 2 1 1)]

theorem lowered_still_high :
    ¬ ∀ (is : List (Trap × Ctx)) (s : State),
      run is (schedulerInitialise 0 0 zeroPcb) = some s → QueuesMatch s := by
  intro h
  have hr : (run raisedAndLowered (schedulerInitialise 0 0 zeroPcb)).map
      (fun s => s.processList.any (fun p => p.status = .ready ∧ p.pid ∈ s.highQueue ∧
        s.prio p.pid = 1)) = some true := by decide
  obtain ⟨s, hs, hc⟩ := Option.map_eq_some_iff.mp hr
  obtain ⟨p, hp, hq⟩ := List.any_eq_true.mp hc
  rw [decide_eq_true_eq] at hq
  have hm := (h raisedAndLowered s hs p hp (Or.inr hq.1)).1.mp hq.2.1
  rw [hq.2.2] at hm
  cases hm

end MalapropOS.Scheduler
