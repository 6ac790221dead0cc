import MalapropOS.Scheduler.Effects

/-! No runnable process is lost and none is queued twice. The invariant is split in two:
`Core` holds at every point inside a handler, `Queued` may miss one process between its
removal from the queues and the change of its status. -/
namespace MalapropOS.Scheduler

def Runnable (p : Pcb) : Prop := p.status = .running ∨ p.status = .ready

structure Core (s : State) : Prop where
  pidsNodup : (s.processList.map Pcb.pid).Nodup
  pidsRange : ∀ p ∈ s.processList, 1 ≤ p.pid ∧ p.pid < s.nextPid
  nextPos : 1 ≤ s.nextPid
  highNodup : s.highQueue.Nodup
  lowNodup : s.lowQueue.Nodup
  highLow : ∀ x ∈ s.highQueue, x ∈ s.lowQueue

/-- Every runnable process is in the low queue, `x` apart. -/
def QueuedExcept (x : Int) (s : State) : Prop :=
  ∀ p ∈ s.processList, Runnable p → p.pid = x ∨ p.pid ∈ s.lowQueue

def Queued (s : State) : Prop :=
  ∀ p ∈ s.processList, Runnable p → p.pid ∈ s.lowQueue

structure QueueInv (s : State) : Prop where
  core : Core s
  queued : Queued s
  current : s.currentPid ∈ s.lowQueue

theorem Core.mem_map_pid {s s' : State} (hc : Core s)
    (h : s'.processList.map Pcb.pid = s.processList.map Pcb.pid) {q : Pcb}
    (hq : q ∈ s'.processList) : 1 ≤ q.pid ∧ q.pid < s.nextPid := by
  have hm : q.pid ∈ s'.processList.map Pcb.pid := List.mem_map.mpr ⟨q, hq, rfl⟩
  rw [h] at hm
  obtain ⟨p, hp, he⟩ := List.mem_map.mp hm
  exact he ▸ hc.pidsRange p hp

/-- `Core` looks at the pids of the process list and at the queues up to order. -/
theorem Core.congr {s s' : State} (hc : Core s)
    (hp : s'.processList.map Pcb.pid = s.processList.map Pcb.pid)
    (hn : s'.nextPid = s.nextPid) (hh : s'.highQueue.Perm s.highQueue)
    (hl : s'.lowQueue.Nodup) (hm : ∀ x ∈ s.lowQueue, x ∈ s'.lowQueue) : Core s' where
  pidsNodup := hp ▸ hc.pidsNodup
  pidsRange := fun _ hq => hn ▸ hc.mem_map_pid hp hq
  nextPos := hn ▸ hc.nextPos
  highNodup := hh.nodup_iff.mpr hc.highNodup
  lowNodup := hl
  highLow := fun x hx => hm x (hc.highLow x (hh.mem_iff.mp hx))

theorem Core.switched {s s' : State} {ctx ctx' : Ctx} (hc : Core s)
    (h : Switched s ctx s' ctx') : Core s' :=
  hc.congr (by rw [h.list, map_pid_updateProcess]; exact fun _ => rfl) h.nextPid h.high
    (h.low.nodup_iff.mpr hc.lowNodup) (fun _ hx => h.low.mem_iff.mpr hx)

theorem Core.emitted {event : Event} {s s' : State} (hc : Core s)
    (h : Emitted event s s') : Core s' :=
  hc.congr (by rw [h.list]; exact map_pid_wake _ _) h.nextPid (h.high ▸ .refl _)
    (h.lowNodup hc.lowNodup) (fun x hx => (h.memLow x).mpr (Or.inl hx))

theorem Core.updated {s : State} (hc : Core s) (pid : Int) (f : Pcb → Pcb)
    (hf : ∀ p, (f p).pid = p.pid) :
    Core { s with processList := updateProcess pid f s.processList } :=
  hc.congr (map_pid_updateProcess pid f hf _) rfl (.refl _) hc.lowNodup (fun _ hx => hx)

theorem Core.removed {s : State} (hc : Core s) (pid : Int) :
    Core (removePid pid 1 (removePid pid 0 s)) := by
  rw [removePid_both]
  refine ⟨hc.pidsNodup, hc.pidsRange, hc.nextPos, hc.highNodup.filter _, hc.lowNodup.filter _, ?_⟩
  intro x hx
  simp only [List.mem_filter] at hx ⊢
  exact ⟨hc.highLow x hx.1, hx.2⟩

theorem Queued.removed {s : State} (hq : Queued s) (pid : Int) :
    QueuedExcept pid (removePid pid 1 (removePid pid 0 s)) := by
  rw [removePid_both]
  intro p hp hr
  by_cases he : p.pid = pid
  · exact Or.inl he
  · exact Or.inr (List.mem_filter.mpr ⟨hq p hp hr, by simpa using he⟩)

/-- Storing the caller's context leaves every pid and every status as it was. -/
theorem Switched.status {s s' : State} {ctx ctx' : Ctx} (hc : Core s)
    (h : Switched s ctx s' ctx') {q : Pcb} (hq : q ∈ s'.processList) :
    ∃ p ∈ s.processList, p.pid = q.pid ∧ p.status = q.status ∧
      p.blockedUntil = q.blockedUntil := by
  rw [h.list, mem_updateProcess hc.pidsNodup] at hq
  rcases hq with ⟨hq, -⟩ | ⟨p, hp, -, rfl⟩
  · exact ⟨q, hq, rfl, rfl, rfl⟩
  · exact ⟨p, hp, rfl, rfl, rfl⟩

theorem Switched.runnable {s s' : State} {ctx ctx' : Ctx} (hc : Core s)
    (h : Switched s ctx s' ctx') {q : Pcb} (hm : q ∈ s'.processList) (hr : Runnable q) :
    ∃ p ∈ s.processList, p.pid = q.pid ∧ Runnable p := by
  obtain ⟨p, hp, hpid, hst, -⟩ := h.status hc hm
  exact ⟨p, hp, hpid, by unfold Runnable at *; rwa [hst]⟩

theorem QueuedExcept.switched {x : Int} {s s' : State} {ctx ctx' : Ctx} (hc : Core s)
    (hq : QueuedExcept x s) (h : Switched s ctx s' ctx') : QueuedExcept x s' := by
  intro q hm hr
  obtain ⟨p, hp, hpid, hr'⟩ := h.runnable hc hm hr
  rw [← hpid]
  exact (hq p hp hr').imp_right h.low.mem_iff.mpr

theorem Queued.switched {s s' : State} {ctx ctx' : Ctx} (hc : Core s)
    (hq : Queued s) (h : Switched s ctx s' ctx') : Queued s' := by
  intro q hm hr
  obtain ⟨p, hp, hpid, hr'⟩ := h.runnable hc hm hr
  rw [← hpid]
  exact h.low.mem_iff.mpr (hq p hp hr')

theorem Switched.current_low {s s' : State} {ctx ctx' : Ctx} (hc : Core s)
    (h : Switched s ctx s' ctx') : s'.currentPid ∈ s'.lowQueue := by
  obtain ⟨p, hp, hpid, -⟩ := h.found
  have hpos : 1 ≤ s'.currentPid := hpid ▸ ((hc.switched h).pidsRange p hp).1
  rcases h.mem with he | hm | hm
  · omega
  · exact h.low.mem_iff.mpr (hc.highLow _ hm)
  · exact h.low.mem_iff.mpr hm

theorem Queued.emitted {event : Event} {s s' : State} (hq : Queued s)
    (h : Emitted event s s') : Queued s' := by
  intro q hm hr
  rw [h.list] at hm
  obtain ⟨p, hp, rfl⟩ := List.mem_map.mp hm
  rw [wake_pid, h.memLow]
  by_cases hw : wakes event p
  · exact Or.inr ⟨p, hp, hw, rfl⟩
  · refine Or.inl (hq p hp ?_)
    simpa [wake, hw] using hr

theorem QueueInv.emitted {event : Event} {s s' : State} (hi : QueueInv s)
    (h : Emitted event s s') : QueueInv s' where
  core := hi.core.emitted h
  queued := hi.queued.emitted h
  current := by rw [h.current, h.memLow]; exact Or.inl hi.current

/-- A process left out of the queues may take a status that is not runnable. -/
theorem QueuedExcept.retired {x : Int} {s : State} (hc : Core s) (hq : QueuedExcept x s)
    (f : Pcb → Pcb) (hf : ∀ p, ¬ Runnable (f p)) :
    Queued { s with processList := updateProcess x f s.processList } := by
  intro q hm hr
  rcases (mem_updateProcess hc.pidsNodup).mp hm with ⟨hq', hne⟩ | ⟨p, -, -, rfl⟩
  · exact (hq q hq' hr).resolve_left hne
  · exact absurd hr (hf p)

theorem Switched.current_not_removed {s s' : State} {ctx ctx' : Ctx} {pid : Int} (hc : Core s)
    (h : Switched (removePid pid 1 (removePid pid 0 s)) ctx s' ctx') :
    s'.currentPid ≠ pid := by
  have hm := h.current_low (hc.removed pid)
  rw [h.low.mem_iff, removePid_both] at hm
  simpa using (List.mem_filter.mp hm).2

/-- The common end of `exit` and `kill`: out of the queues, switch, mark, notify. -/
theorem QueueInv.terminated {s s' : State} {ctx ctx' : Ctx} {pid : Int} (hi : QueueInv s)
    (h : Terminated pid s ctx s' ctx') : QueueInv s' := by
  obtain ⟨t, hrun, -, rfl⟩ := h.switch
  have hsw := schedulerRun_switched hrun
  have hc := hi.core.removed pid
  refine QueueInv.emitted ⟨?_, ?_, ?_⟩ (schedulerEmitEvent_emitted _ _)
  · exact (hc.switched hsw).updated pid _ (fun _ => rfl)
  · exact ((hi.queued.removed pid).switched hc hsw).retired (hc.switched hsw) _
      (fun p => by simp [Runnable])
  · have hm := hsw.current_low hc
    exact hm

theorem QueueInv.switched {s s' : State} {ctx ctx' : Ctx} (hi : QueueInv s)
    (h : Switched s ctx s' ctx') : QueueInv s' :=
  ⟨hi.core.switched h, hi.queued.switched hi.core h, h.current_low hi.core⟩

theorem QueueInv.exit {s s' : State} {ctx ctx' : Ctx} (hi : QueueInv s)
    (h : schedulerExit s ctx = some (s', ctx')) : QueueInv s' := by
  rcases schedulerExit_some h with ht | ⟨hrun, hsame⟩
  · exact hi.terminated ht
  · exact absurd hsame ((schedulerRun_switched hrun).current_not_removed hi.core)

/-- The blocked caller is not runnable, so its removal from the queues loses nobody. -/
theorem QueueInv.markBlocked {s : State} (hi : QueueInv s) (ctx : Ctx) (event : Event) :
    Core (markBlocked ctx event s) ∧ Queued (markBlocked ctx event s) := by
  have hc := (hi.core.removed s.currentPid).updated s.currentPid
    (fun p => { p with ctx := ctx, blockedUntil := event, status := .blocked }) (fun _ => rfl)
  have hq := (hi.queued.removed s.currentPid).retired (hi.core.removed s.currentPid)
    (fun p => { p with ctx := ctx, blockedUntil := event, status := .blocked })
    (fun p => by simp [Runnable])
  rw [removePid_both] at hc hq
  exact ⟨hc, hq⟩

theorem QueueInv.block {s s' : State} {ctx ctx' : Ctx} {event : Event} {r : Int}
    (hi : QueueInv s) (h : schedulerBlockProcess ctx event s = some (r, s', ctx')) :
    QueueInv s' := by
  obtain ⟨-, -, hrun⟩ := schedulerBlockProcess_some h
  obtain ⟨hc, hq⟩ := hi.markBlocked ctx event
  have hem := schedulerEmitEvent_emitted ⟨processEventBlocked, s.currentPid⟩
    (Scheduler.markBlocked ctx event s)
  have hsw := schedulerRun_switched hrun
  have hce := hc.emitted hem
  exact ⟨hce.switched hsw, (hq.emitted hem).switched hce hsw, hsw.current_low hce⟩

theorem QueueInv.setPriority {s : State} (hi : QueueInv s) (pid priority : Int) :
    QueueInv (setPriority pid priority s) := by
  have hmem : ∀ x ∈ s.lowQueue, x ∈ s.lowQueue.filter (· ≠ pid) ++ [pid] :=
    fun x hx => mem_requeued.mpr (Or.inl hx)
  by_cases h0 : priority = 0
  · subst h0
    rw [setPriority_high]
    refine ⟨⟨hi.core.pidsNodup, hi.core.pidsRange, hi.core.nextPos,
      nodup_requeued hi.core.highNodup, nodup_requeued hi.core.lowNodup, ?_⟩,
      fun p hp hr => hmem _ (hi.queued p hp hr), hmem _ hi.current⟩
    intro x hx
    exact mem_requeued.mpr ((mem_requeued.mp hx).imp_left (hi.core.highLow x))
  · by_cases h1 : priority = 1
    · subst h1
      rw [setPriority_low]
      exact ⟨hi.core.congr rfl rfl (.refl _) (nodup_requeued hi.core.lowNodup) hmem,
        fun p hp hr => hmem _ (hi.queued p hp hr), hmem _ hi.current⟩
    · rwa [setPriority_other h0 h1]

theorem Core.addChild {s : State} (hc : Core s) (child : Pcb) (hpid : child.pid = s.nextPid) :
    Core (addChild child s) := by
  have hpos := hc.nextPos
  refine ⟨?_, ?_, ?_, hc.highNodup, hc.lowNodup, hc.highLow⟩
  · simp only [Scheduler.addChild, List.map_append, List.map_cons, List.map_nil,
      List.nodup_append]
    refine ⟨hc.pidsNodup, by simp, ?_⟩
    intro a ha b hb hab
    obtain ⟨p, hp, rfl⟩ := List.mem_map.mp ha
    have hlt := (hc.pidsRange p hp).2
    have hbn := List.mem_singleton.mp hb
    omega
  · intro p hp
    simp only [Scheduler.addChild, List.mem_append, List.mem_singleton] at hp ⊢
    rcases hp with hp | rfl
    · have := hc.pidsRange p hp
      omega
    · omega
  · simp only [Scheduler.addChild]
    omega

theorem QueueInv.fork {s s' : State} {ctx : Ctx} {sp fp : UInt32} {r : Int} (hi : QueueInv s)
    (h : schedulerFork ctx sp fp s = some (r, s')) : QueueInv s' := by
  rcases schedulerFork_some h with ⟨-, rfl⟩ | ⟨parent, -, -, rfl⟩
  · exact hi
  · refine QueueInv.emitted ?_ (schedulerEmitEvent_emitted _ _)
    have hc := hi.core.addChild (forkChild ctx sp fp parent s) rfl
    have hmem : ∀ x ∈ s.lowQueue, x ∈ s.lowQueue.filter (· ≠ s.nextPid) ++ [s.nextPid] :=
      fun x hx => mem_requeued.mpr (Or.inl hx)
    rw [setPriority_low]
    refine ⟨hc.congr rfl rfl (.refl _) (nodup_requeued hc.lowNodup) hmem, ?_, hmem _ hi.current⟩
    intro p hp hr
    cases List.mem_append.mp hp with
    | inl hp => exact hmem _ (hi.queued p hp hr)
    | inr hp =>
      rw [List.mem_singleton.mp hp]
      exact mem_requeued.mpr (Or.inr rfl)

theorem QueueInv.exec {s s' : State} {ctx ctx' : Ctx} {function argc argv : UInt32}
    (hi : QueueInv s) (h : schedulerExec ctx function argc argv s = some (s', ctx')) :
    QueueInv s' := by
  obtain ⟨-, rfl⟩ := schedulerExec_some h
  refine ⟨hi.core.updated _ _ (fun _ => rfl), ?_, hi.current⟩
  intro q hq hr
  rcases (mem_updateProcess hi.core.pidsNodup).mp hq with ⟨hq, -⟩ | ⟨p, -, hp, rfl⟩
  · exact hi.queued q hq hr
  · exact hp ▸ hi.current

/-- Every handler restores the invariant, for every trap and every register contents. -/
theorem QueueInv.handled {trap : Trap} {s s' : State} {ctx ctx' : Ctx} (hi : QueueInv s)
    (h : Handled s ctx trap s' ctx') : QueueInv s' := by
  cases h with
  | quiet => exact hi
  | switch _ h => exact hi.switched (schedulerRun_switched h)
  | exit h => exact hi.exit h
  | fork h => exact hi.fork h
  | block _ h => exact hi.block h
  | kill _ h => exact hi.terminated (schedulerKill_some h).2
  | setpriority => exact hi.setPriority _ _
  | exec h => exact hi.exec h

theorem QueueInv.initialise (entrySh stackTopUsr : UInt32) (fresh : Pcb) :
    QueueInv (schedulerInitialise entrySh stackTopUsr fresh) where
  core := by constructor <;> simp [schedulerInitialise]
  queued := by intro p hp _; simp_all [schedulerInitialise]
  current := by simp [schedulerInitialise]

theorem run_queueInv {entrySh stackTopUsr : UInt32} {fresh : Pcb} {is : List (Trap × Ctx)}
    {s : State} (h : run is (schedulerInitialise entrySh stackTopUsr fresh) = some s) :
    QueueInv s := by
  refine PartialMachine.run_invariant QueueInv (fun s i t hi ht => ?_)
    (QueueInv.initialise entrySh stackTopUsr fresh) h
  obtain ⟨ctx', hh⟩ := step_handled ht
  exact hi.handled hh

/-- In every reachable state the process list has distinct pids from 1 to `next_pid - 1`,
every running or ready process is exactly once in the low queue, neither queue repeats a
pid, the high queue is part of the low one and the current pid is queued. -/
theorem reachable_queues_consistent (entrySh stackTopUsr : UInt32) (fresh : Pcb)
    (is : List (Trap × Ctx)) (s : State)
    (h : run is (schedulerInitialise entrySh stackTopUsr fresh) = some s) :
    (s.processList.map Pcb.pid).Nodup ∧
    (∀ p ∈ s.processList, 1 ≤ p.pid ∧ p.pid ≤ s.nextPid - 1) ∧
    (∀ p ∈ s.processList, p.status = .running ∨ p.status = .ready →
      s.lowQueue.count p.pid = 1) ∧
    (∀ x, s.highQueue.count x ≤ 1 ∧ s.lowQueue.count x ≤ 1) ∧
    (∀ x ∈ s.highQueue, x ∈ s.lowQueue) ∧
    s.currentPid ∈ s.lowQueue := by
  have hi := run_queueInv h
  refine ⟨hi.core.pidsNodup, fun p hp => ?_, fun p hp hr => ?_, fun x => ⟨?_, ?_⟩,
    hi.core.highLow, hi.current⟩
  · have := hi.core.pidsRange p hp
    omega
  · exact List.count_eq_one_of_mem hi.core.lowNodup (hi.queued p hp hr)
  · exact List.nodup_iff_count_le_one.mp hi.core.highNodup x
  · exact List.nodup_iff_count_le_one.mp hi.core.lowNodup x

def zeroCtx : Ctx := ⟨0, 0, fun _ => 0, 0, 0⟩
def zeroPcb : Pcb := ⟨0, zeroCtx, .running, ⟨0, 0⟩⟩

/-- A context with the arguments of a call in r0, r1 and r2. -/
def argCtx (r0 r1 r2 : UInt32) : Ctx :=
  ((zeroCtx.setGpr 0 r0).setGpr 1 r1).setGpr 2 r2

/-- The shell forks, raises its child and is preempted. -/
def raisedChild : List (Trap × Ctx) :=
  [(.svc .fork, zeroCtx), (.svc .setpriority, argCtx 2 1 0), (.timer, zeroCtx)]

theorem raisedChild_consistent : ∃ s,
    run raisedChild (schedulerInitialise 0 0 zeroPcb) = some s ∧
      s.currentPid = 2 ∧ s.currentPid ∈ s.lowQueue := by
  have hr : (run raisedChild (schedulerInitialise 0 0 zeroPcb)).map State.currentPid = some 2 := by
    decide
  obtain ⟨s, hs, hc⟩ := Option.map_eq_some_iff.mp hr
  exact ⟨s, hs, hc, (reachable_queues_consistent 0 0 zeroPcb raisedChild s hs).2.2.2.2.2⟩

end MalapropOS.Scheduler
