import MalapropOS.Scheduler.Queues

/-! The NULL pointers of `find_process`. A pid that is queued or current has an entry in the
process list as long as no `setpriority` queues a pid without one; a trap then finds a process
wherever it dereferences one, if the queues still have a pid once the caller or the victim is
taken out of them. -/
namespace MalapropOS.Scheduler

def HasEntry (s : State) (x : Int) : Prop := ∃ p ∈ s.processList, p.pid = x

/-- Somebody to switch to when `x` leaves the queues. -/
def OtherQueued (s : State) (x : Int) : Prop := ∃ y ∈ s.lowQueue, y ≠ x

/-- A blocking `waitpid` of the current process leaves or wakes somebody. -/
def OtherAwake (s : State) (untilEvent : Event) : Prop :=
  OtherQueued s s.currentPid ∨ untilEvent = ⟨processEventBlocked, s.currentPid⟩ ∨
    ∃ p ∈ s.processList, p.pid ≠ s.currentPid ∧ wakes ⟨processEventBlocked, s.currentPid⟩ p

/-- What a trap needs to find a process wherever it dereferences one. -/
def Survivable (s : State) (i : Trap × Ctx) : Prop :=
  match i.1 with
  | .svc .exit => OtherQueued s s.currentPid
  | .svc (.kill _) => signed (i.2.gpr 1) = sigkill →
    HasEntry s (signed (i.2.gpr 0)) ∧ OtherQueued s (signed (i.2.gpr 0))
  | .svc .waitpid => ¬ isNohang (i.2.gpr 2) →
    OtherAwake s ⟨signed (i.2.gpr 0), signed (i.2.gpr 1)⟩
  | _ => True

/-- A `setpriority` that queues a pid is for a process. -/
def TargetKnown (s : State) (i : Trap × Ctx) : Prop :=
  i.1 = .svc .setpriority → signed (i.2.gpr 2) = 0 ∨ signed (i.2.gpr 2) = 1 →
    HasEntry s (signed (i.2.gpr 0))

def Known (s : State) : Prop := ∀ x ∈ s.lowQueue, HasEntry s x

structure EntryInv (s : State) : Prop where
  queues : QueueInv s
  known : Known s

theorem EntryInv.current {s : State} (hi : EntryInv s) : HasEntry s s.currentPid :=
  hi.known _ hi.queues.current

theorem hasEntry_congr {s s' : State}
    (hp : s'.processList.map Pcb.pid = s.processList.map Pcb.pid) {x : Int} :
    HasEntry s' x ↔ HasEntry s x := by
  have h (t : State) : HasEntry t x ↔ x ∈ t.processList.map Pcb.pid := by simp [HasEntry]
  rw [h, h, hp]

/-- The pid that is chosen is a queued one, where there is one. -/
theorem chooseNext_mem {s : State} (hc : Core s) (hk : Known s)
    (hne : s.lowQueue ≠ []) : (chooseNext s).1 ∈ s.lowQueue := by
  have hpos : ∀ x ∈ s.lowQueue, x ≠ -1 := by
    rintro x hx rfl
    obtain ⟨p, hp, he⟩ := hk _ hx
    have := (hc.pidsRange p hp).1
    omega
  unfold chooseNext
  cases hh : s.highQueue with
  | nil =>
    obtain ⟨x, xs, hl⟩ := List.exists_cons_of_ne_nil hne
    simp [getNextProcess, hh, hl]
  | cons x xs =>
    have hx : x ∈ s.lowQueue := hc.highLow x (by simp [hh])
    simpa [getNextProcess, hh, hpos x hx] using hx

/-- A switch finds its two processes if and only if somebody is queued. -/
theorem schedulerRun_isSome {s : State} (hc : Core s) (hk : Known s)
    (hcur : HasEntry s s.currentPid) (ctx : Ctx) :
    (schedulerRun s ctx).isSome ↔ s.lowQueue ≠ [] := by
  constructor
  · intro h he
    obtain ⟨⟨s', ctx'⟩, hr⟩ := Option.isSome_iff_exists.mp h
    have hsw := schedulerRun_switched hr
    have hlow := hsw.current_low hc
    rw [hsw.low.mem_iff, he] at hlow
    cases hlow
  · intro hne
    obtain ⟨ctx', h⟩ := schedulerRun_ok hcur (hk _ (chooseNext_mem hc hk hne)) ctx
    rw [h]
    rfl

theorem withProcess_eq {s : State} {pid : Int} (h : HasEntry s pid) (f : Pcb → Pcb) :
    withProcess pid f s =
      some { s with processList := updateProcess pid f s.processList } := by
  obtain ⟨p, hp⟩ := findProcess_of_mem h
  simp [withProcess, hp]

theorem withProcess_isSome {s : State} {pid : Int} {f : Pcb → Pcb} :
    (withProcess pid f s).isSome ↔ HasEntry s pid := by
  constructor
  · intro h
    obtain ⟨t, ht⟩ := Option.isSome_iff_exists.mp h
    exact (withProcess_some ht).1
  · intro h
    rw [withProcess_eq h]
    rfl

theorem Switched.hasEntry {s s' : State} {ctx ctx' : Ctx} (h : Switched s ctx s' ctx') {x : Int} :
    HasEntry s' x ↔ HasEntry s x :=
  hasEntry_congr (by rw [h.list, map_pid_updateProcess]; exact fun _ => rfl)

theorem Known.switched {s s' : State} {ctx ctx' : Ctx} (h : Known s)
    (hs : Switched s ctx s' ctx') : Known s' :=
  fun x hx => hs.hasEntry.mpr (h x (hs.low.mem_iff.mp hx))

theorem Known.removed {s : State} (h : Known s) (pid : Int) :
    Known (removePid pid 1 (removePid pid 0 s)) := by
  rw [removePid_both]
  exact fun x hx => h x (List.mem_filter.mp hx).1

theorem Known.emitted {event : Event} {s s' : State} (h : Known s) (he : Emitted event s s') :
    Known s' := by
  intro x hx
  refine (hasEntry_congr (s := s) (by rw [he.list, map_pid_wake])).mpr ?_
  rcases (he.memLow x).mp hx with hx | ⟨p, hp, -, hpx⟩
  · exact h x hx
  · exact ⟨p, hp, hpx⟩

theorem map_pid_markBlocked (ctx : Ctx) (event : Event) (s : State) :
    (markBlocked ctx event s).processList.map Pcb.pid = s.processList.map Pcb.pid :=
  map_pid_updateProcess s.currentPid
    (fun p => { p with ctx := ctx, blockedUntil := event, status := .blocked }) (fun _ => rfl) _

theorem Known.markBlocked {s : State} (h : Known s) (ctx : Ctx) (event : Event) :
    Known (markBlocked ctx event s) :=
  fun x hx => (hasEntry_congr (map_pid_markBlocked ctx event s)).mpr
    (h x (List.mem_filter.mp hx).1)

theorem EntryInv.removed_isSome {s : State} (hi : EntryInv s) (pid : Int) (ctx : Ctx) :
    (schedulerRun (removePid pid 1 (removePid pid 0 s)) ctx).isSome ↔ OtherQueued s pid := by
  have hc := hi.queues.core.removed pid
  have hk := hi.known.removed pid
  rw [removePid_both] at hc hk ⊢
  rw [schedulerRun_isSome hc hk hi.current]
  simp [OtherQueued, List.filter_eq_nil_iff]

theorem EntryInv.exit_isSome {s : State} (hi : EntryInv s) (ctx : Ctx) :
    (schedulerExit s ctx).isSome ↔ OtherQueued s s.currentPid := by
  rw [← hi.removed_isSome s.currentPid ctx]
  unfold schedulerExit
  cases hr : schedulerRun (removePid s.currentPid 1 (removePid s.currentPid 0 s)) ctx with
  | none => simp [hr]
  | some r =>
    have hsw := schedulerRun_switched hr
    have hne := hsw.current_not_removed hi.queues.core
    have he : HasEntry r.1 s.currentPid := by
      rw [hsw.hasEntry, removePid_both]
      exact hi.current
    simp [hr, hne, withProcess_eq he]

theorem EntryInv.kill_isSome {s : State} (hi : EntryInv s) (ctx : Ctx) (pid : Int) :
    (schedulerKill ctx pid s).isSome ↔ HasEntry s pid ∧ OtherQueued s pid := by
  rw [← hi.removed_isSome pid ctx]
  unfold schedulerKill
  cases hr : schedulerRun (removePid pid 1 (removePid pid 0 s)) ctx with
  | none => simp [hr]
  | some r =>
    have he : HasEntry r.1 pid ↔ HasEntry s pid := by
      rw [(schedulerRun_switched hr).hasEntry, removePid_both]
      rfl
    rw [← he, ← withProcess_isSome (f := fun p => { p with status := .terminated })]
    cases hw : withProcess pid (fun p => { p with status := .terminated }) r.1 <;>
      simp [hr, hw]

/-- A blocking `waitpid` finds its process, so that only the switch at its end may fail. -/
theorem schedulerBlockProcess_eq {s : State} (hc : HasEntry s s.currentPid) (ctx : Ctx)
    (event : Event) : schedulerBlockProcess ctx event s =
      (schedulerRun (schedulerEmitEvent ⟨processEventBlocked, s.currentPid⟩
        (markBlocked ctx event s)) ctx).map fun r => (event.fromProcess, r.1, r.2) := by
  have hc' : HasEntry
      { s with
        processList := updateProcess s.currentPid (fun p => { p with ctx := ctx }) s.processList }
      s.currentPid :=
    (mem_pids_updateProcess (fun p => { p with ctx := ctx }) (fun _ => rfl) _).mpr hc
  simp only [schedulerBlockProcess, saveCurrentProcess, withProcess_eq hc, withProcess_eq hc',
    removePid_both, Option.bind_eq_bind, Option.bind_some]
  rw [updateProcess_updateProcess s.currentPid (fun p => { p with ctx := ctx })
    (fun p => { p with blockedUntil := event, status := .blocked }) (fun _ => rfl)]
  exact (Option.map_eq_bind ..).symm

/-- Who waits for the event that the caller blocks: others, or the caller itself. -/
theorem wakes_markBlocked {s : State} (hi : EntryInv s) (ctx : Ctx) (event : Event) :
    (∃ p ∈ (markBlocked ctx event s).processList, wakes ⟨processEventBlocked, s.currentPid⟩ p) ↔
      event = ⟨processEventBlocked, s.currentPid⟩ ∨
      ∃ p ∈ s.processList, p.pid ≠ s.currentPid ∧
        wakes ⟨processEventBlocked, s.currentPid⟩ p := by
  constructor
  · intro ⟨p, hp, hw⟩
    rcases (mem_updateProcess hi.queues.core.pidsNodup).mp hp with ⟨hp, hne⟩ | ⟨q, -, -, rfl⟩
    · exact Or.inr ⟨p, hp, hne, hw⟩
    · refine Or.inl ?_
      cases event
      simpa [wakes] using hw
  · rintro (rfl | ⟨p, hp, hne, hw⟩)
    · obtain ⟨p, hp, he⟩ := hi.current
      refine ⟨_, (mem_updateProcess hi.queues.core.pidsNodup).mpr (Or.inr ⟨p, hp, he, rfl⟩), ?_⟩
      simp [wakes]
    · exact ⟨p, (mem_updateProcess hi.queues.core.pidsNodup).mpr (Or.inl ⟨hp, hne⟩), hw⟩

theorem EntryInv.block_isSome {s : State} (hi : EntryInv s) (ctx : Ctx) (event : Event) :
    (schedulerBlockProcess ctx event s).isSome ↔ OtherAwake s event := by
  obtain ⟨hc, -⟩ := hi.queues.markBlocked ctx event
  have hem := schedulerEmitEvent_emitted ⟨processEventBlocked, s.currentPid⟩
    (markBlocked ctx event s)
  rw [schedulerBlockProcess_eq hi.current, Option.isSome_map]
  generalize schedulerEmitEvent ⟨processEventBlocked, s.currentPid⟩ (markBlocked ctx event s) = t
    at hem ⊢
  have hcur : HasEntry t t.currentPid := by
    rw [hem.current]
    exact (hasEntry_congr (s := s) (by rw [hem.list, map_pid_wake, map_pid_markBlocked])).mpr
      hi.current
  rw [schedulerRun_isSome (hc.emitted hem) ((hi.known.markBlocked ctx event).emitted hem) hcur,
    ne_eq, List.eq_nil_iff_forall_not_mem]
  simp only [not_forall, not_not, hem.memLow, exists_or, OtherAwake, ← wakes_markBlocked hi ctx event]
  refine or_congr ?_ ?_
  · simp [markBlocked, OtherQueued]
  · constructor
    · rintro ⟨x, p, hp, hw, -⟩
      exact ⟨p, hp, hw⟩
    · intro ⟨p, hp, hw⟩
      exact ⟨p.pid, p, hp, hw, rfl⟩

theorem schedulerExec_ok {s : State} (hc : HasEntry s s.currentPid) (ctx : Ctx)
    (function argc argv : UInt32) : ∃ r, schedulerExec ctx function argc argv s = some r := by
  have hc' (c : Ctx) : HasEntry
      { s with
        processList := updateProcess s.currentPid (fun p => { p with ctx := c }) s.processList }
      s.currentPid :=
    (mem_pids_updateProcess (fun p => { p with ctx := c }) (fun _ => rfl) _).mpr hc
  simp only [schedulerExec, saveCurrentProcess, withProcess_eq hc, withProcess_eq (hc' _),
    Option.bind_eq_bind, Option.bind_some]
  exact ⟨_, rfl⟩

/-- A trap finds every process that it dereferences if and only if it is survivable. -/
theorem EntryInv.handle_isSome {s : State} (hi : EntryInv s) (i : Trap × Ctx)
    (hf : i.1 ≠ .svc .fork) : (handle i.1 s i.2).isSome ↔ Survivable s i := by
  obtain ⟨trap, ctx⟩ := i
  cases trap with
  | timer =>
    have h := schedulerRun_isSome hi.queues.core hi.known hi.current ctx
    simpa [handle, Survivable, h] using List.ne_nil_of_mem hi.queues.current
  | uart => simp [handle, Survivable]
  | svc c =>
    cases c with
    | exit => exact hi.exit_isSome ctx
    | fork => exact absurd rfl hf
    | waitpid =>
      have h := hi.block_isSome ctx ⟨signed (ctx.gpr 0), signed (ctx.gpr 1)⟩
      by_cases hn : isNohang (ctx.gpr 2)
      · simp [handle, kernelHandlerSvc, Survivable, hn]
      · simp only [Survivable, hn, ← h]
        cases hb : schedulerBlockProcess ctx ⟨signed (ctx.gpr 0), signed (ctx.gpr 1)⟩ s <;>
          simp [handle, kernelHandlerSvc, hn, hb]
    | getpid => simp [handle, kernelHandlerSvc, Survivable]
    | kill u =>
      have h := hi.kill_isSome ctx (signed (ctx.gpr 0))
      by_cases hk : signed (ctx.gpr 1) = sigkill
      · simp only [Survivable, hk, true_implies, ← h]
        cases hb : schedulerKill ctx (signed (ctx.gpr 0)) s <;>
          simp [handle, kernelHandlerSvc, hk, hb]
      · simp [handle, kernelHandlerSvc, Survivable, hk]
    | setpriority => simp [handle, kernelHandlerSvc, Survivable]
    | yield =>
      have h := schedulerRun_isSome hi.queues.core hi.known hi.current ctx
      simpa [handle, kernelHandlerSvc, Survivable, h] using List.ne_nil_of_mem hi.queues.current
    | exec =>
      obtain ⟨r, hr⟩ := schedulerExec_ok hi.current ctx (ctx.gpr 0) (ctx.gpr 1) (ctx.gpr 2)
      simp [handle, kernelHandlerSvc, Survivable, hr]
    | other result => simp [handle, kernelHandlerSvc, Survivable]
    | unknown => simp [handle, kernelHandlerSvc, Survivable]

theorem EntryInv.initialise (entrySh stackTopUsr : UInt32) (fresh : Pcb) :
    EntryInv (schedulerInitialise entrySh stackTopUsr fresh) where
  queues := QueueInv.initialise entrySh stackTopUsr fresh
  known := by simp [schedulerInitialise, Known, HasEntry]

theorem Known.setPriority {s : State} (h : Known s) {pid priority : Int}
    (hp : priority = 0 ∨ priority = 1 → HasEntry s pid) : Known (setPriority pid priority s) := by
  have hq : priority = 0 ∨ priority = 1 → ∀ x ∈ s.lowQueue.filter (· ≠ pid) ++ [pid],
      HasEntry s x := by
    intro hpr x hx
    rcases mem_requeued.mp hx with hx | rfl
    · exact h x hx
    · exact hp hpr
  by_cases h0 : priority = 0
  · subst h0
    rw [setPriority_high]
    exact hq (Or.inl rfl)
  · by_cases h1 : priority = 1
    · subst h1
      rw [setPriority_low]
      exact hq (Or.inr rfl)
    · rwa [setPriority_other h0 h1]

theorem Known.fork {s s' : State} {ctx : Ctx} {sp fp : UInt32} {r : Int} (h : Known s)
    (hf : schedulerFork ctx sp fp s = some (r, s')) : Known s' := by
  rcases schedulerFork_some hf with ⟨-, rfl⟩ | ⟨parent, -, -, rfl⟩
  · exact h
  · have hc : Known (addChild (forkChild ctx sp fp parent s) s) := by
      intro x hx
      obtain ⟨p, hp, he⟩ := h x hx
      exact ⟨p, List.mem_append.mpr (Or.inl hp), he⟩
    refine Known.emitted (hc.setPriority fun _ => ?_) (schedulerEmitEvent_emitted _ _)
    exact ⟨_, List.mem_append.mpr (Or.inr (List.mem_singleton.mpr rfl)), rfl⟩

theorem Known.terminated {s s' : State} {ctx ctx' : Ctx} {pid : Int} (h : Known s)
    (ht : Terminated pid s ctx s' ctx') : Known s' := by
  obtain ⟨t, hrun, -, rfl⟩ := ht.switch
  refine Known.emitted ?_ (schedulerEmitEvent_emitted _ _)
  have hk := (h.removed pid).switched (schedulerRun_switched hrun)
  intro x hx
  exact (mem_pids_updateProcess (fun p => { p with status := .terminated }) (fun _ => rfl) x).mpr
    (hk x hx)

theorem EntryInv.handled {trap : Trap} {s s' : State} {ctx ctx' : Ctx} (hi : EntryInv s)
    (hg : TargetKnown s (trap, ctx)) (h : Handled s ctx trap s' ctx') : EntryInv s' := by
  refine ⟨hi.queues.handled h, ?_⟩
  cases h with
  | quiet => exact hi.known
  | switch _ h => exact hi.known.switched (schedulerRun_switched h)
  | exit h =>
    rcases schedulerExit_some h with ht | ⟨hrun, -⟩
    · exact hi.known.terminated ht
    · exact (hi.known.removed s.currentPid).switched (schedulerRun_switched hrun)
  | fork h => exact hi.known.fork h
  | block _ h =>
    obtain ⟨-, -, hrun⟩ := schedulerBlockProcess_some h
    exact ((hi.known.markBlocked ctx _).emitted (schedulerEmitEvent_emitted _ _)).switched
      (schedulerRun_switched hrun)
  | kill _ h => exact hi.known.terminated (schedulerKill_some h).2
  | setpriority => exact hi.known.setPriority (hg rfl)
  | exec h =>
    obtain ⟨-, rfl⟩ := schedulerExec_some h
    intro x hx
    exact (hasEntry_congr (s := s) (map_pid_updateProcess s.currentPid _ (fun _ => by rfl) _)).mpr
      (hi.known x hx)

/-- In every run in which `setpriority` queues processes only, the current process is one, and a
trap other than `fork` finds every process that it dereferences if and only if there is somebody
to switch to and, for `kill`, the victim is a process. -/
theorem traps_find_processes (entrySh stackTopUsr : UInt32) (fresh : Pcb)
    (is : List (Trap × Ctx)) (s : State)
    (hg : PartialMachine.Along step TargetKnown is (schedulerInitialise entrySh stackTopUsr fresh))
    (h : run is (schedulerInitialise entrySh stackTopUsr fresh) = some s) :
    (∃ p ∈ s.processList, p.pid = s.currentPid) ∧ s.currentPid ≠ -1 ∧
      ∀ i, i.1 ≠ .svc .fork → ((handle i.1 s i.2).isSome ↔ Survivable s i) := by
  have hi : EntryInv s := by
    refine PartialMachine.along_invariant EntryInv (fun u i v hgu hu hv => ?_) hg
      (EntryInv.initialise entrySh stackTopUsr fresh) h
    obtain ⟨ctx', hh⟩ := step_handled hv
    exact hu.handled hgu hh
  obtain ⟨p, hp, he⟩ := hi.current
  have hpos := (hi.queues.core.pidsRange p hp).1
  exact ⟨⟨p, hp, he⟩, by omega, fun i hf => hi.handle_isSome i hf⟩

theorem raisedChild_survives : ∃ s,
    run raisedChild (schedulerInitialise 0 0 zeroPcb) = some s ∧ s.currentPid = 2 ∧
      (handle (.svc .exit) s zeroCtx).isSome := by
  have hr : (run raisedChild (schedulerInitialise 0 0 zeroPcb)).map
      (fun s => (s.currentPid, s.lowQueue)) = some (2, [1, 2]) := by decide
  obtain ⟨s, hs, hc⟩ := Option.map_eq_some_iff.mp hr
  obtain ⟨hcur, hlow⟩ := Prod.mk.inj hc
  have hg : PartialMachine.Along step TargetKnown raisedChild (schedulerInitialise 0 0 zeroPcb) := by
    refine ⟨nofun, fun s₁ h₁ => ⟨fun _ _ => ?_, fun s₂ _ => ⟨nofun, fun _ _ => trivial⟩⟩⟩
    have hp : ((step (schedulerInitialise 0 0 zeroPcb) (.svc .fork, zeroCtx)).map
        fun s => s.processList.any fun p => p.pid = 2) = some true := by decide
    rw [h₁, Option.map_some] at hp
    obtain ⟨p, hp, he⟩ := List.any_eq_true.mp (Option.some.inj hp)
    exact ⟨p, hp, (decide_eq_true_eq.mp he).trans (by decide)⟩
  refine ⟨s, hs, hcur, ?_⟩
  refine ((traps_find_processes 0 0 zeroPcb raisedChild s hg hs).2.2 (.svc .exit, zeroCtx)
    nofun).mpr ?_
  exact ⟨1, by simp [hlow], by rw [hcur]; decide⟩

/-- The shell exits while it is the only process: the queues are empty and `scheduler_run` takes
-1 for a pid. -/
theorem last_exit_finds_nothing :
    ¬ ∀ (is : List (Trap × Ctx)) (s : State) (trap : Trap) (ctx : Ctx),
      run is (schedulerInitialise 0 0 zeroPcb) = some s → trap ≠ .svc .fork →
      (handle trap s ctx).isSome := by
  intro h
  have he := h [] _ (.svc .exit) zeroCtx rfl nofun
  revert he
  decide

end MalapropOS.Scheduler
