import MalapropOS.Scheduler.Queues

/-! Terminated and blocked processes stay off the processor as long as nobody queues them
again: `scheduler_setpriority` is the one operation that queues a pid without a look at
its status. -/
namespace MalapropOS.Scheduler

def Stopped (p : Pcb) : Prop := p.status = .terminated ∨ p.status = .blocked

/-- A `setpriority` call that moves a pid is not for a stopped process. -/
def TargetAwake (s : State) (i : Trap × Ctx) : Prop :=
  i.1 = .svc .setpriority → signed (i.2.gpr 2) = 0 ∨ signed (i.2.gpr 2) = 1 →
    ∀ p ∈ s.processList, p.pid = signed (i.2.gpr 0) → ¬ Stopped p

def StoppedOut (s : State) : Prop :=
  ∀ p ∈ s.processList, Stopped p → p.pid ∉ s.lowQueue

structure StatusInv (s : State) : Prop where
  queues : QueueInv s
  out : StoppedOut s

theorem StatusInv.current_awake {s : State} (hi : StatusInv s) {p : Pcb}
    (hp : p ∈ s.processList) (he : p.pid = s.currentPid) : ¬ Stopped p :=
  fun hs => hi.out p hp hs (he ▸ hi.queues.current)

theorem StoppedOut.switched {s s' : State} {ctx ctx' : Ctx} (hc : Core s) (ho : StoppedOut s)
    (h : Switched s ctx s' ctx') : StoppedOut s' := by
  intro q hq hs hm
  obtain ⟨p, hp, hpid, hst, -⟩ := h.status hc hq
  have hs' : Stopped p := by unfold Stopped at *; rwa [hst]
  exact ho p hp hs' (hpid ▸ h.low.mem_iff.mp hm)

theorem Core.eq_of_pid {s : State} (hc : Core s) {p q : Pcb} (hp : p ∈ s.processList)
    (hq : q ∈ s.processList) (h : p.pid = q.pid) : p = q :=
  List.inj_on_of_nodup_map hc.pidsNodup hp hq h

theorem wakes_status {event : Event} {p : Pcb} (h : wakes event p) :
    p.status = .blocked ∧ p.blockedUntil = event := by
  simp only [wakes, decide_eq_true_eq] at h
  refine ⟨h.1, ?_⟩
  cases hb : p.blockedUntil
  cases event
  simp_all

theorem StoppedOut.emitted {event : Event} {s s' : State} (hc : Core s) (ho : StoppedOut s)
    (h : Emitted event s s') : StoppedOut s' := by
  intro q hq hs hm
  rw [h.list] at hq
  obtain ⟨p, hp, rfl⟩ := List.mem_map.mp hq
  by_cases hw : wakes event p
  · simp [wake, hw, Stopped] at hs
  · rw [wake_pid, h.memLow] at hm
    have hs' : Stopped p := by simpa [wake, hw] using hs
    rcases hm with hm | ⟨r, hr, hrw, he⟩
    · exact ho p hp hs' hm
    · exact hw (hc.eq_of_pid hr hp he ▸ hrw)

theorem StoppedOut.removed {s : State} (ho : StoppedOut s) (pid : Int) :
    StoppedOut (removePid pid 1 (removePid pid 0 s)) := by
  rw [removePid_both]
  exact fun p hp hs hm => ho p hp hs (List.mem_filter.mp hm).1

/-- A process that is in no queue may be marked as stopped. -/
theorem StoppedOut.updated {s : State} (hc : Core s) (ho : StoppedOut s) {pid : Int}
    (hout : pid ∉ s.lowQueue) (f : Pcb → Pcb) (hf : ∀ p, (f p).pid = p.pid) :
    StoppedOut { s with processList := updateProcess pid f s.processList } := by
  intro q hq hs hm
  rcases (mem_updateProcess hc.pidsNodup).mp hq with ⟨hq, -⟩ | ⟨p, hp, he, rfl⟩
  · exact ho q hq hs hm
  · rw [hf, he] at hm
    exact hout hm

theorem not_mem_removed (pid : Int) (s : State) :
    pid ∉ (removePid pid 1 (removePid pid 0 s)).lowQueue := by
  simp [removePid_both]

theorem StoppedOut.terminated {s s' : State} {ctx ctx' : Ctx} {pid : Int} (hi : StatusInv s)
    (h : Terminated pid s ctx s' ctx') : StoppedOut s' := by
  obtain ⟨t, hrun, -, rfl⟩ := h.switch
  have hsw := schedulerRun_switched hrun
  have hc := hi.queues.core.removed pid
  have hct := hc.switched hsw
  have hout : pid ∉ t.lowQueue := fun hm => not_mem_removed pid s (hsw.low.mem_iff.mp hm)
  refine StoppedOut.emitted ?_ ?_ (schedulerEmitEvent_emitted _ _)
  · exact hct.updated pid _ (fun _ => rfl)
  · exact ((hi.out.removed pid).switched hc hsw).updated hct hout _ (fun _ => rfl)

theorem StoppedOut.markBlocked {s : State} (hi : StatusInv s) (ctx : Ctx) (event : Event) :
    StoppedOut (markBlocked ctx event s) := by
  have h := (hi.out.removed s.currentPid).updated (hi.queues.core.removed s.currentPid)
    (not_mem_removed s.currentPid s)
    (fun p => { p with ctx := ctx, blockedUntil := event, status := .blocked }) (fun _ => rfl)
  rw [removePid_both] at h
  exact h

theorem StoppedOut.block {s s' : State} {ctx ctx' : Ctx} {event : Event} {r : Int}
    (hi : StatusInv s) (h : schedulerBlockProcess ctx event s = some (r, s', ctx')) :
    StoppedOut s' := by
  obtain ⟨-, -, hrun⟩ := schedulerBlockProcess_some h
  obtain ⟨hc, -⟩ := hi.queues.markBlocked ctx event
  have hem := schedulerEmitEvent_emitted ⟨processEventBlocked, s.currentPid⟩
    (Scheduler.markBlocked ctx event s)
  exact ((StoppedOut.markBlocked hi ctx event).emitted hc hem).switched (hc.emitted hem)
    (schedulerRun_switched hrun)

theorem StoppedOut.requeued {s : State} (ho : StoppedOut s) {pid : Int} {low : List Int}
    (hlow : ∀ x ∈ low, x ∈ s.lowQueue ∨ x = pid)
    (hawake : ∀ p ∈ s.processList, p.pid = pid → ¬ Stopped p) :
    ∀ p ∈ s.processList, Stopped p → p.pid ∉ low := by
  intro p hp hs hm
  cases hlow _ hm with
  | inl hm => exact ho p hp hs hm
  | inr he => exact hawake p hp he hs

theorem StoppedOut.setPriority {s : State} (ho : StoppedOut s) {pid priority : Int}
    (hawake : priority = 0 ∨ priority = 1 → ∀ p ∈ s.processList, p.pid = pid → ¬ Stopped p) :
    StoppedOut (setPriority pid priority s) := by
  by_cases h0 : priority = 0
  · subst h0
    rw [setPriority_high]
    exact ho.requeued (fun x hx => mem_requeued.mp hx) (hawake (Or.inl rfl))
  · by_cases h1 : priority = 1
    · subst h1
      rw [setPriority_low]
      exact ho.requeued (fun x hx => mem_requeued.mp hx) (hawake (Or.inr rfl))
    · rwa [setPriority_other h0 h1]

theorem StoppedOut.fork {s s' : State} {ctx : Ctx} {sp fp : UInt32} {r : Int} (hi : StatusInv s)
    (h : schedulerFork ctx sp fp s = some (r, s')) : StoppedOut s' := by
  rcases schedulerFork_some h with ⟨-, rfl⟩ | ⟨parent, -, -, rfl⟩
  · exact hi.out
  · have hc := hi.queues.core.addChild (forkChild ctx sp fp parent s) rfl
    have hawake : ∀ p ∈ (addChild (forkChild ctx sp fp parent s) s).processList,
        p.pid = s.nextPid → ¬ Stopped p := by
      intro p hp he
      cases List.mem_append.mp hp with
      | inl hp =>
        have := (hi.queues.core.pidsRange p hp).2
        omega
      | inr hp =>
        rw [List.mem_singleton.mp hp]
        simp [Stopped, forkChild]
    have hout : StoppedOut (addChild (forkChild ctx sp fp parent s) s) := by
      intro p hp hs hm
      cases List.mem_append.mp hp with
      | inl hp => exact hi.out p hp hs hm
      | inr hp =>
        rw [List.mem_singleton.mp hp] at hs
        simp [Stopped, forkChild] at hs
    refine StoppedOut.emitted ?_ (hout.setPriority (fun _ => hawake))
      (schedulerEmitEvent_emitted _ _)
    rw [setPriority_low]
    exact hc.congr rfl rfl (.refl _) (nodup_requeued hc.lowNodup)
      (fun x hx => mem_requeued.mpr (Or.inl hx))

theorem StoppedOut.exec {s s' : State} {ctx ctx' : Ctx} {function argc argv : UInt32}
    (hi : StatusInv s) (h : schedulerExec ctx function argc argv s = some (s', ctx')) :
    StoppedOut s' := by
  obtain ⟨-, rfl⟩ := schedulerExec_some h
  intro q hq hs
  rcases (mem_updateProcess hi.queues.core.pidsNodup).mp hq with ⟨hq, -⟩ | ⟨p, -, -, rfl⟩
  · exact hi.out q hq hs
  · simp [Stopped] at hs

theorem StatusInv.handled {trap : Trap} {s s' : State} {ctx ctx' : Ctx} (hi : StatusInv s)
    (hg : TargetAwake s (trap, ctx)) (h : Handled s ctx trap s' ctx') : StatusInv s' := by
  refine ⟨hi.queues.handled h, ?_⟩
  cases h with
  | quiet => exact hi.out
  | switch _ h => exact hi.out.switched hi.queues.core (schedulerRun_switched h)
  | exit h =>
    rcases schedulerExit_some h with ht | ⟨hrun, hsame⟩
    · exact StoppedOut.terminated hi ht
    · exact absurd hsame ((schedulerRun_switched hrun).current_not_removed hi.queues.core)
  | fork h => exact StoppedOut.fork hi h
  | block _ h => exact StoppedOut.block hi h
  | kill _ h => exact StoppedOut.terminated hi (schedulerKill_some h).2
  | setpriority => exact hi.out.setPriority (hg rfl)
  | exec h => exact StoppedOut.exec hi h

theorem StatusInv.initialise (entrySh stackTopUsr : UInt32) (fresh : Pcb) :
    StatusInv (schedulerInitialise entrySh stackTopUsr fresh) where
  queues := QueueInv.initialise entrySh stackTopUsr fresh
  out := by intro p hp hs; simp_all [schedulerInitialise, Stopped]

/-- The process `x` in the state `s`. -/
def Has (s : State) (x : Int) (P : Pcb → Prop) : Prop := ∃ p ∈ s.processList, p.pid = x ∧ P p

/-- What may happen to a stopped process between two states: a terminated one stays so, a
blocked one stays blocked, is terminated, or the event it waits for is emitted. -/
structure Waits (x : Int) (s s' : State) : Prop where
  grows : ∃ new, s'.events = s.events ++ new
  dead : Has s x (·.status = .terminated) → Has s' x (·.status = .terminated)
  asleep : ∀ e, Has s x (fun p => p.status = .blocked ∧ p.blockedUntil = e) →
    Has s' x (fun p => p.status = .blocked ∧ p.blockedUntil = e) ∨
    Has s' x (·.status = .terminated) ∨ ∃ new, s'.events = s.events ++ new ∧ e ∈ new

theorem Waits.refl (x : Int) (s : State) : Waits x s s :=
  ⟨⟨[], by simp⟩, id, fun _ => Or.inl⟩

theorem Waits.trans {x : Int} {s t u : State} (h : Waits x s t) (h' : Waits x t u) :
    Waits x s u := by
  obtain ⟨n, hn⟩ := h.grows
  obtain ⟨m, hm⟩ := h'.grows
  have hnm : u.events = s.events ++ (n ++ m) := by rw [hm, hn, List.append_assoc]
  refine ⟨⟨n ++ m, hnm⟩, fun hd => h'.dead (h.dead hd), fun e he => ?_⟩
  rcases h.asleep e he with hb | hd | ⟨k, hk, hek⟩
  · rcases h'.asleep e hb with hb | hd | ⟨k, hk, hek⟩
    · exact Or.inl hb
    · exact Or.inr (Or.inl hd)
    · exact Or.inr (Or.inr ⟨n ++ k, by rw [hk, hn, List.append_assoc],
        List.mem_append.mpr (Or.inr hek)⟩)
  · exact Or.inr (Or.inl (h'.dead hd))
  · exact Or.inr (Or.inr ⟨k ++ m, by rw [hm, hk, List.append_assoc],
      List.mem_append.mpr (Or.inl hek)⟩)

/-- Same statuses, same waited-for events and no event: nothing happens to `x`. -/
theorem Waits.of_same {x : Int} {s s' : State} (he : s'.events = s.events)
    (h : ∀ p ∈ s.processList, p.pid = x →
      ∃ q ∈ s'.processList, q.pid = x ∧ q.status = p.status ∧ q.blockedUntil = p.blockedUntil) :
    Waits x s s' := by
  refine ⟨⟨[], by simp [he]⟩, ?_, ?_⟩
  · rintro ⟨p, hp, hx, hst⟩
    obtain ⟨q, hq, hqx, hqs, -⟩ := h p hp hx
    exact ⟨q, hq, hqx, hqs.trans hst⟩
  · rintro e ⟨p, hp, hx, hst, hb⟩
    obtain ⟨q, hq, hqx, hqs, hqb⟩ := h p hp hx
    exact Or.inl ⟨q, hq, hqx, hqs.trans hst, hqb.trans hb⟩

theorem Waits.of_list {x : Int} {s s' : State} (he : s'.events = s.events)
    (hl : s'.processList = s.processList) : Waits x s s' :=
  .of_same he (fun p hp hx => ⟨p, hl ▸ hp, hx, rfl, rfl⟩)

/-- An update of another process. -/
theorem Waits.of_updated {x pid : Int} {s : State} (hc : Core s) (hx : x ≠ pid) (f : Pcb → Pcb) :
    Waits x s { s with processList := updateProcess pid f s.processList } :=
  .of_same rfl (fun p hp he => ⟨p, (mem_updateProcess hc.pidsNodup).mpr
    (Or.inl ⟨hp, fun h => hx (he.symm.trans h)⟩), he, rfl, rfl⟩)

theorem Waits.switched {x : Int} {s s' : State} {ctx ctx' : Ctx} (hc : Core s)
    (h : Switched s ctx s' ctx') : Waits x s s' := by
  refine .of_same h.events (fun p hp hx => ?_)
  by_cases he : p.pid = s.currentPid
  · refine ⟨{ p with ctx := ctx }, ?_, hx, rfl, rfl⟩
    rw [h.list, mem_updateProcess hc.pidsNodup]
    exact Or.inr ⟨p, hp, he, rfl⟩
  · refine ⟨p, ?_, hx, rfl, rfl⟩
    rw [h.list, mem_updateProcess hc.pidsNodup]
    exact Or.inl ⟨hp, he⟩

/-- Marking a process as terminated. -/
theorem Waits.of_retired {x pid : Int} {s : State} (hc : Core s) :
    Waits x s { s with
      processList := updateProcess pid (fun p => { p with status := .terminated })
        s.processList } := by
  by_cases hx : x = pid
  · subst hx
    have hq : ∀ p ∈ s.processList, p.pid = x → Has { s with
        processList := updateProcess x (fun p => { p with status := .terminated })
          s.processList } x (·.status = .terminated) :=
      fun p hp he => ⟨{ p with status := .terminated },
        (mem_updateProcess hc.pidsNodup).mpr (Or.inr ⟨p, hp, he, rfl⟩), he, rfl⟩
    exact ⟨⟨[], by simp⟩, fun ⟨p, hp, he, _⟩ => hq p hp he,
      fun _ ⟨p, hp, he, _⟩ => Or.inr (Or.inl (hq p hp he))⟩
  · exact .of_updated hc hx _

/-- The events the scheduler emits are all recorded. -/
theorem recordEvent_emits {event : Event}
    (h : event.event ∈ [processEventExited, processEventBlocked, processEventCreated])
    (s : State) : (recordEvent event s).events = s.events ++ [event] := by
  have hrec : event.event ≠ processEventSuspended ∧ event.event ≠ processEventUnsuspended := by
    simp only [List.mem_cons, List.not_mem_nil, or_false] at h
    rcases h with h | h | h <;> rw [h] <;> decide
  rw [recordEvent, if_pos hrec]

theorem Waits.emitted {x : Int} {event : Event} {s s' : State}
    (hrec : event.event ∈ [processEventExited, processEventBlocked, processEventCreated])
    (h : Emitted event s s') : Waits x s s' := by
  have hev : s'.events = s.events ++ [event] := h.events.trans (recordEvent_emits hrec s)
  refine ⟨⟨[event], hev⟩, ?_, ?_⟩
  · rintro ⟨p, hp, hx, hst⟩
    have hw : ¬ wakes event p := fun hw => by
      have := (wakes_status hw).1
      rw [hst] at this
      cases this
    exact ⟨p, h.list ▸ List.mem_map.mpr ⟨p, hp, by simp [wake, hw]⟩, hx, hst⟩
  · rintro e ⟨p, hp, hx, hst, hb⟩
    by_cases hw : wakes event p
    · exact Or.inr (Or.inr ⟨[event], hev, by simp [← hb, (wakes_status hw).2]⟩)
    · exact Or.inl ⟨p, h.list ▸ List.mem_map.mpr ⟨p, hp, by simp [wake, hw]⟩, hx, hst, hb⟩

theorem Waits.terminated {x pid : Int} {s s' : State} {ctx ctx' : Ctx} (hc : Core s)
    (h : Terminated pid s ctx s' ctx') : Waits x s s' := by
  obtain ⟨t, hrun, -, rfl⟩ := h.switch
  have hsw := schedulerRun_switched hrun
  have hcr := hc.removed pid
  have h1 : Waits x s (removePid pid 1 (removePid pid 0 s)) := by
    rw [removePid_both]
    exact .of_list rfl rfl
  exact ((h1.trans (.switched hcr hsw)).trans (.of_retired (hcr.switched hsw))).trans
    (.emitted (by simp) (schedulerEmitEvent_emitted _ _))

theorem Waits.block {x : Int} {s s' : State} {ctx ctx' : Ctx} {event : Event} {r : Int}
    (hi : QueueInv s) (hx : x ≠ s.currentPid)
    (h : schedulerBlockProcess ctx event s = some (r, s', ctx')) : Waits x s s' := by
  obtain ⟨-, -, hrun⟩ := schedulerBlockProcess_some h
  have hem := schedulerEmitEvent_emitted ⟨processEventBlocked, s.currentPid⟩
    (markBlocked ctx event s)
  have h1 : Waits x s (markBlocked ctx event s) :=
    (Waits.of_updated hi.core hx _).trans (.of_list rfl rfl)
  exact (h1.trans (.emitted (by simp) hem)).trans
    (.switched ((hi.markBlocked ctx event).1.emitted hem) (schedulerRun_switched hrun))

theorem setPriority_list (pid priority : Int) (s : State) :
    (setPriority pid priority s).processList = s.processList ∧
      (setPriority pid priority s).events = s.events := by
  obtain ⟨high, low, prio, h⟩ := setPriority_queues pid priority s
  rw [h]
  exact ⟨rfl, rfl⟩

theorem Waits.fork {x : Int} {s s' : State} {ctx : Ctx} {sp fp : UInt32} {r : Int}
    (h : schedulerFork ctx sp fp s = some (r, s')) : Waits x s s' := by
  rcases schedulerFork_some h with ⟨-, rfl⟩ | ⟨parent, -, -, rfl⟩
  · exact .refl x s'
  · have h1 : Waits x s (addChild (forkChild ctx sp fp parent s) s) :=
      .of_same rfl (fun p hp hx => ⟨p, List.mem_append.mpr (Or.inl hp), hx, rfl, rfl⟩)
    have h2 := setPriority_list s.nextPid 1 (addChild (forkChild ctx sp fp parent s) s)
    exact (h1.trans (.of_list h2.2 h2.1)).trans
      (.emitted (by simp) (schedulerEmitEvent_emitted _ _))

/-- One step: `x` stays as it is, or is woken by its event, unless it is the caller. -/
theorem Waits.handled {x : Int} {trap : Trap} {s s' : State} {ctx ctx' : Ctx} (hi : QueueInv s)
    (hx : x ≠ s.currentPid) (h : Handled s ctx trap s' ctx') : Waits x s s' := by
  cases h with
  | quiet => exact .refl x s
  | switch _ h => exact .switched hi.core (schedulerRun_switched h)
  | exit h =>
    rcases schedulerExit_some h with ht | ⟨hrun, hsame⟩
    · exact .terminated hi.core ht
    · exact absurd hsame ((schedulerRun_switched hrun).current_not_removed hi.core)
  | fork h => exact .fork h
  | block _ h => exact .block hi hx h
  | kill _ h => exact .terminated hi.core (schedulerKill_some h).2
  | setpriority =>
    have h := setPriority_list (signed (ctx.gpr 0)) (signed (ctx.gpr 2)) s
    exact .of_list h.2 h.1
  | exec h =>
    obtain ⟨-, rfl⟩ := schedulerExec_some h
    exact .of_updated hi.core hx _

/-- In a state where stopped processes are off the processor this holds of the caller too. -/
theorem StatusInv.waits {x : Int} {trap : Trap} {s s' : State} {ctx ctx' : Ctx}
    (hi : StatusInv s) (h : Handled s ctx trap s' ctx') : Waits x s s' := by
  by_cases hx : x = s.currentPid
  · subst hx
    have hg := (Waits.handled (x := s.currentPid + 1) hi.queues (by omega) h).grows
    exact ⟨hg, fun ⟨p, hp, he, hst⟩ => absurd (Or.inl hst) (hi.current_awake hp he),
      fun _ ⟨p, hp, he, hst, _⟩ => absurd (Or.inr hst) (hi.current_awake hp he)⟩
  · exact .handled hi.queues hx h

theorem run_statusInv {is : List (Trap × Ctx)} {s t : State} (hi : StatusInv s)
    (hg : PartialMachine.Along step TargetAwake is s) (h : run is s = some t) :
    StatusInv t ∧ ∀ x, Waits x s t := by
  refine PartialMachine.along_invariant (fun u => StatusInv u ∧ ∀ x, Waits x s u)
    (fun u i v hgu hu hv => ?_) hg ⟨hi, fun x => .refl x s⟩ h
  obtain ⟨ctx', hh⟩ := step_handled hv
  exact ⟨hu.1.handled hgu hh, fun x => (hu.2 x).trans (hu.1.waits hh)⟩

/-- In every run in which `setpriority` is never called for a terminated or blocked process,
no such process is current when a handler returns. Moreover the current process was not
terminated in any earlier state of the run, and if it was blocked in one then the event
it waited for has been emitted since. -/
theorem stopped_process_not_current (entrySh stackTopUsr : UInt32) (fresh : Pcb)
    (is : List (Trap × Ctx)) (s : State)
    (hg : PartialMachine.Along step TargetAwake is
      (schedulerInitialise entrySh stackTopUsr fresh))
    (h : run is (schedulerInitialise entrySh stackTopUsr fresh) = some s) :
    (∀ p ∈ s.processList, p.pid = s.currentPid →
      p.status ≠ .terminated ∧ p.status ≠ .blocked) ∧
    ∀ js ks t, is = js ++ ks →
      run js (schedulerInitialise entrySh stackTopUsr fresh) = some t →
      ∀ p ∈ t.processList, p.pid = s.currentPid → p.status ≠ .terminated ∧
        (p.status = .blocked → ∃ new, s.events = t.events ++ new ∧ p.blockedUntil ∈ new) := by
  have h0 := StatusInv.initialise entrySh stackTopUsr fresh
  have hs := (run_statusInv h0 hg h).1
  refine ⟨fun p hp he => not_or.mp (hs.current_awake hp he), ?_⟩
  rintro js ks t rfl hj p hp he
  obtain ⟨t', ht', hk⟩ := PartialMachine.run_append h
  obtain rfl : t = t' := Option.some.inj (hj.symm.trans ht')
  obtain ⟨hgj, hgk⟩ := PartialMachine.along_append hg hj
  have hw := (run_statusInv (run_statusInv h0 hgj hj).1 hgk hk).2 s.currentPid
  refine ⟨fun hd => ?_, fun hb => ?_⟩
  · obtain ⟨q, hq, hqx, hqs⟩ := hw.dead ⟨p, hp, he, hd⟩
    exact hs.current_awake hq hqx (Or.inl hqs)
  · rcases hw.asleep p.blockedUntil ⟨p, hp, he, hb, rfl⟩ with hb | hd | hn
    · obtain ⟨q, hq, hqx, hqs, -⟩ := hb
      exact absurd (Or.inr hqs) (hs.current_awake hq hqx)
    · obtain ⟨q, hq, hqx, hqs⟩ := hd
      exact absurd (Or.inl hqs) (hs.current_awake hq hqx)
    · exact hn

/-- A child is forked, runs and exits; the parent is preempted twice. -/
def exitedChild : List (Trap × Ctx) :=
  [(.svc .fork, zeroCtx), (.timer, zeroCtx), (.timer, zeroCtx), (.svc .exit, zeroCtx),
    (.timer, zeroCtx), (.timer, zeroCtx)]

theorem exitedChild_not_current : ∃ s,
    run exitedChild (schedulerInitialise 0 0 zeroPcb) = some s ∧
      s.processList.map Pcb.status = [.running, .terminated] ∧
      ∀ p ∈ s.processList, p.pid = s.currentPid → p.status ≠ .terminated ∧ p.status ≠ .blocked := by
  have hr : (run exitedChild (schedulerInitialise 0 0 zeroPcb)).map
      (fun s => s.processList.map Pcb.status) = some [.running, .terminated] := by decide
  obtain ⟨s, hs, hc⟩ := Option.map_eq_some_iff.mp hr
  exact ⟨s, hs, hc, (stopped_process_not_current 0 0 zeroPcb exitedChild s
    (PartialMachine.along_of_inputs (fun i hi _ he =>
      absurd he ((by decide : ∀ i ∈ exitedChild, i.1 ≠ .svc .setpriority) i hi)) _) hs).1⟩

/-- `launch_process` calls `setpriority` after `fork`: the child may have exited by then. -/
def lateSetpriority : List (Trap × Ctx) :=
  [(.svc .fork, zeroCtx), (.timer, zeroCtx), (.timer, zeroCtx), (.svc .exit, zeroCtx),
    (.svc .setpriority, argCtx 2 1 1), (.timer, zeroCtx), (.timer, zeroCtx)]

theorem terminated_process_runs_again :
    ¬ ∀ (is : List (Trap × Ctx)) (s : State),
      run is (schedulerInitialise 0 0 zeroPcb) = some s →
      ∀ p ∈ s.processList, p.pid = s.currentPid →
        p.status ≠ .terminated ∧ p.status ≠ .blocked := by
  intro h
  have hr : (run lateSetpriority (schedulerInitialise 0 0 zeroPcb)).map
      (fun s => s.processList.any (fun p => p.pid = s.currentPid ∧ p.status = .terminated))
      = some true := by decide
  obtain ⟨s, hs, hc⟩ := Option.map_eq_some_iff.mp hr
  obtain ⟨p, hp, hq⟩ := List.any_eq_true.mp hc
  rw [decide_eq_true_eq] at hq
  exact (h lateSetpriority s hs p hp hq.1).1 hq.2

end MalapropOS.Scheduler
