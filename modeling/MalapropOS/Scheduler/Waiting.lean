import MalapropOS.Scheduler.Status

/-! Waiting for an exit. `scheduler_emit_event` wakes those who wait already and
`scheduler_has_event_occurred` looks into the record; `scheduler_block_process` does not, so
nobody misses an exit only as long as nobody blocks for one that is recorded. -/
namespace MalapropOS.Scheduler

def NoneMissed (s : State) : Prop :=
  ∀ p ∈ s.processList, p.status = .blocked → p.blockedUntil.event = processEventExited →
    p.blockedUntil ∉ s.events

/-- A blocking `waitpid` for an exit is for one that is not in the record. -/
def AwaitsNew (s : State) (i : Trap × Ctx) : Prop :=
  i.1 = .svc .waitpid → ¬ isNohang (i.2.gpr 2) → signed (i.2.gpr 0) = processEventExited →
    ⟨processEventExited, signed (i.2.gpr 1)⟩ ∉ s.events

/-- No new waiter and no new event. -/
theorem NoneMissed.of_waiters {s s' : State} (h : NoneMissed s) (he : s'.events = s.events)
    (hw : ∀ q ∈ s'.processList, q.status = .blocked →
      ∃ p ∈ s.processList, p.status = .blocked ∧ p.blockedUntil = q.blockedUntil) :
    NoneMissed s' := by
  intro q hq hb hx
  obtain ⟨p, hp, hpb, hpu⟩ := hw q hq hb
  rw [he, ← hpu]
  exact h p hp hpb (hpu ▸ hx)

theorem NoneMissed.switched {s s' : State} {ctx ctx' : Ctx} (h : NoneMissed s) (hc : Core s)
    (hs : Switched s ctx s' ctx') : NoneMissed s' := by
  refine h.of_waiters hs.events (fun q hq hb => ?_)
  obtain ⟨p, hp, -, hst, hu⟩ := hs.status hc hq
  exact ⟨p, hp, hst.trans hb, hu⟩

theorem NoneMissed.removed {s : State} (h : NoneMissed s) (pid : Int) :
    NoneMissed (removePid pid 1 (removePid pid 0 s)) := by
  rw [removePid_both]
  exact h

/-- A process that is changed and does not wait afterwards. -/
theorem NoneMissed.updated {s : State} (h : NoneMissed s) (hc : Core s) (pid : Int)
    (f : Pcb → Pcb) (hf : ∀ p, (f p).status ≠ .blocked) :
    NoneMissed { s with processList := updateProcess pid f s.processList } := by
  refine h.of_waiters rfl (fun q hq hb => ?_)
  rcases (mem_updateProcess hc.pidsNodup).mp hq with ⟨hq, -⟩ | ⟨p, -, -, rfl⟩
  · exact ⟨q, hq, hb, rfl⟩
  · exact absurd hb (hf p)

theorem mem_recordEvent {event e : Event} {s : State} (h : e ∈ (recordEvent event s).events) :
    e ∈ s.events ∨ e = event := by
  unfold recordEvent at h
  split at h
  · simpa using h
  · exact Or.inl h

/-- Whoever waits for the event that is recorded is woken by it. -/
theorem NoneMissed.emitted {event : Event} {s s' : State} (h : NoneMissed s)
    (he : Emitted event s s') : NoneMissed s' := by
  intro q hq hb hx hm
  rw [he.list] at hq
  obtain ⟨p, hp, rfl⟩ := List.mem_map.mp hq
  by_cases hw : wakes event p
  · simp [wake, hw] at hb
  · have hpq : wake event p = p := by simp [wake, hw]
    rw [hpq] at hb hx hm
    rw [he.events] at hm
    rcases mem_recordEvent hm with hm | rfl
    · exact h p hp hb hx hm
    · exact hw (by simp [wakes, hb])

theorem NoneMissed.terminated {s s' : State} {ctx ctx' : Ctx} {pid : Int} (h : NoneMissed s)
    (hc : Core s) (ht : Terminated pid s ctx s' ctx') : NoneMissed s' := by
  obtain ⟨t, hrun, -, rfl⟩ := ht.switch
  have hsw := schedulerRun_switched hrun
  have hcr := hc.removed pid
  refine NoneMissed.emitted ?_ (schedulerEmitEvent_emitted _ _)
  exact ((h.removed pid).switched hcr hsw).updated (hcr.switched hsw) pid _ (fun _ => by simp)

theorem NoneMissed.block {s s' : State} {ctx ctx' : Ctx} {event : Event} {r : Int}
    (h : NoneMissed s) (hi : QueueInv s)
    (hnew : event.event = processEventExited → event ∉ s.events)
    (hb : schedulerBlockProcess ctx event s = some (r, s', ctx')) : NoneMissed s' := by
  obtain ⟨-, -, hrun⟩ := schedulerBlockProcess_some hb
  have hm : NoneMissed (markBlocked ctx event s) := by
    intro q hq hst hx
    rcases (mem_updateProcess hi.core.pidsNodup).mp hq with ⟨hq, -⟩ | ⟨p, -, -, rfl⟩
    · exact h q hq hst hx
    · exact hnew hx
  have hem := schedulerEmitEvent_emitted ⟨processEventBlocked, s.currentPid⟩
    (markBlocked ctx event s)
  exact (hm.emitted hem).switched ((hi.markBlocked ctx event).1.emitted hem)
    (schedulerRun_switched hrun)

theorem NoneMissed.fork {s s' : State} {ctx : Ctx} {sp fp : UInt32} {r : Int}
    (h : NoneMissed s) (hf : schedulerFork ctx sp fp s = some (r, s')) : NoneMissed s' := by
  rcases schedulerFork_some hf with ⟨-, rfl⟩ | ⟨parent, -, -, rfl⟩
  · exact h
  · have hl := setPriority_list s.nextPid 1 (addChild (forkChild ctx sp fp parent s) s)
    refine NoneMissed.emitted (h.of_waiters hl.2 (fun q hq hb => ?_))
      (schedulerEmitEvent_emitted _ _)
    rw [hl.1] at hq
    cases List.mem_append.mp hq with
    | inl hq => exact ⟨q, hq, hb, rfl⟩
    | inr hq =>
      -- the child is ready
      rw [List.mem_singleton.mp hq] at hb
      cases hb

theorem NoneMissed.handled {trap : Trap} {s s' : State} {ctx ctx' : Ctx} (h : NoneMissed s)
    (hi : QueueInv s) (hg : AwaitsNew s (trap, ctx)) (hh : Handled s ctx trap s' ctx') :
    NoneMissed s' := by
  cases hh with
  | quiet => exact h
  | switch _ hr => exact h.switched hi.core (schedulerRun_switched hr)
  | exit hr =>
    rcases schedulerExit_some hr with ht | ⟨hrun, hsame⟩
    · exact h.terminated hi.core ht
    · exact absurd hsame ((schedulerRun_switched hrun).current_not_removed hi.core)
  | fork hf => exact h.fork hf
  | block hn hb =>
    refine h.block hi (fun hx => ?_) hb
    have hx' : signed (ctx.gpr 0) = processEventExited := hx
    rw [hx']
    exact hg rfl hn hx'
  | kill _ hk => exact h.terminated hi.core (schedulerKill_some hk).2
  | setpriority =>
    have hl := setPriority_list (signed (ctx.gpr 0)) (signed (ctx.gpr 2)) s
    exact h.of_waiters hl.2 (fun q hq hb => ⟨q, hl.1 ▸ hq, hb, rfl⟩)
  | exec he =>
    obtain ⟨-, rfl⟩ := schedulerExec_some he
    exact h.updated hi.core _ _ (fun _ => by simp)

/-- In every run in which nobody blocks for an exit that is already recorded, no process is
blocked until an exit that is in the record. -/
theorem blocked_exit_not_recorded (entrySh stackTopUsr : UInt32) (fresh : Pcb)
    (is : List (Trap × Ctx)) (s : State)
    (hg : PartialMachine.Along step AwaitsNew is (schedulerInitialise entrySh stackTopUsr fresh))
    (h : run is (schedulerInitialise entrySh stackTopUsr fresh) = some s) :
    ∀ p ∈ s.processList, ∀ x, p.status = .blocked → p.blockedUntil = ⟨processEventExited, x⟩ →
      ⟨processEventExited, x⟩ ∉ s.events := by
  have h0 : NoneMissed (schedulerInitialise entrySh stackTopUsr fresh) :=
    fun p _ _ _ => List.not_mem_nil
  have hs : QueueInv s ∧ NoneMissed s := by
    refine PartialMachine.along_invariant (fun u => QueueInv u ∧ NoneMissed u)
      (fun u i v hgu hu hv => ?_) hg ⟨QueueInv.initialise entrySh stackTopUsr fresh, h0⟩ h
    obtain ⟨ctx', hh⟩ := step_handled hv
    exact ⟨hu.1.handled hh, hu.2.handled hu.1 hgu hh⟩
  intro p hp x hb hu
  rw [← hu]
  exact hs.2 p hp hb (by rw [hu])

/-- The shell forks twice and waits for its first child, which then exits. -/
def waitedFor : List (Trap × Ctx) :=
  [(.svc .fork, zeroCtx), (.svc .fork, zeroCtx), (.timer, zeroCtx), (.svc .waitpid, argCtx 1 2 0),
    (.svc .exit, zeroCtx)]

theorem waitedFor_awaitsNew :
    PartialMachine.Along step AwaitsNew waitedFor (schedulerInitialise 0 0 zeroPcb) := by
  refine ⟨nofun, fun s₁ h₁ => ⟨nofun, fun s₂ h₂ => ⟨nofun, fun s₃ h₃ => ⟨?_, fun s₄ _ =>
    ⟨nofun, fun _ _ => trivial⟩⟩⟩⟩⟩
  have hr : (run (waitedFor.take 3) (schedulerInitialise 0 0 zeroPcb)).map State.events =
      some [⟨6, 2⟩, ⟨6, 3⟩] := by decide
  have hs : run (waitedFor.take 3) (schedulerInitialise 0 0 zeroPcb) = some s₃ := by
    simp [waitedFor, run, PartialMachine.run, h₁, h₂, h₃]
  rw [hs, Option.map_some] at hr
  intro _ _ _
  rw [Option.some.inj hr]
  decide

theorem waitedFor_not_missed : ∃ s, run waitedFor (schedulerInitialise 0 0 zeroPcb) = some s ∧
    s.processList.map Pcb.status = [.running, .terminated, .ready] ∧
    ∀ p ∈ s.processList, ∀ x, p.status = .blocked → p.blockedUntil = ⟨processEventExited, x⟩ →
      ⟨processEventExited, x⟩ ∉ s.events := by
  have hr : (run waitedFor (schedulerInitialise 0 0 zeroPcb)).map
      (fun s => s.processList.map Pcb.status) = some [.running, .terminated, .ready] := by decide
  obtain ⟨s, hs, hc⟩ := Option.map_eq_some_iff.mp hr
  exact ⟨s, hs, hc, blocked_exit_not_recorded 0 0 zeroPcb waitedFor s waitedFor_awaitsNew hs⟩

/-- The first child exits before the shell comes to wait for it. -/
def exitedBefore : List (Trap × Ctx) :=
  [(.svc .fork, zeroCtx), (.svc .fork, zeroCtx), (.timer, zeroCtx), (.timer, zeroCtx),
    (.svc .exit, zeroCtx), (.timer, zeroCtx), (.svc .waitpid, argCtx 1 2 0)]

theorem exit_missed :
    ¬ ∀ (is : List (Trap × Ctx)) (s : State),
      run is (schedulerInitialise 0 0 zeroPcb) = some s →
      ∀ p ∈ s.processList, ∀ x, p.status = .blocked →
        p.blockedUntil = ⟨processEventExited, x⟩ → ⟨processEventExited, x⟩ ∉ s.events := by
  intro h
  have hr : (run exitedBefore (schedulerInitialise 0 0 zeroPcb)).map
      (fun s => (s.processList.any (fun p => p.status = .blocked ∧
        p.blockedUntil = ⟨processEventExited, 2⟩), s.events.contains ⟨processEventExited, 2⟩))
      = some (true, true) := by decide
  obtain ⟨s, hs, hc⟩ := Option.map_eq_some_iff.mp hr
  obtain ⟨ha, he⟩ := Prod.mk.inj hc
  obtain ⟨p, hp, hq⟩ := List.any_eq_true.mp ha
  rw [decide_eq_true_eq] at hq
  exact h exitedBefore s hs p hp 2 hq.1 hq.2 (List.contains_iff_mem.mp he)

end MalapropOS.Scheduler
