import MalapropOS.Scheduler.Status

/-! The record of exits. The event list is a history of the terminations, without gaps and
without inventions, so a `waitpid` that does not block gives a true answer. -/
namespace MalapropOS.Scheduler

/-- The step in which the process ends itself or is killed. -/
def Ends (x : Int) (s : State) (i : Trap × Ctx) : Prop :=
  (i.1 = .svc .exit ∧ s.currentPid = x) ∨
    ∃ u, i.1 = .svc (.kill u) ∧ signed (i.2.gpr 1) = sigkill ∧ signed (i.2.gpr 0) = x

/-- The test `!result` of the wait loop in `launch_process`. -/
def keepsWaiting (result : UInt32) : Bool := result = 0

def ExitRecorded (x : Int) (s : State) : Prop := ⟨processEventExited, x⟩ ∈ s.events

def TerminatedRecorded (s : State) : Prop :=
  ∀ p ∈ s.processList, p.status = .terminated → ExitRecorded p.pid s

theorem exitRecorded_recordEvent (event : Event) (x : Int) (s : State) :
    ExitRecorded x (recordEvent event s) ↔
      ExitRecorded x s ∨ event = ⟨processEventExited, x⟩ := by
  unfold ExitRecorded recordEvent
  split
  · simp [eq_comm]
  · next hn =>
    -- neither of the two events that are not recorded is an exit
    have hne : event ≠ ⟨processEventExited, x⟩ := by
      rintro rfl
      exact hn (by simp [processEventExited, processEventSuspended, processEventUnsuspended])
    simp [hne]

theorem Emitted.exitRecorded {event : Event} {s s' : State} (h : Emitted event s s') (x : Int) :
    ExitRecorded x s' ↔ ExitRecorded x s ∨ event = ⟨processEventExited, x⟩ := by
  rw [← exitRecorded_recordEvent, ExitRecorded, h.events, ExitRecorded]

theorem Switched.exitRecorded {s s' : State} {ctx ctx' : Ctx} (h : Switched s ctx s' ctx')
    (x : Int) : ExitRecorded x s' ↔ ExitRecorded x s := by
  rw [ExitRecorded, h.events, ExitRecorded]

theorem Terminated.exitRecorded {pid : Int} {s s' : State} {ctx ctx' : Ctx}
    (h : Terminated pid s ctx s' ctx') (x : Int) :
    ExitRecorded x s' ↔ ExitRecorded x s ∨ pid = x := by
  obtain ⟨t, hrun, -, rfl⟩ := h.switch
  have ht := (schedulerRun_switched hrun).exitRecorded x
  rw [removePid_both] at ht
  rw [(schedulerEmitEvent_emitted _ _).exitRecorded, Event.mk.injEq]
  simp only [true_and]
  exact or_congr_left ht

theorem ends_unique {x y : Int} {s : State} {i : Trap × Ctx} (h : Ends y s i) :
    Ends x s i ↔ y = x := by
  constructor
  · rintro (⟨hx, rfl⟩ | ⟨u, hx, -, rfl⟩) <;> rcases h with ⟨hy, rfl⟩ | ⟨v, hy, -, rfl⟩
    · rfl
    · rw [hx] at hy; cases hy
    · rw [hx] at hy; cases hy
    · rfl
  · rintro rfl
    exact h

/-- Such a step ends its process. The last process does not get past its exit: `scheduler_run`
finds nobody else. -/
theorem handle_ends {y : Int} {trap : Trap} {s s' : State} {ctx ctx' : Ctx} (hi : QueueInv s)
    (he : Ends y s (trap, ctx)) (h : handle trap s ctx = some (s', ctx')) :
    ∃ c, Terminated y s ctx s' c := by
  rcases he with ⟨rfl, rfl⟩ | ⟨u, rfl, hk, rfl⟩
  · rcases schedulerExit_some h with ht | ⟨hrun, hsame⟩
    · exact ⟨ctx', ht⟩
    · exact absurd hsame ((schedulerRun_switched hrun).current_not_removed hi.core)
  · simp only [handle, kernelHandlerSvc, hk, if_true] at h
    obtain ⟨⟨r, t, c⟩, ht, h⟩ := Option.bind_eq_some_iff.mp h
    obtain ⟨rfl, -⟩ := Prod.mk.inj (Option.some.inj h)
    exact ⟨c, (schedulerKill_some ht).2⟩

/-- A step ends a process, or is none of the two that do. -/
theorem step_ends {s s' : State} {i : Trap × Ctx} (hi : QueueInv s) (h : step s i = some s') :
    (∃ y c, Ends y s i ∧ Terminated y s i.2 s' c) ∨
      (∀ y, ¬ Ends y s i) ∧ ∃ c, Handled s i.2 i.1 s' c := by
  by_cases he : ∃ y, Ends y s i
  · obtain ⟨⟨t, c⟩, ht, rfl⟩ := Option.map_eq_some_iff.mp h
    obtain ⟨y, he⟩ := he
    obtain ⟨c, hterm⟩ := handle_ends hi he ht
    exact Or.inl ⟨y, c, he, hterm⟩
  · exact Or.inr ⟨fun y hy => he ⟨y, hy⟩, step_handled h⟩

/-- No other step records an exit. -/
theorem Handled.exitRecorded {trap : Trap} {s s' : State} {ctx ctx' : Ctx}
    (h : Handled s ctx trap s' ctx') (hn : ∀ y, ¬ Ends y s (trap, ctx)) (x : Int) :
    ExitRecorded x s' ↔ ExitRecorded x s := by
  cases h with
  | quiet => rfl
  | switch _ h => exact (schedulerRun_switched h).exitRecorded x
  | exit => exact absurd (Or.inl ⟨rfl, rfl⟩) (hn s.currentPid)
  | fork h =>
    rcases schedulerFork_some h with ⟨-, rfl⟩ | ⟨parent, -, -, rfl⟩
    · rfl
    · rw [(schedulerEmitEvent_emitted _ _).exitRecorded, ExitRecorded, (setPriority_list _ _ _).2]
      simp [ExitRecorded, addChild, processEventCreated, processEventExited]
  | block _ h =>
    obtain ⟨-, -, hrun⟩ := schedulerBlockProcess_some h
    rw [(schedulerRun_switched hrun).exitRecorded x, (schedulerEmitEvent_emitted _ _).exitRecorded]
    simp [ExitRecorded, markBlocked, processEventBlocked, processEventExited]
  | kill hk => exact absurd (Or.inr ⟨_, rfl, hk, rfl⟩) (hn (signed (ctx.gpr 0)))
  | setpriority => rw [ExitRecorded, (setPriority_list _ _ _).2, ExitRecorded]
  | exec h =>
    obtain ⟨-, rfl⟩ := schedulerExec_some h
    rfl

theorem step_exitRecorded {s s' : State} {i : Trap × Ctx} (hi : QueueInv s)
    (h : step s i = some s') (x : Int) :
    ExitRecorded x s' ↔ ExitRecorded x s ∨ Ends x s i := by
  obtain ⟨y, c, he, hterm⟩ | ⟨hn, c, hh⟩ := step_ends hi h
  · rw [hterm.exitRecorded x, ends_unique he]
  · rw [hh.exitRecorded hn x]
    simp [hn x]

/-- Whoever is terminated afterwards was so before. -/
def NoneEnded (s s' : State) : Prop :=
  ∀ q ∈ s'.processList, q.status = .terminated →
    ∃ p ∈ s.processList, p.pid = q.pid ∧ p.status = .terminated

theorem NoneEnded.of_list {s s' : State} (h : s'.processList = s.processList) : NoneEnded s s' :=
  fun q hq hst => ⟨q, h ▸ hq, rfl, hst⟩

theorem NoneEnded.trans {s t u : State} (h : NoneEnded s t) (h' : NoneEnded t u) :
    NoneEnded s u := by
  intro q hq hst
  obtain ⟨p, hp, hpq, hps⟩ := h' q hq hst
  obtain ⟨r, hr, hrp, hrs⟩ := h p hp hps
  exact ⟨r, hr, hrp.trans hpq, hrs⟩

theorem NoneEnded.switched {s s' : State} {ctx ctx' : Ctx} (hc : Core s)
    (h : Switched s ctx s' ctx') : NoneEnded s s' := by
  intro q hq hst
  obtain ⟨p, hp, hpid, hps, -⟩ := h.status hc hq
  exact ⟨p, hp, hpid, hps.trans hst⟩

/-- A woken process is running. -/
theorem NoneEnded.emitted {event : Event} {s s' : State} (h : Emitted event s s') :
    NoneEnded s s' := by
  intro q hq hst
  rw [h.list] at hq
  obtain ⟨p, hp, rfl⟩ := List.mem_map.mp hq
  by_cases hw : wakes event p
  · simp [wake, hw] at hst
  · exact ⟨p, hp, (wake_pid event p).symm, by simpa [wake, hw] using hst⟩

theorem NoneEnded.updated {s : State} (hc : Core s) (pid : Int) (f : Pcb → Pcb)
    (hf : ∀ p, (f p).status ≠ .terminated) :
    NoneEnded s { s with processList := updateProcess pid f s.processList } := by
  intro q hq hst
  rcases (mem_updateProcess hc.pidsNodup).mp hq with ⟨hq, -⟩ | ⟨p, -, -, rfl⟩
  · exact ⟨q, hq, rfl, hst⟩
  · exact absurd hst (hf p)

theorem NoneEnded.block {s s' : State} {ctx ctx' : Ctx} {event : Event} {r : Int}
    (hi : QueueInv s) (h : schedulerBlockProcess ctx event s = some (r, s', ctx')) :
    NoneEnded s s' := by
  obtain ⟨-, -, hrun⟩ := schedulerBlockProcess_some h
  have hem := schedulerEmitEvent_emitted ⟨processEventBlocked, s.currentPid⟩
    (markBlocked ctx event s)
  have hm : NoneEnded s (markBlocked ctx event s) :=
    (NoneEnded.updated hi.core s.currentPid _ (fun p => by simp)).trans (.of_list rfl)
  exact (hm.trans (.emitted hem)).trans
    (.switched ((hi.markBlocked ctx event).1.emitted hem) (schedulerRun_switched hrun))

theorem NoneEnded.fork {s s' : State} {ctx : Ctx} {sp fp : UInt32} {r : Int}
    (h : schedulerFork ctx sp fp s = some (r, s')) : NoneEnded s s' := by
  rcases schedulerFork_some h with ⟨-, rfl⟩ | ⟨parent, -, -, rfl⟩
  · exact .of_list rfl
  · have hadd : NoneEnded s (addChild (forkChild ctx sp fp parent s) s) := by
      intro q hq hst
      cases List.mem_append.mp hq with
      | inl hq => exact ⟨q, hq, rfl, hst⟩
      | inr hq =>
        rw [List.mem_singleton.mp hq] at hst
        cases hst
    exact (hadd.trans (.of_list (setPriority_list _ _ _).1)).trans
      (.emitted (schedulerEmitEvent_emitted _ _))

theorem Handled.noneEnded {trap : Trap} {s s' : State} {ctx ctx' : Ctx} (hi : QueueInv s)
    (h : Handled s ctx trap s' ctx') (hn : ∀ y, ¬ Ends y s (trap, ctx)) : NoneEnded s s' := by
  cases h with
  | quiet => exact .of_list rfl
  | switch _ h => exact .switched hi.core (schedulerRun_switched h)
  | exit => exact absurd (Or.inl ⟨rfl, rfl⟩) (hn s.currentPid)
  | fork h => exact .fork h
  | block _ h => exact .block hi h
  | kill hk => exact absurd (Or.inr ⟨_, rfl, hk, rfl⟩) (hn (signed (ctx.gpr 0)))
  | setpriority => exact .of_list (setPriority_list _ _ _).1
  | exec h =>
    obtain ⟨-, rfl⟩ := schedulerExec_some h
    exact .updated hi.core _ _ (fun _ => by simp)

theorem Terminated.ended {pid : Int} {s s' : State} {ctx ctx' : Ctx} (hc : Core s)
    (h : Terminated pid s ctx s' ctx') {q : Pcb} (hq : q ∈ s'.processList)
    (hst : q.status = .terminated) :
    q.pid = pid ∨ ∃ p ∈ s.processList, p.pid = q.pid ∧ p.status = .terminated := by
  obtain ⟨t, hrun, -, rfl⟩ := h.switch
  have hsw := schedulerRun_switched hrun
  have hct := (hc.removed pid).switched hsw
  have hst' : NoneEnded s t :=
    (NoneEnded.of_list (by rw [removePid_both])).trans (.switched (hc.removed pid) hsw)
  obtain ⟨p, hp, hpq, hps⟩ := NoneEnded.emitted (schedulerEmitEvent_emitted _ _) q hq hst
  rcases (mem_updateProcess hct.pidsNodup).mp hp with ⟨hp, -⟩ | ⟨r, -, hr, rfl⟩
  · obtain ⟨u, hu, hup, hus⟩ := hst' p hp hps
    exact Or.inr ⟨u, hu, hup.trans hpq, hus⟩
  · exact Or.inl (hpq.symm.trans hr)

theorem TerminatedRecorded.next {s s' : State} {i : Trap × Ctx} (hi : QueueInv s)
    (hr : TerminatedRecorded s) (h : step s i = some s') : TerminatedRecorded s' := by
  intro q hq hst
  rw [step_exitRecorded hi h]
  obtain ⟨y, c, he, hterm⟩ | ⟨hn, c, hh⟩ := step_ends hi h
  · rcases hterm.ended hi.core hq hst with hy | ⟨p, hp, hpq, hps⟩
    · exact Or.inr (hy ▸ he)
    · exact Or.inl (hpq ▸ hr p hp hps)
  · obtain ⟨p, hp, hpq, hps⟩ := hh.noneEnded hi hn q hq hst
    exact Or.inl (hpq ▸ hr p hp hps)

theorem hasEventOccurred_exit (x : Int) (s : State) :
    (ExitRecorded x s → schedulerHasEventOccurred ⟨processEventExited, x⟩ s = x) ∧
      (¬ ExitRecorded x s → schedulerHasEventOccurred ⟨processEventExited, x⟩ s = 0) := by
  unfold schedulerHasEventOccurred
  split
  · next e he =>
    have hmem := List.mem_of_find?_eq_some he
    have hp := List.find?_some he
    simp only [decide_eq_true_eq] at hp
    have heq : e = ⟨processEventExited, x⟩ := by
      obtain ⟨h1, h2⟩ := hp
      cases e
      simp_all
    rw [heq] at hmem
    exact ⟨fun _ => rfl, fun hn => absurd hmem hn⟩
  · next he =>
    refine ⟨fun hr => ?_, fun _ => rfl⟩
    have := List.find?_eq_none.mp he _ hr
    simp at this

/-- The answer in r0: a positive `pid_t` survives the two casts. -/
theorem nohang_result {s : State} {ctx : Ctx} (he : signed (ctx.gpr 0) = processEventExited)
    (hn : isNohang (ctx.gpr 2)) : handle (.svc .waitpid) s ctx = some (s, ctx.setGpr 0
      (UInt32.ofInt (schedulerHasEventOccurred ⟨processEventExited, signed (ctx.gpr 1)⟩ s))) := by
  simp [handle, kernelHandlerSvc, hn, he]

theorem ofInt_signed (r : UInt32) : UInt32.ofInt (signed r) = r := by
  have h : signed r = r.toBitVec.toInt := rfl
  rw [h, BitVec.toInt_eq_toNat_bmod]
  apply UInt32.toNat_inj.mp
  have hlt := r.toNat_lt
  simp only [UInt32.ofInt, UInt32.toNat_toBitVec, UInt32.toNat_ofNat']
  rw [Int.bmod_def]
  split <;> omega

theorem run_exits {entrySh stackTopUsr : UInt32} {fresh : Pcb} {is : List (Trap × Ctx)}
    {s : State} (h : run is (schedulerInitialise entrySh stackTopUsr fresh) = some s) :
    TerminatedRecorded s ∧ ∀ x, ExitRecorded x s ↔
      PartialMachine.Took step (Ends x) is (schedulerInitialise entrySh stackTopUsr fresh) := by
  have h0 := QueueInv.initialise entrySh stackTopUsr fresh
  constructor
  · refine (PartialMachine.run_invariant (fun u => QueueInv u ∧ TerminatedRecorded u)
      (fun u i v hu hv => ?_) ⟨h0, ?_⟩ h).2
    · obtain ⟨ctx', hh⟩ := step_handled hv
      exact ⟨hu.1.handled hh, hu.2.next hu.1 hv⟩
    · intro p hp hst
      simp_all [schedulerInitialise]
  · intro x
    have hstep : ∀ u i v, QueueInv u → step u i = some v →
        QueueInv v ∧ (ExitRecorded x v ↔ ExitRecorded x u ∨ Ends x u i) := by
      intro u i v hu hv
      obtain ⟨ctx', hh⟩ := step_handled hv
      exact ⟨hu.handled hh, step_exitRecorded hu hv x⟩
    rw [PartialMachine.run_records QueueInv (ExitRecorded x) hstep h0 h]
    have hnone : ¬ ExitRecorded x (schedulerInitialise entrySh stackTopUsr fresh) :=
      List.not_mem_nil
    simp [hnone]

/-- After every run, a `waitpid` for the exit of `p` that does not block changes no scheduler state
and returns `p` if an earlier step was the exit of `p` or a kill of it, and 0 otherwise; the shell's
wait loop goes on exactly in the second case. Every terminated process has its exit recorded. -/
theorem nohang_wait_exact (entrySh stackTopUsr : UInt32) (fresh : Pcb) (is : List (Trap × Ctx))
    (s : State) (h : run is (schedulerInitialise entrySh stackTopUsr fresh) = some s) :
    (∀ p, 1 ≤ p →
      (PartialMachine.Took step (Ends p) is (schedulerInitialise entrySh stackTopUsr fresh) →
        schedulerHasEventOccurred ⟨processEventExited, p⟩ s = p) ∧
      (¬ PartialMachine.Took step (Ends p) is (schedulerInitialise entrySh stackTopUsr fresh) →
        schedulerHasEventOccurred ⟨processEventExited, p⟩ s = 0)) ∧
    (∀ ctx, signed (ctx.gpr 0) = processEventExited → 1 ≤ signed (ctx.gpr 1) →
      isNohang (ctx.gpr 2) → ∃ result, handle (.svc .waitpid) s ctx = some (s, ctx.setGpr 0 result) ∧
        (result = ctx.gpr 1 ∨ result = 0) ∧
        (keepsWaiting result = false ↔ PartialMachine.Took step (Ends (signed (ctx.gpr 1))) is
          (schedulerInitialise entrySh stackTopUsr fresh))) ∧
    ∀ p ∈ s.processList, p.status = .terminated → ⟨processEventExited, p.pid⟩ ∈ s.events := by
  obtain ⟨hterm, hrec⟩ := run_exits h
  refine ⟨fun p _ => ?_, fun ctx he hpos hn => ?_, hterm⟩
  · rw [← hrec p]
    exact hasEventOccurred_exit p s
  · refine ⟨_, nohang_result he hn, ?_⟩
    rw [← hrec]
    obtain ⟨hyes, hno⟩ := hasEventOccurred_exit (signed (ctx.gpr 1)) s
    by_cases hx : ExitRecorded (signed (ctx.gpr 1)) s
    · rw [hyes hx, ofInt_signed]
      refine ⟨Or.inl rfl, fun _ => hx, fun _ => ?_⟩
      have hne : ctx.gpr 1 ≠ 0 := by
        intro h0
        rw [h0] at hpos
        exact absurd hpos (by decide)
      simp [keepsWaiting, hne]
    · rw [hno hx]
      refine ⟨Or.inr rfl, fun h => absurd h ?_, fun h => absurd h hx⟩
      decide

theorem exitedChild_seen : ∃ s,
    run exitedChild (schedulerInitialise 0 0 zeroPcb) = some s ∧
      schedulerHasEventOccurred ⟨processEventExited, 2⟩ s = 2 := by
  have hr : (run exitedChild (schedulerInitialise 0 0 zeroPcb)).isSome := by decide
  obtain ⟨s, hs⟩ := Option.isSome_iff_exists.mp hr
  have hc : (run (exitedChild.take 3) (schedulerInitialise 0 0 zeroPcb)).map State.currentPid =
      some 2 := by decide
  obtain ⟨t, ht, h2⟩ := Option.map_eq_some_iff.mp hc
  exact ⟨s, hs, ((nohang_wait_exact 0 0 zeroPcb exitedChild s hs).1 2 (by decide)).1
    ⟨exitedChild.take 3, (.svc .exit, zeroCtx), exitedChild.drop 4, t, by decide, ht,
      Or.inl ⟨rfl, h2⟩⟩⟩

end MalapropOS.Scheduler
