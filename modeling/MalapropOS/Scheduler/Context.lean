import MalapropOS.Scheduler.Queues

/-! The register context a process gets back. `kernel_handler_svc` stores the results of
`kill` and of a blocking `waitpid` through `ctx` after the scheduler may have put another
process there. As long as these two calls leave the caller current, every process gets
back the context it was descheduled with. -/
namespace MalapropOS.Scheduler

/-- One trap: the state and the saved context before it, the state and the context the
handler hands back. -/
structure Visit where
  before : State
  trap : Trap
  entry : Ctx
  after : State
  exit : Ctx

/-- The traps of a run, the latest first. -/
inductive History (start : State) : List Visit → State → Prop where
  | start : History start [] start
  | next {vs : List Visit} {s s' : State} {trap : Trap} {entry exit : Ctx}
      (hs : History start vs s) (h : handle trap s entry = some (s', exit)) :
      History start (⟨s, trap, entry, s', exit⟩ :: vs) s'

/-- The context owed to a process descheduled in `trap`: the one it had, with its own
result in r0 when it was inside a call that has one. -/
def resumeCtx (trap : Trap) (entry : Ctx) : Ctx :=
  match trap with
  | .svc .waitpid => if isNohang (entry.gpr 2) then entry else entry.setGpr 0 (entry.gpr 1)
  | .svc (.kill _) => if signed (entry.gpr 1) = sigkill then entry.setGpr 0 0 else entry
  | _ => entry

/-- What a process that is off the processor is owed from its last descheduling. -/
def descheduled (p : Int) : List Visit → Option Ctx
  | [] => none
  | v :: vs =>
    if v.after.currentPid = p then none
    else if v.before.currentPid = p then some (resumeCtx v.trap v.entry)
    else descheduled p vs

/-- A process that becomes current again gets the context it is owed. -/
def ContextsRestored : List Visit → Prop
  | [] => True
  | v :: vs => ContextsRestored vs ∧
    (v.after.currentPid ≠ v.before.currentPid →
      ∀ c, descheduled v.after.currentPid vs = some c → v.exit = c)

/-- A trap changes no register of a process that is not running, but for the result of the
`waitpid` such a process is blocked in. -/
def OthersKept (v : Visit) : Prop :=
  ∀ q ∈ v.before.processList, q.pid ≠ v.before.currentPid →
    ∃ q' ∈ v.after.processList, q'.pid = q.pid ∧
      (q'.ctx = q.ctx ∨ q.status = .blocked ∧
        q'.ctx = q.ctx.setGpr 0 (UInt32.ofInt q.blockedUntil.fromProcess)) ∧
      (v.after.currentPid = q.pid → v.exit = q'.ctx)

/-- The scheduler, asked by `kill` or by a blocking `waitpid`, would choose the caller. -/
def StaysCurrent (s : State) (trap : Trap) (ctx : Ctx) : Prop :=
  match trap with
  | .svc .waitpid => isNohang (ctx.gpr 2) ∨
      (chooseNext (schedulerEmitEvent ⟨processEventBlocked, s.currentPid⟩
        (markBlocked ctx ⟨signed (ctx.gpr 0), signed (ctx.gpr 1)⟩ s))).1 = s.currentPid
  | .svc (.kill _) => signed (ctx.gpr 1) ≠ sigkill ∨
      (chooseNext (removePid (signed (ctx.gpr 0)) 1 (removePid (signed (ctx.gpr 0)) 0 s))).1
        = s.currentPid
  | _ => True

def NoneBlocked (s : State) : Prop := ∀ p ∈ s.processList, p.status ≠ .blocked

/-- Every process but `x` keeps its stored context. -/
def Keeps (x : Int) (s s' : State) : Prop :=
  ∀ q ∈ s.processList, q.pid ≠ x → ∃ q' ∈ s'.processList, q'.pid = q.pid ∧ q'.ctx = q.ctx

theorem Keeps.trans {x : Int} {s t u : State} (h : Keeps x s t) (h' : Keeps x t u) :
    Keeps x s u := by
  intro q hq hx
  obtain ⟨r, hr, hp, hc⟩ := h q hq hx
  obtain ⟨r', hr', hp', hc'⟩ := h' r hr (hp ▸ hx)
  exact ⟨r', hr', hp'.trans hp, hc'.trans hc⟩

theorem Keeps.of_list {x : Int} {s s' : State} (h : s'.processList = s.processList) :
    Keeps x s s' :=
  fun q hq _ => ⟨q, h ▸ hq, rfl, rfl⟩

theorem Keeps.of_updated {x : Int} {s : State} (hc : Core s) (f : Pcb → Pcb) :
    Keeps x s { s with processList := updateProcess x f s.processList } :=
  fun q hq hx => ⟨q, (mem_updateProcess hc.pidsNodup).mpr (Or.inl ⟨hq, hx⟩), rfl, rfl⟩

/-- A change of status is no change of context. -/
theorem Keeps.of_retired {x pid : Int} {s : State} (hc : Core s) :
    Keeps x s { s with
      processList := updateProcess pid (fun p => { p with status := .terminated })
        s.processList } := by
  intro q hq _
  by_cases he : q.pid = pid
  · exact ⟨{ q with status := .terminated },
      (mem_updateProcess hc.pidsNodup).mpr (Or.inr ⟨q, hq, he, rfl⟩), rfl, rfl⟩
  · exact ⟨q, (mem_updateProcess hc.pidsNodup).mpr (Or.inl ⟨hq, he⟩), rfl, rfl⟩

theorem Keeps.switched {s s' : State} {ctx ctx' : Ctx} (hc : Core s)
    (h : Switched s ctx s' ctx') : Keeps s.currentPid s s' := by
  intro q hq hx
  refine ⟨q, ?_, rfl, rfl⟩
  rw [h.list, mem_updateProcess hc.pidsNodup]
  exact Or.inl ⟨hq, hx⟩

theorem Switched.stored {s s' : State} {ctx ctx' : Ctx} (hc : Core s)
    (h : Switched s ctx s' ctx') :
    ∃ q ∈ s'.processList, q.pid = s.currentPid ∧ q.ctx = ctx := by
  obtain ⟨p, hp, he⟩ := h.caller
  refine ⟨{ p with ctx := ctx }, ?_, he, rfl⟩
  rw [h.list, mem_updateProcess hc.pidsNodup]
  exact Or.inr ⟨p, hp, he, rfl⟩

theorem NoneBlocked.switched {s s' : State} {ctx ctx' : Ctx} (hc : Core s) (hn : NoneBlocked s)
    (h : Switched s ctx s' ctx') : NoneBlocked s' := by
  intro q hq hb
  obtain ⟨p, hp, -, hst, -⟩ := h.status hc hq
  exact hn p hp (hst.trans hb)

theorem NoneBlocked.map_wake {s : State} (hn : NoneBlocked s) (event : Event) :
    s.processList.map (wake event) = s.processList := by
  refine (List.map_congr_left (fun p hp => ?_)).trans (List.map_id _)
  have hw : ¬ wakes event p := by
    simp only [wakes, decide_eq_true_eq]
    exact fun h => hn p hp h.1
  simp [wake, hw]

/-- The effect of a trap on the stored contexts. -/
structure Restores (s : State) (ctx : Ctx) (trap : Trap) (s' : State) (ctx' : Ctx) : Prop where
  noneBlocked : NoneBlocked s'
  keeps : Keeps s.currentPid s s'
  handed : s'.currentPid ≠ s.currentPid →
    ∃ q ∈ s'.processList, q.pid = s'.currentPid ∧ q.ctx = ctx'
  stored : s'.currentPid ≠ s.currentPid →
    ∃ q ∈ s'.processList, q.pid = s.currentPid ∧ q.ctx = resumeCtx trap ctx

theorem Restores.switched {trap : Trap} {s s' : State} {ctx ctx' : Ctx} (hc : Core s)
    (hn : NoneBlocked s) (hr : resumeCtx trap ctx = ctx) (h : Switched s ctx s' ctx') :
    Restores s ctx trap s' ctx' where
  noneBlocked := hn.switched hc h
  keeps := .switched hc h
  handed := fun _ => h.found
  stored := fun _ => by rw [hr]; exact h.stored hc

theorem Restores.stay {trap : Trap} {s s' : State} {ctx ctx' : Ctx} (hn : NoneBlocked s')
    (hk : Keeps s.currentPid s s') (h : s'.currentPid = s.currentPid) :
    Restores s ctx trap s' ctx' :=
  ⟨hn, hk, fun hne => absurd h hne, fun hne => absurd h hne⟩

/-- A terminated process: the contexts are those of the switch. -/
theorem Terminated.contexts {pid : Int} {s s' : State} {ctx ctx' : Ctx} (hc : Core s)
    (hn : NoneBlocked s) (h : Terminated pid s ctx s' ctx') :
    NoneBlocked s' ∧ Keeps s.currentPid s s' ∧
      s'.currentPid = (chooseNext (removePid pid 1 (removePid pid 0 s))).1 ∧
      (∃ q ∈ s'.processList, q.pid = s'.currentPid ∧ q.ctx = ctx') ∧
      ∃ q ∈ s'.processList, q.pid = s.currentPid ∧ q.ctx = ctx := by
  obtain ⟨t, hrun, -, rfl⟩ := h.switch
  have hsw := schedulerRun_switched hrun
  have hcr := hc.removed pid
  have hct := hcr.switched hsw
  have hlist : (removePid pid 1 (removePid pid 0 s)).processList = s.processList := by
    rw [removePid_both]
  have hcur : (removePid pid 1 (removePid pid 0 s)).currentPid = s.currentPid := by
    rw [removePid_both]
  have hnr : NoneBlocked (removePid pid 1 (removePid pid 0 s)) := by
    unfold NoneBlocked; rwa [hlist]
  have hnt : NoneBlocked t := hnr.switched hcr hsw
  have hnm : NoneBlocked { t with
      processList := updateProcess pid (fun p => { p with status := .terminated })
        t.processList } := by
    intro q hq hb
    rcases (mem_updateProcess hct.pidsNodup).mp hq with ⟨hq, -⟩ | ⟨p, -, -, rfl⟩
    · exact hnt q hq hb
    · cases hb
  have hem := schedulerEmitEvent_emitted ⟨processEventExited, pid⟩ { t with
      processList := updateProcess pid (fun p => { p with status := .terminated })
        t.processList }
  have hl := hem.list.trans (hnm.map_wake _)
  have hk : Keeps s.currentPid s t :=
    Keeps.trans (.of_list hlist) (hcur ▸ Keeps.switched hcr hsw)
  -- the entries for the two processes survive the change of status
  have hkt : ∀ q ∈ t.processList, ∃ q' ∈ updateProcess pid
      (fun p => { p with status := .terminated }) t.processList,
      q'.pid = q.pid ∧ q'.ctx = q.ctx :=
    fun q hq => Keeps.of_retired hct q hq (Int.ne_of_lt (Int.lt_succ q.pid))
  refine ⟨?_, ?_, hem.current.trans hsw.chosen, ?_, ?_⟩
  · unfold NoneBlocked; rw [hl]; exact hnm
  · exact (hk.trans (Keeps.of_retired hct)).trans (.of_list hl)
  · obtain ⟨p, hp, hpid, hctx⟩ := hsw.found
    obtain ⟨q, hq, hqp, hqc⟩ := hkt p hp
    rw [hl, hem.current]
    exact ⟨q, hq, hqp.trans hpid, hqc.trans hctx⟩
  · obtain ⟨p, hp, hpid, hctx⟩ := hsw.stored hcr
    obtain ⟨q, hq, hqp, hqc⟩ := hkt p hp
    rw [hl]
    exact ⟨q, hq, hqp.trans (hpid.trans hcur), hqc.trans hctx⟩

/-- A blocking `waitpid` that leaves its caller current has woken it. -/
theorem Restores.block {trap : Trap} {s s' : State} {ctx ctx' ctx'' : Ctx} {event : Event} {r : Int}
    (hi : QueueInv s) (hn : NoneBlocked s)
    (hstay : (chooseNext (schedulerEmitEvent ⟨processEventBlocked, s.currentPid⟩
      (markBlocked ctx event s))).1 = s.currentPid)
    (h : schedulerBlockProcess ctx event s = some (r, s', ctx')) :
    Restores s ctx trap s' ctx'' := by
  obtain ⟨-, -, hrun⟩ := schedulerBlockProcess_some h
  have hc := (hi.markBlocked ctx event).1
  have hem := schedulerEmitEvent_emitted ⟨processEventBlocked, s.currentPid⟩
    (markBlocked ctx event s)
  have hsw := schedulerRun_switched hrun
  have hce := hc.emitted hem
  have hcur : s'.currentPid = s.currentPid := hsw.chosen.trans hstay
  have hwoken : ∃ p ∈ (markBlocked ctx event s).processList,
      wakes ⟨processEventBlocked, s.currentPid⟩ p ∧ p.pid = s.currentPid := by
    have hm := hsw.low.mem_iff.mp (hsw.current_low hce)
    rw [hcur, hem.memLow] at hm
    refine hm.resolve_left ?_
    simp [markBlocked]
  obtain ⟨w, hw, hww, hwp⟩ := hwoken
  have hne : NoneBlocked (schedulerEmitEvent ⟨processEventBlocked, s.currentPid⟩
      (markBlocked ctx event s)) := by
    intro q hq hb
    rw [hem.list] at hq
    obtain ⟨p, hp, rfl⟩ := List.mem_map.mp hq
    by_cases hpw : wakes ⟨processEventBlocked, s.currentPid⟩ p
    · simp [wake, hpw] at hb
    · have hpne : p.pid ≠ s.currentPid := by
        intro he
        exact hpw (List.inj_on_of_nodup_map hc.pidsNodup hp hw (he.trans hwp.symm) ▸ hww)
      rcases (mem_updateProcess hi.core.pidsNodup).mp hp with ⟨hp, -⟩ | ⟨p', -, he, rfl⟩
      · exact hn p hp (by simpa [wake, hpw] using hb)
      · exact absurd he hpne
  refine .stay (hne.switched hce hsw) ?_ hcur
  have hk1 : Keeps s.currentPid s (markBlocked ctx event s) :=
    (Keeps.of_updated hi.core _).trans (.of_list rfl)
  have hk2 : Keeps s.currentPid (markBlocked ctx event s)
      (schedulerEmitEvent ⟨processEventBlocked, s.currentPid⟩ (markBlocked ctx event s)) := by
    intro q hq hx
    have hq' := (mem_updateProcess hi.core.pidsNodup).mp hq
    rcases hq' with ⟨hqs, -⟩ | ⟨p, -, he, rfl⟩
    · have hw : ¬ wakes ⟨processEventBlocked, s.currentPid⟩ q := by
        simp only [wakes, decide_eq_true_eq]
        exact fun h => hn q hqs h.1
      exact ⟨q, hem.list ▸ List.mem_map.mpr ⟨q, hq, by simp [wake, hw]⟩, rfl, rfl⟩
    · exact absurd he hx
  have hk3 := Keeps.switched hce hsw
  rw [hem.current] at hk3
  exact (hk1.trans hk2).trans hk3

theorem Restores.handled {trap : Trap} {s s' : State} {ctx ctx' : Ctx} (hi : QueueInv s)
    (hn : NoneBlocked s) (hg : StaysCurrent s trap ctx) (h : Handled s ctx trap s' ctx') :
    Restores s ctx trap s' ctx' := by
  cases h with
  | quiet => exact .stay hn (.of_list rfl) rfl
  | switch ht h =>
    refine .switched hi.core hn ?_ (schedulerRun_switched h)
    rcases ht with rfl | rfl <;> rfl
  | exit h =>
    rcases schedulerExit_some h with ht | ⟨hrun, hsame⟩
    · obtain ⟨h1, h2, -, h4, h5⟩ := ht.contexts hi.core hn
      exact ⟨h1, h2, fun _ => h4, fun _ => h5⟩
    · exact absurd hsame ((schedulerRun_switched hrun).current_not_removed hi.core)
  | fork h =>
    rcases schedulerFork_some h with ⟨-, rfl⟩ | ⟨parent, -, -, rfl⟩
    · exact .stay hn (.of_list rfl) rfl
    · have hna : NoneBlocked (setPriority s.nextPid 1
          (addChild (forkChild ctx (ctx.gpr 0) (ctx.gpr 1) parent s) s)) := by
        rw [setPriority_low]
        intro q hq hb
        cases List.mem_append.mp hq with
        | inl hq => exact hn q hq hb
        | inr hq =>
          rw [List.mem_singleton.mp hq] at hb
          cases hb
      have hem := schedulerEmitEvent_emitted ⟨processEventCreated, s.nextPid⟩
        (setPriority s.nextPid 1 (addChild (forkChild ctx (ctx.gpr 0) (ctx.gpr 1) parent s) s))
      have hl := hem.list.trans (hna.map_wake _)
      refine .stay ?_ ?_ ?_
      · unfold NoneBlocked; rw [hl]; exact hna
      · refine Keeps.trans ?_ (.of_list hl)
        rw [setPriority_low]
        exact fun q hq _ => ⟨q, List.mem_append.mpr (Or.inl hq), rfl, rfl⟩
      · rw [hem.current, setPriority_low]
        rfl
  | block hb h => exact .block hi hn (hg.resolve_left hb) h
  | kill hk h =>
    obtain ⟨h1, h2, h3, -, -⟩ := (schedulerKill_some h).2.contexts hi.core hn
    exact .stay h1 h2 (h3.trans (hg.resolve_left (not_not.mpr hk)))
  | setpriority =>
    have hl : (setPriority (signed (ctx.gpr 0)) (signed (ctx.gpr 2)) s).processList
        = s.processList ∧ (setPriority (signed (ctx.gpr 0)) (signed (ctx.gpr 2)) s).currentPid
        = s.currentPid := by
      unfold setPriority notePriority addPid removePid
      split_ifs <;> exact ⟨rfl, rfl⟩
    refine .stay ?_ (.of_list hl.1) hl.2
    unfold NoneBlocked; rw [hl.1]; exact hn
  | exec h =>
    obtain ⟨-, rfl⟩ := schedulerExec_some h
    refine .stay ?_ (Keeps.of_updated hi.core _) rfl
    intro q hq hb
    rcases (mem_updateProcess hi.core.pidsNodup).mp hq with ⟨hq, -⟩ | ⟨p, -, -, rfl⟩
    · exact hn q hq hb
    · cases hb

structure OwedInv (vs : List Visit) (s : State) : Prop where
  queues : QueueInv s
  noneBlocked : NoneBlocked s
  owed : ∀ p c, descheduled p vs = some c →
    p ≠ s.currentPid ∧ ∃ q ∈ s.processList, q.pid = p ∧ q.ctx = c

theorem OwedInv.next {vs : List Visit} {trap : Trap} {s s' : State} {ctx ctx' : Ctx}
    (hi : OwedInv vs s) (hg : StaysCurrent s trap ctx) (h : Handled s ctx trap s' ctx') :
    OwedInv (⟨s, trap, ctx, s', ctx'⟩ :: vs) s' := by
  have hr := Restores.handled hi.queues hi.noneBlocked hg h
  refine ⟨hi.queues.handled h, hr.noneBlocked, fun p c hp => ?_⟩
  simp only [descheduled] at hp
  split_ifs at hp with ha hb
  · -- p has just been descheduled
    subst hb
    obtain rfl := Option.some.inj hp
    exact ⟨Ne.symm ha, hr.stored ha⟩
  · -- p was off the processor before
    obtain ⟨-, q, hq, hqp, hqc⟩ := hi.owed p c hp
    obtain ⟨q', hq', hp', hc'⟩ := hr.keeps q hq (by rw [hqp]; exact Ne.symm hb)
    exact ⟨Ne.symm ha, q', hq', hp'.trans hqp, hc'.trans hqc⟩

theorem OwedInv.restored {vs : List Visit} {trap : Trap} {s s' : State} {ctx ctx' : Ctx}
    (hi : OwedInv vs s) (hg : StaysCurrent s trap ctx) (h : Handled s ctx trap s' ctx') :
    (s'.currentPid ≠ s.currentPid → ∀ c, descheduled s'.currentPid vs = some c → ctx' = c) ∧
      OthersKept ⟨s, trap, ctx, s', ctx'⟩ := by
  have hr := Restores.handled hi.queues hi.noneBlocked hg h
  have hc' := (hi.queues.handled h).core
  have hsame : ∀ q ∈ s'.processList, q.pid = s'.currentPid → s'.currentPid ≠ s.currentPid →
      ctx' = q.ctx := by
    intro q hq hp hne
    obtain ⟨r, hr, hrp, hrc⟩ := hr.handed hne
    rw [← hrc, List.inj_on_of_nodup_map hc'.pidsNodup hr hq (hrp.trans hp.symm)]
  constructor
  · intro hne c hc
    obtain ⟨-, q, hq, hqp, hqc⟩ := hi.owed _ c hc
    obtain ⟨q', hq', hp', hcc⟩ := hr.keeps q hq (hqp ▸ hne)
    rw [hsame q' hq' (hp'.trans hqp) hne, hcc, hqc]
  · intro q hq hne
    obtain ⟨q', hq', hp', hcc⟩ := hr.keeps q hq hne
    exact ⟨q', hq', hp', Or.inl hcc, fun hcur => hsame q' hq' (hp'.trans hcur.symm)
      (fun he => hne (hcur.symm.trans he))⟩

/-- In every run in which `kill` and a blocking `waitpid` are made only where the scheduler
chooses the caller again, a process that becomes current again gets the context it is
owed, and no trap changes a register of a process that is not running. -/
theorem contexts_restored (entrySh stackTopUsr : UInt32) (fresh : Pcb) (vs : List Visit)
    (s : State) (h : History (schedulerInitialise entrySh stackTopUsr fresh) vs s)
    (hg : ∀ v ∈ vs, StaysCurrent v.before v.trap v.entry) :
    ContextsRestored vs ∧ ∀ v ∈ vs, OthersKept v := by
  suffices hall : OwedInv vs s ∧ ContextsRestored vs ∧ ∀ v ∈ vs, OthersKept v from hall.2
  induction h with
  | start =>
    refine ⟨⟨QueueInv.initialise _ _ _, ?_, fun p c hp => by cases hp⟩, trivial, by simp⟩
    intro p hp
    simp_all [schedulerInitialise]
  | next hs h ih =>
    obtain ⟨hi, hc, ho⟩ := ih (fun v hv => hg v (List.mem_cons_of_mem _ hv))
    have hgv := hg _ List.mem_cons_self
    have hh := handle_handled h
    obtain ⟨h1, h2⟩ := hi.restored hgv hh
    refine ⟨hi.next hgv hh, ⟨hc, h1⟩, fun v hv => ?_⟩
    rcases List.mem_cons.mp hv with rfl | hv
    · exact h2
    · exact ho v hv

/-- The visits of a run from a list of traps, the latest first. -/
def visits : List (Trap × Ctx) → State → List Visit → Option (List Visit × State)
  | [], s, vs => some (vs, s)
  | (trap, ctx) :: is, s, vs =>
    match handle trap s ctx with
    | none => none
    | some (s', ctx') => visits is s' (⟨s, trap, ctx, s', ctx'⟩ :: vs)

theorem visits_history {start s t : State} {is : List (Trap × Ctx)} {vs ws : List Visit}
    (hs : History start vs s) (h : visits is s vs = some (ws, t)) : History start ws t := by
  induction is generalizing s vs with
  | nil =>
    obtain ⟨rfl, rfl⟩ := Prod.mk.inj (Option.some.inj h)
    exact hs
  | cons i is ih =>
    unfold visits at h
    split at h
    · cases h
    · next hh => exact ih (.next hs hh) h

/-- Shell and child run in turn; the child is preempted with 5 in r0. -/
def twoProcesses : List (Trap × Ctx) :=
  [(.svc .fork, zeroCtx), (.timer, zeroCtx), (.timer, zeroCtx), (.timer, argCtx 5 0 0)]

theorem twoProcesses_restored : ∃ vs s,
    visits (twoProcesses ++ [(.timer, zeroCtx)])
      (schedulerInitialise 0 0 zeroPcb) [] = some (vs, s) ∧
    vs.head?.map (fun v => (v.after.currentPid, v.exit)) = some (2, argCtx 5 0 0) ∧
    ContextsRestored vs := by
  have hr : (visits (twoProcesses ++ [(.timer, zeroCtx)])
      (schedulerInitialise 0 0 zeroPcb) []).map (fun r =>
        (r.1.head?.map (fun v => (v.after.currentPid, v.exit)),
          r.1.all (fun v => v.trap = .timer ∨ v.trap = .svc .fork)))
      = some (some (2, argCtx 5 0 0), true) := by decide
  obtain ⟨⟨vs, s⟩, hs, hc⟩ := Option.map_eq_some_iff.mp hr
  obtain ⟨h1, h2⟩ := Prod.mk.inj hc
  refine ⟨vs, s, hs, h1, (contexts_restored 0 0 zeroPcb vs s (visits_history .start hs) ?_).1⟩
  intro v hv
  rcases of_decide_eq_true (List.all_eq_true.mp h2 v hv) with ht | ht <;>
    simp [StaysCurrent, ht]

/-- The shell then waits for the child: the event's pid lands in the child's r0. -/
def blockingWait : List (Trap × Ctx) := twoProcesses ++ [(.svc .waitpid, argCtx 1 2 0)]

theorem waitpid_clobbers_other_process :
    ¬ ∀ (vs : List Visit) (s : State), History (schedulerInitialise 0 0 zeroPcb) vs s →
      ContextsRestored vs ∧ ∀ v ∈ vs, OthersKept v := by
  intro h
  have hr : (visits blockingWait (schedulerInitialise 0 0 zeroPcb) []).map (fun r =>
      match r.1 with
      | [] => none
      | v :: vs => some (decide (v.after.currentPid ≠ v.before.currentPid),
          descheduled v.after.currentPid vs, v.exit.gpr 0))
      = some (some (true, some (argCtx 5 0 0), 2)) := by decide
  obtain ⟨⟨vs, s⟩, hs, hc⟩ := Option.map_eq_some_iff.mp hr
  have hv := (h vs s (visits_history .start hs)).1
  cases vs with
  | nil => cases hc
  | cons v vs =>
    simp only [Option.some.injEq, Prod.mk.injEq, decide_eq_true_eq] at hc
    have hx := hv.2 hc.1 _ hc.2.1
    rw [hx] at hc
    exact absurd hc.2.2 (by decide)

end MalapropOS.Scheduler
