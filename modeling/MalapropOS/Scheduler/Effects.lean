import Mathlib.Data.List.Nodup
import MalapropOS.Scheduler.Model

/-! What each scheduler function does to the process list and to the two queues.
Later modules use these descriptions and do not unfold the functions again. -/
namespace MalapropOS.Scheduler

theorem findProcess_some {s : State} {pid : Int} {p : Pcb} (h : findProcess s pid = some p) :
    p ∈ s.processList ∧ p.pid = pid := by
  have hp := List.find?_some h
  exact ⟨List.mem_of_find?_eq_some h, by simpa using hp⟩

theorem map_pid_updateProcess (pid : Int) (f : Pcb → Pcb) (hf : ∀ p, (f p).pid = p.pid)
    (ps : List Pcb) : (updateProcess pid f ps).map Pcb.pid = ps.map Pcb.pid := by
  induction ps with
  | nil => rfl
  | cons p ps ih =>
    by_cases h : p.pid = pid
    · simp [updateProcess, h, hf]
    · simp [updateProcess, h, ih]

theorem mem_updateProcess {pid : Int} {f : Pcb → Pcb} {ps : List Pcb} {q : Pcb}
    (hn : (ps.map Pcb.pid).Nodup) :
    q ∈ updateProcess pid f ps ↔
      (q ∈ ps ∧ q.pid ≠ pid) ∨ ∃ p ∈ ps, p.pid = pid ∧ q = f p := by
  induction ps with
  | nil => simp [updateProcess]
  | cons p ps ih =>
    have hn' := List.nodup_cons.mp hn
    by_cases h : p.pid = pid
    · -- the first match is the only one
      have hne : ∀ r ∈ ps, r.pid ≠ pid := by
        intro r hr he
        exact hn'.1 (List.mem_map.mpr ⟨r, hr, he.trans h.symm⟩)
      simp only [updateProcess, h, if_true, List.mem_cons]
      constructor
      · rintro (rfl | hq)
        · exact Or.inr ⟨p, Or.inl rfl, h, rfl⟩
        · exact Or.inl ⟨Or.inr hq, hne q hq⟩
      · rintro (⟨rfl | hq, hq'⟩ | ⟨r, rfl | hr, hr', rfl⟩)
        · exact absurd h hq'
        · exact Or.inr hq
        · exact Or.inl rfl
        · exact absurd hr' (hne r hr)
    · simp only [updateProcess, h, if_false, List.mem_cons, ih hn'.2]
      constructor
      · rintro (rfl | ⟨hq, hq'⟩ | ⟨r, hr, hr', rfl⟩)
        · exact Or.inl ⟨Or.inl rfl, h⟩
        · exact Or.inl ⟨Or.inr hq, hq'⟩
        · exact Or.inr ⟨r, Or.inr hr, hr', rfl⟩
      · rintro (⟨rfl | hq, hq'⟩ | ⟨r, rfl | hr, hr', rfl⟩)
        · exact Or.inl rfl
        · exact Or.inr (Or.inl ⟨hq, hq'⟩)
        · exact absurd hr' h
        · exact Or.inr (Or.inr ⟨r, hr, hr', rfl⟩)

theorem withProcess_some {s s' : State} {pid : Int} {f : Pcb → Pcb}
    (h : withProcess pid f s = some s') :
    (∃ p ∈ s.processList, p.pid = pid) ∧
      s' = { s with processList := updateProcess pid f s.processList } := by
  unfold withProcess at h
  split at h
  · cases h
  · next p hp => exact ⟨⟨p, findProcess_some hp⟩, (Option.some.inj h).symm⟩

/-- Removing a pid from all queues, as blocking, exiting and killing do. -/
theorem removePid_both (pid : Int) (s : State) :
    removePid pid 1 (removePid pid 0 s) =
      { s with highQueue := s.highQueue.filter (· ≠ pid)
               lowQueue := s.lowQueue.filter (· ≠ pid) } := by
  simp [removePid]

theorem setPriority_low (pid : Int) (s : State) :
    setPriority pid 1 s =
      { s with lowQueue := s.lowQueue.filter (· ≠ pid) ++ [pid]
               prio := Function.update s.prio pid 1 } := by
  simp [setPriority, notePriority, addPid, removePid]

theorem setPriority_high (pid : Int) (s : State) :
    setPriority pid 0 s =
      { s with highQueue := s.highQueue.filter (· ≠ pid) ++ [pid]
               lowQueue := s.lowQueue.filter (· ≠ pid) ++ [pid]
               prio := Function.update s.prio pid 0 } := by
  simp [setPriority, notePriority, addPid, removePid]

theorem setPriority_other {pid priority : Int} (h0 : priority ≠ 0) (h1 : priority ≠ 1)
    (s : State) : setPriority pid priority s = s := by
  simp [setPriority, notePriority, addPid, removePid, h0, h1]

/-- Only the queues change, and the record of the priorities. -/
theorem setPriority_queues (pid priority : Int) (s : State) : ∃ high low prio,
    setPriority pid priority s =
      { s with highQueue := high, lowQueue := low, prio := prio } := by
  by_cases h0 : priority = 0
  · subst h0
    exact ⟨_, _, _, setPriority_high pid s⟩
  · by_cases h1 : priority = 1
    · subst h1
      exact ⟨s.highQueue, _, _, setPriority_low pid s⟩
    · exact ⟨s.highQueue, s.lowQueue, s.prio, setPriority_other h0 h1 s⟩

theorem mem_requeued {q : List Int} {pid x : Int} :
    x ∈ q.filter (· ≠ pid) ++ [pid] ↔ x ∈ q ∨ x = pid := by
  by_cases h : x = pid <;> simp [h]

theorem nodup_requeued {q : List Int} {pid : Int} (hn : q.Nodup) :
    (q.filter (· ≠ pid) ++ [pid]).Nodup := by
  rw [List.nodup_append]
  refine ⟨hn.filter _, by simp, ?_⟩
  intro a ha b hb
  simp only [List.mem_filter, decide_eq_true_eq, List.mem_singleton] at ha hb
  exact fun he => ha.2 (he.trans hb)

/-- The result of a `scheduler_run`: the caller's context is stored, the queues keep
their members, and the chosen process is current with the context stored for it. -/
structure Switched (s : State) (ctx : Ctx) (s' : State) (ctx' : Ctx) : Prop where
  caller : ∃ p ∈ s.processList, p.pid = s.currentPid
  list : s'.processList =
    updateProcess s.currentPid (fun p => { p with ctx := ctx }) s.processList
  found : ∃ p ∈ s'.processList, p.pid = s'.currentPid ∧ p.ctx = ctx'
  chosen : s'.currentPid = (chooseNext s).1
  mem : s'.currentPid = -1 ∨ s'.currentPid ∈ s.highQueue ∨ s'.currentPid ∈ s.lowQueue
  high : s'.highQueue.Perm s.highQueue
  low : s'.lowQueue.Perm s.lowQueue
  events : s'.events = s.events
  nextPid : s'.nextPid = s.nextPid
  prio : s'.prio = s.prio

theorem getNextProcess_fields (priority : Int) (s : State) :
    let r := getNextProcess priority s
    (r.1 = -1 ∨ r.1 ∈ s.highQueue ∨ r.1 ∈ s.lowQueue) ∧
      ∃ h l, r.2 = { s with highQueue := h, lowQueue := l } ∧
        h.Perm s.highQueue ∧ l.Perm s.lowQueue := by
  have hs : s = { s with highQueue := s.highQueue, lowQueue := s.lowQueue } := rfl
  dsimp only
  unfold getNextProcess
  split
  · split
    · exact ⟨Or.inl rfl, _, _, hs, .refl _, .refl _⟩
    · next x xs hq =>
      exact ⟨Or.inr (Or.inl (by simp [hq])), _, _, rfl,
        hq ▸ List.perm_append_singleton x xs, .refl _⟩
  · split
    · split
      · exact ⟨Or.inl rfl, _, _, hs, .refl _, .refl _⟩
      · next x xs hq =>
        exact ⟨Or.inr (Or.inr (by simp [hq])), _, _, rfl,
          .refl _, hq ▸ List.perm_append_singleton x xs⟩
    · exact ⟨Or.inl rfl, _, _, hs, .refl _, .refl _⟩

theorem chooseNext_fields (s : State) :
    ((chooseNext s).1 = -1 ∨ (chooseNext s).1 ∈ s.highQueue ∨ (chooseNext s).1 ∈ s.lowQueue) ∧
      ∃ h l, (chooseNext s).2 = { s with highQueue := h, lowQueue := l } ∧
        h.Perm s.highQueue ∧ l.Perm s.lowQueue := by
  obtain ⟨hm, h, l, hr, hh, hl⟩ := getNextProcess_fields 0 s
  unfold chooseNext
  split
  · obtain ⟨hm', h', l', hr', hh', hl'⟩ := getNextProcess_fields 1 (getNextProcess 0 s).2
    rw [hr] at hm' hh' hl'
    refine ⟨?_, h', l', by rw [hr', hr], hh'.trans hh, hl'.trans hl⟩
    rw [hr]
    exact hm'.imp_right (Or.imp hh.mem_iff.mp hl.mem_iff.mp)
  · exact ⟨hm, h, l, hr, hh, hl⟩

theorem schedulerRun_switched {s s' : State} {ctx ctx' : Ctx}
    (h : schedulerRun s ctx = some (s', ctx')) : Switched s ctx s' ctx' := by
  obtain ⟨hm, hq, lq, hr, hh, hl⟩ := chooseNext_fields s
  unfold schedulerRun at h
  obtain ⟨t, hsave, hrun⟩ := Option.bind_eq_some_iff.mp h
  unfold saveCurrentProcess at hsave
  obtain ⟨hc, ht⟩ := withProcess_some hsave
  rw [hr] at hc ht
  unfold runProcess at hrun
  split at hrun
  · cases hrun
  · next p hp =>
    obtain ⟨rfl, rfl⟩ := Prod.mk.inj (Option.some.inj hrun)
    obtain ⟨hp1, hp2⟩ := findProcess_some hp
    subst ht
    exact ⟨hc, rfl, ⟨p, hp1, hp2, rfl⟩, rfl, hm, hh, hl, rfl, rfl, rfl⟩

theorem findProcess_of_mem {s : State} {x : Int} (h : ∃ p ∈ s.processList, p.pid = x) :
    ∃ p, findProcess s x = some p := by
  obtain ⟨p, hp, hx⟩ := h
  exact Option.isSome_iff_exists.mp (List.find?_isSome.mpr ⟨p, hp, by simpa using hx⟩)

theorem mem_pids_updateProcess {ps : List Pcb} {pid : Int} (f : Pcb → Pcb)
    (hf : ∀ p, (f p).pid = p.pid) (x : Int) :
    (∃ p ∈ updateProcess pid f ps, p.pid = x) ↔ ∃ p ∈ ps, p.pid = x := by
  have h := map_pid_updateProcess pid f hf ps
  simpa using (show x ∈ (updateProcess pid f ps).map Pcb.pid ↔ x ∈ ps.map Pcb.pid by rw [h])

/-- `scheduler_run` dereferences the current process and the chosen one. -/
theorem schedulerRun_ok {s : State} (hc : ∃ p ∈ s.processList, p.pid = s.currentPid)
    (hn : ∃ p ∈ s.processList, p.pid = (chooseNext s).1) (ctx : Ctx) :
    ∃ ctx', schedulerRun s ctx = some ({ s with
      currentPid := (chooseNext s).1
      processList := updateProcess s.currentPid (fun p => { p with ctx := ctx }) s.processList
      highQueue := (chooseNext s).2.highQueue
      lowQueue := (chooseNext s).2.lowQueue }, ctx') := by
  obtain ⟨-, h, l, hr, -, -⟩ := chooseNext_fields s
  obtain ⟨p, hp⟩ := findProcess_of_mem hc
  let t : State := { s with
    processList := updateProcess s.currentPid (fun p => { p with ctx := ctx }) s.processList
    highQueue := h
    lowQueue := l }
  have ht : saveCurrentProcess ctx (chooseNext s).2 = some t := by
    have hp' : findProcess (chooseNext s).2 s.currentPid = some p := by
      rw [hr]
      exact hp
    simp only [saveCurrentProcess, withProcess]
    rw [show (chooseNext s).2.currentPid = s.currentPid by rw [hr], hp', hr]
  obtain ⟨q, hq⟩ := findProcess_of_mem (s := t)
    ((mem_pids_updateProcess (fun p => { p with ctx := ctx }) (fun _ => rfl) _).mpr hn)
  refine ⟨q.ctx, ?_⟩
  rw [schedulerRun, ht, hr]
  simp only [Option.bind_eq_bind, Option.bind_some, runProcess, hq]
  rfl

theorem wake_pid (event : Event) (p : Pcb) : (wake event p).pid = p.pid := by
  unfold wake; split <;> rfl

theorem map_pid_wake (event : Event) (ps : List Pcb) :
    (ps.map (wake event)).map Pcb.pid = ps.map Pcb.pid := by
  simp [List.map_map, Function.comp_def, wake_pid]

/-- `scheduler_emit_event` wakes the waiters in place and gives each of them one entry
in the low queue; the high queue stays. -/
structure Emitted (event : Event) (s s' : State) : Prop where
  list : s'.processList = s.processList.map (wake event)
  high : s'.highQueue = s.highQueue
  memLow : ∀ x, x ∈ s'.lowQueue ↔
    x ∈ s.lowQueue ∨ ∃ p ∈ s.processList, wakes event p ∧ p.pid = x
  lowNodup : s.lowQueue.Nodup → s'.lowQueue.Nodup
  current : s'.currentPid = s.currentPid
  nextPid : s'.nextPid = s.nextPid
  events : s'.events = (recordEvent event s).events
  prio : ∀ x, s'.prio x =
    if (∃ p ∈ s.processList, wakes event p ∧ p.pid = x) then 1 else s.prio x

theorem requeueWoken_high (event : Event) (ps : List Pcb) (s : State) :
    ∃ low prio, requeueWoken event ps s = { s with lowQueue := low, prio := prio } := by
  induction ps generalizing s with
  | nil => exact ⟨s.lowQueue, s.prio, rfl⟩
  | cons p ps ih =>
    obtain ⟨low, prio, h⟩ := ih (if wakes event p then setPriority p.pid 1 s else s)
    refine ⟨low, prio, ?_⟩
    rw [requeueWoken, h]
    split
    · rw [setPriority_low]
    · rfl

theorem mem_requeueWoken (event : Event) (ps : List Pcb) (s : State) (x : Int) :
    x ∈ (requeueWoken event ps s).lowQueue ↔
      x ∈ s.lowQueue ∨ ∃ p ∈ ps, wakes event p ∧ p.pid = x := by
  induction ps generalizing s with
  | nil => simp [requeueWoken]
  | cons p ps ih =>
    rw [requeueWoken, ih]
    by_cases hw : wakes event p
    · simp only [hw, if_true, setPriority_low, mem_requeued, List.mem_cons,
        exists_eq_or_imp, true_and, or_assoc, eq_comm (a := x)]
    · simp [hw]

theorem nodup_requeueWoken (event : Event) (ps : List Pcb) (s : State)
    (hn : s.lowQueue.Nodup) : (requeueWoken event ps s).lowQueue.Nodup := by
  induction ps generalizing s with
  | nil => exact hn
  | cons p ps ih =>
    apply ih
    split
    · rw [setPriority_low]; exact nodup_requeued hn
    · exact hn

theorem prio_requeueWoken (event : Event) (ps : List Pcb) (s : State) (x : Int) :
    (requeueWoken event ps s).prio x =
      if (∃ p ∈ ps, wakes event p ∧ p.pid = x) then 1 else s.prio x := by
  induction ps generalizing s with
  | nil => simp [requeueWoken]
  | cons p ps ih =>
    rw [requeueWoken, ih]
    by_cases hw : wakes event p
    · by_cases hx : p.pid = x
      · simp [hw, hx, setPriority_low]
      · simp [hw, hx, setPriority_low, Function.update, Ne.symm hx]
    · simp [hw]

theorem recordEvent_fields (event : Event) (s : State) :
    recordEvent event s = { s with events := (recordEvent event s).events } := by
  unfold recordEvent; split <;> rfl

theorem schedulerEmitEvent_emitted (event : Event) (s : State) :
    Emitted event s (schedulerEmitEvent event s) := by
  unfold schedulerEmitEvent wakeAll
  rw [recordEvent_fields]
  have hm := mem_requeueWoken event s.processList
    { s with events := (recordEvent event s).events, processList := s.processList.map (wake event) }
  have hn := nodup_requeueWoken event s.processList
    { s with events := (recordEvent event s).events, processList := s.processList.map (wake event) }
  have hp := prio_requeueWoken event s.processList
    { s with events := (recordEvent event s).events, processList := s.processList.map (wake event) }
  obtain ⟨low, prio, h⟩ := requeueWoken_high event s.processList
    { s with events := (recordEvent event s).events, processList := s.processList.map (wake event) }
  rw [h] at hm hn hp ⊢
  exact ⟨rfl, rfl, hm, hn, rfl, rfl, rfl, hp⟩

theorem updateProcess_updateProcess (pid : Int) (f g : Pcb → Pcb)
    (hf : ∀ p, (f p).pid = p.pid) (ps : List Pcb) :
    updateProcess pid g (updateProcess pid f ps) = updateProcess pid (fun p => g (f p)) ps := by
  induction ps with
  | nil => rfl
  | cons p ps ih =>
    by_cases h : p.pid = pid
    · simp [updateProcess, h, hf]
    · simp [updateProcess, h, ih]

/-- The caller of a blocking `waitpid`, stored, marked and out of the queues. -/
def markBlocked (ctx : Ctx) (event : Event) (s : State) : State :=
  { s with
    processList := updateProcess s.currentPid
      (fun p => { p with ctx := ctx, blockedUntil := event, status := .blocked }) s.processList
    highQueue := s.highQueue.filter (· ≠ s.currentPid)
    lowQueue := s.lowQueue.filter (· ≠ s.currentPid) }

theorem schedulerBlockProcess_some {s s' : State} {ctx ctx' : Ctx} {event : Event} {r : Int}
    (h : schedulerBlockProcess ctx event s = some (r, s', ctx')) :
    r = event.fromProcess ∧ (∃ p ∈ s.processList, p.pid = s.currentPid) ∧
      schedulerRun (schedulerEmitEvent ⟨processEventBlocked, s.currentPid⟩
        (markBlocked ctx event s)) ctx = some (s', ctx') := by
  unfold schedulerBlockProcess at h
  obtain ⟨t, ht, h⟩ := Option.bind_eq_some_iff.mp h
  obtain ⟨u, hu, h⟩ := Option.bind_eq_some_iff.mp h
  obtain ⟨⟨v, c⟩, hrun, h⟩ := Option.bind_eq_some_iff.mp h
  have he := Option.some.inj h
  simp only [Prod.mk.injEq] at he
  obtain ⟨hr, rfl, rfl⟩ := he
  obtain ⟨hc, rfl⟩ := withProcess_some ht
  obtain ⟨-, rfl⟩ := withProcess_some hu
  refine ⟨hr.symm, hc, ?_⟩
  rw [removePid_both] at hrun
  dsimp only at hrun
  rw [updateProcess_updateProcess s.currentPid (fun p => { p with ctx := ctx })
    (fun p => { p with blockedUntil := event, status := .blocked }) (fun _ => rfl)] at hrun
  exact hrun

/-- `kill` and, for the caller itself, `exit`: a switch without the process, which is
then marked, and the event. -/
structure Terminated (pid : Int) (s : State) (ctx : Ctx) (s' : State) (ctx' : Ctx) : Prop where
  switch : ∃ t, schedulerRun (removePid pid 1 (removePid pid 0 s)) ctx = some (t, ctx') ∧
    (∃ p ∈ t.processList, p.pid = pid) ∧
    s' = schedulerEmitEvent ⟨processEventExited, pid⟩
      { t with
        processList := updateProcess pid (fun p => { p with status := .terminated })
          t.processList }

theorem schedulerKill_some {s s' : State} {ctx ctx' : Ctx} {pid r : Int}
    (h : schedulerKill ctx pid s = some (r, s', ctx')) :
    r = 0 ∧ Terminated pid s ctx s' ctx' := by
  unfold schedulerKill at h
  obtain ⟨⟨t, c⟩, hrun, h⟩ := Option.bind_eq_some_iff.mp h
  obtain ⟨u, hu, h⟩ := Option.bind_eq_some_iff.mp h
  have he := Option.some.inj h
  simp only [Prod.mk.injEq] at he
  obtain ⟨hr, rfl, rfl⟩ := he
  obtain ⟨hp, rfl⟩ := withProcess_some hu
  exact ⟨hr.symm, ⟨t, hrun, hp, rfl⟩⟩

theorem schedulerExit_some {s s' : State} {ctx ctx' : Ctx}
    (h : schedulerExit s ctx = some (s', ctx')) :
    Terminated s.currentPid s ctx s' ctx' ∨
      (schedulerRun (removePid s.currentPid 1 (removePid s.currentPid 0 s)) ctx
        = some (s', ctx') ∧ s'.currentPid = s.currentPid) := by
  unfold schedulerExit at h
  obtain ⟨⟨t, c⟩, hrun, h⟩ := Option.bind_eq_some_iff.mp h
  dsimp only at h
  split at h
  · obtain ⟨u, hu, h⟩ := Option.bind_eq_some_iff.mp h
    obtain ⟨rfl, rfl⟩ := Prod.mk.inj (Option.some.inj h)
    obtain ⟨hp, rfl⟩ := withProcess_some hu
    exact Or.inl ⟨t, hrun, hp, rfl⟩
  · next hne =>
    obtain ⟨rfl, rfl⟩ := Prod.mk.inj (Option.some.inj h)
    exact Or.inr ⟨hrun, not_not.mp hne⟩

/-- The child that `fork` appends to the process list. -/
def forkChild (ctx : Ctx) (sp fp : UInt32) (parent : Pcb) (s : State) : Pcb :=
  { pid := s.nextPid, ctx := forkCtx ctx s.currentStackBreak sp fp, status := .ready,
    blockedUntil := parent.blockedUntil }

def addChild (child : Pcb) (s : State) : State :=
  { s with
    nextPid := s.nextPid + 1
    currentStackBreak := s.currentStackBreak - 2000
    processList := s.processList ++ [child] }

theorem schedulerFork_some {s s' : State} {ctx : Ctx} {sp fp : UInt32} {r : Int}
    (h : schedulerFork ctx sp fp s = some (r, s')) :
    (s.currentPid < 1 ∧ s' = s) ∨
      ∃ parent, r = s.nextPid ∧ s.nextPid ≠ 2147483647 ∧
        s' = schedulerEmitEvent ⟨processEventCreated, s.nextPid⟩
          (setPriority s.nextPid 1 (addChild (forkChild ctx sp fp parent s) s)) := by
  unfold schedulerFork at h
  split at h
  · next hc =>
    obtain ⟨-, rfl⟩ := Prod.mk.inj (Option.some.inj h)
    exact Or.inl ⟨hc, rfl⟩
  · split at h
    · cases h
    · next ho =>
      obtain ⟨parent, -, h⟩ := Option.bind_eq_some_iff.mp h
      obtain ⟨rfl, rfl⟩ := Prod.mk.inj (Option.some.inj h)
      exact Or.inr ⟨parent, rfl, ho, rfl⟩

def execCtx (ctx : Ctx) (function argc argv : UInt32) : Ctx :=
  { (ctx.setGpr 0 argc).setGpr 1 argv with pc := function }

theorem schedulerExec_some {s s' : State} {ctx ctx' : Ctx} {function argc argv : UInt32}
    (h : schedulerExec ctx function argc argv s = some (s', ctx')) :
    ctx' = execCtx ctx function argc argv ∧
      s' = { s with
        processList := updateProcess s.currentPid
          (fun p => { p with ctx := execCtx ctx function argc argv, status := .running })
          s.processList } := by
  unfold schedulerExec at h
  obtain ⟨t, ht, h⟩ := Option.bind_eq_some_iff.mp h
  obtain ⟨u, hu, h⟩ := Option.bind_eq_some_iff.mp h
  obtain ⟨rfl, rfl⟩ := Prod.mk.inj (Option.some.inj h)
  obtain ⟨-, rfl⟩ := withProcess_some ht
  obtain ⟨-, rfl⟩ := withProcess_some hu
  refine ⟨rfl, ?_⟩
  dsimp only
  rw [updateProcess_updateProcess s.currentPid
    (fun p => { p with ctx := { (ctx.setGpr 0 argc).setGpr 1 argv with pc := function } })
    (fun p => { p with status := .running }) (fun _ => rfl)]
  rfl

/-- What a trap can do, one case per scheduler function a handler calls. -/
inductive Handled (s : State) (ctx : Ctx) : Trap → State → Ctx → Prop where
  | quiet {trap : Trap} {ctx' : Ctx} (h : ctx' = ctx ∨ ∃ v, ctx' = ctx.setGpr 0 v) :
      Handled s ctx trap s ctx'
  | switch {trap : Trap} {s' : State} {ctx' : Ctx} (ht : trap = .timer ∨ trap = .svc .yield)
      (h : schedulerRun s ctx = some (s', ctx')) : Handled s ctx trap s' ctx'
  | exit {s' : State} {ctx' : Ctx} (h : schedulerExit s ctx = some (s', ctx')) :
      Handled s ctx (.svc .exit) s' ctx'
  | fork {s' : State} {r : Int} (h : schedulerFork ctx (ctx.gpr 0) (ctx.gpr 1) s = some (r, s')) :
      Handled s ctx (.svc .fork) s' (ctx.setGpr 0 (UInt32.ofInt r))
  | block {s' : State} {ctx' : Ctx} {r : Int} (hn : ¬ isNohang (ctx.gpr 2))
      (h : schedulerBlockProcess ctx ⟨signed (ctx.gpr 0), signed (ctx.gpr 1)⟩ s
        = some (r, s', ctx')) :
      Handled s ctx (.svc .waitpid) s' (ctx'.setGpr 0 (UInt32.ofInt r))
  | kill {s' : State} {ctx' : Ctx} {r : Int} {u : UInt32} (hk : signed (ctx.gpr 1) = sigkill)
      (h : schedulerKill ctx (signed (ctx.gpr 0)) s = some (r, s', ctx')) :
      Handled s ctx (.svc (.kill u)) s' (ctx'.setGpr 0 (UInt32.ofInt r))
  | setpriority :
      Handled s ctx (.svc .setpriority)
        (setPriority (signed (ctx.gpr 0)) (signed (ctx.gpr 2)) s) (ctx.setGpr 0 0)
  | exec {s' : State} {ctx' : Ctx}
      (h : schedulerExec ctx (ctx.gpr 0) (ctx.gpr 1) (ctx.gpr 2) s = some (s', ctx')) :
      Handled s ctx (.svc .exec) s' ctx'

theorem handle_handled {trap : Trap} {s s' : State} {ctx ctx' : Ctx}
    (h : handle trap s ctx = some (s', ctx')) : Handled s ctx trap s' ctx' := by
  cases trap with
  | timer => exact .switch (Or.inl rfl) h
  | uart =>
    obtain ⟨rfl, rfl⟩ := Prod.mk.inj (Option.some.inj h)
    exact .quiet (Or.inl rfl)
  | svc c =>
    cases c with
    | exit => exact .exit h
    | fork =>
      obtain ⟨⟨r, t⟩, ht, h⟩ := Option.bind_eq_some_iff.mp h
      obtain ⟨rfl, rfl⟩ := Prod.mk.inj (Option.some.inj h)
      exact .fork ht
    | waitpid =>
      simp only [handle, kernelHandlerSvc] at h
      split at h
      · obtain ⟨rfl, rfl⟩ := Prod.mk.inj (Option.some.inj h)
        exact .quiet (Or.inr ⟨_, rfl⟩)
      · next hn =>
        obtain ⟨⟨r, t, c⟩, ht, h⟩ := Option.bind_eq_some_iff.mp h
        obtain ⟨rfl, rfl⟩ := Prod.mk.inj (Option.some.inj h)
        exact .block hn ht
    | getpid =>
      obtain ⟨rfl, rfl⟩ := Prod.mk.inj (Option.some.inj h)
      exact .quiet (Or.inr ⟨_, rfl⟩)
    | kill uninitialised =>
      simp only [handle, kernelHandlerSvc] at h
      split at h
      · next hk =>
        obtain ⟨⟨r, t, c⟩, ht, h⟩ := Option.bind_eq_some_iff.mp h
        obtain ⟨rfl, rfl⟩ := Prod.mk.inj (Option.some.inj h)
        exact .kill hk ht
      · obtain ⟨rfl, rfl⟩ := Prod.mk.inj (Option.some.inj h)
        exact .quiet (Or.inr ⟨_, rfl⟩)
    | setpriority =>
      obtain ⟨rfl, rfl⟩ := Prod.mk.inj (Option.some.inj h)
      exact .setpriority
    | yield => exact .switch (Or.inr rfl) h
    | exec => exact .exec h
    | other result =>
      obtain ⟨rfl, rfl⟩ := Prod.mk.inj (Option.some.inj h)
      exact .quiet (Or.inr ⟨_, rfl⟩)
    | unknown =>
      obtain ⟨rfl, rfl⟩ := Prod.mk.inj (Option.some.inj h)
      exact .quiet (Or.inl rfl)

theorem step_handled {s s' : State} {i : Trap × Ctx} (h : step s i = some s') :
    ∃ ctx', Handled s i.2 i.1 s' ctx' := by
  obtain ⟨⟨t, c⟩, ht, rfl⟩ := Option.map_eq_some_iff.mp h
  exact ⟨c, handle_handled ht⟩

end MalapropOS.Scheduler
