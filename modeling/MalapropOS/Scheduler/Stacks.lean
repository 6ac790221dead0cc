import Mathlib.Data.Set.Lattice
import Mathlib.Order.CompletePartialOrder
import MalapropOS.Scheduler.Entries
import MalapropOS.Scheduler.Status

/-! The stacks that `scheduler_fork` hands out. `set_stack_break` moves the break down and never
looks where it gets to, so the regions stay in the area that the linker script reserves only as
long as nobody forks once too often. -/
namespace MalapropOS.Scheduler

/-- The user stack area of `image.ld`: 256KB between `heap_top` and `stack_top_usr`. -/
structure StackArea where
  heapTop : UInt32
  fits : heapTop.toNat + 0x40000 < 2 ^ 32

def StackArea.stackTopUsr (a : StackArea) : UInt32 := a.heapTop + 0x40000

/-- The bytes from `heap_top` up to `stack_top_usr`. -/
def StackArea.bytes (a : StackArea) : Set Int :=
  {x | (a.heapTop.toNat : Int) ≤ x ∧ x < a.stackTopUsr.toNat}

/-- The 2000 bytes below a break. -/
def stackRegion (newBreak : UInt32) : Set Int :=
  {x | (newBreak.toNat : Int) - 2000 ≤ x ∧ x < newBreak.toNat}

/-- The pid and the break that a successful `fork` gives to its child. -/
def handedStack (s : State) (i : Trap × Ctx) : List (Int × UInt32) :=
  match i.1, schedulerFork i.2 (i.2.gpr 0) (i.2.gpr 1) s with
  | .svc .fork, some (r, _) => if r = -1 then [] else [(r, s.currentStackBreak)]
  | _, _ => []

/-- The step together with a list of the stacks handed out so far. -/
def stackStep (x : State × List (Int × UInt32)) (i : Trap × Ctx) :
    Option (State × List (Int × UInt32)) :=
  (step x.1 i).map fun t => (t, x.2 ++ handedStack x.1 i)

/-- The shell has the stack at the top. -/
def stackStart (a : StackArea) (entrySh : UInt32) (fresh : Pcb) : State × List (Int × UInt32) :=
  (schedulerInitialise entrySh a.stackTopUsr fresh, [(1, a.stackTopUsr)])

/-- A `fork` returns -1, or the region of the child lies in the area and meets the region of no
process that has not terminated. -/
def ForkSafe (a : StackArea) (x : State × List (Int × UInt32)) (i : Trap × Ctx) : Prop :=
  ∀ r s', i.1 = .svc .fork → schedulerFork i.2 (i.2.gpr 0) (i.2.gpr 1) x.1 = some (r, s') →
    r = -1 ∨
      (stackRegion x.1.currentStackBreak ⊆ a.bytes ∧
        ∀ p ∈ x.1.processList, p.status ≠ .terminated → ∀ b, (p.pid, b) ∈ x.2 →
          Disjoint (stackRegion x.1.currentStackBreak) (stackRegion b))

/-- There are 2000 bytes left between the heap and the break. -/
def StackRoom (a : StackArea) (x : State × List (Int × UInt32)) (i : Trap × Ctx) : Prop :=
  i.1 = .svc .fork → a.heapTop.toNat + 2000 ≤ x.1.currentStackBreak.toNat

theorem StackArea.toNat_stackTopUsr (a : StackArea) :
    a.stackTopUsr.toNat = a.heapTop.toNat + 0x40000 := by
  have h := a.fits
  rw [stackTopUsr, UInt32.toNat_add]
  simp only [UInt32.reduceToNat]
  omega

theorem toNat_break {b : UInt32} (h : 2000 ≤ b.toNat) : (b - 2000).toNat + 2000 = b.toNat := by
  rw [UInt32.toNat_sub_of_le]
  · simp only [UInt32.reduceToNat]
    omega
  · rwa [UInt32.le_iff_toNat_le]

theorem StackArea.toNat_firstBreak (a : StackArea) :
    (a.stackTopUsr - 2000).toNat + 2000 = a.heapTop.toNat + 0x40000 := by
  have ht := a.toNat_stackTopUsr
  rw [← ht]
  exact toNat_break (by omega)

theorem schedulerRun_break {s s' : State} {ctx ctx' : Ctx}
    (h : schedulerRun s ctx = some (s', ctx')) : s'.currentStackBreak = s.currentStackBreak := by
  have hsw := schedulerRun_switched h
  have hn : ∃ p ∈ s.processList, p.pid = (chooseNext s).1 := by
    obtain ⟨p, hp, hpid, -⟩ := hsw.found
    rw [hsw.list] at hp
    rw [← hsw.chosen]
    exact (mem_pids_updateProcess (fun p => { p with ctx := ctx }) (fun _ => rfl) _).mp
      ⟨p, hp, hpid⟩
  obtain ⟨c, hok⟩ := schedulerRun_ok hsw.caller hn ctx
  obtain ⟨rfl, -⟩ := Prod.mk.inj (Option.some.inj (hok.symm.trans h))
  rfl

theorem schedulerEmitEvent_break (event : Event) (s : State) :
    (schedulerEmitEvent event s).currentStackBreak = s.currentStackBreak := by
  unfold schedulerEmitEvent wakeAll
  rw [recordEvent_fields]
  obtain ⟨low, prio, h⟩ := requeueWoken_high event s.processList
    { s with events := (recordEvent event s).events, processList := s.processList.map (wake event) }
  rw [h]

theorem setPriority_break (pid priority : Int) (s : State) :
    (setPriority pid priority s).currentStackBreak = s.currentStackBreak ∧
      (setPriority pid priority s).nextPid = s.nextPid ∧
      (setPriority pid priority s).currentPid = s.currentPid := by
  obtain ⟨high, low, prio, h⟩ := setPriority_queues pid priority s
  rw [h]
  exact ⟨rfl, rfl, rfl⟩

theorem Terminated.break {pid : Int} {s s' : State} {ctx ctx' : Ctx}
    (h : Terminated pid s ctx s' ctx') :
    s'.currentStackBreak = s.currentStackBreak ∧ s'.nextPid = s.nextPid := by
  obtain ⟨t, hrun, -, rfl⟩ := h.switch
  have hb := schedulerRun_break hrun
  have hn := (schedulerRun_switched hrun).nextPid
  rw [removePid_both] at hb hn
  have hem := schedulerEmitEvent_emitted ⟨processEventExited, pid⟩
    { t with
      processList := updateProcess pid (fun p => { p with status := .terminated }) t.processList }
  exact ⟨(schedulerEmitEvent_break _ _).trans hb, hem.nextPid.trans hn⟩

/-- Only `fork` moves the break and takes a pid. -/
theorem Handled.break {trap : Trap} {s s' : State} {ctx ctx' : Ctx}
    (h : Handled s ctx trap s' ctx') (hf : trap ≠ .svc .fork) :
    s'.currentStackBreak = s.currentStackBreak ∧ s'.nextPid = s.nextPid := by
  cases h with
  | quiet => exact ⟨rfl, rfl⟩
  | switch _ h => exact ⟨schedulerRun_break h, (schedulerRun_switched h).nextPid⟩
  | exit h =>
    rcases schedulerExit_some h with ht | ⟨hrun, -⟩
    · exact ht.break
    · have hb := schedulerRun_break hrun
      have hn := (schedulerRun_switched hrun).nextPid
      rw [removePid_both] at hb hn
      exact ⟨hb, hn⟩
  | fork => exact absurd rfl hf
  | block _ h =>
    obtain ⟨-, -, hrun⟩ := schedulerBlockProcess_some h
    have hb := schedulerEmitEvent_break ⟨processEventBlocked, s.currentPid⟩
      (markBlocked ctx ⟨signed (ctx.gpr 0), signed (ctx.gpr 1)⟩ s)
    have hn := (schedulerEmitEvent_emitted ⟨processEventBlocked, s.currentPid⟩
      (markBlocked ctx ⟨signed (ctx.gpr 0), signed (ctx.gpr 1)⟩ s)).nextPid
    exact ⟨(schedulerRun_break hrun).trans hb, (schedulerRun_switched hrun).nextPid.trans hn⟩
  | kill _ h => exact (schedulerKill_some h).2.break
  | setpriority =>
    obtain ⟨hb, hn, -⟩ := setPriority_break (signed (ctx.gpr 0)) (signed (ctx.gpr 2)) s
    exact ⟨hb, hn⟩
  | exec h =>
    obtain ⟨-, rfl⟩ := schedulerExec_some h
    exact ⟨rfl, rfl⟩

theorem Emitted.current_entry {event : Event} {s s' : State} (h : Emitted event s s')
    (hc : HasEntry s s.currentPid) : HasEntry s' s'.currentPid := by
  rw [h.current]
  exact (hasEntry_congr (by rw [h.list, map_pid_wake])).mpr hc

theorem Switched.current_entry {s s' : State} {ctx ctx' : Ctx} (h : Switched s ctx s' ctx') :
    HasEntry s' s'.currentPid := by
  obtain ⟨p, hp, hpid, -⟩ := h.found
  exact ⟨p, hp, hpid⟩

theorem Terminated.current_entry {pid : Int} {s s' : State} {ctx ctx' : Ctx}
    (h : Terminated pid s ctx s' ctx') : HasEntry s' s'.currentPid := by
  obtain ⟨t, hrun, -, rfl⟩ := h.switch
  have ht := (schedulerRun_switched hrun).current_entry
  refine (schedulerEmitEvent_emitted _ _).current_entry ?_
  exact (hasEntry_congr (s := t) (map_pid_updateProcess pid _ (fun _ => by rfl) _)).mpr ht

/-- `scheduler_run` has dereferenced the process it made current. -/
theorem Handled.current_entry {trap : Trap} {s s' : State} {ctx ctx' : Ctx}
    (hc : HasEntry s s.currentPid) (h : Handled s ctx trap s' ctx') :
    HasEntry s' s'.currentPid := by
  cases h with
  | quiet => exact hc
  | switch _ h => exact (schedulerRun_switched h).current_entry
  | exit h =>
    rcases schedulerExit_some h with ht | ⟨h, -⟩
    · exact ht.current_entry
    · exact (schedulerRun_switched h).current_entry
  | fork h =>
    rcases schedulerFork_some h with ⟨-, rfl⟩ | ⟨parent, -, -, rfl⟩
    · exact hc
    · refine (schedulerEmitEvent_emitted _ _).current_entry ?_
      obtain ⟨p, hp, hpid⟩ := hc
      rw [setPriority_low]
      exact ⟨p, List.mem_append.mpr (Or.inl hp), hpid⟩
  | block _ h =>
    obtain ⟨-, -, h⟩ := schedulerBlockProcess_some h
    exact (schedulerRun_switched h).current_entry
  | kill _ h => exact (schedulerKill_some h).2.current_entry
  | setpriority =>
    rw [(setPriority_break _ _ _).2.2]
    exact (hasEntry_congr (by rw [(setPriority_list _ _ _).1])).mpr hc
  | exec h =>
    obtain ⟨-, rfl⟩ := schedulerExec_some h
    exact (hasEntry_congr (s := s) (map_pid_updateProcess s.currentPid _ (fun _ => by rfl) _)).mpr hc

theorem schedulerFork_ok {s : State} (hi : QueueInv s) (hc : HasEntry s s.currentPid)
    (hn : s.nextPid ≠ 2147483647) (ctx : Ctx) (sp fp : UInt32) :
    ∃ s', schedulerFork ctx sp fp s = some (s.nextPid, s') := by
  obtain ⟨q, hq, hqc⟩ := hc
  have hpos : ¬ s.currentPid < 1 := by
    have := (hi.core.pidsRange q hq).1
    omega
  obtain ⟨parent, hp⟩ := findProcess_of_mem ⟨q, hq, hqc⟩
  simp [schedulerFork, hpos, hn, hp]

theorem schedulerFork_break {s s' : State} {ctx : Ctx} {sp fp : UInt32} {r : Int}
    (hi : QueueInv s) (hc : HasEntry s s.currentPid) (h : schedulerFork ctx sp fp s = some (r, s')) :
    r = s.nextPid ∧ s'.currentStackBreak = s.currentStackBreak - 2000 ∧
      s'.nextPid = s.nextPid + 1 := by
  obtain ⟨q, hq, hqc⟩ := hc
  have hpos := (hi.core.pidsRange q hq).1
  rcases schedulerFork_some h with ⟨hlow, -⟩ | ⟨parent, rfl, -, rfl⟩
  · omega
  · have hem := schedulerEmitEvent_emitted ⟨processEventCreated, s.nextPid⟩
      (setPriority s.nextPid 1 (addChild (forkChild ctx sp fp parent s) s))
    obtain ⟨hb, hn, -⟩ := setPriority_break s.nextPid 1 (addChild (forkChild ctx sp fp parent s) s)
    exact ⟨rfl, (schedulerEmitEvent_break _ _).trans hb, hem.nextPid.trans hn⟩

/-- The break goes down by 2000 bytes for each pid and has not passed the heap; every stack
handed out lies above it. -/
structure StackInv (a : StackArea) (x : State × List (Int × UInt32)) : Prop where
  queues : QueueInv x.1
  current : HasEntry x.1 x.1.currentPid
  heap : a.heapTop.toNat ≤ x.1.currentStackBreak.toNat
  count : (x.1.currentStackBreak.toNat : Int) + 2000 * (x.1.nextPid - 1) = a.stackTopUsr.toNat
  above : ∀ e ∈ x.2, x.1.currentStackBreak.toNat + 2000 ≤ e.2.toNat

theorem StackInv.nextPid_small {a : StackArea} {x : State × List (Int × UInt32)}
    (h : StackInv a x) : x.1.nextPid ≤ 132 := by
  have hc := h.count
  have hl := h.heap
  rw [a.toNat_stackTopUsr] at hc
  omega

theorem StackInv.start (a : StackArea) (entrySh : UInt32) (fresh : Pcb) :
    StackInv a (stackStart a entrySh fresh) := by
  have ht := a.toNat_stackTopUsr
  have hb := a.toNat_firstBreak
  refine ⟨QueueInv.initialise _ _ _, ⟨_, List.mem_singleton.mpr rfl, rfl⟩, ?_, ?_, ?_⟩
  · simp only [stackStart, schedulerInitialise]
    omega
  · simp only [stackStart, schedulerInitialise]
    omega
  · intro e he
    rw [List.mem_singleton.mp he, ← ht] at *
    exact hb.le

theorem handedStack_fork {s s' : State} {i : Trap × Ctx} {r : Int} (hi : i.1 = .svc .fork)
    (h : schedulerFork i.2 (i.2.gpr 0) (i.2.gpr 1) s = some (r, s')) (hr : r ≠ -1) :
    handedStack s i = [(r, s.currentStackBreak)] := by
  simp [handedStack, hi, h, hr]

theorem handedStack_other {s : State} {i : Trap × Ctx} (hi : i.1 ≠ .svc .fork) :
    handedStack s i = [] := by
  unfold handedStack
  split
  · next h _ => exact absurd h hi
  · rfl

theorem step_fork {s s' : State} {i : Trap × Ctx} (hi : i.1 = .svc .fork)
    (h : step s i = some s') :
    ∃ r, schedulerFork i.2 (i.2.gpr 0) (i.2.gpr 1) s = some (r, s') := by
  obtain ⟨⟨t, c⟩, ht, rfl⟩ := Option.map_eq_some_iff.mp h
  rw [hi] at ht
  obtain ⟨⟨r, u⟩, hu, ht⟩ := Option.bind_eq_some_iff.mp ht
  obtain ⟨rfl, -⟩ := Prod.mk.inj (Option.some.inj ht)
  exact ⟨r, hu⟩

theorem StackInv.next {a : StackArea} {x y : State × List (Int × UInt32)} {i : Trap × Ctx}
    (h : StackInv a x) (hroom : StackRoom a x i) (hs : stackStep x i = some y) : StackInv a y := by
  obtain ⟨t, ht, rfl⟩ := Option.map_eq_some_iff.mp hs
  obtain ⟨ctx', hh⟩ := step_handled ht
  have hq := h.queues.handled hh
  have hcur := hh.current_entry h.current
  by_cases hf : i.1 = .svc .fork
  · obtain ⟨r, hr⟩ := step_fork hf ht
    obtain ⟨rfl, hb, hn⟩ := schedulerFork_break h.queues h.current hr
    have hpos := h.queues.core.nextPos
    have hbreak : t.currentStackBreak.toNat + 2000 = x.1.currentStackBreak.toNat := by
      have := hroom hf
      rw [hb]
      exact toNat_break (by omega)
    have hheap := hroom hf
    have hcount := h.count
    refine ⟨hq, hcur, ?_, ?_, ?_⟩
    · show a.heapTop.toNat ≤ t.currentStackBreak.toNat
      omega
    · show (t.currentStackBreak.toNat : Int) + 2000 * (t.nextPid - 1) = a.stackTopUsr.toNat
      omega
    · intro e he
      rw [handedStack_fork hf hr (by omega)] at he
      cases List.mem_append.mp he with
      | inl he =>
        have := h.above e he
        show t.currentStackBreak.toNat + 2000 ≤ e.2.toNat
        omega
      | inr he =>
        rw [List.mem_singleton.mp he]
        exact hbreak.le
  · obtain ⟨hb, hn⟩ := hh.break hf
    rw [handedStack_other hf, List.append_nil]
    exact ⟨hq, hcur, hb ▸ h.heap, by rw [hb, hn]; exact h.count, hb ▸ h.above⟩

theorem StackInv.safe {a : StackArea} {x : State × List (Int × UInt32)} {i : Trap × Ctx}
    (h : StackInv a x) (hroom : StackRoom a x i) : ForkSafe a x i := by
  intro r s' hf hr
  have hheap := hroom hf
  have hcount := h.count
  have hpos := h.queues.core.nextPos
  refine Or.inr ⟨?_, ?_⟩
  · intro y ⟨hlow, hhigh⟩
    exact ⟨by omega, by omega⟩
  · intro p _ _ b hb
    have hab : x.1.currentStackBreak.toNat + 2000 ≤ b.toNat := h.above _ hb
    refine Set.disjoint_left.mpr ?_
    rintro y ⟨-, hhigh⟩ ⟨hlow, -⟩
    omega

theorem StackInv.room {a : StackArea} {x : State × List (Int × UInt32)} {i : Trap × Ctx}
    (h : StackInv a x) (hsafe : ForkSafe a x i) : StackRoom a x i := by
  intro hf
  have hsmall := h.nextPid_small
  have hpos := h.queues.core.nextPos
  obtain ⟨s', hr⟩ := schedulerFork_ok h.queues h.current (by omega) i.2 (i.2.gpr 0) (i.2.gpr 1)
  rcases hsafe _ s' hf hr with hneg | ⟨hin, -⟩
  · omega
  · have hlow : ((x.1.currentStackBreak.toNat : Int) - 2000) ∈ stackRegion x.1.currentStackBreak := by
      exact ⟨le_refl _, by omega⟩
    have := (hin hlow).1
    omega

theorem stackSafe_iff {a : StackArea} {is : List (Trap × Ctx)} {x : State × List (Int × UInt32)}
    (h : StackInv a x) :
    PartialMachine.Along stackStep (ForkSafe a) is x ↔
      PartialMachine.Along stackStep (StackRoom a) is x := by
  induction is generalizing x with
  | nil => exact Iff.rfl
  | cons i is ih =>
    constructor
    · intro ⟨hsafe, hrest⟩
      exact ⟨h.room hsafe, fun y hy => (ih (h.next (h.room hsafe) hy)).mp (hrest y hy)⟩
    · intro ⟨hroom, hrest⟩
      exact ⟨h.safe hroom, fun y hy => (ih (h.next hroom hy)).mpr (hrest y hy)⟩

/-- In every run, each `fork` along it returns -1 or hands out a region inside the area that meets
the region of no process alive, if and only if each `fork` along it finds 2000 bytes between the
heap and the break. -/
theorem stacks_safe_iff (a : StackArea) (entrySh : UInt32) (fresh : Pcb) (is : List (Trap × Ctx)) :
    PartialMachine.Along stackStep (ForkSafe a) is (stackStart a entrySh fresh) ↔
      PartialMachine.Along stackStep (StackRoom a) is (stackStart a entrySh fresh) :=
  stackSafe_iff (StackInv.start a entrySh fresh)

/-- A process that forks `n` times needs room for `n` stacks. -/
theorem StackInv.forks_room {a : StackArea} {n : Nat} {x : State × List (Int × UInt32)}
    (h : StackInv a x)
    (hg : PartialMachine.Along stackStep (StackRoom a) (List.replicate n (.svc .fork, zeroCtx)) x) :
    a.heapTop.toNat + 2000 * n ≤ x.1.currentStackBreak.toNat := by
  induction n generalizing x with
  | zero => simpa using h.heap
  | succ n ih =>
    obtain ⟨hroom, hrest⟩ := hg
    have hsmall := h.nextPid_small
    obtain ⟨s', hr⟩ := schedulerFork_ok h.queues h.current (by omega) zeroCtx 0 0
    have hs : step x.1 (.svc .fork, zeroCtx) = some s' := by
      have hr' : schedulerFork zeroCtx (zeroCtx.gpr 0) (zeroCtx.gpr 1) x.1 =
        some (x.1.nextPid, s') := hr
      simp [step, handle, kernelHandlerSvc, hr']
    have hstep : stackStep x (.svc .fork, zeroCtx) =
        some (s', x.2 ++ handedStack x.1 (.svc .fork, zeroCtx)) := by
      simp [stackStep, hs]
    have hnext : a.heapTop.toNat + 2000 * n ≤ s'.currentStackBreak.toNat :=
      ih (h.next hroom hstep) (hrest _ hstep)
    have hle : a.heapTop.toNat + 2000 ≤ x.1.currentStackBreak.toNat := hroom rfl
    have hbreak : s'.currentStackBreak.toNat + 2000 = x.1.currentStackBreak.toNat := by
      rw [(schedulerFork_break h.queues h.current hr).2.1]
      exact toNat_break (by omega)
    calc a.heapTop.toNat + 2000 * (n + 1) = a.heapTop.toNat + 2000 * n + 2000 := by
          rw [Nat.mul_succ, Nat.add_assoc]
      _ ≤ s'.currentStackBreak.toNat + 2000 := Nat.add_le_add_right hnext 2000
      _ = x.1.currentStackBreak.toNat := hbreak

def someArea : StackArea := ⟨0x70100000, by decide⟩

/-- The shell has forked 130 times; the stack of the next child begins in the heap. -/
theorem stack_in_heap :
    ¬ ∀ is : List (Trap × Ctx),
      PartialMachine.Along stackStep (ForkSafe someArea) is (stackStart someArea 0 zeroPcb) := by
  intro h
  have hinv := StackInv.start someArea 0 zeroPcb
  have hroom : someArea.heapTop.toNat + 2000 * 131 ≤ (someArea.stackTopUsr - 2000).toNat :=
    hinv.forks_room ((stackSafe_iff hinv).mp (h (List.replicate 131 (.svc .fork, zeroCtx))))
  have hfirst := someArea.toNat_firstBreak
  omega

end MalapropOS.Scheduler
