import MalapropOS.Scheduler.Priority
import MalapropOS.Scheduler.Refinement

/-! Runs of the scheduler on its queues in memory. They go along with the runs of the model; and
the copies of the process list that `_lprocs` has given out stay as they were made. -/
namespace MalapropOS.Scheduler.Linked
open TailQueue

/-- The same on the lists. Neither a copy nor an allocation changes them. -/
def modelStep (s : State) : Act → Option (State × Option Ctx)
  | .trap trap ctx => (Scheduler.handle trap s ctx).map fun r => (r.1, some r.2)
  | .lprocs => some (s, none)
  | .allocate _ => some (s, none)

/-- The copies in `listed` are there, among others that may have been made since. -/
def Keeps (listed : Nat → Option (List (Nat × Pcb))) (m : Memory) (s : State) : Prop :=
  ∃ listed' elems, (∀ a ps, listed a = some ps → listed' a = some ps) ∧
    Represents listed' m elems s

section Steps
variable {listed : Nat → Option (List (Nat × Pcb))} {m : Memory} {s : State}

theorem Keeps.step (h : Keeps listed m s) (act : Act) :
    Option.Rel (fun a b => Keeps listed a.1 b.1 ∧ a.2 = b.2) (step m act) (modelStep s act) := by
  obtain ⟨listed', elems, hold, hr⟩ := h
  cases act with
  | trap trap ctx =>
    rw [Linked.step, modelStep, Option.map_eq_bind, Option.map_eq_bind]
    refine Lockstep.bind (hr.handle trap ctx) fun x y hxy => ?_
    obtain ⟨⟨elems', hr'⟩, hctx⟩ := hxy
    exact .some ⟨⟨listed', elems', hold, hr'⟩, congrArg some hctx⟩
  | lprocs =>
    obtain ⟨hnone, m', elems', ps, hm', -, hr'⟩ := hr.schedulerListProcs
    rw [Linked.step, hm']
    refine .some ⟨⟨_, elems', fun a qs ha => ?_, hr'⟩, rfl⟩
    have hne : a ≠ m.heapTop := by
      rintro rfl
      rw [hold _ qs ha] at hnone
      cases hnone
    rw [Function.update_of_ne hne]
    exact hold a qs ha
  | allocate n => exact .some ⟨⟨listed', elems, hold, hr.allocate n⟩, rfl⟩

/-- The queue of a copy, and what its elements hold. -/
theorem Keeps.copy (h : Keeps listed m s) {a : Nat} {ps : List (Nat × Pcb)}
    (ha : listed a = some ps) : IsQueue 0 m.links (.result a) (ps.map Prod.fst) ∧
      ∀ p ∈ ps, p.1 ≠ 0 ∧ m.pcb p.1 = p.2 := by
  obtain ⟨listed', elems, hold, hr⟩ := h
  have hpairs := hr.results a ps (hold a ps ha)
  have helems : elems (.result a) = ps.map Prod.fst := by
    rw [← hpairs, List.map_map]
    exact (List.map_id _).symm
  have hq := hr.shape.family.queue _ (result_mem (hold a ps ha))
  rw [helems] at hq
  refine ⟨hq, fun p hp => ?_⟩
  have hx : p ∈ (elems (.result a)).map fun x => (x, m.pcb x) := hpairs.symm ▸ hp
  obtain ⟨x, -, rfl⟩ := List.mem_map.mp hx
  exact ⟨hq.linked.ne_null x (List.mem_map_of_mem hp), rfl⟩

/-- What `proc` prints of a copy. -/
theorem Keeps.procLoop {a : Nat} {between : List (List Act)} {done rest : List (Nat × Pcb)}
    (h : Keeps listed m s) (ha : listed a = some (done ++ rest))
    (hrun : (Lockstep.trace modelStep between.flatten s).isSome) (hlen : rest.length ≤ between.length) :
    procLoop between ((rest.map Prod.fst).head?.getD 0) m =
      some (rest.map fun p => (p.2.pid, p.2.status)) := by
  induction between generalizing m s done rest with
  | nil =>
    obtain rfl := List.eq_nil_of_length_eq_zero (Nat.le_zero.mp hlen)
    rfl
  | cons acts later ih =>
    cases rest with
    | nil => simp [Linked.procLoop]
    | cons p rest =>
      obtain ⟨hne, hp⟩ := (h.copy ha).2 p (by simp)
      obtain ⟨r, hr, hlater⟩ := Lockstep.trace_append (hrun : (Lockstep.trace modelStep
        (acts ++ later.flatten) s).isSome)
      have hrel := Lockstep.trace_rel (g := id) (fun m s i h => h.step i) acts h
      rw [List.map_id, hr] at hrel
      obtain ⟨n, hn, hkeeps, -⟩ := Lockstep.exists_left hrel
      obtain ⟨hq, hpcb⟩ := hkeeps.copy ha
      have hnext : n.1.links.ref (.next p.1) = (rest.map Prod.fst).head?.getD 0 := by
        rw [List.map_append, List.map_cons] at hq
        exact hq.ref_next
      have hkept : listed a = some ((done ++ [p]) ++ rest) := by simpa using ha
      have hrest := ih hkeeps hkept hlater (Nat.le_of_succ_le_succ hlen)
      have hstatus : n.1.pcb p.1 = p.2 := (hpcb p (by simp)).2
      simp only [List.map_cons, List.head?_cons, Option.getD_some, Linked.procLoop, if_neg hne, hn,
        hnext, hrest, hp, hstatus, Option.bind_eq_bind, Option.bind_some]
      rfl

end Steps

section Start
variable {m : Memory}

/-- The four queues are empty behind their initialisation. -/
theorem initQueues_represents (htop : 0 < m.heapTop) : Represents (fun _ => none)
    (initQueues m) (fun _ => [])
    ⟨m.currentPid, m.nextPid, m.currentStackBreak, [], [], [], [], fun _ => 1⟩ := by
  have hempty : Family 0 m.links ∅ fun _ : Head => ([] : List Nat) := family_empty
  have hone := (hempty.init (h := .lowPriorityQueue) (by simp)).init (h := .highPriorityQueue) (by simp)
  have hall := (hone.init (h := .events) (by simp)).init (h := .processList) (by simp)
  have hheads : insert Head.processList (insert .events (insert .highPriorityQueue
      (insert .lowPriorityQueue ∅))) = heads fun _ => none := by
    ext h
    cases h <;> simp [heads]
  rw [hheads] at hall
  simp only [Function.update_eq_self] at hall
  exact ⟨⟨hall, by simp, by simp, htop⟩, ⟨_, rfl⟩, by simp⟩

/-- The shell is the only process. -/
theorem initialise_represents (entrySh : UInt32) (hnext : m.nextPid = 1) (htop : 0 < m.heapTop) :
    ∃ m' elems, schedulerInitialise entrySh m = some (m', { (m.pcb m.heapTop).ctx with
        cpsr := 0x50, pc := entrySh, sp := m.currentStackBreak }) ∧
      Represents (fun _ => none) m' elems
        (Scheduler.schedulerInitialise entrySh m.currentStackBreak (m.pcb m.heapTop)) := by
  have hr := initQueues_represents htop
  have hnew : getNewPid (initQueues m) = some (1, { initQueues m with nextPid := 2 }) := by
    simp [getNewPid, initQueues, initQueue, hnext]
  obtain ⟨htop', hbreak, hpcb⟩ : (initQueues m).heapTop = m.heapTop ∧
      (initQueues m).currentStackBreak = m.currentStackBreak ∧ (initQueues m).pcb = m.pcb :=
    ⟨rfl, rfl, rfl⟩
  rw [Linked.schedulerInitialise]
  simp only [hnew, setStackBreak, stdmemAllocate, Option.bind_eq_bind, Option.bind_some]
  generalize initQueues m = m₁ at *
  rw [← htop', ← hbreak, ← hpcb]
  obtain ⟨elems₁, hr₁⟩ := hr.addProcess 2 (m₁.currentStackBreak - 2000) { m₁.pcb m₁.heapTop with
    pid := 1
    ctx := { (m₁.pcb m₁.heapTop).ctx with cpsr := 0x50, pc := entrySh, sp := m₁.currentStackBreak }
    status := .running }
  obtain ⟨elems₂, -, hr₂⟩ := hr₁.appendPid (Or.inl rfl) 1
  have hrun : Option.Rel (Agree fun _ => none) _ (some (Scheduler.schedulerInitialise entrySh
    m₁.currentStackBreak (m₁.pcb m₁.heapTop), { (m₁.pcb m₁.heapTop).ctx with
      cpsr := 0x50, pc := entrySh, sp := m₁.currentStackBreak })) := hr₂.runProcess 1
  obtain ⟨x, hx, ⟨elems, hr'⟩, hctx⟩ := Lockstep.exists_left hrun
  exact ⟨x.1, elems, hx.trans (congrArg (fun c => some (x.1, c)) hctx), hr'⟩

/-- The state of the model at the start, when the memory is `m` before. -/
def modelStart (entrySh : UInt32) (m : Memory) : State :=
  Scheduler.schedulerInitialise entrySh m.currentStackBreak (m.pcb m.heapTop)

/-- `proc` prints the processes with the statuses that they have when it asks for them, whatever
runs in between. -/
theorem proc_prints_processes (entrySh : UInt32) (hnext : m.nextPid = 1) (htop : 0 < m.heapTop)
    {before : List Act} {between : List (List Act)} {s : State} {outs : List (Option Ctx)}
    (hs : Lockstep.trace modelStep before (modelStart entrySh m) = some (s, outs))
    (hrun : (Lockstep.trace modelStep between.flatten s).isSome)
    (hlen : s.processList.length ≤ between.length) :
    ∃ m' ctx m'', schedulerInitialise entrySh m = some (m', ctx) ∧
      Lockstep.trace step before m' = some (m'', outs) ∧
      proc between m'' = some (s.processList.map fun p => (p.pid, p.status)) := by
  obtain ⟨m', elems, hstart, hr⟩ := initialise_represents entrySh hnext htop
  have hkeeps : Keeps (fun _ => none) m' (modelStart entrySh m) := ⟨_, elems, fun _ _ h => h, hr⟩
  have hrel := Lockstep.trace_rel (g := id) (fun m s i h => h.step i) before hkeeps
  rw [List.map_id, hs] at hrel
  obtain ⟨a, ha, ⟨listed, elems', -, hr'⟩, rfl⟩ := Lockstep.exists_left hrel
  obtain ⟨-, m₂, elems₂, ps, hm₂, hps, hr₂⟩ := hr'.schedulerListProcs
  refine ⟨m', _, a.1, hstart, ha, ?_⟩
  have hkeeps₂ : Keeps (Function.update listed a.1.heapTop (some ps)) m₂ s :=
    ⟨_, elems₂, fun _ _ h => h, hr₂⟩
  have hcopy : Function.update listed a.1.heapTop (some ps) a.1.heapTop = some ([] ++ ps) :=
    Function.update_self ..
  have hfirst : m₂.first (.result a.1.heapTop) = (ps.map Prod.fst).head?.getD 0 :=
    (hkeeps₂.copy hcopy).1.ref_first
  have hproc : s.processList = ps.map Prod.snd := hps.symm
  rw [hproc, List.length_map] at hlen
  have hlines := hkeeps₂.procLoop hcopy hrun hlen
  rw [proc, hm₂, hproc, List.map_map]
  simp only [Option.bind_eq_bind, Option.bind_some, hfirst, hlines]
  rfl

/-- A memory with anything in it, but where a process starts. -/
def someMemory : Memory where
  links := ⟨fun _ => 7, fun _ => .first .events, fun _ => .next 7⟩
  pid _ := 5
  event _ := ⟨1, 1⟩
  pcb _ := zeroPcb
  heapTop := 4096
  currentPid := 0
  nextPid := 1
  currentStackBreak := 0x70180000

/-- The shell forks, and the child is preempted; the process list is copied in between. -/
def forkAndSwitch : List Act :=
  [.trap (.svc .fork) zeroCtx, .lprocs, .allocate 512, .trap .timer zeroCtx, .trap .timer zeroCtx]

/-- While the list is printed the timer switches between the two processes. -/
theorem proc_prints_two : ∃ m' ctx m'' outs, schedulerInitialise 0x70020000 someMemory =
    some (m', ctx) ∧ Lockstep.trace step [.trap (.svc .fork) zeroCtx] m' = some (m'', outs) ∧
    proc [[.trap .timer zeroCtx], [.lprocs, .trap .timer zeroCtx]] m'' =
      some [(1, .running), (2, .ready)] := by
  have hmodel : (Lockstep.trace modelStep [.trap (.svc .fork) zeroCtx]
      (modelStart 0x70020000 someMemory)).map (fun r => (r.1.processList.map fun p => (p.pid, p.status),
        (Lockstep.trace modelStep [.trap .timer zeroCtx, .lprocs, .trap .timer zeroCtx] r.1).isSome)) =
      some ([(1, .running), (2, .ready)], true) := by decide
  obtain ⟨b, hb, hboth⟩ := Option.map_eq_some_iff.mp hmodel
  obtain ⟨hlist, hrun⟩ := Prod.mk.inj hboth
  have hlen : b.1.processList.length = 2 := by simpa using congrArg List.length hlist
  obtain ⟨m', ctx, m'', hstart, htrace, hproc⟩ := proc_prints_processes (m := someMemory) 0x70020000 rfl
    (by decide) hb (show (Lockstep.trace modelStep ([[.trap .timer zeroCtx],
      [.lprocs, .trap .timer zeroCtx]] : List (List Act)).flatten b.1).isSome from hrun) hlen.le
  exact ⟨m', ctx, m'', b.2, hstart, htrace, hlist ▸ hproc⟩

end Start
end MalapropOS.Scheduler.Linked
