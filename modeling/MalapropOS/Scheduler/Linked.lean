import MalapropOS.Lib.Lockstep
import MalapropOS.Lib.QueueFamily
import MalapropOS.Scheduler.Model

/-! The scheduler of `scheduler.c` with its tail queues as they are in memory: heads, links, and
elements from the heap. What the queues hold are the lists of the model. A loop along a queue runs
at most as many rounds as the heap has bytes; `none` stands for a longer loop, a NULL
dereference or an overflow of `next_pid`. -/
namespace MalapropOS.Scheduler.Linked
open TailQueue

inductive Head where
  | lowPriorityQueue
  | highPriorityQueue
  | events
  | processList
  | result (a : Nat)  -- allocated by `scheduler_list_procs`
  deriving DecidableEq

/-- Elements have addresses in the heap. What they hold besides their links is kept by kind:
`tailq_pid_t` and `tailq_pidh_t`, `tailq_event_t`, `tailq_pcb_t`. -/
structure Memory where
  links : Links Head Nat
  pid : Nat → Int
  event : Nat → Event
  pcb : Nat → Pcb
  heapTop : Nat
  currentPid : Int
  nextPid : Int
  currentStackBreak : UInt32

def stdmemAllocate (size : Nat) (m : Memory) : Nat × Memory :=
  (m.heapTop, { m with heapTop := m.heapTop + size })

def Memory.first (m : Memory) (h : Head) : Nat := m.links.ref (.first h)

def initQueue (h : Head) (m : Memory) : Memory := { m with links := TailQueue.init 0 m.links h }

def insertTail (h : Head) (a : Nat) (m : Memory) : Memory :=
  { m with links := TailQueue.insertTail 0 m.links h a }

def remove (h : Head) (a : Nat) (m : Memory) : Memory :=
  { m with links := TailQueue.remove 0 m.links h a }

def loop (h : Head) (body : Nat → Memory → Option Memory) (m : Memory) : Option Memory :=
  forEach 0 Memory.links body m.heapTop (m.first h) m

def setStackBreak (increment : UInt32) (m : Memory) : UInt32 × Memory :=
  (m.currentStackBreak, { m with currentStackBreak := m.currentStackBreak - increment })

def getNewPid (m : Memory) : Option (Int × Memory) :=
  if m.nextPid = 2147483647 then none else some (m.nextPid, { m with nextPid := m.nextPid + 1 })

/-- The address of the process, or NULL. -/
def findProcess (m : Memory) (pid : Int) : Option Nat :=
  findFirst 0 (fun a => (m.pcb a).pid = pid) m.links m.heapTop (m.first .processList)

def pcbAt (m : Memory) (a : Nat) : Option Pcb := if a = 0 then none else some (m.pcb a)

def writePcb (a : Nat) (f : Pcb → Pcb) (m : Memory) : Option Memory :=
  if a = 0 then none else some { m with pcb := Function.update m.pcb a (f (m.pcb a)) }

def saveCurrentProcess (ctx : Ctx) (m : Memory) : Option Memory := do
  let currentProcess ← findProcess m m.currentPid
  writePcb currentProcess (fun p => { p with ctx := ctx }) m

def runProcess (pid : Int) (m : Memory) : Option (Memory × Ctx) := do
  let toSchedule ← findProcess m pid
  let p ← pcbAt m toSchedule
  return ({ m with currentPid := pid }, p.ctx)

/-- The loop goes on from the element that it has just removed. -/
def removeFrom (h : Head) (pid : Int) : Memory → Option Memory :=
  loop h fun item m => some (if m.pid item = pid then remove h item m else m)

def removePid (pid priority : Int) (m : Memory) : Option Memory :=
  if priority = 0 then (removeFrom .highPriorityQueue pid m).bind (removeFrom .lowPriorityQueue pid)
  else if priority = 1 then removeFrom .lowPriorityQueue pid m
  else some m

def appendPid (h : Head) (pid : Int) (m : Memory) : Memory :=
  let (a, m) := stdmemAllocate 12 m
  insertTail h a { m with pid := Function.update m.pid a pid }

def addPid (pid priority : Int) (m : Memory) : Memory :=
  if priority = 0 then appendPid .lowPriorityQueue pid (appendPid .highPriorityQueue pid m)
  else if priority = 1 then appendPid .lowPriorityQueue pid m
  else m

def setPriority (pid priority : Int) (m : Memory) : Option Memory :=
  (removePid pid priority m).map (addPid pid priority)

/-- The first element goes to the back. -/
def takeTurn (h : Head) (m : Memory) : Int × Memory :=
  let a := m.first h
  if a = 0 then (-1, m) else (m.pid a, insertTail h a (remove h a m))

def getNextProcess (priority : Int) (m : Memory) : Int × Memory :=
  if priority = 0 then takeTurn .highPriorityQueue m
  else if priority = 1 then takeTurn .lowPriorityQueue m
  else (-1, m)

def chooseNext (m : Memory) : Int × Memory :=
  if (getNextProcess 0 m).1 = -1 then getNextProcess 1 (getNextProcess 0 m).2
  else getNextProcess 0 m

def schedulerRun (m : Memory) (ctx : Ctx) : Option (Memory × Ctx) := do
  let n ← saveCurrentProcess ctx (chooseNext m).2
  runProcess (chooseNext m).1 n

def recordEvent (event : Event) (m : Memory) : Memory :=
  if event.event ≠ processEventSuspended ∧ event.event ≠ processEventUnsuspended then
    let (ev, m) := stdmemAllocate 16 m
    insertTail .events ev { m with event := Function.update m.event ev event }
  else m

def wakeItem (event : Event) (item : Nat) (m : Memory) : Option Memory :=
  if wakes event (m.pcb item) then do
    let m ← writePcb item (fun p => { p with
      status := .running, ctx := p.ctx.setGpr 0 (UInt32.ofInt event.fromProcess) }) m
    setPriority (m.pcb item).pid 1 m
  else some m

def schedulerEmitEvent (event : Event) (m : Memory) : Option Memory :=
  loop .processList (wakeItem event) (recordEvent event m)

def schedulerBlockProcess (ctx : Ctx) (untilEvent : Event) (m : Memory) :
    Option (Int × Memory × Ctx) := do
  let m ← saveCurrentProcess ctx m
  let currentProcess ← findProcess m m.currentPid
  let m ← writePcb currentProcess (fun p => { p with
    blockedUntil := untilEvent, status := .blocked }) m
  let m ← removePid m.currentPid 0 m
  let m ← removePid m.currentPid 1 m
  let m ← schedulerEmitEvent ⟨processEventBlocked, m.currentPid⟩ m
  let (m, ctx) ← schedulerRun m ctx
  return (untilEvent.fromProcess, m, ctx)

def schedulerHasEventOccurred (event : Event) (m : Memory) : Option Int := do
  let item ← findFirst 0 (fun a => (m.event a).event = event.event ∧
    (m.event a).fromProcess = event.fromProcess) m.links m.heapTop (m.first .events)
  return if item = 0 then 0 else event.fromProcess

/-- `find_process` and the assignment of `PROCESS_STATUS_TERMINATED`. -/
def markTerminated (pid : Int) (m : Memory) : Option Memory := do
  let exitedProcess ← findProcess m pid
  writePcb exitedProcess (fun p => { p with status := .terminated }) m

def schedulerExit (m : Memory) (ctx : Ctx) : Option (Memory × Ctx) := do
  let exitedPid := m.currentPid
  let m ← removePid m.currentPid 0 m
  let m ← removePid m.currentPid 1 m
  let (m, ctx) ← schedulerRun m ctx
  if m.currentPid ≠ exitedPid then
    let m ← markTerminated exitedPid m
    let m ← schedulerEmitEvent ⟨processEventExited, exitedPid⟩ m
    return (m, ctx)
  else
    return (m, ctx)

def schedulerKill (ctx : Ctx) (pid : Int) (m : Memory) : Option (Int × Memory × Ctx) := do
  let m ← removePid pid 0 m
  let m ← removePid pid 1 m
  let (m, ctx) ← schedulerRun m ctx
  let m ← markTerminated pid m
  let m ← schedulerEmitEvent ⟨processEventExited, pid⟩ m
  return (0, m, ctx)

def schedulerSetpriority (pid priority : Int) (m : Memory) : Option (Int × Memory) := do
  let m ← setPriority pid priority m
  return (0, m)

def schedulerFork (ctx : Ctx) (sp fp : UInt32) (m : Memory) : Option (Int × Memory) := do
  if m.currentPid < 1 then
    return (-1, m)
  let (newProcess, m) := stdmemAllocate 92 m
  let (newPid, m) ← getNewPid m
  let (newBreak, m) := setStackBreak 2000 m
  let processToCopy ← findProcess m m.currentPid
  let parent ← pcbAt m processToCopy
  let child : Pcb :=
    { pid := newPid, ctx := forkCtx ctx newBreak sp fp, status := .ready,
      blockedUntil := parent.blockedUntil }
  let m := insertTail .processList newProcess
    { m with pcb := Function.update m.pcb newProcess child }
  let m ← setPriority newPid 1 m
  let m ← schedulerEmitEvent ⟨processEventCreated, newPid⟩ m
  return (newPid, m)

def schedulerExec (ctx : Ctx) (function argc argv : UInt32) (m : Memory) :
    Option (Memory × Ctx) := do
  let ctx := { (ctx.setGpr 0 argc).setGpr 1 argv with pc := function }
  let m ← saveCurrentProcess ctx m
  let currentProcess ← findProcess m m.currentPid
  let m ← writePcb currentProcess (fun p => { p with status := .running }) m
  return (m, ctx)

/-- The copy of an element, at the tail of the new queue. -/
def copyItem (result item : Nat) (m : Memory) : Option Memory :=
  let (copiedItem, m) := stdmemAllocate 92 m
  some (insertTail (.result result) copiedItem
    { m with pcb := Function.update m.pcb copiedItem (m.pcb item) })

def schedulerListProcs (m : Memory) : Option (Nat × Memory) := do
  let (result, m) := stdmemAllocate 8 m
  let m ← loop .processList (copyItem result) (initQueue (.result result) m)
  return (result, m)

def initQueues (m : Memory) : Memory :=
  let m := initQueue .lowPriorityQueue m
  let m := initQueue .highPriorityQueue m
  let m := initQueue .events m
  initQueue .processList m

/-- The elements hold anything before their fields are assigned. -/
def schedulerInitialise (entrySh : UInt32) (m : Memory) : Option (Memory × Ctx) := do
  let (newPid, m) ← getNewPid (initQueues m)
  let (newSp, m) := setStackBreak 2000 m
  let (sh, m) := stdmemAllocate 92 m
  let m := insertTail .processList sh { m with
    pcb := Function.update m.pcb sh { m.pcb sh with
      pid := newPid
      ctx := { (m.pcb sh).ctx with cpsr := 0x50, pc := entrySh, sp := newSp }
      status := .running } }
  runProcess newPid (appendPid .lowPriorityQueue newPid m)

def kernelHandlerSvc (svc : Svc) (m : Memory) (ctx : Ctx) : Option (Memory × Ctx) :=
  match svc with
  | .exit => schedulerExit m ctx
  | .fork => do
    let (result, m) ← schedulerFork ctx (ctx.gpr 0) (ctx.gpr 1) m
    return (m, ctx.setGpr 0 (UInt32.ofInt result))
  | .waitpid => do
    let untilEvent : Event := ⟨signed (ctx.gpr 0), signed (ctx.gpr 1)⟩
    if isNohang (ctx.gpr 2) then
      let result ← schedulerHasEventOccurred untilEvent m
      return (m, ctx.setGpr 0 (UInt32.ofInt result))
    else
      let (result, m, ctx) ← schedulerBlockProcess ctx untilEvent m
      return (m, ctx.setGpr 0 (UInt32.ofInt result))
  | .getpid => some (m, ctx.setGpr 0 (UInt32.ofInt m.currentPid))
  | .kill uninitialised => do
    if signed (ctx.gpr 1) = sigkill then
      let (result, m, ctx) ← schedulerKill ctx (signed (ctx.gpr 0)) m
      return (m, ctx.setGpr 0 (UInt32.ofInt result))
    else
      return (m, ctx.setGpr 0 uninitialised)
  | .setpriority => do
    let (result, m) ← schedulerSetpriority (signed (ctx.gpr 0)) (signed (ctx.gpr 2)) m
    return (m, ctx.setGpr 0 (UInt32.ofInt result))
  | .yield => schedulerRun m ctx
  | .exec => schedulerExec ctx (ctx.gpr 0) (ctx.gpr 1) (ctx.gpr 2) m
  | .other result => some (m, ctx.setGpr 0 result)
  | .unknown => some (m, ctx)

def handle : Trap → Memory → Ctx → Option (Memory × Ctx)
  | .timer, m, ctx => schedulerRun m ctx
  | .uart, m, ctx => some (m, ctx)
  | .svc c, m, ctx => kernelHandlerSvc c m ctx

/-- A trap, a `_lprocs` call, or an allocation elsewhere in the kernel. -/
inductive Act where
  | trap (trap : Trap) (ctx : Ctx)
  | lprocs
  | allocate (n : Nat)

/-- The memory, and the context that a trap leaves. -/
def step (m : Memory) : Act → Option (Memory × Option Ctx)
  | .trap trap ctx => (handle trap m ctx).map fun r => (r.1, some r.2)
  | .lprocs => (schedulerListProcs m).map fun r => (r.2, none)
  | .allocate n => some ({ m with heapTop := m.heapTop + n }, none)

/-- The loop of `proc.c` from `item` on, with what it prints of an element. It runs in user mode:
`acts` come between two readings. -/
def procLoop : List (List Act) → Nat → Memory → Option (List (Int × ProcessStatus))
  | [], item, _ => if item = 0 then some [] else none
  | acts :: later, item, m =>
    if item = 0 then some []
    else do
      let (n, _) ← Lockstep.trace step acts m
      let lines ← procLoop later (n.links.ref (.next item)) n
      return ((m.pcb item).pid, (n.pcb item).status) :: lines

def proc (acts : List (List Act)) (m : Memory) : Option (List (Int × ProcessStatus)) := do
  let (processes, m) ← schedulerListProcs m
  procLoop acts (m.first (.result processes)) m

end MalapropOS.Scheduler.Linked
