import Mathlib.Algebra.GroupWithZero.Nat
import Mathlib.Data.Fintype.Pi
import MalapropOS.Lib.Runs

/-! The scheduler of `scheduler.c` and the scheduling cases of the handlers in `kernel.c`.
A handler takes the kernel state and the context the trap saved, and returns both as it
leaves them; `none` stands for a NULL dereference or an overflow of `next_pid`.
`stdmem_allocate` is taken to succeed, and the stack frame that `fork` copies is left out:
no scheduler data depends on it. -/
namespace MalapropOS.Scheduler

instance instNeZeroGpr : NeZero 13 := ⟨by decide⟩

structure Ctx where
  cpsr : UInt32
  pc : UInt32
  gpr : Fin 13 → UInt32
  sp : UInt32
  lr : UInt32
  deriving DecidableEq

def Ctx.setGpr (c : Ctx) (i : Fin 13) (v : UInt32) : Ctx :=
  { c with gpr := Function.update c.gpr i v }

/-- A register read as the signed `pid_t` or `int32_t` the handler casts it to. -/
def signed (r : UInt32) : Int := r.toInt32.toInt

inductive ProcessStatus where
  | running | ready | blocked | terminated
  deriving DecidableEq

/-- `event_t`. The event code comes from user space unchecked, so it is any integer. -/
structure Event where
  event : Int
  fromProcess : Int
  deriving DecidableEq

def processEventExited : Int := 1
def processEventSuspended : Int := 2
def processEventUnsuspended : Int := 3
def processEventBlocked : Int := 4
def processEventCreated : Int := 6

def sigkill : Int := 9
def waitpidNohang : UInt32 := 1

structure Pcb where
  pid : Int
  ctx : Ctx
  status : ProcessStatus
  blockedUntil : Event
  deriving DecidableEq

structure State where
  currentPid : Int
  nextPid : Int
  currentStackBreak : UInt32
  events : List Event
  processList : List Pcb
  lowQueue : List Int
  highQueue : List Int
  /-- History variable: the priority 0 or 1 that `set_priority` last gave to a pid.
  No function of the kernel reads it. -/
  prio : Int → Int

def findProcess (s : State) (pid : Int) : Option Pcb :=
  s.processList.find? (fun p => p.pid = pid)

/-- A write through the pointer that `find_process` returned. -/
def updateProcess (pid : Int) (f : Pcb → Pcb) : List Pcb → List Pcb
  | [] => []
  | p :: ps => if p.pid = pid then f p :: ps else p :: updateProcess pid f ps

def withProcess (pid : Int) (f : Pcb → Pcb) (s : State) : Option State :=
  match findProcess s pid with
  | none => none
  | some _ => some { s with processList := updateProcess pid f s.processList }

def saveCurrentProcess (ctx : Ctx) (s : State) : Option State :=
  withProcess s.currentPid (fun p => { p with ctx := ctx }) s

def runProcess (pid : Int) (s : State) : Option (State × Ctx) :=
  match findProcess s pid with
  | none => none
  | some p => some ({ s with currentPid := pid }, p.ctx)

/-- The `switch` has no `break`: priority 0 goes on into the case of priority 1. -/
def removePid (pid priority : Int) (s : State) : State :=
  if priority = 0 then
    { s with highQueue := s.highQueue.filter (· ≠ pid), lowQueue := s.lowQueue.filter (· ≠ pid) }
  else if priority = 1 then
    { s with lowQueue := s.lowQueue.filter (· ≠ pid) }
  else s

/-- The `switch` has no `break` here either. -/
def addPid (pid priority : Int) (s : State) : State :=
  if priority = 0 then
    { s with highQueue := s.highQueue ++ [pid], lowQueue := s.lowQueue ++ [pid] }
  else if priority = 1 then
    { s with lowQueue := s.lowQueue ++ [pid] }
  else s

def notePriority (pid priority : Int) (s : State) : State :=
  if priority = 0 ∨ priority = 1 then { s with prio := Function.update s.prio pid priority } else s

def setPriority (pid priority : Int) (s : State) : State :=
  notePriority pid priority (addPid pid priority (removePid pid priority s))

def getNextProcess (priority : Int) (s : State) : Int × State :=
  if priority = 0 then
    match s.highQueue with
    | [] => (-1, s)
    | x :: xs => (x, { s with highQueue := xs ++ [x] })
  else if priority = 1 then
    match s.lowQueue with
    | [] => (-1, s)
    | x :: xs => (x, { s with lowQueue := xs ++ [x] })
  else (-1, s)

/-- The choice `scheduler_run` makes: the high queue first, the low one when that gave -1. -/
def chooseNext (s : State) : Int × State :=
  if (getNextProcess 0 s).1 = -1 then getNextProcess 1 (getNextProcess 0 s).2
  else getNextProcess 0 s

def schedulerRun (s : State) (ctx : Ctx) : Option (State × Ctx) := do
  let t ← saveCurrentProcess ctx (chooseNext s).2
  runProcess (chooseNext s).1 t

def wakes (event : Event) (p : Pcb) : Bool :=
  p.status = .blocked ∧ p.blockedUntil.event = event.event ∧
    p.blockedUntil.fromProcess = event.fromProcess

def wake (event : Event) (p : Pcb) : Pcb :=
  if wakes event p then
    { p with status := .running, ctx := p.ctx.setGpr 0 (UInt32.ofInt event.fromProcess) }
  else p

def recordEvent (event : Event) (s : State) : State :=
  if event.event ≠ processEventSuspended ∧ event.event ≠ processEventUnsuspended then
    { s with events := s.events ++ [event] }
  else s

def requeueWoken (event : Event) : List Pcb → State → State
  | [], s => s
  | p :: ps, s => requeueWoken event ps (if wakes event p then setPriority p.pid 1 s else s)

/-- The traversal of `process_list`: every waiter is woken in place and queued again. -/
def wakeAll (event : Event) (s : State) : State :=
  requeueWoken event s.processList { s with processList := s.processList.map (wake event) }

def schedulerEmitEvent (event : Event) (s : State) : State :=
  wakeAll event (recordEvent event s)

def schedulerBlockProcess (ctx : Ctx) (untilEvent : Event) (s : State) :
    Option (Int × State × Ctx) := do
  let s ← saveCurrentProcess ctx s
  let s ← withProcess s.currentPid
    (fun p => { p with blockedUntil := untilEvent, status := .blocked }) s
  let s := removePid s.currentPid 1 (removePid s.currentPid 0 s)
  let s := schedulerEmitEvent ⟨processEventBlocked, s.currentPid⟩ s
  let (s, ctx) ← schedulerRun s ctx
  return (untilEvent.fromProcess, s, ctx)

def schedulerHasEventOccurred (event : Event) (s : State) : Int :=
  match s.events.find? (fun e => e.event = event.event ∧ e.fromProcess = event.fromProcess) with
  | some _ => event.fromProcess
  | none => 0

def schedulerExit (s : State) (ctx : Ctx) : Option (State × Ctx) := do
  let exitedPid := s.currentPid
  let s := removePid exitedPid 1 (removePid exitedPid 0 s)
  let (s, ctx) ← schedulerRun s ctx
  if s.currentPid ≠ exitedPid then
    let s ← withProcess exitedPid (fun p => { p with status := .terminated }) s
    return (schedulerEmitEvent ⟨processEventExited, exitedPid⟩ s, ctx)
  else
    -- prints "Scheduler: cannot exit last remaining process"
    return (s, ctx)

def schedulerKill (ctx : Ctx) (pid : Int) (s : State) : Option (Int × State × Ctx) := do
  let s := removePid pid 1 (removePid pid 0 s)
  let (s, ctx) ← schedulerRun s ctx
  let s ← withProcess pid (fun p => { p with status := .terminated }) s
  return (0, schedulerEmitEvent ⟨processEventExited, pid⟩ s, ctx)

def schedulerSetpriority (pid priority : Int) (s : State) : Int × State :=
  (0, setPriority pid priority s)

/-- The context of the child: a copy of the parent's with its own stack and result 0. -/
def forkCtx (ctx : Ctx) (newBreak sp fp : UInt32) : Ctx :=
  { (ctx.setGpr 0 0).setGpr 11 (newBreak - (fp - ctx.gpr 11)) with sp := newBreak - (fp - sp) }

def schedulerFork (ctx : Ctx) (sp fp : UInt32) (s : State) : Option (Int × State) := do
  if s.currentPid < 1 then
    -- prints "Scheduler: no process currently executing"
    return (-1, s)
  if s.nextPid = 2147483647 then failure
  let newPid := s.nextPid
  let newBreak := s.currentStackBreak
  let parent ← findProcess s s.currentPid
  let child : Pcb :=
    { pid := newPid, ctx := forkCtx ctx newBreak sp fp, status := .ready,
      blockedUntil := parent.blockedUntil }
  let s := { s with
    nextPid := newPid + 1
    currentStackBreak := newBreak - 2000
    processList := s.processList ++ [child] }
  return (newPid, schedulerEmitEvent ⟨processEventCreated, newPid⟩ (setPriority newPid 1 s))

def schedulerGetpid (s : State) : Int := s.currentPid

def schedulerExec (ctx : Ctx) (function argc argv : UInt32) (s : State) : Option (State × Ctx) := do
  let ctx := { (ctx.setGpr 0 argc).setGpr 1 argv with pc := function }
  let s ← saveCurrentProcess ctx s
  let s ← withProcess s.currentPid (fun p => { p with status := .running }) s
  return (s, ctx)

/-- `fresh` is what the allocated block holds before the fields are assigned. -/
def schedulerInitialise (entrySh stackTopUsr : UInt32) (fresh : Pcb) : State :=
  let sh : Pcb := { fresh with
    pid := 1
    ctx := { fresh.ctx with cpsr := 0x50, pc := entrySh, sp := stackTopUsr }
    status := .running }
  { currentPid := 1, nextPid := 2, currentStackBreak := stackTopUsr - 2000, events := []
    processList := [sh], lowQueue := [1], highQueue := [], prio := fun _ => 1 }

/-- The cases of `kernel_handler_svc`. Those that call the file system or the message
queue only store their result in r0 and are one case here. -/
inductive Svc where
  | exit                          -- 0
  | fork                          -- 2
  | waitpid                       -- 7
  | getpid                        -- 20
  | kill (uninitialised : UInt32) -- 37; the local `result` is assigned for SIGKILL only
  | setpriority                   -- 97
  | yield                         -- 158
  | exec                          -- 1000
  | other (result : UInt32)
  | unknown
  deriving DecidableEq

def isNohang (options : UInt32) : Bool := options &&& waitpidNohang ≠ 0

/-- The writes to `ctx` after a scheduler call go to whatever `ctx` then holds. -/
def kernelHandlerSvc (svc : Svc) (s : State) (ctx : Ctx) : Option (State × Ctx) :=
  match svc with
  | .exit => schedulerExit s ctx
  | .fork => do
    let (result, s) ← schedulerFork ctx (ctx.gpr 0) (ctx.gpr 1) s
    return (s, ctx.setGpr 0 (UInt32.ofInt result))
  | .waitpid => do
    let untilEvent : Event := ⟨signed (ctx.gpr 0), signed (ctx.gpr 1)⟩
    if isNohang (ctx.gpr 2) then
      return (s, ctx.setGpr 0 (UInt32.ofInt (schedulerHasEventOccurred untilEvent s)))
    else
      let (result, s, ctx) ← schedulerBlockProcess ctx untilEvent s
      return (s, ctx.setGpr 0 (UInt32.ofInt result))
  | .getpid => some (s, ctx.setGpr 0 (UInt32.ofInt (schedulerGetpid s)))
  | .kill uninitialised => do
    if signed (ctx.gpr 1) = sigkill then
      let (result, s, ctx) ← schedulerKill ctx (signed (ctx.gpr 0)) s
      return (s, ctx.setGpr 0 (UInt32.ofInt result))
    else
      return (s, ctx.setGpr 0 uninitialised)
  | .setpriority =>
    let r := schedulerSetpriority (signed (ctx.gpr 0)) (signed (ctx.gpr 2)) s
    some (r.2, ctx.setGpr 0 (UInt32.ofInt r.1))
  | .yield => schedulerRun s ctx
  | .exec => schedulerExec ctx (ctx.gpr 0) (ctx.gpr 1) (ctx.gpr 2) s
  | .other result => some (s, ctx.setGpr 0 result)
  | .unknown => some (s, ctx)

/-- What takes the processor out of user mode: the timer, the UART, a supervisor call. -/
inductive Trap where
  | timer
  | uart
  | svc (svc : Svc)
  deriving DecidableEq

def handle : Trap → State → Ctx → Option (State × Ctx)
  | .timer, s, ctx => schedulerRun s ctx
  | .uart, s, ctx => some (s, ctx)
  | .svc c, s, ctx => kernelHandlerSvc c s ctx

/-- One step of the system: the running process reaches a trap with any register contents. -/
def step (s : State) (i : Trap × Ctx) : Option State := (handle i.1 s i.2).map Prod.fst

abbrev run := PartialMachine.run step

end MalapropOS.Scheduler
