import MalapropOS.Startup

/-! Runs of the processor: the reset, programs in user mode, and the traps with the handlers of
`startup.s` and the scheduler. A process that is resumed has the registers that it was suspended
with. -/
namespace MalapropOS.Startup
open Arm Scheduler

/-- The number in the instruction, for the cases of `kernel_handler_svc`. -/
def svcNumbers : List UInt32 :=
  [3, 4, 5, 6, 10, 12, 18, 19, 28, 39, 141, 183, 1001, 1002, 1003, 1004]

def Numbered : Svc → UInt32 → Prop
  | .exit, id => id = 0
  | .fork, id => id = 2
  | .waitpid, id => id = 7
  | .getpid, id => id = 20
  | .kill _, id => id = 37
  | .setpriority, id => id = 97
  | .yield, id => id = 158
  | .exec, id => id = 1000
  | .other _, id => id ∈ svcNumbers
  | .unknown, id => id ∉ [0, 2, 7, 20, 37, 97, 158, 1000] ++ svcNumbers

/-- The context that the program has when the trap is over. -/
def trapCtx (trap : Trap) (m : Machine) : Ctx := userCtx m (resumePc trap m.pc)

/-- A trap of the running program, with the C handler doing to the context what `handle` does. -/
structure TrapTaken (l : Layout) (s : State) (m : Machine) (trap : Trap) (s' : State) (exit : Ctx)
    (n : Machine) : Prop where
  user : modeOf m.cpsr = some .usr
  code : ArmCode m
  number : ∀ c, trap = .svc c → Numbered c (m.mem m.pc &&& 0x00ffffff)
  handled : handle trap s (trapCtx trap m) = some (s', exit)
  step : ∃ call, Serves call l trap m exit ∧ trapStep call l trap m = some n

/-- Instructions of a program in user mode. They cannot reach the stack pointers of the other modes;
the program leaves the vectors alone. -/
structure UserStep (l : Layout) (m n : Machine) : Prop where
  mode : modeOf m.cpsr = some .usr ∧ modeOf n.cpsr = some .usr
  kernelStacks : ∀ q, q ≠ .usr → n.sp q = m.sp q
  table : TableAt l n.mem

/-- The reset, with a C handler that starts the process `ctx`. -/
structure BootTaken (l : Layout) (ctx : Ctx) (m n : Machine) : Prop where
  mode : Privileged .svc m
  start : m.pc = l.label 0
  table : TableIn l m.mem
  step : ∃ call, (∀ k, Booted l k → ∃ n, call .kernelHandlerRst k = some n ∧
      ctxAt n.mem (k.r 0) = ctx ∧ Returned k n ∧ TableAt l n.mem) ∧ bootStep call l m = some n

/-- The runs, with their traps, the latest first. -/
inductive SystemRun (l : Layout) (start : State) (ctx : Ctx) :
    List Visit → State → Machine → Prop
  | boot {m n : Machine} (h : BootTaken l ctx m n) : SystemRun l start ctx [] start n
  | user {vs : List Visit} {s : State} {m n : Machine} (hs : SystemRun l start ctx vs s m)
      (h : UserStep l m n) : SystemRun l start ctx vs s n
  | trap {vs : List Visit} {s s' : State} {m n : Machine} {trap : Trap} {exit : Ctx}
      (hs : SystemRun l start ctx vs s m) (h : TrapTaken l s m trap s' exit n) :
      SystemRun l start ctx (⟨s, trap, trapCtx trap m, s', exit⟩ :: vs) s' n

/-- The registers of the program are those of the context; of the status register, the flags and
the control bits are. -/
structure Restored (ctx : Ctx) (m : Machine) : Prop where
  r : m.r = ctx.gpr
  sp : m.sp .usr = ctx.sp
  lr : m.lr .usr = ctx.lr
  cpsr : m.cpsr &&& 0xff0000ff = ctx.cpsr &&& 0xff0000ff
  pc : m.pc = ctx.pc

/-- The context belongs to ARM code. -/
def ArmCtx (ctx : Ctx) : Prop := ctx.cpsr &&& 0x20 = 0 ∧ Aligned ctx.pc

section Contexts
variable {l : Layout} {trap : Trap} {m : Machine} {ctx : Ctx}

theorem Shows.restored (h : Shows ctx m) (ha : ArmCtx ctx) : Restored ctx m :=
  ⟨h.r, h.sp, h.lr, h.cpsr, h.pc.trans (branchTarget_aligned ha.1 ha.2)⟩

theorem trapCtx_arm (h : ArmCode m) : ArmCtx (trapCtx trap m) := by
  refine ⟨h.arm, ?_⟩
  cases trap with
  | timer => exact h.aligned
  | uart => exact h.aligned
  | svc c => exact aligned_add h.aligned (by decide)

theorem resumeCtx_arm (h : ArmCtx ctx) : ArmCtx (resumeCtx trap ctx) := by
  fun_cases resumeCtx <;> exact h

theorem descheduled_arm {vs : List Visit} {p : Int} (h : ∀ v ∈ vs, ArmCtx v.entry)
    (hc : descheduled p vs = some ctx) : ArmCtx ctx := by
  induction vs with
  | nil => cases hc
  | cons v vs ih =>
    obtain ⟨hv, hvs⟩ := List.forall_mem_cons.mp h
    rw [descheduled] at hc
    split_ifs at hc
    · obtain rfl := Option.some.inj hc
      exact resumeCtx_arm hv
    · exact ih hvs hc

end Contexts

/-- A trap whose C handler does not switch and does not write to the context. -/
theorem Switched.same {s s' : State} {ctx ctx' : Ctx} (hi : QueueInv s)
    (h : schedulerRun s ctx = some (s', ctx')) (hp : s'.currentPid = s.currentPid) :
    ctx' = ctx := by
  have hsw := schedulerRun_switched h
  obtain ⟨p, hm, hpid, rfl⟩ := hsw.found
  obtain ⟨q, hm', hpid', rfl⟩ := hsw.stored hi.core
  have hnodup := (hi.core.switched hsw).pidsNodup
  rw [List.inj_on_of_nodup_map hnodup hm hm' (hpid.trans (hp.trans hpid'.symm))]

section Runs
variable {l : Layout} {vs : List Visit} {s : State} {m : Machine}

/-- What holds whenever a program runs. -/
structure RunInv (l : Layout) (vs : List Visit) (s : State) (m : Machine) : Prop where
  owed : OwedInv vs s
  arm : ∀ v ∈ vs, ArmCtx v.entry
  svcStack : m.sp .svc = l.stackTopSvc
  irqStack : m.sp .irq = l.stackTopIrq
  table : TableAt l m.mem

theorem RunInv.trap_shows {trap : Trap} {s' : State} {exit : Ctx} {n : Machine}
    (htops : Aligned l.stackTopSvc ∧ Aligned l.stackTopIrq) (h : RunInv l vs s m)
    (ht : TrapTaken l s m trap s' exit n) : Shows exit n ∧ n.sp .svc = l.stackTopSvc ∧
      n.sp .irq = l.stackTopIrq ∧ TableAt l n.mem := by
  obtain ⟨call, hserves, hstep⟩ := ht.step
  obtain ⟨n', hn', hshows, hstacks, htable⟩ := trapStep_shows h.table (h.irqStack ▸ htops.2)
    (h.svcStack ▸ htops.1) ht.code hserves
  obtain rfl := Option.some.inj (hstep.symm.trans hn')
  exact ⟨hshows, (hstacks .svc (by decide)).trans h.svcStack,
    (hstacks .irq (by decide)).trans h.irqStack, htable⟩

theorem runInv_of_run {entrySh stackTopUsr : UInt32} {fresh : Pcb} {ctx : Ctx} (hl : l.Linked)
    (htops : Aligned l.stackTopSvc ∧ Aligned l.stackTopIrq)
    (h : SystemRun l (schedulerInitialise entrySh stackTopUsr fresh) ctx vs s m)
    (hg : ∀ v ∈ vs, StaysCurrent v.before v.trap v.entry) : RunInv l vs s m := by
  induction h with
  | boot h =>
    obtain ⟨call, hcall, hboot⟩ := h.step
    obtain ⟨n, hn, -, hsvc, hirq, htable⟩ := boot_runs call hl htops.1 h.mode h.start h.table hcall
    obtain rfl := Option.some.inj (hboot.symm.trans hn)
    refine ⟨⟨QueueInv.initialise _ _ _, ?_, fun p c hp => by cases hp⟩, by simp, hsvc, hirq, htable⟩
    intro p hp
    simp_all [schedulerInitialise]
  | user _ h ih =>
    have hi := ih hg
    exact ⟨hi.owed, hi.arm, (h.kernelStacks .svc (by decide)).trans hi.svcStack,
      (h.kernelStacks .irq (by decide)).trans hi.irqStack, h.table⟩
  | trap _ h ih =>
    obtain ⟨hgv, hgs⟩ := List.forall_mem_cons.mp hg
    have hi := ih hgs
    obtain ⟨-, hsvc, hirq, htable⟩ := hi.trap_shows htops h
    exact ⟨hi.owed.next hgv (handle_handled h.handled),
      List.forall_mem_cons.mpr ⟨trapCtx_arm h.code, hi.arm⟩, hsvc, hirq, htable⟩

end Runs

section Examples

/-- The text where `image.ld` puts it, and stacks behind it. -/
def smallLayout : Layout := ⟨0x70010000, 0x70030000, 0x70040000⟩

def resetMachine : Machine where
  r _ := 0
  sp _ := 0
  lr _ := 0
  spsr _ := 0
  cpsr := 0xd3
  pc := smallLayout.label 0
  mem := storeWords (fun _ => 0) (smallLayout.label 40) (interruptVectorTable smallLayout)

/-- The shell at its start. -/
def shellCtx : Ctx := ⟨0x50, 0x70020000, fun _ => 0, 0x70180000, 0⟩

def shellStart : State :=
  schedulerInitialise 0x70020000 0x70180000 ⟨0, shellCtx, .running, ⟨0, 0⟩⟩

def ctxReg (ctx : Ctx) : Reg → UInt32
  | .r i => ctx.gpr i
  | .sp => ctx.sp
  | .lr => ctx.lr

/-- C functions that store a context. -/
def leaving (ctx : Ctx) : Symbol → Machine → Option Machine := fun _ k => some { k with
  mem := storeWords (storeWords k.mem (k.r 0 + 8) (userRegs.map (ctxReg ctx))) (k.r 0)
    [ctx.cpsr, ctx.pc] }

theorem leaving_stores {l : Layout} {ctx : Ctx} {f : Symbol} {k : Machine} (htable : TableAt l k.mem)
    (happart : ∀ i < 11, 68 ≤ (4 * UInt32.ofNat i - k.r 0).toNat) :
    ∃ n, leaving ctx f k = some n ∧ ctxAt n.mem (k.r 0) = ctx ∧ Returned k n ∧ TableAt l n.mem := by
  refine ⟨_, rfl, ctxAt_stored _ _ _ _ _, ⟨rfl, fun _ _ => rfl⟩, fun i hi => ?_⟩
  have hfar := happart i hi
  have hfar₈ : (4 * UInt32.ofNat i - (k.r 0 + 8)).toNat = (4 * UInt32.ofNat i - k.r 0).toNat - 8 :=
    sub_behind (show 8 ≤ _ by omega)
  refine (storeWords_other (show 4 * 2 ≤ _ by omega)).trans ?_
  exact (storeWords_other (show 4 * 15 ≤ _ by omega)).trans (htable i hi)

theorem resetMachine_ready : Privileged .svc resetMachine ∧ TableIn smallLayout resetMachine.mem ∧
    ∀ k, Booted smallLayout k → ∃ n, leaving shellCtx .kernelHandlerRst k = some n ∧
      ctxAt n.mem (k.r 0) = shellCtx ∧ Returned k n ∧ TableAt smallLayout n.mem := by
  refine ⟨⟨by decide, by decide⟩, fun i hi => ?_, fun k hk => ?_⟩
  · rw [show smallLayout.label (40 + i) = smallLayout.label 40 + 4 * UInt32.ofNat i by
      rw [Layout.label, Layout.label, UInt32.ofNat_add, UInt32.mul_add, UInt32.add_assoc]]
    exact storeWords_get _ _ _ (show 4 * 11 < 2 ^ 32 by decide) hi
  · exact leaving_stores hk.table (hk.argument ▸ by decide)

theorem smallLayout_linked : smallLayout.Linked := ⟨by decide, by decide, by decide⟩

theorem resetMachine_boots : ∃ n, BootTaken smallLayout shellCtx resetMachine n ∧ Shows shellCtx n ∧
    n.sp .svc = smallLayout.stackTopSvc ∧ n.sp .irq = smallLayout.stackTopIrq ∧
    TableAt smallLayout n.mem := by
  obtain ⟨hmode, htable, hcall⟩ := resetMachine_ready
  obtain ⟨n, hn, hshows, hsvc, hirq, htable'⟩ := boot_runs (leaving shellCtx)
    smallLayout_linked (by decide) hmode rfl htable hcall
  exact ⟨n, ⟨hmode, rfl, htable, _, hcall, hn⟩, hshows, hsvc, hirq, htable'⟩

end Examples
end MalapropOS.Startup
