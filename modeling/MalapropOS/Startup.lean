import MalapropOS.Lib.Arm
import MalapropOS.Scheduler.Context

/-! `startup.s`. The interrupt handlers save the context of the process on the stack of their mode,
call the C handler with it, and resume the process that the C handler has put there. -/
namespace MalapropOS.Startup
open Arm Scheduler

/-- The C functions that are called. -/
inductive Symbol where
  | kernelHandlerRst | kernelHandlerIrq | kernelHandlerSvc
  deriving DecidableEq

/-- What the linker fills in. -/
structure Layout where
  base : UInt32
  stackTopSvc : UInt32
  stackTopIrq : UInt32

def Layout.label (l : Layout) (line : Nat) : UInt32 := l.base + 4 * UInt32.ofNat line

def userRegs : List Reg :=
  [.r 0, .r 1, .r 2, .r 3, .r 4, .r 5, .r 6, .r 7, .r 8, .r 9, .r 10, .r 11, .r 12, .sp, .lr]

def handlerRst (l : Layout) : List (Instr Symbol) := [
  .bl (l.label 51),
  .msrCpsr 0xd2,
  .ldrConst .sp l.stackTopIrq,
  .msrCpsr 0xd3,
  .ldrConst .sp l.stackTopSvc,
  .sub .sp .sp 68,
  .mov (.r 0) .sp,
  .call .kernelHandlerRst,
  .ldmia .sp [.r 0, .lr],
  .msrSpsr (.r 0),
  .ldmiaUser .sp userRegs,
  .add .sp .sp 60,
  .movsPcLr,
  .b (l.label 13)]

def handlerIrq : List (Instr Symbol) := [
  .sub .lr .lr 4,
  .sub .sp .sp 60,
  .stmiaUser .sp userRegs,
  .mrsSpsr (.r 0),
  .stmdb .sp [.r 0, .lr],
  .mov (.r 0) .sp,
  .call .kernelHandlerIrq,
  .ldmia .sp [.r 0, .lr],
  .msrSpsr (.r 0),
  .ldmiaUser .sp userRegs,
  .add .sp .sp 60,
  .movsPcLr]

def handlerSvc : List (Instr Symbol) := [
  .sub .lr .lr 0,
  .sub .sp .sp 60,
  .stmiaUser .sp userRegs,
  .mrsSpsr (.r 0),
  .stmdb .sp [.r 0, .lr],
  .mov (.r 0) .sp,
  .ldr (.r 1) .lr (-4),
  .bic (.r 1) (.r 1) 0xff000000,
  .call .kernelHandlerSvc,
  .ldmia .sp [.r 0, .lr],
  .msrSpsr (.r 0),
  .ldmiaUser .sp userRegs,
  .add .sp .sp 60,
  .movsPcLr]

/-- The instructions `ldr pc, address_rst`, `b .` and so on as the assembler encodes them, and the
three addresses. -/
def interruptVectorTable (l : Layout) : List UInt32 :=
  [0xe59ff018, 0xeafffffe, 0xe59ff014, 0xeafffffe, 0xeafffffe, 0xeafffffe, 0xe59ff008, 0xeafffffe,
    l.label 0, l.label 26, l.label 14]

def tableCopy (l : Layout) : List (Instr Symbol) := [
  .ldrConst (.r 0) 0,
  .ldrConst (.r 1) (l.label 40),
  .ldrConst (.r 2) (l.label 51),
  .ldrPost (.r 3) (.r 1) 4,
  .strPost (.r 3) (.r 0) 4,
  .cmp (.r 1) (.r 2),
  .bne (l.label 54),
  .movPcLr]

/-- The text section. -/
def startup (l : Layout) : List (Instr Symbol) :=
  handlerRst l ++ (handlerIrq ++ (handlerSvc ++ ((interruptVectorTable l).map .word ++ tableCopy l)))

/-- The `ctx_t` at an address. -/
def ctxAt (mem : UInt32 → UInt32) (a : UInt32) : Ctx where
  cpsr := mem a
  pc := mem (a + 4)
  gpr i := mem (a + 8 + 4 * UInt32.ofNat i)
  sp := mem (a + 60)
  lr := mem (a + 64)

/-- The context of the program in user mode that an exception into `mode` has left. -/
def leftCtx (m : Machine) (mode : Mode) (pc : UInt32) : Ctx :=
  ⟨m.spsr mode, pc, m.r, m.sp .usr, m.lr .usr⟩

/-- The part in front of the C handler. -/
def saving (correction : UInt32) : List (Instr Symbol) := [
  .sub .lr .lr correction,
  .sub .sp .sp 60,
  .stmiaUser .sp userRegs,
  .mrsSpsr (.r 0),
  .stmdb .sp [.r 0, .lr],
  .mov (.r 0) .sp]

/-- The part behind the C handler. -/
def resuming : List (Instr Symbol) := [
  .ldmia .sp [.r 0, .lr],
  .msrSpsr (.r 0),
  .ldmiaUser .sp userRegs,
  .add .sp .sp 60,
  .movsPcLr]

section Parts
variable (call : Symbol → Machine → Option Machine) {mode : Mode} {m : Machine}

theorem aligned_sub {a b : UInt32} (ha : Aligned a) (hb : b.toNat % 4 = 0) : Aligned (a - b) := by
  rw [Aligned, UInt32.toNat_sub] at *
  omega

theorem aligned_add {a b : UInt32} (ha : Aligned a) (hb : b.toNat % 4 = 0) : Aligned (a + b) := by
  rw [Aligned, UInt32.toNat_add] at *
  omega

/-- The context is on the stack, and the first argument points to it. -/
structure Called (m : Machine) (mode : Mode) (correction : UInt32) (n : Machine) : Prop where
  ctx : ctxAt n.mem (m.sp mode - 68) = leftCtx m mode (m.lr mode - correction)
  argument : n.r 0 = m.sp mode - 68
  stack : n.sp mode = m.sp mode - 68
  cpsr : n.cpsr = m.cpsr
  spsr : n.spsr = m.spsr
  other : ∀ q, q ≠ mode → n.sp q = m.sp q
  below : ∀ b, 68 ≤ (b - (m.sp mode - 68)).toNat → n.mem b = m.mem b

theorem userRegs_get (f : Reg → UInt32) : (∀ i : Fin 13, (userRegs.map f).getD i 0 = f (.r i)) ∧
    (userRegs.map f).getD 13 0 = f .sp ∧ (userRegs.map f).getD 14 0 = f .lr := by
  have hget : ∀ i : Fin 13, userRegs[i.val]? = some (.r i) := by decide
  exact ⟨fun i => by simp [List.getD, hget i], rfl, rfl⟩

/-- A context as it is stored, the registers first. -/
theorem ctxAt_stored (mem : UInt32 → UInt32) (a psr pc : UInt32) (f : Reg → UInt32) :
    ctxAt (storeWords (storeWords mem (a + 8) (userRegs.map f)) a [psr, pc]) a =
      ⟨psr, pc, fun i => f (.r i), f .sp, f .lr⟩ := by
  have hreg {i : Nat} (hi : i < 15) :
      storeWords (storeWords mem (a + 8) (userRegs.map f)) a [psr, pc]
        (a + 8 + 4 * UInt32.ofNat i) = (userRegs.map f).getD i 0 := by
    have hdist : (a + 8 + 4 * UInt32.ofNat i - a).toNat = 8 + 4 * i := by
      rw [show a + 8 + 4 * UInt32.ofNat i - a = 8 + 4 * UInt32.ofNat i by grind]
      simp only [UInt32.toNat_add, UInt32.toNat_mul, UInt32.toNat_ofNat', UInt32.reduceToNat]
      omega
    rw [storeWords_other (by simp [hdist])]
    exact storeWords_get _ _ _ (show 4 * 15 < 2 ^ 32 by decide) hi
  obtain ⟨hr, hsp, hlr⟩ := userRegs_get f
  have h₀ := storeWords_get (storeWords mem (a + 8) (userRegs.map f)) a [psr, pc] (i := 0)
    (show 4 * 2 < 2 ^ 32 by decide) (show 0 < 2 by decide)
  have h₁ := storeWords_get (storeWords mem (a + 8) (userRegs.map f)) a [psr, pc] (i := 1)
    (show 4 * 2 < 2 ^ 32 by decide) (show 1 < 2 by decide)
  have h₁₃ := hreg (i := 13) (by decide)
  have h₁₄ := hreg (i := 14) (by decide)
  rw [ctxAt, Ctx.mk.injEq]
  refine ⟨?_, h₁, funext fun i => (hreg (i.isLt.trans (by decide))).trans (hr i), ?_, ?_⟩
  · simpa using h₀
  · rw [← hsp, ← h₁₃, UInt32.add_assoc]
    rfl
  · rw [← hlr, ← h₁₄, UInt32.add_assoc]
    rfl

theorem saving_saves (h : Privileged mode m) (ha : Aligned (m.sp mode)) (correction : UInt32) :
    ∃ n, (saving correction).foldlM (fun m i => execute call i m) m = some n ∧
      Called m mode correction n ∧ n.lr mode = m.lr mode - correction := by
  have h₁ : Aligned (m.sp mode - 60) := aligned_sub ha (by decide)
  have h₂ : Aligned (m.sp mode - 68) := aligned_sub ha (by decide)
  have hstack : m.sp mode - 60 - 4 * UInt32.ofNat 2 = m.sp mode - 68 := by
    show m.sp mode - 60 - 8 = _
    grind
  have hlow : m.sp mode - 60 = m.sp mode - 68 + 8 := by grind
  rw [foldlM_privileged h (by simp [saving, Instr.KeepsStatus])]
  simp only [saving, List.foldlM_cons, List.foldlM_nil, perform, Machine.get, Machine.set,
    Machine.next, Function.update_self, Option.bind_eq_bind, Option.bind_some, h₁, h₂, if_true,
    List.length_cons, List.length_nil, Nat.zero_add, Nat.reduceAdd, List.map_cons,
    List.map_nil, hstack]
  refine ⟨_, rfl, ⟨?_, ?_, ?_, rfl, rfl, ?_, ?_⟩, Function.update_self mode _ m.lr⟩
  · have husr (f : Mode → UInt32) (v : UInt32) : Function.update f mode v .usr = f .usr :=
      Function.update_of_ne h.2.symm v f
    rw [hlow]
    refine (ctxAt_stored _ _ _ _ _).trans ?_
    simp only [leftCtx, Machine.get, husr]
  · exact Function.update_self (0 : Fin 13) (m.sp mode - 68) (Function.update m.r 0 (m.spsr mode))
  · exact Function.update_self mode _ (Function.update m.sp mode (m.sp mode - 60))
  · intro q hq
    exact (Function.update_of_ne hq _ _).trans (Function.update_of_ne hq _ m.sp)
  · intro b hb
    have hb₈ : (b - (m.sp mode - 60)).toNat = (b - (m.sp mode - 68)).toNat - 8 := by
      rw [hlow]
      exact sub_behind (show 8 ≤ _ by omega)
    exact (storeWords_other (show 4 * 2 ≤ _ by omega)).trans
      (storeWords_other (show 4 * 15 ≤ _ by omega))

/-- The context that the stack pointer points to is back in the registers. -/
structure Resumed (m : Machine) (mode : Mode) (n : Machine) : Prop where
  r : n.r = (ctxAt m.mem (m.sp mode)).gpr
  sp : n.sp .usr = (ctxAt m.mem (m.sp mode)).sp
  lr : n.lr .usr = (ctxAt m.mem (m.sp mode)).lr
  cpsr : n.cpsr = mixFields (m.spsr mode) (ctxAt m.mem (m.sp mode)).cpsr
  pc : n.pc = branchTarget n.cpsr (ctxAt m.mem (m.sp mode)).pc
  stack : n.sp mode = m.sp mode + 68
  mem : n.mem = m.mem
  other : ∀ q, q ≠ .usr → q ≠ mode → n.sp q = m.sp q

/-- The status register and the address of the process. -/
def loaded (m : Machine) (mode : Mode) : Machine := { m with
  r := Function.update m.r 0 (m.mem (m.sp mode))
  sp := Function.update m.sp mode (m.sp mode + 8)
  lr := Function.update m.lr mode (m.mem (m.sp mode + 4))
  spsr := Function.update m.spsr mode (mixFields (m.spsr mode) (m.mem (m.sp mode)))
  pc := m.pc + 4 + 4 }

theorem loaded_steps (ha : Aligned (m.sp mode)) :
    [.ldmia .sp [.r 0, .lr], .msrSpsr (.r 0)].foldlM (perform call mode) m =
      some (loaded m mode) := by
  simp [perform, Machine.get, Machine.setAll, Machine.set, loadWords, ha, Machine.next, loaded]

theorem resuming_resumes (h : Privileged mode m) (ha : Aligned (m.sp mode)) :
    ∃ n, resuming.foldlM (fun m i => execute call i m) m = some n ∧ Resumed m mode n := by
  have hstack : (loaded m mode).get mode .sp = m.sp mode + 8 := Function.update_self mode _ m.sp
  obtain ⟨n, hn, hregs, hmem, hcpsr, hspsr, hother⟩ := perform_ldmiaUser call .sp
    (loaded m mode) (show userRegs.Nodup by decide) (hstack ▸ aligned_add ha (by decide))
  obtain ⟨hsp, hlr⟩ := hother mode h.2
  rw [hstack] at hregs
  have hword {i : Nat} (hi : i < 15) :
      (userRegs.map (n.get .usr)).getD i 0 = m.mem (m.sp mode + 8 + 4 * UInt32.ofNat i) := by
    rw [hregs]
    exact loadWords_get _ _ hi
  obtain ⟨hr, husp, hulr⟩ := userRegs_get (n.get .usr)
  have hresuming : resuming = [.ldmia .sp [.r 0, .lr], .msrSpsr (.r 0)] ++
      [.ldmiaUser .sp userRegs, .add .sp .sp 60, .movsPcLr] := rfl
  rw [foldlM_privileged h (by simp [resuming, Instr.KeepsStatus]), hresuming, List.foldlM_append,
    loaded_steps call ha, Option.bind_eq_bind, Option.bind_some, List.foldlM_cons, hn,
    Option.bind_eq_bind, Option.bind_some]
  refine ⟨_, rfl, ⟨?_, ?_, ?_, ?_, ?_, ?_, hmem, ?_⟩⟩
  · exact funext fun i => (hr i).symm.trans (hword (i.isLt.trans (by decide)))
  · refine (Function.update_of_ne h.2.symm _ n.sp).trans (husp.symm.trans ?_)
    rw [hword (by decide), UInt32.add_assoc]
    rfl
  · refine hulr.symm.trans ?_
    rw [hword (by decide), UInt32.add_assoc]
    rfl
  · exact (congrFun hspsr mode).trans (Function.update_self mode _ m.spsr)
  · exact congrArg (branchTarget (n.spsr mode)) (hlr.trans (Function.update_self mode _ m.lr))
  · refine (Function.update_self mode _ n.sp).trans ?_
    rw [show n.get mode .sp = m.sp mode + 8 from hsp.trans hstack]
    grind
  · intro q hq hne
    exact (Function.update_of_ne hne _ n.sp).trans
      ((hother q hq).1.trans (Function.update_of_ne hne _ m.sp))

/-- What a C function leaves of the processor. -/
structure Returned (m n : Machine) : Prop where
  mode : modeOf n.cpsr = modeOf m.cpsr
  kernelStacks : ∀ q, q ≠ .usr → n.sp q = m.sp q

/-- The program in user mode has the context. Of the status register these are the flags and the
control bits, which is what the handlers write. -/
structure Shows (ctx : Ctx) (m : Machine) : Prop where
  r : m.r = ctx.gpr
  sp : m.sp .usr = ctx.sp
  lr : m.lr .usr = ctx.lr
  cpsr : m.cpsr &&& 0xff0000ff = ctx.cpsr &&& 0xff0000ff
  pc : m.pc = branchTarget ctx.cpsr ctx.pc

theorem Resumed.shows {n : Machine} (h : Resumed m mode n) : Shows (ctxAt m.mem (m.sp mode)) n where
  r := h.r
  sp := h.sp
  lr := h.lr
  cpsr := by rw [h.cpsr, mixFields_and (by decide) (by decide)]
  pc := by rw [h.pc, h.cpsr, branchTarget_mixFields]

theorem Called.linked {k : Machine} {correction : UInt32} (h : Called m mode correction k)
    (v : UInt32) : Called m mode correction (k.set mode .lr v) :=
  ⟨h.ctx, h.argument, h.stack, h.cpsr, h.spsr, h.other, h.below⟩

/-- A handler: what is saved goes to the C function, and what this leaves there is resumed. -/
theorem handler_resumes {e : Machine} (h : Privileged mode e) (ha : Aligned (e.sp mode))
    {correction : UInt32} (mid : List (Instr Symbol)) (f : Symbol) {exit : Ctx} (P : Machine → Prop)
    (hmid : ∀ k, Called e mode correction k → k.lr mode = e.lr mode - correction →
      ∃ k', mid.foldlM (fun m i => execute call i m) k = some k' ∧ Called e mode correction k' ∧
        ∀ v, P (k'.set mode .lr v))
    {K : (UInt32 → UInt32) → Prop} (hcall : ∀ k, Called e mode correction k → P k →
      ∃ n, call f k = some n ∧ ctxAt n.mem (k.r 0) = exit ∧ Returned k n ∧ K n.mem) :
    ∃ n, (saving correction ++ (mid ++ .call f :: resuming)).foldlM (fun m i => execute call i m) e =
        some n ∧ Shows exit n ∧ (∀ q, q ≠ .usr → n.sp q = e.sp q) ∧ K n.mem := by
  obtain ⟨k, hk, hcalled, hlink⟩ := saving_saves call h ha correction
  obtain ⟨k', hk', hcalled', hP⟩ := hmid k hcalled hlink
  obtain ⟨n, hn, hexit, hret, hK⟩ := hcall _ (hcalled'.linked (k'.pc + 4)) (hP _)
  have hstack : n.sp mode = e.sp mode - 68 := (hret.kernelStacks mode h.2).trans hcalled'.stack
  have hk'' : Privileged mode k' := ⟨hcalled'.cpsr ▸ h.1, h.2⟩
  have hpriv : Privileged mode { n with pc := k'.pc + 4 } := ⟨hret.mode.trans hk''.1, h.2⟩
  obtain ⟨t, ht, hres⟩ := resuming_resumes call hpriv
    (show Aligned (n.sp mode) from hstack ▸ aligned_sub ha (by decide))
  have hctx : ctxAt n.mem (n.sp mode) = exit := by
    rw [hstack, ← hexit]
    exact congrArg (ctxAt n.mem) hcalled'.argument.symm
  refine ⟨t, ?_, hctx ▸ hres.shows, fun q hq => ?_, hres.mem.symm ▸ hK⟩
  · rw [List.foldlM_append, hk, Option.bind_eq_bind, Option.bind_some, List.foldlM_append, hk',
      Option.bind_eq_bind, Option.bind_some, List.foldlM_cons, execute_privileged hk'', perform, hn]
    exact ht
  · by_cases hq' : q = mode
    · subst hq'
      refine hres.stack.trans ?_
      rw [show ({ n with pc := k'.pc + 4 } : Machine).sp q = e.sp q - 68 from hstack]
      exact UInt32.sub_add_cancel _ _
    · exact (hres.other q hq hq').trans ((hret.kernelStacks q hq).trans (hcalled'.other q hq'))

/-- The number of the call is in the instruction in front of the return address. -/
theorem svcNumber_loaded {e k : Machine} (h : Called e .svc 0 k) (hpriv : Privileged .svc e)
    (hlink : k.lr .svc = e.lr .svc - 0) (ha : Aligned (e.lr .svc - 4))
    (htext : 68 ≤ (e.lr .svc - 4 - (e.sp .svc - 68)).toNat) :
    ∃ k', [.ldr (.r 1) .lr (-4), .bic (.r 1) (.r 1) 0xff000000].foldlM
        (fun m i => execute call i m) k = some k' ∧ Called e .svc 0 k' ∧
      ∀ v, (k'.set .svc .lr v).r 1 = e.mem (e.lr .svc - 4) &&& 0x00ffffff := by
  have haddr : k.lr .svc + -4 = e.lr .svc - 4 := by
    rw [hlink]
    grind
  have hpriv' : Privileged .svc k := ⟨h.cpsr ▸ hpriv.1, hpriv.2⟩
  rw [foldlM_privileged hpriv' (by simp [Instr.KeepsStatus])]
  simp only [List.foldlM_cons, List.foldlM_nil, perform, Machine.get, haddr, ha, if_true,
    Option.bind_eq_bind, Option.bind_some, Machine.set, Machine.next, Function.update_self]
  refine ⟨_, rfl, ⟨h.ctx, ?_, h.stack, h.cpsr, h.spsr, h.other, h.below⟩, fun v => ?_⟩
  · exact h.argument
  · have hnumber : k.mem (e.lr .svc - 4) &&& ~~~ 0xff000000 = e.mem (e.lr .svc - 4) &&& 0x00ffffff :=
      congrArg (· &&& 0x00ffffff) (h.below _ htext)
    exact (Function.update_self (1 : Fin 13) _
      (Function.update k.r 1 (k.mem (e.lr .svc - 4)))).trans hnumber

end Parts

/-- The context of a program in user mode that is at `pc`. -/
def userCtx (m : Machine) (pc : UInt32) : Ctx := ⟨m.cpsr, pc, m.r, m.sp .usr, m.lr .usr⟩

/-- The vectors are where the processor looks for them. -/
def TableAt (l : Layout) (mem : UInt32 → UInt32) : Prop :=
  ∀ i < 11, mem (4 * UInt32.ofNat i) = (interruptVectorTable l).getD i 0

section Traps
variable (call : Symbol → Machine → Option Machine) (l : Layout)

/-- A trap: the processor takes the exception, and the handler runs up to its last instruction. -/
def trapStep : Trap → Machine → Option Machine
  | .timer, m | .uart, m =>
    (takeVector (interrupt m)).bind (Arm.run call l.base (startup l) handlerIrq.length)
  | .svc _, m =>
    (takeVector (supervisorCall m)).bind (Arm.run call l.base (startup l) handlerSvc.length)

/-- Where the program goes on. -/
def resumePc : Trap → UInt32 → UInt32
  | .svc _, pc => pc + 4
  | _, pc => pc

/-- The C handler of the trap, called with the context of `m`, leaves `exit` in its place. -/
def Serves (trap : Trap) (m : Machine) (exit : Ctx) : Prop :=
  match trap with
  | .svc _ => ∀ k, Called (supervisorCall m) .svc 0 k → k.r 1 = m.mem m.pc &&& 0x00ffffff →
      ∃ n, call .kernelHandlerSvc k = some n ∧ ctxAt n.mem (k.r 0) = exit ∧ Returned k n ∧
        TableAt l n.mem
  | _ => ∀ k, Called (interrupt m) .irq 4 k →
      ∃ n, call .kernelHandlerIrq k = some n ∧ ctxAt n.mem (k.r 0) = exit ∧ Returned k n ∧
        TableAt l n.mem

/-- The program runs ARM code that is not on the stack of the supervisor. -/
structure ArmCode (m : Machine) : Prop where
  aligned : Aligned m.pc
  arm : m.cpsr &&& 0x20 = 0
  text : 68 ≤ (m.pc - (m.sp .svc - 68)).toNat

variable {call l} {m : Machine}

theorem table_irq (h : TableAt l m.mem) :
    takeVector (interrupt m) = some { interrupt m with pc := l.label 14 } := by
  have hload : m.mem 0x18 = 0xe59ff008 := h 6 (by decide)
  have haddr : m.mem 0x28 = l.label 14 := h 10 (by decide)
  have htarget : vectorTarget m.mem 0x18 = some (l.label 14) := by
    rw [vectorTarget, hload, if_pos (by decide), ← haddr]
    rfl
  exact congrArg (Option.map _) htarget

theorem table_svc (h : TableAt l m.mem) :
    takeVector (supervisorCall m) = some { supervisorCall m with pc := l.label 26 } := by
  have hload : m.mem 0x08 = 0xe59ff014 := h 2 (by decide)
  have haddr : m.mem 0x24 = l.label 26 := h 9 (by decide)
  have htarget : vectorTarget m.mem 0x08 = some (l.label 26) := by
    rw [vectorTarget, hload, if_pos (by decide), ← haddr]
    rfl
  exact congrArg (Option.map _) htarget

/-- A block of the text. -/
theorem run_part (pre is post : List (Instr Symbol)) (htext : startup l = pre ++ (is ++ post))
    (hseq : ∀ i ∈ is.dropLast, i.Sequential) {e : Machine} (hpc : e.pc = l.label pre.length) :
    Arm.run call l.base (startup l) is.length e = is.foldlM (fun m i => execute call i m) e := by
  have hlen : pre.length + is.length ≤ (startup l).length := by
    rw [htext, List.length_append, List.length_append]
    omega
  rw [htext]
  exact run_block hseq (hlen.trans (show 59 ≤ 2 ^ 30 by decide)) hpc

theorem run_handlerIrq {e : Machine} (hpc : e.pc = l.label 14) :
    Arm.run call l.base (startup l) handlerIrq.length e =
      handlerIrq.foldlM (fun m i => execute call i m) e :=
  run_part (handlerRst l) _ _ rfl (by simp [handlerIrq, Instr.Sequential]) hpc

theorem run_handlerSvc {e : Machine} (hpc : e.pc = l.label 26) :
    Arm.run call l.base (startup l) handlerSvc.length e =
      handlerSvc.foldlM (fun m i => execute call i m) e :=
  run_part (handlerRst l ++ handlerIrq) _ ((interruptVectorTable l).map .word ++ tableCopy l)
    (by simp [startup])
    (by simp [handlerSvc, Instr.Sequential]) hpc

theorem Called.at_pc {e k : Machine} {mode : Mode} {correction pc : UInt32}
    (h : Called { e with pc := pc } mode correction k) : Called e mode correction k :=
  ⟨h.ctx, h.argument, h.stack, h.cpsr, h.spsr, h.other, h.below⟩

theorem interrupt_shows {exit : Ctx} (htable : TableAt l m.mem) (hirq : Aligned (m.sp .irq))
    (hserves : ∀ k, Called (interrupt m) .irq 4 k → ∃ n, call .kernelHandlerIrq k = some n ∧
      ctxAt n.mem (k.r 0) = exit ∧ Returned k n ∧ TableAt l n.mem) :
    ∃ n, (takeVector (interrupt m)).bind (Arm.run call l.base (startup l) handlerIrq.length) =
        some n ∧ Shows exit n ∧ (∀ q, q ≠ .usr → n.sp q = m.sp q) ∧ TableAt l n.mem := by
  rw [table_irq htable, Option.bind_some, run_handlerIrq rfl]
  have hpriv : Privileged .irq { interrupt m with pc := l.label 14 } :=
    ⟨(modeOf_exception m.cpsr).2, by decide⟩
  exact handler_resumes call hpriv hirq [] .kernelHandlerIrq (fun _ => True)
    (fun k hk _ => ⟨k, rfl, hk, fun _ => trivial⟩)
    fun k hk _ => hserves k (Called.at_pc (e := interrupt m) hk)

theorem supervisorCall_shows {exit : Ctx} (htable : TableAt l m.mem) (hsvc : Aligned (m.sp .svc))
    (harm : ArmCode m) (hserves : ∀ k, Called (supervisorCall m) .svc 0 k →
      k.r 1 = m.mem m.pc &&& 0x00ffffff → ∃ n, call .kernelHandlerSvc k = some n ∧
        ctxAt n.mem (k.r 0) = exit ∧ Returned k n ∧ TableAt l n.mem) :
    ∃ n, (takeVector (supervisorCall m)).bind (Arm.run call l.base (startup l) handlerSvc.length) =
        some n ∧ Shows exit n ∧ (∀ q, q ≠ .usr → n.sp q = m.sp q) ∧ TableAt l n.mem := by
  have hpriv : Privileged .svc { supervisorCall m with pc := l.label 26 } :=
    ⟨(modeOf_exception m.cpsr).1, by decide⟩
  have hback : (supervisorCall m).lr .svc - 4 = m.pc := by
    refine (congrArg (· - 4) (Function.update_self Mode.svc (m.pc + 4) m.lr)).trans ?_
    exact UInt32.add_sub_cancel _ _
  rw [table_svc htable, Option.bind_some, run_handlerSvc rfl]
  refine handler_resumes call hpriv hsvc [.ldr (.r 1) .lr (-4), .bic (.r 1) (.r 1) 0xff000000]
    .kernelHandlerSvc (fun k => k.r 1 = m.mem m.pc &&& 0x00ffffff)
    (fun k hk hlink => ?_)
    fun k hk hnumber => hserves k (Called.at_pc (e := supervisorCall m) hk) hnumber
  have hloaded := svcNumber_loaded call hk hpriv hlink
    (hback.symm ▸ harm.aligned) (hback.symm ▸ harm.text)
  rwa [hback] at hloaded

theorem trapStep_shows {trap : Trap} {exit : Ctx} (htable : TableAt l m.mem)
    (hirq : Aligned (m.sp .irq)) (hsvc : Aligned (m.sp .svc)) (harm : ArmCode m)
    (hserves : Serves call l trap m exit) : ∃ n, trapStep call l trap m = some n ∧ Shows exit n ∧
      (∀ q, q ≠ .usr → n.sp q = m.sp q) ∧ TableAt l n.mem := by
  cases trap with
  | timer => exact interrupt_shows htable hirq hserves
  | uart => exact interrupt_shows htable hirq hserves
  | svc c => exact supervisorCall_shows htable hsvc harm hserves

end Traps

section Boot
variable (call : Symbol → Machine → Option Machine) {l : Layout}

/-- The text is linked behind the vectors. -/
structure Layout.Linked (l : Layout) : Prop where
  aligned : Aligned l.base
  behind : 44 ≤ (l.label 40).toNat
  within : (l.label 40).toNat + 44 < 2 ^ 32

/-- The table is in the text. -/
def TableIn (l : Layout) (mem : UInt32 → UInt32) : Prop :=
  ∀ i < 11, mem (l.label (40 + i)) = (interruptVectorTable l).getD i 0

/-- In front of the round `j` of the loop. -/
structure Copying (l : Layout) (m : Machine) (j : Nat) : Prop where
  mode : Privileged .svc m
  destination : m.r 0 = 4 * UInt32.ofNat j
  source : m.r 1 = l.label (40 + j)
  last : m.r 2 = l.label 51
  table : TableIn l m.mem
  copied : ∀ i < j, m.mem (4 * UInt32.ofNat i) = (interruptVectorTable l).getD i 0

theorem label_next (l : Layout) (i : Nat) : l.label i + 4 = l.label (i + 1) := by
  rw [Layout.label, Layout.label, UInt32.ofNat_add, UInt32.mul_add, UInt32.add_assoc]
  rfl

theorem label_toNat (hl : l.Linked) {i : Nat} (hi : i ≤ 11) :
    (l.label (40 + i)).toNat = (l.label 40).toNat + 4 * i := by
  have hwithin := hl.within
  have hstep : l.label (40 + i) = l.label 40 + 4 * UInt32.ofNat i := by
    rw [Layout.label, Layout.label, UInt32.ofNat_add, UInt32.mul_add, UInt32.add_assoc]
  rw [hstep, UInt32.toNat_add, UInt32.toNat_mul,
    UInt32.toNat_ofNat_of_lt' (show i < 2 ^ 32 by omega)]
  simp only [UInt32.reduceToNat]
  omega

theorem word_toNat {i : Nat} (hi : i ≤ 11) : (4 * UInt32.ofNat i).toNat = 4 * i := by
  rw [UInt32.toNat_mul, UInt32.toNat_ofNat_of_lt' (show i < 2 ^ 32 by omega)]
  simp only [UInt32.reduceToNat]
  omega

/-- The four instructions of a round. -/
def copyRound (l : Layout) : List (Instr Symbol) :=
  [.ldrPost (.r 3) (.r 1) 4, .strPost (.r 3) (.r 0) 4, .cmp (.r 1) (.r 2), .bne (l.label 54)]

def beforeLoop (l : Layout) : List (Instr Symbol) :=
  handlerRst l ++ (handlerIrq ++ (handlerSvc ++ ((interruptVectorTable l).map .word ++
    (tableCopy l).take 3)))

theorem startup_loop (l : Layout) : startup l = beforeLoop l ++ (copyRound l ++ [.movPcLr]) := by
  simp [startup, beforeLoop, tableCopy, copyRound]

theorem run_copyRound {m : Machine} (hpc : m.pc = l.label 54) :
    Arm.run call l.base (startup l) 4 m =
      (copyRound l).foldlM (fun m i => execute call i m) m :=
  run_part _ _ _ (startup_loop l) (by simp [copyRound, Instr.Sequential]) hpc

theorem label_aligned (hl : l.Linked) (i : Nat) : Aligned (l.label i) := by
  have hbase := hl.aligned
  rw [Aligned] at hbase ⊢
  simp only [Layout.label, UInt32.toNat_add, UInt32.toNat_mul, UInt32.reduceToNat]
  omega

/-- The words of the text are none of the vectors. -/
theorem source_ne_word (hl : l.Linked) {i j : Nat} (hi : i < 11) (hj : j < 11) :
    l.label (40 + i) ≠ 4 * UInt32.ofNat j := by
  intro h
  have hnat := congrArg UInt32.toNat h
  rw [label_toNat hl hi.le, word_toNat hj.le] at hnat
  have hbehind := hl.behind
  omega

/-- A round up to its branch. -/
def wordCopied (m : Machine) : Machine := { m with
  r := Function.update (Function.update (Function.update m.r 1 (m.r 1 + 4)) 3 (m.mem (m.r 1))) 0
    (m.r 0 + 4)
  mem := Function.update m.mem (m.r 0) (m.mem (m.r 1))
  cpsr := (m.cpsr &&& 0x0fffffff) ||| compareFlags (m.r 1 + 4) (m.r 2)
  pc := m.pc + 4 + 4 + 4 }

theorem wordCopied_steps {m : Machine} (hsource : Aligned (m.r 1)) (hdest : Aligned (m.r 0)) :
    [.ldrPost (.r 3) (.r 1) 4, .strPost (.r 3) (.r 0) 4, .cmp (.r 1) (.r 2)].foldlM
      (perform call .svc) m = some (wordCopied m) := by
  simp [perform, Machine.get, Machine.set, Machine.next, hsource, hdest, wordCopied]

theorem wordCopied_copying (hl : l.Linked) {m : Machine} {j : Nat} (hj : j < 11)
    (h : Copying l m j) (pc : UInt32) : Copying l { wordCopied m with pc := pc } (j + 1) where
  mode := ⟨(compare_status _ _ _).2.trans h.mode.1, by decide⟩
  destination := by
    simp only [wordCopied, Function.update_self]
    rw [h.destination, UInt32.ofNat_add, UInt32.mul_add]
    rfl
  source := by
    simp only [wordCopied]
    rw [Function.update_of_ne (by decide), Function.update_of_ne (by decide), Function.update_self,
      h.source, label_next]
    rfl
  last := by
    simp only [wordCopied]
    rw [Function.update_of_ne (by decide), Function.update_of_ne (by decide),
      Function.update_of_ne (by decide), h.last]
  table i hi := by
    simp only [wordCopied]
    rw [Function.update_of_ne (h.destination ▸ source_ne_word hl hi hj), h.table i hi]
  copied i hi := by
    simp only [wordCopied, h.destination, h.source]
    by_cases hij : i = j
    · rw [hij, Function.update_self, h.table j hj]
    · have hne : 4 * UInt32.ofNat i ≠ 4 * UInt32.ofNat j := by
        intro he
        have hnat := congrArg UInt32.toNat he
        rw [word_toNat (by omega), word_toNat (by omega)] at hnat
        omega
      rw [Function.update_of_ne hne, h.copied i (by omega)]

theorem copying_round (hl : l.Linked) {m : Machine} {j : Nat} (hj : j < 11) (h : Copying l m j)
    (hpc : m.pc = l.label 54) : ∃ n, Arm.run call l.base (startup l) 4 m = some n ∧
      Copying l n (j + 1) ∧ n.lr .svc = m.lr .svc ∧
      n.pc = if j + 1 < 11 then l.label 54 else l.label 58 := by
  have hsource : Aligned (m.r 1) := h.source ▸ label_aligned hl _
  have hdest : Aligned (m.r 0) := by
    rw [h.destination, Aligned, word_toNat hj.le]
    omega
  have hzero : (wordCopied m).cpsr &&& 0x40000000 = 0 ↔ m.r 1 + 4 ≠ m.r 2 :=
    (compare_status m.cpsr (m.r 1 + 4) (m.r 2)).1
  have hmode : Privileged .svc (wordCopied m) :=
    ⟨(compare_status m.cpsr (m.r 1 + 4) (m.r 2)).2.trans h.mode.1, by decide⟩
  have hlast : m.r 1 + 4 = m.r 2 ↔ j + 1 = 11 := by
    rw [h.source, label_next, h.last]
    constructor
    · intro he
      have hnat := congrArg UInt32.toNat he
      rw [Nat.add_assoc, label_toNat hl hj, show l.label 51 = l.label (40 + 11) from rfl,
        label_toNat hl (Nat.le_refl _)] at hnat
      omega
    · intro he
      rw [Nat.add_assoc, he]
  have hround : copyRound l = [.ldrPost (.r 3) (.r 1) 4, .strPost (.r 3) (.r 0) 4,
    .cmp (.r 1) (.r 2)] ++ [.bne (l.label 54)] := rfl
  rw [run_copyRound call hpc, hround, List.foldlM_append,
    foldlM_privileged h.mode (by simp [Instr.KeepsStatus]), wordCopied_steps call hsource hdest,
    Option.bind_eq_bind, Option.bind_some, List.foldlM_cons,
    execute_privileged hmode, perform]
  by_cases hdone : j + 1 = 11
  · rw [if_neg (fun he => hzero.mp he (hlast.mpr hdone)), if_neg (by omega)]
    refine ⟨_, rfl, wordCopied_copying hl hj h _, rfl, ?_⟩
    simp only [wordCopied, Machine.next, hpc, label_next]
  · rw [if_pos (hzero.mpr fun he => hdone (hlast.mp he)), if_pos (by omega)]
    exact ⟨_, rfl, wordCopied_copying hl hj h _, rfl, rfl⟩

/-- The loop copies the table. -/
theorem copying_loop (hl : l.Linked) {m : Machine} {j : Nat} (hj : j < 11) (h : Copying l m j)
    (hpc : m.pc = l.label 54) : ∃ n, Arm.run call l.base (startup l) (4 * (11 - j)) m = some n ∧
      Copying l n 11 ∧ n.lr .svc = m.lr .svc ∧ n.pc = l.label 58 := by
  induction hr : 10 - j generalizing j m with
  | zero =>
    obtain ⟨n, hn, hc, hlr, hpc'⟩ := copying_round call hl hj h hpc
    obtain rfl : j = 10 := by omega
    exact ⟨n, hn, hc, hlr, hpc'⟩
  | succ r ih =>
    obtain ⟨n, hn, hc, hlr, hpc'⟩ := copying_round call hl hj h hpc
    have hj' : j + 1 < 11 := by omega
    rw [if_pos hj'] at hpc'
    obtain ⟨t, ht, hct, hlrt, hpct⟩ := ih hj' hc hpc' (by omega)
    refine ⟨t, ?_, hct, hlrt.trans hlr, hpct⟩
    rw [show 4 * (11 - j) = 4 + 4 * (11 - (j + 1)) by omega, run_add, hn, Option.bind_some, ht]

/-- The first three instructions of `table_copy`. -/
theorem run_copyStart {m : Machine} (hm : Privileged .svc m) (hpc : m.pc = l.label 51)
    (htable : TableIn l m.mem) : ∃ n, Arm.run call l.base (startup l) 3 m = some n ∧
      Copying l n 0 ∧ n.lr .svc = m.lr .svc ∧ n.pc = l.label 54 := by
  have htext : startup l = (handlerRst l ++ (handlerIrq ++ (handlerSvc ++
      (interruptVectorTable l).map .word))) ++ ((tableCopy l).take 3 ++ (tableCopy l).drop 3) := by
    simp [startup]
  have hrun : Arm.run call l.base (startup l) 3 m =
      ((tableCopy l).take 3).foldlM (fun m i => execute call i m) m :=
    run_part _ _ _ htext (by simp [tableCopy, Instr.Sequential]) hpc
  rw [hrun, foldlM_privileged hm (by simp [tableCopy, Instr.KeepsStatus])]
  refine ⟨_, rfl, ⟨hm, rfl, rfl, rfl, htable, fun i hi => absurd hi (Nat.not_lt_zero i)⟩, rfl, ?_⟩
  simp only [Machine.next, Machine.set, hpc, label_next]

theorem tableCopy_copies (hl : l.Linked) {m : Machine} (hm : Privileged .svc m)
    (hpc : m.pc = l.label 51) (htable : TableIn l m.mem) (hlr : Aligned (m.lr .svc)) :
    ∃ n, Arm.run call l.base (startup l) (3 + (4 * 11 + 1)) m = some n ∧ Privileged .svc n ∧
      TableAt l n.mem ∧ n.pc = m.lr .svc := by
  obtain ⟨n, hn, hc, hlrn, hpcn⟩ := run_copyStart call hm hpc htable
  obtain ⟨t, ht, hct, hlrt, hpct⟩ := copying_loop call hl (by decide) hc hpcn
  have hreturn : Arm.run call l.base (startup l) 1 t =
      [.movPcLr].foldlM (fun m i => execute call i m) t :=
    run_part (beforeLoop l ++ copyRound l) [.movPcLr] [] (by simp [startup_loop]) (by simp) hpct
  have hback : t.lr .svc = m.lr .svc := hlrt.trans hlrn
  refine ⟨{ t with pc := t.lr .svc }, ?_, hct.mode, hct.copied, hback⟩
  rw [run_add, hn, Option.bind_some, run_add, show 4 * 11 = 4 * (11 - 0) from rfl, ht,
    Option.bind_some, hreturn, List.foldlM_cons, execute_privileged hct.mode, perform, if_pos (hback ▸ hlr)]
  rfl

/-- The stacks are set up, and there is room for a context. -/
def stacked (l : Layout) (m : Machine) : Machine := { m with
  r := Function.update m.r 0 (l.stackTopSvc - 68)
  sp := Function.update (Function.update (Function.update m.sp .irq l.stackTopIrq) .svc l.stackTopSvc)
    .svc (l.stackTopSvc - 68)
  cpsr := mixFields (mixFields m.cpsr 0xd2) 0xd3
  pc := m.pc + 4 + 4 + 4 + 4 + 4 + 4 }

/-- The part that sets the stacks up. -/
def stacking (l : Layout) : List (Instr Symbol) := [
  .msrCpsr 0xd2,
  .ldrConst .sp l.stackTopIrq,
  .msrCpsr 0xd3,
  .ldrConst .sp l.stackTopSvc,
  .sub .sp .sp 68,
  .mov (.r 0) .sp]

theorem stacked_steps {m : Machine} (h : Privileged .svc m) :
    (stacking l).foldlM (fun m i => execute call i m) m = some (stacked l m) := by
  have hirq : modeOf (mixFields m.cpsr 0xd2) = some .irq := (modeOf_mixFields _ _).trans (by decide)
  have hsvc : modeOf (mixFields (mixFields m.cpsr 0xd2) 0xd3) = some .svc :=
    (modeOf_mixFields _ _).trans (by decide)
  simp [stacking, execute, h.1, hirq, hsvc, perform, Machine.next, Machine.set, Machine.get, stacked]

theorem startup_boot (l : Layout) : startup l = [.bl (l.label 51)] ++
    ((stacking l ++ .call .kernelHandlerRst :: resuming) ++ (.b (l.label 13) ::
      (handlerIrq ++ (handlerSvc ++ ((interruptVectorTable l).map .word ++ tableCopy l))))) := by
  simp [startup, handlerRst, stacking, resuming]

/-- What `kernel_handler_rst` is called with. -/
structure Booted (l : Layout) (k : Machine) : Prop where
  argument : k.r 0 = l.stackTopSvc - 68
  stack : k.sp .svc = l.stackTopSvc - 68
  irqStack : k.sp .irq = l.stackTopIrq
  mode : modeOf k.cpsr = some .svc
  table : TableAt l k.mem

/-- From the reset up to the first process. -/
def bootStep (l : Layout) (m : Machine) : Option Machine := Arm.run call l.base (startup l) 61 m

theorem boot_runs (hl : l.Linked) (htop : Aligned l.stackTopSvc) {m : Machine} {ctx : Ctx}
    (hm : Privileged .svc m) (hpc : m.pc = l.label 0) (htable : TableIn l m.mem)
    (hcall : ∀ k, Booted l k → ∃ n, call .kernelHandlerRst k = some n ∧
      ctxAt n.mem (k.r 0) = ctx ∧ Returned k n ∧ TableAt l n.mem) :
    ∃ n, bootStep call l m = some n ∧ Shows ctx n ∧
      n.sp .svc = l.stackTopSvc ∧ n.sp .irq = l.stackTopIrq ∧ TableAt l n.mem := by
  have hlr : ({ m.set .svc .lr (l.label 1) with pc := l.label 51 } : Machine).lr .svc = l.label 1 :=
    Function.update_self Mode.svc _ m.lr
  -- the call of `table_copy`
  have hbl : Arm.run call l.base (startup l) 1 m =
      some { m.set .svc .lr (l.label 1) with pc := l.label 51 } := by
    refine (run_part [] [.bl (l.label 51)] _ (startup_boot l) (by simp) hpc).trans ?_
    rw [List.foldlM_cons, execute_privileged hm, perform, hpc, label_next]
    rfl
  obtain ⟨t, ht, hpriv, htable', hpct⟩ := tableCopy_copies call hl
    (m := { m.set .svc .lr (l.label 1) with pc := l.label 51 }) hm rfl htable
    (hlr ▸ label_aligned hl 1)
  -- the C function, and the first process
  have hmode : Privileged .svc (stacked l t) := ⟨(modeOf_mixFields _ _).trans (by decide), by decide⟩
  have hirq : (stacked l t).sp .irq = l.stackTopIrq := by simp [stacked]
  have hsvc : (stacked l t).sp .svc = l.stackTopSvc - 68 := by simp [stacked]
  obtain ⟨n, hn, hctx, hret, htable''⟩ := hcall
    ((stacked l t).set .svc .lr ((stacked l t).pc + 4)) ⟨rfl, hsvc, hirq, hmode.1, htable'⟩
  have hstack : n.sp .svc = l.stackTopSvc - 68 := (hret.kernelStacks .svc (by decide)).trans hsvc
  obtain ⟨u, hu, hres⟩ := resuming_resumes call (m := { n with pc := (stacked l t).pc + 4 })
    (show Privileged .svc _ from ⟨hret.mode.trans hmode.1, by decide⟩)
    (show Aligned (n.sp .svc) from hstack ▸ aligned_sub htop (by decide))
  have hshown : ctxAt n.mem (n.sp .svc) = ctx := by
    rw [hstack, ← hctx]
    rfl
  refine ⟨u, ?_, hshown ▸ hres.shows, ?_, ?_, hres.mem.symm ▸ htable''⟩
  · rw [bootStep, show 61 = 1 + (3 + (4 * 11 + 1) +
      (stacking l ++ .call .kernelHandlerRst :: resuming).length) from rfl, run_add, hbl,
      Option.bind_some, run_add, ht, Option.bind_some,
      run_part [.bl (l.label 51)] _ _ (startup_boot l)
        (by simp [stacking, resuming, Instr.Sequential]) (hpct.trans hlr),
      List.foldlM_append, stacked_steps call hpriv, Option.bind_eq_bind, Option.bind_some,
      List.foldlM_cons, execute_privileged hmode, perform, hn]
    exact hu
  · refine hres.stack.trans ?_
    rw [show ({ n with pc := (stacked l t).pc + 4 } : Machine).sp .svc = _ from hstack]
    exact UInt32.sub_add_cancel _ _
  · exact (hres.other .irq (by decide) (by decide)).trans
      ((hret.kernelStacks .irq (by decide)).trans hirq)

end Boot
end MalapropOS.Startup
