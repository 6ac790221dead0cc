import Mathlib.Algebra.Group.Int.Defs
import Mathlib.Algebra.Group.Nat.Defs
import Mathlib.Data.Fintype.Basic
import Mathlib.Data.List.GetD
import Mathlib.Logic.Function.Basic

/-! A part of the ARM architecture: user, IRQ and supervisor mode with their banked registers,
block transfers of registers, and the instructions of a handler that saves and restores a user
context. Words are at addresses that are multiples of four; an access to another address, and
whatever is unpredictable, has no result. -/
namespace Arm

inductive Mode where
  | usr | irq | svc
  deriving DecidableEq

/-- A general register; the last two are banked. -/
inductive Reg where
  | r (i : Fin 13) | sp | lr
  deriving DecidableEq

structure Machine where
  r : Fin 13 → UInt32
  sp : Mode → UInt32
  lr : Mode → UInt32
  spsr : Mode → UInt32
  cpsr : UInt32
  pc : UInt32
  mem : UInt32 → UInt32

/-- The mode bits of a program status register. -/
def modeOf (psr : UInt32) : Option Mode :=
  if psr &&& 0x1f = 0x10 then some .usr
  else if psr &&& 0x1f = 0x12 then some .irq
  else if psr &&& 0x1f = 0x13 then some .svc
  else none

/-- The control and flags fields come from `new`, which is what `msr` without a field mask writes. -/
def mixFields (old new : UInt32) : UInt32 := (old &&& 0x00ffff00) ||| (new &&& 0xff0000ff)

def Aligned (a : UInt32) : Prop := a.toNat % 4 = 0

instance instDecidableAligned (a : UInt32) : Decidable (Aligned a) :=
  inferInstanceAs (Decidable (a.toNat % 4 = 0))

namespace Machine
variable (m : Machine)

def get (mode : Mode) : Reg → UInt32
  | .r i => m.r i
  | .sp => m.sp mode
  | .lr => m.lr mode

def set (mode : Mode) (x : Reg) (v : UInt32) : Machine :=
  match x with
  | .r i => { m with r := Function.update m.r i v }
  | .sp => { m with sp := Function.update m.sp mode v }
  | .lr => { m with lr := Function.update m.lr mode v }

/-- Registers from a list of words. -/
def setAll (mode : Mode) : List Reg → List UInt32 → Machine → Machine
  | x :: xs, v :: vs, m => setAll mode xs vs (m.set mode x v)
  | _, _, m => m

end Machine

def storeWords (mem : UInt32 → UInt32) (a : UInt32) : List UInt32 → UInt32 → UInt32
  | [] => mem
  | v :: vs => storeWords (Function.update mem a v) (a + 4) vs

def loadWords (mem : UInt32 → UInt32) (a : UInt32) : Nat → List UInt32
  | 0 => []
  | n + 1 => mem a :: loadWords mem (a + 4) n

/-- The instructions. `bl` goes to a label of the same text, `call` to other code. -/
inductive Instr (F : Type) where
  | sub (rd rn : Reg) (imm : UInt32)
  | add (rd rn : Reg) (imm : UInt32)
  | mov (rd rn : Reg)
  | ldrConst (rd : Reg) (v : UInt32)          -- mov rd, #v and ldr rd, =v
  | bic (rd rn : Reg) (imm : UInt32)
  | ldr (rd rn : Reg) (offset : UInt32)       -- ldr rd, [rn, #offset]
  | ldrPost (rd rn : Reg) (imm : UInt32)      -- ldr rd, [rn], #imm
  | strPost (rd rn : Reg) (imm : UInt32)
  | stmdb (rn : Reg) (xs : List Reg)          -- stmdb rn!, { xs }
  | ldmia (rn : Reg) (xs : List Reg)          -- ldmia rn!, { xs }
  | stmiaUser (rn : Reg) (xs : List Reg)      -- stmia rn, { xs }^
  | ldmiaUser (rn : Reg) (xs : List Reg)      -- ldmia rn, { xs }^
  | mrsSpsr (rd : Reg)
  | msrSpsr (rn : Reg)
  | msrCpsr (imm : UInt32)
  | cmp (rn rm : Reg)
  | bne (target : UInt32)
  | b (target : UInt32)
  | bl (target : UInt32)
  | call (f : F)
  | movPcLr
  | movsPcLr
  | word (v : UInt32)

section Semantics
variable {F : Type} (call : F → Machine → Option Machine)

/-- The condition flags of a comparison. -/
def compareFlags (x y : UInt32) : UInt32 :=
  (if (x - y).toNat ≥ 2 ^ 31 then 0x80000000 else 0) ||| (if x = y then 0x40000000 else 0) |||
    (if y ≤ x then 0x20000000 else 0) |||
    (if x.toInt32.toInt - y.toInt32.toInt < -2 ^ 31 ∨
      2 ^ 31 ≤ x.toInt32.toInt - y.toInt32.toInt then 0x10000000 else 0)

/-- Where a return to `a` goes in the instruction set that `psr` selects. -/
def branchTarget (psr a : UInt32) : UInt32 :=
  if psr &&& 0x20 = 0 then a &&& 0xfffffffc else a &&& 0xfffffffe

def Machine.next (m : Machine) : Machine := { m with pc := m.pc + 4 }

/-- One instruction in a privileged mode. -/
def perform (mode : Mode) (m : Machine) : Instr F → Option Machine
  | .sub rd rn imm => some (m.set mode rd (m.get mode rn - imm)).next
  | .add rd rn imm => some (m.set mode rd (m.get mode rn + imm)).next
  | .mov rd rn => some (m.set mode rd (m.get mode rn)).next
  | .ldrConst rd v => some (m.set mode rd v).next
  | .bic rd rn imm => some (m.set mode rd (m.get mode rn &&& ~~~ imm)).next
  | .ldr rd rn offset =>
    if Aligned (m.get mode rn + offset) then
      some (m.set mode rd (m.mem (m.get mode rn + offset))).next
    else none
  | .ldrPost rd rn imm =>
    if Aligned (m.get mode rn) then
      some ((m.set mode rn (m.get mode rn + imm)).set mode rd (m.mem (m.get mode rn))).next
    else none
  | .strPost rd rn imm =>
    if Aligned (m.get mode rn) then
      some ({ m with mem := Function.update m.mem (m.get mode rn) (m.get mode rd) }.set mode rn
        (m.get mode rn + imm)).next
    else none
  | .stmdb rn xs =>
    let a := m.get mode rn - 4 * UInt32.ofNat xs.length
    if Aligned a then
      some ({ m with mem := storeWords m.mem a (xs.map (m.get mode)) }.set mode rn a).next
    else none
  | .ldmia rn xs =>
    let a := m.get mode rn
    if Aligned a then
      some ((m.set mode rn (a + 4 * UInt32.ofNat xs.length)).setAll mode xs
        (loadWords m.mem a xs.length)).next
    else none
  | .stmiaUser rn xs =>
    if Aligned (m.get mode rn) then
      some ({ m with mem := storeWords m.mem (m.get mode rn) (xs.map (m.get .usr)) }).next
    else none
  | .ldmiaUser rn xs =>
    if Aligned (m.get mode rn) then
      some (m.setAll .usr xs (loadWords m.mem (m.get mode rn) xs.length)).next
    else none
  | .mrsSpsr rd => some (m.set mode rd (m.spsr mode)).next
  | .msrSpsr rn =>
    some { m with spsr := Function.update m.spsr mode (mixFields (m.spsr mode) (m.get mode rn)) }.next
  | .msrCpsr imm => some { m with cpsr := mixFields m.cpsr imm }.next
  | .cmp rn rm => some { m with
      cpsr := (m.cpsr &&& 0x0fffffff) ||| compareFlags (m.get mode rn) (m.get mode rm) }.next
  | .bne target => if m.cpsr &&& 0x40000000 = 0 then some { m with pc := target } else some m.next
  | .b target => some { m with pc := target }
  | .bl target => some { m.set mode .lr (m.pc + 4) with pc := target }
  | .call f => (call f (m.set mode .lr (m.pc + 4))).map fun n => { n with pc := m.pc + 4 }
  | .movPcLr => if Aligned (m.lr mode) then some { m with pc := m.lr mode } else none
  | .movsPcLr => some { m with cpsr := m.spsr mode, pc := branchTarget (m.spsr mode) (m.lr mode) }
  | .word _ => none

/-- One instruction. What is here is not for user mode. -/
def execute (i : Instr F) (m : Machine) : Option Machine :=
  match modeOf m.cpsr with
  | some .irq => perform call .irq m i
  | some .svc => perform call .svc m i
  | _ => none

/-- The text of a program from the address `base` on. -/
def fetch (base : UInt32) (text : List (Instr F)) (pc : UInt32) : Option (Instr F) :=
  if Aligned (pc - base) then text[(pc - base).toNat / 4]? else none

def step (base : UInt32) (text : List (Instr F)) (m : Machine) : Option Machine :=
  (fetch base text m.pc).bind fun i => execute call i m

def run (base : UInt32) (text : List (Instr F)) : Nat → Machine → Option Machine
  | 0, m => some m
  | n + 1, m => (step call base text m).bind (run base text n)

/-- The processor leaves the running program for the exception vector. The instruction at `pc` is
the one that calls the supervisor, or the one in front of which the interrupt comes. -/
def takeException (mode : Mode) (vector bits : UInt32) (m : Machine) : Machine := { m with
  lr := Function.update m.lr mode (m.pc + 4)
  spsr := Function.update m.spsr mode m.cpsr
  cpsr := (m.cpsr &&& 0xf8ff01c0) ||| bits
  pc := vector }

def supervisorCall (m : Machine) : Machine := takeException .svc 0x08 0x93 m

def interrupt (m : Machine) : Machine := takeException .irq 0x18 0x192 m

/-- The instruction at a vector, `ldr pc, [pc, #offset]`; the register reads as two instructions on. -/
def vectorTarget (mem : UInt32 → UInt32) (vector : UInt32) : Option UInt32 :=
  if mem vector &&& 0xfffff000 = 0xe59ff000 then
    some (mem (vector + 8 + (mem vector &&& 0xfff)))
  else none

def takeVector (m : Machine) : Option Machine :=
  (vectorTarget m.mem m.pc).map fun pc => { m with pc := pc }

end Semantics

section Status

theorem or_and_mask {x y mask : UInt32} : (x ||| y) &&& mask = (x &&& mask) ||| (y &&& mask) :=
  UInt32.toBitVec_inj.mp BitVec.and_or_distrib_right

/-- Bits of the fields that `msr` writes. -/
theorem mixFields_and {mask : UInt32} (h : 0x00ffff00 &&& mask = 0) (h' : 0xff0000ff &&& mask = mask)
    (old new : UInt32) : mixFields old new &&& mask = new &&& mask := by
  rw [mixFields, or_and_mask, UInt32.and_assoc, UInt32.and_assoc, h, h', UInt32.and_zero,
    UInt32.zero_or]

theorem modeOf_congr {x y : UInt32} (h : x &&& 0x1f = y &&& 0x1f) : modeOf x = modeOf y := by
  rw [modeOf, modeOf, h]

theorem modeOf_mixFields (old new : UInt32) : modeOf (mixFields old new) = modeOf new :=
  modeOf_congr (mixFields_and (by decide) (by decide) old new)

/-- A word in ARM state. -/
theorem branchTarget_aligned {psr a : UInt32} (h : psr &&& 0x20 = 0) (ha : Aligned a) :
    branchTarget psr a = a := by
  have hword : a.toNat = (a.toNat / 4) <<< 2 := by
    rw [Aligned] at ha
    rw [Nat.shiftLeft_eq]
    omega
  have hlt : a.toNat / 4 < 2 ^ 30 := by
    have := a.toNat_lt
    omega
  have hmask : (0xfffffffc : UInt32).toNat = (2 ^ 30 - 1) <<< 2 := by decide
  rw [branchTarget, if_pos h]
  apply UInt32.toNat_inj.mp
  rw [UInt32.toNat_and, hmask, hword, ← Nat.shiftLeft_and_distrib, Nat.and_two_pow_sub_one_eq_mod,
    Nat.mod_eq_of_lt hlt]

theorem branchTarget_mixFields (old new a : UInt32) :
    branchTarget (mixFields old new) a = branchTarget new a := by
  rw [branchTarget, branchTarget, mixFields_and (by decide) (by decide)]

/-- An exception enters its mode. -/
theorem modeOf_exception (x : UInt32) :
    modeOf ((x &&& 0xf8ff01c0) ||| 0x93) = some .svc ∧
      modeOf ((x &&& 0xf8ff01c0) ||| 0x192) = some .irq := by
  have hbits (y : UInt32) : ((x &&& 0xf8ff01c0) ||| y) &&& 0x1f = y &&& 0x1f := by
    rw [or_and_mask, UInt32.and_assoc, show (0xf8ff01c0 : UInt32) &&& 0x1f = 0 by decide,
      UInt32.and_zero, UInt32.zero_or]
  exact ⟨(modeOf_congr (hbits _)).trans (by decide), (modeOf_congr (hbits _)).trans (by decide)⟩

/-- A comparison sets the zero flag for equal numbers, and leaves the mode. -/
theorem compare_status (psr x y : UInt32) :
    (((psr &&& 0x0fffffff) ||| compareFlags x y) &&& 0x40000000 = 0 ↔ x ≠ y) ∧
      modeOf ((psr &&& 0x0fffffff) ||| compareFlags x y) = modeOf psr := by
  have hzero : compareFlags x y &&& 0x40000000 = if x = y then 0x40000000 else 0 := by
    rw [compareFlags]
    split_ifs <;> rfl
  have hmode : compareFlags x y &&& 0x1f = 0 := by
    rw [compareFlags]
    split_ifs <;> rfl
  constructor
  · rw [or_and_mask, UInt32.and_assoc, show (0x0fffffff : UInt32) &&& 0x40000000 = 0 by decide,
      UInt32.and_zero, UInt32.zero_or, hzero]
    split_ifs with h <;> simp [h]
  · refine modeOf_congr ?_
    rw [or_and_mask, UInt32.and_assoc, hmode, UInt32.or_zero]
    rfl

end Status

section Words
variable {mem : UInt32 → UInt32} {a b : UInt32}

/-- The bytes from an address behind `a` to `b`. -/
theorem sub_behind {k : UInt32} (h : k.toNat ≤ (b - a).toNat) :
    (b - (a + k)).toNat = (b - a).toNat - k.toNat := by
  have he : b - (a + k) = b - a - k := by grind
  rw [he, UInt32.toNat_sub_of_le _ _ (by rwa [UInt32.le_iff_toNat_le])]

theorem storeWords_other {vs : List UInt32} (h : 4 * vs.length ≤ (b - a).toNat) :
    storeWords mem a vs b = mem b := by
  induction vs generalizing mem a with
  | nil => rfl
  | cons v vs ih =>
    rw [List.length_cons] at h
    have hne : b ≠ a := by
      rintro rfl
      rw [UInt32.sub_self] at h
      exact absurd h (by simp)
    have hnext : (b - (a + 4)).toNat = (b - a).toNat - 4 := sub_behind (show 4 ≤ _ by omega)
    rw [storeWords, ih (by omega), Function.update_of_ne hne]

theorem loadWords_storeWords {vs : List UInt32} (h : 4 * vs.length < 2 ^ 32) :
    loadWords (storeWords mem a vs) a vs.length = vs := by
  induction vs generalizing mem a with
  | nil => rfl
  | cons v vs ih =>
    rw [List.length_cons] at h
    have hfirst : storeWords mem a (v :: vs) a = v := by
      have hdist : (a - (a + 4)).toNat = 2 ^ 32 - 4 := by
        rw [show a - (a + 4) = 0 - 4 by grind]
        rfl
      rw [storeWords, storeWords_other (by omega), Function.update_self]
    rw [List.length_cons, loadWords, hfirst, storeWords, ih (by omega)]

theorem loadWords_length (mem : UInt32 → UInt32) (a : UInt32) (n : Nat) :
    (loadWords mem a n).length = n := by
  induction n generalizing a with
  | zero => rfl
  | succ n ih => rw [loadWords, List.length_cons, ih]

theorem loadWords_get (mem : UInt32 → UInt32) (a : UInt32) {n i : Nat} (h : i < n) :
    (loadWords mem a n).getD i 0 = mem (a + 4 * UInt32.ofNat i) := by
  induction n generalizing a i with
  | zero => omega
  | succ n ih =>
    cases i with
    | zero => simp [loadWords]
    | succ i =>
      rw [loadWords, List.getD_cons_succ, ih (a + 4) (by omega), UInt32.ofNat_add,
        UInt32.mul_add, UInt32.add_assoc, UInt32.add_comm (4 * UInt32.ofNat i)]
      rfl

theorem storeWords_get (mem : UInt32 → UInt32) (a : UInt32) (vs : List UInt32) {i : Nat}
    (hsize : 4 * vs.length < 2 ^ 32) (h : i < vs.length) :
    storeWords mem a vs (a + 4 * UInt32.ofNat i) = vs.getD i 0 := by
  rw [← loadWords_get (storeWords mem a vs) a h, loadWords_storeWords hsize]

end Words

section Registers
variable (m : Machine) (mode : Mode)

theorem get_set_self (x : Reg) (v : UInt32) : (m.set mode x v).get mode x = v := by
  cases x <;> simp [Machine.set, Machine.get]

theorem get_set_of_ne {x y : Reg} (h : y ≠ x) (v : UInt32) :
    (m.set mode x v).get mode y = m.get mode y := by
  cases x <;> cases y <;> simp_all [Machine.set, Machine.get]

variable {m mode}

theorem get_setAll_of_notMem {xs : List Reg} {vs : List UInt32} {x : Reg} (h : x ∉ xs) :
    (Machine.setAll mode xs vs m).get mode x = m.get mode x := by
  induction xs generalizing m vs with
  | nil => rfl
  | cons y xs ih =>
    cases vs with
    | nil => rfl
    | cons v vs =>
      rw [List.mem_cons, not_or] at h
      rw [Machine.setAll, ih h.2, get_set_of_ne _ _ h.1]

theorem get_setAll {xs : List Reg} {vs : List UInt32} (hnodup : xs.Nodup)
    (hlen : vs.length = xs.length) :
    xs.map ((Machine.setAll mode xs vs m).get mode) = vs := by
  induction xs generalizing m vs with
  | nil => exact (List.length_eq_zero_iff.mp hlen).symm
  | cons x xs ih =>
    cases vs with
    | nil => cases hlen
    | cons v vs =>
      obtain ⟨hx, hnodup⟩ := List.nodup_cons.mp hnodup
      rw [Machine.setAll, List.map_cons, get_setAll_of_notMem hx, get_set_self,
        ih hnodup (Nat.succ.inj hlen)]

/-- What is not a register of the mode stays. -/
theorem setAll_kept (m : Machine) (mode : Mode) (xs : List Reg) (vs : List UInt32) :
    (Machine.setAll mode xs vs m).mem = m.mem ∧ (Machine.setAll mode xs vs m).cpsr = m.cpsr ∧
      (Machine.setAll mode xs vs m).spsr = m.spsr ∧ (Machine.setAll mode xs vs m).pc = m.pc ∧
      ∀ other ≠ mode, (Machine.setAll mode xs vs m).sp other = m.sp other ∧
        (Machine.setAll mode xs vs m).lr other = m.lr other := by
  induction xs generalizing m vs with
  | nil => simp [Machine.setAll]
  | cons x xs ih =>
    cases vs with
    | nil => simp [Machine.setAll]
    | cons v vs =>
      obtain ⟨h₁, h₂, h₃, h₄, h₅⟩ := ih (m.set mode x v) vs
      rw [Machine.setAll, h₁, h₂, h₃, h₄]
      cases x <;> simp_all [Machine.set]

end Registers

section Runs
variable {F : Type} {call : F → Machine → Option Machine} {base : UInt32}

/-- The next instruction is the one behind. -/
def Instr.Sequential : Instr F → Prop
  | .bne _ | .b _ | .bl _ | .movPcLr | .movsPcLr => False
  | _ => True

theorem set_pc (mode : Mode) (m : Machine) (x : Reg) (v : UInt32) : (m.set mode x v).pc = m.pc := by
  cases x <;> rfl

theorem perform_sequential {mode : Mode} {i : Instr F} {m n : Machine} (hi : i.Sequential)
    (h : perform call mode m i = some n) : n.pc = m.pc + 4 := by
  cases i with
  | bne | b | bl | movPcLr | movsPcLr => exact hi.elim
  | word => cases h
  | call f =>
    obtain ⟨k, -, rfl⟩ := Option.map_eq_some_iff.mp h
    rfl
  | ldmia rn xs | ldmiaUser rn xs =>
    rw [perform] at h
    split_ifs at h
    obtain rfl := Option.some.inj h
    simp [Machine.next, (setAll_kept _ _ _ _).2.2.2.1, set_pc]
  | ldr | ldrPost | strPost | stmdb | stmiaUser =>
    simp only [perform] at h
    split_ifs at h
    obtain rfl := Option.some.inj h
    simp [Machine.next, set_pc]
  | sub | add | mov | ldrConst | bic | mrsSpsr | msrSpsr | msrCpsr | cmp =>
    obtain rfl := Option.some.inj h
    simp [Machine.next, set_pc]

theorem execute_sequential {i : Instr F} {m n : Machine} (hi : i.Sequential)
    (h : execute call i m = some n) : n.pc = m.pc + 4 := by
  rw [execute] at h
  split at h
  · exact perform_sequential hi h
  · exact perform_sequential hi h
  · cases h

theorem fetch_at {pre post : List (Instr F)} {i : Instr F} {pc : UInt32}
    (hsize : pre.length < 2 ^ 30) (hpc : pc = base + 4 * UInt32.ofNat pre.length) :
    fetch base (pre ++ i :: post) pc = some i := by
  have hoff : (pc - base).toNat = 4 * pre.length := by
    rw [hpc, UInt32.add_comm, UInt32.add_sub_cancel, UInt32.toNat_mul,
      UInt32.toNat_ofNat_of_lt' (hsize.trans (by decide))]
    exact Nat.mod_eq_of_lt (show 4 * pre.length < 2 ^ 32 by omega)
  rw [fetch, if_pos (by rw [Aligned, hoff]; omega), hoff]
  simp

/-- A block of instructions runs from its start to its end; only the last one may branch. -/
theorem run_block {pre is post : List (Instr F)} {m : Machine} (hseq : ∀ i ∈ is.dropLast, i.Sequential)
    (hsize : pre.length + is.length ≤ 2 ^ 30) (hpc : m.pc = base + 4 * UInt32.ofNat pre.length) :
    run call base (pre ++ (is ++ post)) is.length m = is.foldlM (fun m i => execute call i m) m := by
  induction is generalizing pre m with
  | nil => rfl
  | cons i is ih =>
    rw [List.length_cons] at hsize
    rw [List.length_cons, run, step, List.cons_append, fetch_at (by omega) hpc, Option.bind_some,
      List.foldlM_cons]
    refine Option.bind_congr fun n hn => ?_
    cases is with
    | nil => rfl
    | cons j is =>
      have hpre : pre ++ i :: (j :: is ++ post) = (pre ++ [i]) ++ (j :: is ++ post) := by simp
      rw [hpre]
      refine ih (fun k hk => hseq k (by simp [hk])) (by simp at hsize ⊢; omega) ?_
      rw [execute_sequential (hseq i (by simp)) hn, hpc, List.length_append, UInt32.ofNat_add,
        UInt32.mul_add, UInt32.add_assoc]
      rfl

/-- A mode that has handlers. -/
def Privileged (mode : Mode) (m : Machine) : Prop := modeOf m.cpsr = some mode ∧ mode ≠ .usr

theorem execute_privileged {mode : Mode} {m : Machine} (h : Privileged mode m) (i : Instr F) :
    execute call i m = perform call mode m i := by
  obtain ⟨hm, hne⟩ := h
  rw [execute, hm]
  cases mode with
  | usr => exact absurd rfl hne
  | irq => rfl
  | svc => rfl

/-- The status register stays. -/
def Instr.KeepsStatus : Instr F → Prop
  | .msrCpsr _ | .cmp _ _ | .call _ | .movsPcLr => False
  | _ => True

theorem set_cpsr (mode : Mode) (m : Machine) (x : Reg) (v : UInt32) :
    (m.set mode x v).cpsr = m.cpsr := by
  cases x <;> rfl

theorem perform_cpsr {mode : Mode} {i : Instr F} {m n : Machine} (hi : i.KeepsStatus)
    (h : perform call mode m i = some n) : n.cpsr = m.cpsr := by
  cases i with
  | msrCpsr | cmp | call | movsPcLr => exact hi.elim
  | word => cases h
  | ldmia rn xs | ldmiaUser rn xs =>
    rw [perform] at h
    split_ifs at h
    obtain rfl := Option.some.inj h
    simp [Machine.next, (setAll_kept _ _ _ _).2.1, set_cpsr]
  | ldr | ldrPost | strPost | stmdb | stmiaUser | bne | movPcLr =>
    simp only [perform] at h
    split_ifs at h <;> obtain rfl := Option.some.inj h <;> simp [Machine.next, set_cpsr]
  | sub | add | mov | ldrConst | bic | mrsSpsr | msrSpsr | b | bl =>
    obtain rfl := Option.some.inj h
    simp [Machine.next, set_cpsr]

/-- Loading registers of user mode. -/
theorem perform_ldmiaUser (call : F → Machine → Option Machine) {mode : Mode} (rn : Reg)
    {xs : List Reg} (m : Machine)
    (hnodup : xs.Nodup) (ha : Aligned (m.get mode rn)) :
    ∃ n, perform call mode m (.ldmiaUser rn xs) = some n ∧
      xs.map (n.get .usr) = loadWords m.mem (m.get mode rn) xs.length ∧ n.mem = m.mem ∧
      n.cpsr = m.cpsr ∧ n.spsr = m.spsr ∧ ∀ q ≠ .usr, n.sp q = m.sp q ∧ n.lr q = m.lr q := by
  obtain ⟨hmem, hcpsr, hspsr, -, hother⟩ := setAll_kept m .usr xs
    (loadWords m.mem (m.get mode rn) xs.length)
  exact ⟨_, if_pos ha, get_setAll (m := m) hnodup (loadWords_length _ _ _), hmem, hcpsr, hspsr, hother⟩

/-- A block that stays in its mode. -/
theorem foldlM_privileged {mode : Mode} {is : List (Instr F)} {m : Machine}
    (h : Privileged mode m) (hk : ∀ i ∈ is.dropLast, i.KeepsStatus) :
    is.foldlM (fun m i => execute call i m) m = is.foldlM (perform call mode) m := by
  induction is generalizing m with
  | nil => rfl
  | cons i is ih =>
    rw [List.foldlM_cons, List.foldlM_cons, execute_privileged h]
    refine Option.bind_congr fun n hn => ?_
    cases is with
    | nil => rfl
    | cons j is =>
      have hcpsr := perform_cpsr (hk i (by simp)) hn
      exact ih (by rwa [Privileged, hcpsr]) fun k hk' => hk k (by simp [hk'])

theorem run_add {text : List (Instr F)} (n k : Nat) (m : Machine) :
    run call base text (n + k) m = (run call base text n m).bind (run call base text k) := by
  induction n generalizing m with
  | zero => simp [run]
  | succ n ih =>
    rw [Nat.succ_add, run, run, Option.bind_assoc]
    exact Option.bind_congr fun t _ => ih t

end Runs
end Arm
