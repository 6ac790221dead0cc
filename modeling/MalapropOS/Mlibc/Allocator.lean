import Mathlib.Data.Set.Lattice
import Mathlib.Order.CompletePartialOrder
import Mathlib.Order.Interval.Set.Disjoint
import MalapropOS.Lib.Runs
import MalapropOS.Shell.Input

/-! `stdmem_allocate` reads the break with one call of `_sbrk` and moves it with another. The kernel
and all processes share the break, and a process may be preempted between its two calls. The size
becomes an `int32_t` on its way, and pointers are 32 bits wide and wrap round. -/
namespace MalapropOS.Mlibc
open Function (update)
open PartialMachine

/-- The heap of `image.ld`: 256KB, with the user stacks above them. -/
structure HeapArea where
  heapLow : UInt32
  above : 0x70010000 ≤ heapLow.toNat
  fits : heapLow.toNat + 0x80000 < 2 ^ 32

def HeapArea.heapTop (a : HeapArea) : UInt32 := a.heapLow + 0x40000

/-- Who calls: a handler of the kernel, or the process with that pid. -/
inductive Caller where
  | kernel
  | process (pid : Int)
  deriving DecidableEq

/-- A block of memory: the pointer that was returned, and the size that was asked for. -/
structure Block where
  p : UInt32
  size : UInt32

def Block.bytes (b : Block) : Set Nat := Set.Ico b.p.toNat (b.p.toNat + b.size.toNat)

/-- The break, which is 0 until the first call; what each caller has read of it, with the size it
asks for, when it is between its two calls; and the blocks returned so far. -/
structure Heap where
  currentBreak : UInt32
  pending : Caller → Option Block
  blocks : List Block

def Heap.start : Heap := ⟨0, fun _ => none, []⟩

/-- `(void*)-1`. -/
def sbrkFailed : UInt32 := 0xffffffff

/-- The break as `_sbrk` takes it. -/
def HeapArea.breakOf (a : HeapArea) (currentBreak : UInt32) : UInt32 :=
  if currentBreak = 0 then a.heapLow else currentBreak

/-- The result and the new break. -/
def sbrk (a : HeapArea) (currentBreak : UInt32) (incr : Int32) : UInt32 × UInt32 :=
  let prevBreak := a.breakOf currentBreak
  if prevBreak + incr.toUInt32 > a.heapTop then (sbrkFailed, prevBreak)
  else (prevBreak, prevBreak + incr.toUInt32)

inductive Act where
  /-- `stdmem_allocate` is called, and calls `_sbrk(0)`. -/
  | first (who : Caller) (size : UInt32)
  /-- It calls `_sbrk(size)` and returns. -/
  | second (who : Caller)

/-- What the second call returns, 0 for `NULL`, and the new break. -/
def secondCall (a : HeapArea) (currentBreak : UInt32) (b : Block) : UInt32 × UInt32 :=
  let r := sbrk a currentBreak b.size.toInt32
  (if r.1 = sbrkFailed then 0 else b.p, r.2)

/-- Handlers of the kernel run with interrupts disabled. -/
def MayRun (s : Heap) (who : Caller) : Prop := who = .kernel ∨ s.pending .kernel = none

instance (s : Heap) (who : Caller) : Decidable (MayRun s who) :=
  decidable_of_iff (who = .kernel ∨ (s.pending .kernel).isNone) (by simp [MayRun])

def step (a : HeapArea) (s : Heap) : Act → Option Heap
  | .first who size =>
    if MayRun s who ∧ (s.pending who).isNone then
      let r := sbrk a s.currentBreak 0
      some { s with currentBreak := r.2, pending := update s.pending who (some ⟨r.1, size⟩) }
    else none
  | .second who =>
    if MayRun s who then
      (s.pending who).map fun b =>
        let r := secondCall a s.currentBreak b
        { currentBreak := r.2
          pending := update s.pending who none
          blocks := if r.1 = 0 then s.blocks else s.blocks ++ [⟨r.1, b.size⟩] }
    else none

/-- The blocks lie in the heap, and no byte is in two of them. -/
structure Safe (a : HeapArea) (s : Heap) : Prop where
  within : ∀ b ∈ s.blocks, a.heapLow.toNat ≤ b.p.toNat ∧
    b.p.toNat + b.size.toNat ≤ a.heapTop.toNat
  disjoint : s.blocks.Pairwise fun b c => Disjoint b.bytes c.bytes

/-- A call that returns `NULL` leaves the break where it was. -/
def NullKeeps (a : HeapArea) (s : Heap) : Act → Prop
  | .first _ _ => True
  | .second who => ∀ b, s.pending who = some b → (secondCall a s.currentBreak b).1 = 0 →
      (secondCall a s.currentBreak b).2 = a.breakOf s.currentBreak

/-- The caller asks for nothing, or its size is refused, or the break is still where it has read it
and the block ends in the heap. -/
def Undisturbed (a : HeapArea) (s : Heap) : Act → Prop
  | .first _ _ => True
  | .second who => ∀ b, s.pending who = some b → b.size = 0 ∨
      a.breakOf s.currentBreak + b.size > a.heapTop ∨
      (a.breakOf s.currentBreak = b.p ∧ b.p.toNat + b.size.toNat ≤ a.heapTop.toNat)

section Break
variable (a : HeapArea)

theorem HeapArea.toNat_heapTop : a.heapTop.toNat = a.heapLow.toNat + 0x40000 := by
  have h := a.fits
  rw [heapTop, UInt32.toNat_add]
  simp only [UInt32.reduceToNat]
  omega

theorem HeapArea.breakOf_ne_zero (b : UInt32) : a.breakOf b ≠ 0 := by
  have h := a.above
  by_cases hb : b = 0
  · rw [breakOf, if_pos hb]
    intro hz
    rw [hz, UInt32.toNat_zero] at h
    omega
  · rwa [breakOf, if_neg hb]

variable {a}

theorem HeapArea.breakOf_of_ne {b : UInt32} (h : b ≠ 0) : a.breakOf b = b := if_neg h

theorem HeapArea.breakOf_breakOf (b : UInt32) : a.breakOf (a.breakOf b) = a.breakOf b :=
  breakOf_of_ne (a.breakOf_ne_zero b)

theorem HeapArea.ne_sbrkFailed {b : UInt32} (h : b.toNat ≤ a.heapTop.toNat) : b ≠ sbrkFailed := by
  have hfits := a.fits
  rw [a.toNat_heapTop] at h
  intro hb
  rw [hb, sbrkFailed] at h
  simp only [UInt32.reduceToNat] at h
  omega

/-- As long as the sum does not wrap round, this is `_sbrk` as the shell's input uses it. -/
theorem sbrk_eq_shell {b size : UInt32} (hb : b ≠ 0) (hsum : b.toNat + size.toNat < 2 ^ 32) :
    ((sbrk a b size.toInt32).1.toNat, (sbrk a b size.toInt32).2.toNat) =
      Shell.sbrk a.heapTop.toNat b.toNat size.toNat := by
  have hadd : (b + size).toNat = b.toNat + size.toNat := by
    rw [UInt32.toNat_add, Nat.mod_eq_of_lt hsum]
  have hlt : b + size > a.heapTop ↔ b.toNat + size.toNat > a.heapTop.toNat := by
    rw [gt_iff_lt, UInt32.lt_iff_toNat_lt, hadd]
  simp only [sbrk, HeapArea.breakOf_of_ne hb, UInt32.toUInt32_toInt32, Shell.sbrk]
  by_cases hr : b.toNat + size.toNat > a.heapTop.toNat
  · rw [if_pos (hlt.mpr hr), if_pos hr]
    rfl
  · rw [if_neg (hlt.not.mpr hr), if_neg hr, hadd]

end Break

/-- The break is in reach of the heap, and nobody has read `NULL`. -/
structure InReach (a : HeapArea) (s : Heap) : Prop where
  top : (a.breakOf s.currentBreak).toNat ≤ a.heapTop.toNat
  pending : ∀ who b, s.pending who = some b → b.p ≠ 0

/-- What a step can do: the break is read, or the size is refused, or the break moves and the
pointer that was read is returned. -/
inductive Stepped (a : HeapArea) (s : Heap) : Act → Heap → Prop where
  | read (who : Caller) (size : UInt32) : Stepped a s (.first who size)
      { s with
        currentBreak := a.breakOf s.currentBreak
        pending := update s.pending who (some ⟨a.breakOf s.currentBreak, size⟩) }
  | refused (who : Caller) (b : Block) (hb : s.pending who = some b)
      (h : a.breakOf s.currentBreak + b.size > a.heapTop) : Stepped a s (.second who)
      { s with
        currentBreak := a.breakOf s.currentBreak
        pending := update s.pending who none }
  | moved (who : Caller) (b : Block) (hb : s.pending who = some b)
      (h : ¬ a.breakOf s.currentBreak + b.size > a.heapTop) : Stepped a s (.second who)
      { currentBreak := a.breakOf s.currentBreak + b.size
        pending := update s.pending who none
        blocks := s.blocks ++ [b] }

section Steps
variable {a : HeapArea} {s t : Heap} {i : Act}

theorem secondCall_refused (b : Block) (h : a.breakOf s.currentBreak + b.size > a.heapTop) :
    secondCall a s.currentBreak b = (0, a.breakOf s.currentBreak) := by
  simp only [secondCall, sbrk, UInt32.toUInt32_toInt32]
  rw [if_pos h]
  rfl

theorem InReach.secondCall_moved (hs : InReach a s) (b : Block)
    (h : ¬ a.breakOf s.currentBreak + b.size > a.heapTop) :
    secondCall a s.currentBreak b = (b.p, a.breakOf s.currentBreak + b.size) := by
  simp only [secondCall, sbrk, UInt32.toUInt32_toInt32]
  rw [if_neg h, if_neg (HeapArea.ne_sbrkFailed hs.top)]

theorem InReach.stepped (hs : InReach a s) (h : step a s i = some t) : Stepped a s i t := by
  cases i with
  | first who size =>
    have hread : sbrk a s.currentBreak 0 =
        (a.breakOf s.currentBreak, a.breakOf s.currentBreak) := by
      have hadd : a.breakOf s.currentBreak + Int32.toUInt32 0 = a.breakOf s.currentBreak :=
        UInt32.add_zero _
      have hle : ¬ a.breakOf s.currentBreak > a.heapTop := by
        rw [gt_iff_lt, UInt32.lt_iff_toNat_lt]
        exact Nat.not_lt.mpr hs.top
      simp only [sbrk, hadd]
      rw [if_neg hle]
    rw [step, hread] at h
    split at h
    · cases h
      exact Stepped.read who size
    · cases h
  | second who =>
    rw [step] at h
    split at h
    · obtain ⟨b, hb, rfl⟩ := Option.map_eq_some_iff.mp h
      by_cases hr : a.breakOf s.currentBreak + b.size > a.heapTop
      · rw [secondCall_refused b hr]
        exact Stepped.refused who b hb hr
      · rw [hs.secondCall_moved b hr]
        simp only
        rw [if_neg (hs.pending who b hb)]
        exact Stepped.moved who b hb hr
    · cases h

theorem pending_update {pending : Caller → Option Block} {P : Block → Prop}
    (h : ∀ who b, pending who = some b → P b) {who : Caller} {o : Option Block}
    (ho : ∀ b, o = some b → P b) (who' : Caller) (b : Block)
    (hb : update pending who o who' = some b) : P b := by
  by_cases hw : who' = who
  · subst hw
    rw [Function.update_self] at hb
    exact ho b hb
  · rw [Function.update_of_ne hw] at hb
    exact h who' b hb

theorem InReach.step (hs : InReach a s) (h : Mlibc.step a s i = some t) : InReach a t := by
  have hnone (b : Block) (hb : none = some b) : b.p ≠ 0 := absurd hb (by simp)
  cases hs.stepped h with
  | read who size =>
    constructor
    · rw [HeapArea.breakOf_breakOf]
      exact hs.top
    · apply pending_update hs.pending
      intro b hb
      obtain rfl := Option.some.inj hb
      exact a.breakOf_ne_zero _
  | refused who b hb hr =>
    constructor
    · rw [HeapArea.breakOf_breakOf]
      exact hs.top
    · exact pending_update hs.pending hnone
  | moved who b hb hr =>
    constructor
    · by_cases hz : a.breakOf s.currentBreak + b.size = 0
      · rw [hz, HeapArea.breakOf, if_pos rfl, a.toNat_heapTop]
        omega
      · rw [HeapArea.breakOf_of_ne hz]
        rw [gt_iff_lt, UInt32.lt_iff_toNat_lt] at hr
        omega
    · exact pending_update hs.pending hnone

theorem InReach.start : InReach a Heap.start := by
  refine ⟨?_, fun who b hb => ?_⟩
  · rw [Heap.start, HeapArea.breakOf, if_pos rfl, a.toNat_heapTop]
    omega
  · simp [Heap.start] at hb

theorem InReach.nullKeeps (hs : InReach a s) (i : Act) : NullKeeps a s i := by
  cases i with
  | first who size => trivial
  | second who =>
    intro b hb hnull
    by_cases hr : a.breakOf s.currentBreak + b.size > a.heapTop
    · rw [secondCall_refused b hr]
    · rw [hs.secondCall_moved b hr] at hnull
      exact absurd hnull (hs.pending who b hb)

end Steps

/-- The blocks fill the heap up to the break, and nobody has read more than the break. -/
structure Tiled (a : HeapArea) (s : Heap) : Prop where
  low : a.heapLow.toNat ≤ (a.breakOf s.currentBreak).toNat
  top : (a.breakOf s.currentBreak).toNat ≤ a.heapTop.toNat
  pending : ∀ who b, s.pending who = some b →
    a.heapLow.toNat ≤ b.p.toNat ∧ b.p.toNat ≤ (a.breakOf s.currentBreak).toNat
  below : ∀ b ∈ s.blocks, a.heapLow.toNat ≤ b.p.toNat ∧
    b.p.toNat + b.size.toNat ≤ (a.breakOf s.currentBreak).toNat
  disjoint : s.blocks.Pairwise fun b c => Disjoint b.bytes c.bytes
  covered : ∀ x, a.heapLow.toNat ≤ x → x < (a.breakOf s.currentBreak).toNat →
    ∃ b ∈ s.blocks, x ∈ b.bytes

section Tiling
variable {a : HeapArea} {s t : Heap} {i : Act}

theorem Tiled.start : Tiled a Heap.start := by
  have hbreak : a.breakOf Heap.start.currentBreak = a.heapLow := if_pos rfl
  constructor
  · rw [hbreak]
  · rw [hbreak, a.toNat_heapTop]
    omega
  · intro who b hb
    simp [Heap.start] at hb
  · simp [Heap.start]
  · simp [Heap.start]
  · intro x hlow hx
    rw [hbreak] at hx
    omega

theorem Tiled.inReach (hs : Tiled a s) : InReach a s := by
  refine ⟨hs.top, fun who b hb hz => ?_⟩
  have hlow := (hs.pending who b hb).1
  have habove := a.above
  rw [hz, UInt32.toNat_zero] at hlow
  omega

theorem Tiled.safe (hs : Tiled a s) : Safe a s :=
  ⟨fun b hb => ⟨(hs.below b hb).1, (hs.below b hb).2.trans hs.top⟩, hs.disjoint⟩

/-- The state after the break was read or a size was refused. -/
theorem Tiled.quiet (hs : Tiled a s) {pending : Caller → Option Block}
    (hp : ∀ who b, pending who = some b →
      a.heapLow.toNat ≤ b.p.toNat ∧ b.p.toNat ≤ (a.breakOf s.currentBreak).toNat) :
    Tiled a { s with currentBreak := a.breakOf s.currentBreak, pending := pending } where
  low := by simpa only [HeapArea.breakOf_breakOf] using hs.low
  top := by simpa only [HeapArea.breakOf_breakOf] using hs.top
  pending := by simpa only [HeapArea.breakOf_breakOf] using hp
  below := by simpa only [HeapArea.breakOf_breakOf] using hs.below
  disjoint := hs.disjoint
  covered := by simpa only [HeapArea.breakOf_breakOf] using hs.covered

/-- The state after a block was put at the break, or an empty one anywhere. -/
theorem Tiled.moved (hs : Tiled a s) {b : Block} {pending : Caller → Option Block}
    (hp : ∀ who b, pending who = some b →
      a.heapLow.toNat ≤ b.p.toNat ∧ b.p.toNat ≤ (a.breakOf s.currentBreak).toNat)
    (hb : a.heapLow.toNat ≤ b.p.toNat ∧ b.p.toNat ≤ (a.breakOf s.currentBreak).toNat)
    (h : b.size = 0 ∨
      (a.breakOf s.currentBreak = b.p ∧ b.p.toNat + b.size.toNat ≤ a.heapTop.toNat)) :
    Tiled a { currentBreak := a.breakOf s.currentBreak + b.size
              pending := pending
              blocks := s.blocks ++ [b] } := by
  have hfits : (a.breakOf s.currentBreak).toNat + b.size.toNat ≤ a.heapTop.toNat := by
    cases h with
    | inl hzero =>
      rw [hzero, UInt32.toNat_zero]
      exact hs.top
    | inr hroom =>
      rw [hroom.1]
      exact hroom.2
  have hplace : b.size.toNat = 0 ∨ b.p.toNat = (a.breakOf s.currentBreak).toNat := by
    cases h with
    | inl hzero => exact Or.inl (by rw [hzero, UInt32.toNat_zero])
    | inr hroom => exact Or.inr (by rw [hroom.1])
  have hlow := hs.low
  have hnew : (a.breakOf (a.breakOf s.currentBreak + b.size)).toNat =
      (a.breakOf s.currentBreak).toNat + b.size.toNat := by
    have habove := a.above
    have hsum : (a.breakOf s.currentBreak + b.size).toNat =
        (a.breakOf s.currentBreak).toNat + b.size.toNat := by
      rw [UInt32.toNat_add, Nat.mod_eq_of_lt (hfits.trans_lt a.heapTop.toNat_lt)]
    rw [HeapArea.breakOf_of_ne, hsum]
    intro hz
    rw [hz, UInt32.toNat_zero] at hsum
    omega
  constructor
  · rw [hnew]
    omega
  · rw [hnew]
    exact hfits
  · intro who c hc
    have hpc := hp who c hc
    rw [hnew]
    omega
  · intro c hc
    rw [hnew]
    cases List.mem_append.mp hc with
    | inl hc =>
      have hbelow := hs.below c hc
      omega
    | inr hc =>
      obtain rfl := List.mem_singleton.mp hc
      omega
  · rw [List.pairwise_append]
    refine ⟨hs.disjoint, List.pairwise_singleton _ _, fun c hc c' hc' => ?_⟩
    obtain rfl := List.mem_singleton.mp hc'
    have hbelow := hs.below c hc
    rw [Set.disjoint_left]
    intro x hx hx'
    simp only [Block.bytes, Set.mem_Ico] at hx hx'
    omega
  · intro x hx hx'
    rw [hnew] at hx'
    by_cases hold : x < (a.breakOf s.currentBreak).toNat
    · obtain ⟨c, hc, hmem⟩ := hs.covered x hx hold
      exact ⟨c, by simp [hc], hmem⟩
    · refine ⟨b, by simp, ?_⟩
      rw [Block.bytes, Set.mem_Ico]
      omega

/-- An undisturbed step keeps the tiling. -/
theorem Tiled.step (hs : Tiled a s) (hg : Undisturbed a s i) (h : Mlibc.step a s i = some t) :
    Tiled a t := by
  cases hs.inReach.stepped h with
  | read who size =>
    apply hs.quiet
    apply pending_update hs.pending
    intro b hb
    obtain rfl := Option.some.inj hb
    exact ⟨hs.low, le_rfl⟩
  | refused who b hb hr =>
    apply hs.quiet
    exact pending_update hs.pending fun c hc => absurd hc (by simp)
  | moved who b hb hr =>
    apply hs.moved
    · exact pending_update hs.pending fun c hc => absurd hc (by simp)
    · exact hs.pending who b hb
    · cases hg b hb with
      | inl hzero => exact Or.inl hzero
      | inr hrest => exact Or.inr (hrest.resolve_left hr)

/-- A step that is disturbed returns a block that leaves the heap or meets another. -/
theorem Tiled.not_safe (hs : Tiled a s) (hg : ¬ Undisturbed a s i)
    (h : Mlibc.step a s i = some t) : ¬ Safe a t := by
  intro ht
  cases hs.inReach.stepped h with
  | read who size => exact hg trivial
  | refused who b hb hr =>
    apply hg
    intro c hc
    obtain rfl := Option.some.inj (hb.symm.trans hc)
    exact Or.inr (Or.inl hr)
  | moved who b hb hr =>
    apply hg
    intro c hc
    obtain rfl := Option.some.inj (hb.symm.trans hc)
    by_cases hzero : b.size = 0
    · exact Or.inl hzero
    · have hwithin := ht.within b (by simp)
      refine Or.inr (Or.inr ⟨?_, hwithin.2⟩)
      by_contra hne
      have hpending := hs.pending who b hb
      have hlt : b.p.toNat < (a.breakOf s.currentBreak).toNat :=
        Nat.lt_of_le_of_ne hpending.2 fun heq => hne (UInt32.toNat_inj.mp heq.symm)
      obtain ⟨c, hc, hmem⟩ := hs.covered _ hpending.1 hlt
      have hdisjoint := (List.pairwise_append.mp ht.disjoint).2.2 c hc b (by simp)
      have hpos : 0 < b.size.toNat := Nat.pos_of_ne_zero fun hz =>
        hzero (UInt32.toNat_inj.mp hz)
      exact Set.disjoint_left.mp hdisjoint hmem ⟨le_rfl, Nat.lt_add_of_pos_right hpos⟩

/-- Blocks are never taken back. -/
theorem InReach.safe_of_step (hs : InReach a s) (h : Mlibc.step a s i = some t) (ht : Safe a t) :
    Safe a s := by
  cases hs.stepped h with
  | read who size => exact ⟨ht.within, ht.disjoint⟩
  | refused who b hb hr => exact ⟨ht.within, ht.disjoint⟩
  | moved who b hb hr =>
    exact ⟨fun c hc => ht.within c (by simp [hc]), (List.pairwise_append.mp ht.disjoint).1⟩

/-- The blocks that a run has handed out are apart and in the heap just in case none of its steps
was disturbed. A call that returns `NULL` keeps the break in every run. -/
theorem blocks_safe_iff {is : List Act} (h : run (Mlibc.step a) is Heap.start = some t) :
    (Safe a t ∧ Along (Mlibc.step a) (NullKeeps a) is Heap.start) ↔
      Along (Mlibc.step a) (Undisturbed a) is Heap.start := by
  have hnull : Along (Mlibc.step a) (NullKeeps a) is Heap.start :=
    along_of_invariant (InReach a) (fun _ _ _ hs hstep => hs.step hstep)
      (fun _ i hs => hs.nullKeeps i) InReach.start
  rw [and_iff_left hnull]
  exact final_iff_along (InReach a) (Tiled a) (Safe a)
    (fun _ _ _ hs hstep => hs.step hstep) (fun _ hs => hs.inReach)
    (fun _ _ _ hg hs hstep => hs.step hg hstep) (fun _ hs => hs.safe)
    (fun _ _ _ hs hstep => hs.safe_of_step hstep)
    (fun _ _ _ hg hs hstep => hs.not_safe hg hstep) Tiled.start h

end Tiling

section Examples

/-- The heap of an image that is nothing but stacks and heap. -/
def bareArea : HeapArea := ⟨0x70030000, by decide, by decide⟩

/-- A handler of the kernel allocates memory after a process has, and the process asks for too
much then. -/
def calmRun : List Act := [.first (.process 1) 12, .second (.process 1), .first .kernel 8,
  .second .kernel, .first (.process 1) 0x50000, .second (.process 1)]

theorem calmRun_safe_iff : ∃ t, run (step bareArea) calmRun Heap.start = some t ∧
    ((Safe bareArea t ∧ Along (step bareArea) (NullKeeps bareArea) calmRun Heap.start) ↔
      Along (step bareArea) (Undisturbed bareArea) calmRun Heap.start) :=
  ⟨_, rfl, blocks_safe_iff rfl⟩

/-- The handler runs between the two calls of the process. -/
def overtakenRun : List Act := [.first (.process 1) 12, .first .kernel 8, .second .kernel,
  .second (.process 1)]

/-- A size that is a negative increment. -/
def hugeRun : List Act := [.first (.process 1) 0xffffffff, .second (.process 1)]

/-- Both get 0x70030000; and a block of nearly 4GB does not lie in the heap. -/
theorem blocks_not_safe :
    (∃ t, run (step bareArea) overtakenRun Heap.start = some t ∧ ¬ Safe bareArea t) ∧
    ∃ t, run (step bareArea) hugeRun Heap.start = some t ∧ ¬ Safe bareArea t := by
  constructor
  · refine ⟨_, rfl, fun h => ?_⟩
    have hblocks : [Block.mk 0x70030000 8, Block.mk 0x70030000 12].Pairwise
        fun b c => Disjoint b.bytes c.bytes := h.disjoint
    have hdisjoint := (List.pairwise_cons.mp hblocks).1 _ (List.mem_singleton.mpr rfl)
    have hfirst : 0x70030000 ∈ (Block.mk 0x70030000 8).bytes := ⟨by decide, by decide⟩
    have hsecond : 0x70030000 ∈ (Block.mk 0x70030000 12).bytes := ⟨by decide, by decide⟩
    exact Set.disjoint_left.mp hdisjoint hfirst hsecond
  · refine ⟨_, rfl, fun h => ?_⟩
    have hwithin := (h.within ⟨0x70030000, 0xffffffff⟩ (List.mem_singleton.mpr rfl)).2
    exact absurd hwithin (by decide)

end Examples

end MalapropOS.Mlibc
