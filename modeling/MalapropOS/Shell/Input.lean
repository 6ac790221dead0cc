import Mathlib.Algebra.Group.Nat.Defs
import Mathlib.Data.List.Pairwise
import MalapropOS.Lib.Runs
import MalapropOS.Lib.TailQueue

/-! How a typed character gets to the shell. The interrupt handler puts it into `stdin_buffer`; the
shell takes it from there, at once when it waits at the prompt, or by way of `sh_stdin_buffer`
while a child runs. Both put nodes into memory that `_sbrk` hands out, the handler between any two
steps of the shell. -/
namespace MalapropOS.Shell
open TailQueue PartialMachine

inductive Stream where
  | stdinBuffer
  | shStdinBuffer
  deriving DecidableEq

/-- The break, and the `c` and the `entries` of the nodes by their address. -/
structure Heap where
  currentBreak : Nat
  c : Nat → UInt8
  entries : Links Stream Nat

/-- `(char)-1`. -/
def eof : UInt8 := 0xff

/-- `(void*)-1`. -/
def sbrkFailed : Nat := 2 ^ 32 - 1

/-- `sizeof(tailq_stream_buf_t)`. -/
def streamBufSize : Nat := 12

/-- `_sbrk` once the break is set: the result and the new break. -/
def sbrk (heapTop b incr : Nat) : Nat × Nat :=
  if b + incr > heapTop then (sbrkFailed, b) else (b, b + incr)

/-- The result, 0 for `NULL`, and the new break. -/
def stdmemAllocate (heapTop b size : Nat) : Nat × Nat :=
  let (p, b) := sbrk heapTop b 0
  let (r, b) := sbrk heapTop b size
  (if r = sbrkFailed then 0 else p, b)

/-- `chr->c = c` and `TAILQ_INSERT_TAIL`. -/
def insertChar (stream : Stream) (c : UInt8) (chr : Nat) (h : Heap) : Heap :=
  { h with c := Function.update h.c chr c
           entries := insertTail 0 h.entries stream chr }

def stdstreamPushChar (heapTop : Nat) (stream : Stream) (c : UInt8) (h : Heap) : Heap :=
  let (chr, b) := stdmemAllocate heapTop h.currentBreak streamBufSize
  insertChar stream c chr { h with currentBreak := b }

def stdstreamPopChar (stream : Stream) (h : Heap) : UInt8 × Heap :=
  let chr := h.entries.ref (.first stream)
  if chr ≠ 0 then (h.c chr, { h with entries := remove 0 h.entries stream chr })
  else (eof, h)

/-- Where the shell is in a call of `_sbrk`, and what it has read of the break. -/
inductive SbrkPc where
  | record
  | check (prevBreak : Nat)
  | load (prevBreak : Nat)
  | store (prevBreak loaded : Nat)
  deriving DecidableEq

/-- One access of `_sbrk` to the break: the new break, and where it goes on or what it returns. -/
def sbrkStep (heapTop incr b : Nat) : SbrkPc → Nat × (SbrkPc ⊕ Nat)
  | .record => (b, .inl (.check b))
  | .check prevBreak => (b, if b + incr > heapTop then .inr sbrkFailed else .inl (.load prevBreak))
  | .load prevBreak => (b, .inl (.store prevBreak b))
  | .store prevBreak loaded => (loaded + incr, .inr prevBreak)

/-- The two calls in `stdmem_allocate`. -/
inductive AllocPc where
  | first (pc : SbrkPc)
  | second (p : Nat) (pc : SbrkPc)
  deriving DecidableEq

def allocStep (heapTop size b : Nat) : AllocPc → Nat × (AllocPc ⊕ Nat)
  | .first pc =>
    let (b, r) := sbrkStep heapTop 0 b pc
    (b, .inl (r.elim .first fun p => .second p .record))
  | .second p pc =>
    let (b, r) := sbrkStep heapTop size b pc
    (b, r.map (.second p) fun r => if r = sbrkFailed then 0 else p)

/-- Where the shell is, with the character it holds: in `handle_input`, whose loop is at the read
(`drain`), behind it, or in `stdstream_push_char`; in `get_next_char`, at its own buffer (`next`),
at the read of `stdio_readchar` (`await`), or about to return. -/
inductive Pc where
  | idle
  | drain
  | drained (c : UInt8)
  | alloc (c : UInt8) (pc : AllocPc)
  | insert (c : UInt8) (chr : Nat)
  | next
  | await
  | deliver (c : UInt8)
  deriving DecidableEq

/-- The state, with the characters that came from the UART and those that `get_next_char` has
returned. -/
structure Session where
  heap : Heap
  pc : Pc
  received : List UInt8
  returned : List UInt8

inductive Act where
  /-- An interrupt of `UART0`. -/
  | receive (c : UInt8)
  /-- Other code, `_kill` for one, allocates memory. -/
  | elsewhere (size : Nat)
  /-- The shell calls `handle_input` or `get_next_char`. -/
  | handleInput
  | getNextChar
  /-- The next step of the call. -/
  | run

/-- One step of the shell. A read of the standard input is a supervisor call, which no interrupt
gets into; the handler uses nothing that a step on `sh_stdin_buffer` uses. -/
def runStep (heapTop : Nat) (s : Session) : Pc → Option Session
  | .idle => none
  | .drain =>
    let (c, h) := stdstreamPopChar .stdinBuffer s.heap
    some { s with heap := h, pc := .drained c }
  | .drained c => some { s with pc := if c ≠ eof then .alloc c (.first .record) else .idle }
  | .alloc c pc =>
    let (b, r) := allocStep heapTop streamBufSize s.heap.currentBreak pc
    some { s with heap := { s.heap with currentBreak := b }, pc := r.elim (.alloc c) (.insert c) }
  | .insert c chr =>
    some { s with heap := insertChar .shStdinBuffer c chr s.heap, pc := .drain }
  | .next =>
    let (c, h) := stdstreamPopChar .shStdinBuffer s.heap
    some { s with heap := h, pc := if c = eof then .await else .deliver c }
  | .await =>
    let (c, h) := stdstreamPopChar .stdinBuffer s.heap
    some { s with heap := h, pc := if c = eof then .await else .deliver c }
  | .deliver c => some { s with pc := .idle, returned := s.returned ++ [c] }

def step (heapTop : Nat) (s : Session) : Act → Option Session
  | .receive c => some { s with
      heap := stdstreamPushChar heapTop .stdinBuffer c s.heap
      received := s.received ++ [c] }
  | .elsewhere size => some { s with
      heap := { s.heap with currentBreak := (stdmemAllocate heapTop s.heap.currentBreak size).2 } }
  | .handleInput => if s.pc = .idle then some { s with pc := .drain } else none
  | .getNextChar => if s.pc = .idle then some { s with pc := .next } else none
  | .run => runStep heapTop s s.pc

/-- The characters that a buffer holds, along its `next` pointers. -/
def Contents (h : Heap) (stream : Stream) (cs : List UInt8) : Prop :=
  ∃ nodes, Elements 0 h.entries (.first stream) nodes ∧ cs = nodes.map h.c

/-- No character is being moved. -/
def Settled : Pc → Prop
  | .idle | .drain | .next | .await => True
  | _ => False

/-- What was returned and what the buffers hold are the characters received, in their order. -/
def InOrder (s : Session) : Prop :=
  ∃ sh stdin, Contents s.heap .shStdinBuffer sh ∧ Contents s.heap .stdinBuffer stdin ∧
    s.returned ++ sh ++ stdin = s.received

/-- The shell has read the break in `stdmem_allocate`, and has not moved it yet. -/
def Allocating : Pc → Prop
  | .alloc _ (.first .record) => False
  | .alloc _ _ => True
  | _ => False

/-- Nobody else allocates memory while the shell does, and there is memory for a node. -/
def Calm (heapTop : Nat) (s : Session) : Act → Prop
  | .receive _ => ¬ Allocating s.pc ∧ s.heap.currentBreak + streamBufSize ≤ heapTop
  | .elsewhere _ => ¬ Allocating s.pc
  | .run => ∀ c, s.pc = .alloc c (.first .record) →
      s.heap.currentBreak + streamBufSize ≤ heapTop
  | _ => True

/-- The nodes of the two buffers: they are linked as they should be, and lie below the break. -/
structure Queues (h : Heap) (nodes : Stream → List Nat) : Prop where
  linked : ∀ q, IsQueue 0 h.entries q (nodes q)
  disjoint : ∀ q q', q ≠ q' → (nodes q).Disjoint (nodes q')
  below : ∀ q, ∀ a ∈ nodes q, a < h.currentBreak
  pos : 0 < h.currentBreak

section Streams
variable {heapTop : Nat} {h : Heap} {nodes : Stream → List Nat} {q : Stream} {c : UInt8} {chr : Nat}

theorem sbrk_zero {b : Nat} (hb : b ≤ heapTop) : sbrk heapTop b 0 = (b, b) :=
  if_neg (Nat.not_lt.mpr hb)

theorem stdmemAllocate_room {b size : Nat} (htop : heapTop < 2 ^ 32) (hsize : 0 < size)
    (hroom : b + size ≤ heapTop) : stdmemAllocate heapTop b size = (b, b + size) := by
  have hb : b ≠ sbrkFailed := by
    rw [sbrkFailed]
    omega
  simp only [stdmemAllocate, sbrk_zero (Nat.le_of_add_right_le hroom)]
  rw [sbrk, if_neg (Nat.not_lt.mpr hroom), if_neg hb]

/-- Memory is never handed back. -/
theorem stdmemAllocate_mono {b : Nat} (hb : b ≤ heapTop) (size : Nat) :
    b ≤ (stdmemAllocate heapTop b size).2 ∧ (stdmemAllocate heapTop b size).2 ≤ heapTop := by
  simp only [stdmemAllocate, sbrk]
  split_ifs <;> simp only <;> omega

theorem Queues.grow (hq : Queues h nodes) {b : Nat} (hb : h.currentBreak ≤ b) :
    Queues { h with currentBreak := b } nodes where
  linked := hq.linked
  disjoint := hq.disjoint
  below q a ha := Nat.lt_of_lt_of_le (hq.below q a ha) hb
  pos := Nat.lt_of_lt_of_le hq.pos hb

/-- A node that is in no buffer yet. -/
theorem Queues.insertChar (hq : Queues h nodes) (hchr : chr ≠ 0) (hlt : chr < h.currentBreak)
    (hnew : ∀ q, chr ∉ nodes q) (q : Stream) (c : UInt8) :
    Queues (insertChar q c chr h) (Function.update nodes q (nodes q ++ [chr])) where
  linked q' := by
    by_cases he : q' = q
    · subst he
      rw [Function.update_self]
      exact (hq.linked q').insertTail hchr (hnew q')
    · rw [Function.update_of_ne he]
      exact (hq.linked q).insertTail_other (hq.linked q') (Ne.symm he)
        (hq.disjoint q q' (Ne.symm he)) (hnew q')
  disjoint a b hab := by
    simp only [Function.update_apply]
    split_ifs with ha hb hb
    · exact absurd (ha.trans hb.symm) hab
    · rw [List.disjoint_append_left, List.singleton_disjoint]
      exact ⟨hq.disjoint q b (ha ▸ hab), hnew b⟩
    · rw [List.disjoint_append_right, List.disjoint_singleton]
      exact ⟨hq.disjoint a q (hb ▸ hab), hnew a⟩
    · exact hq.disjoint a b hab
  below q' a ha := by
    by_cases he : q' = q
    · subst he
      rw [Function.update_self, List.mem_append, List.mem_singleton] at ha
      obtain ha | rfl := ha
      · exact hq.below q' a ha
      · exact hlt
    · rw [Function.update_of_ne he] at ha
      exact hq.below q' a ha
  pos := hq.pos

theorem insertChar_chars (hnew : chr ∉ nodes q) (q' : Stream) :
    (nodes q).map (insertChar q' c chr h).c = (nodes q).map h.c :=
  List.map_congr_left fun a ha => Function.update_of_ne (fun he : a = chr => hnew (he ▸ ha)) _ _

theorem insertChar_tail_chars (hnew : chr ∉ nodes q) :
    (nodes q ++ [chr]).map (insertChar q c chr h).c = (nodes q).map h.c ++ [c] := by
  rw [List.map_append, insertChar_chars hnew]
  simp [insertChar]

/-- The first node goes, if there is one. -/
theorem Queues.pop (hq : Queues h nodes) (q : Stream) :
    (nodes q = [] ∧ stdstreamPopChar q h = (eof, h)) ∨
    ∃ chr rest entries, nodes q = chr :: rest ∧
      stdstreamPopChar q h = (h.c chr, { h with entries := entries }) ∧
      Queues { h with entries := entries } (Function.update nodes q rest) := by
  have hfirst := (hq.linked q).ref_first
  cases hn : nodes q with
  | nil =>
    rw [hn] at hfirst
    exact Or.inl ⟨rfl, by simp [stdstreamPopChar, hfirst]⟩
  | cons chr rest =>
    have hlinked := hq.linked q
    rw [hn] at hfirst hlinked
    have hchr : chr ≠ 0 := hlinked.linked.2.1
    have hsub (q' : Stream) : Function.update nodes q rest q' ⊆ nodes q' := by
      by_cases he : q' = q
      · subst he
        rw [Function.update_self, hn]
        exact List.subset_cons_self chr rest
      · rw [Function.update_of_ne he]
        exact List.Subset.refl _
    refine Or.inr ⟨chr, rest, remove 0 h.entries q chr, rfl, ?_, ?_, ?_, ?_, hq.pos⟩
    · simp [stdstreamPopChar, hfirst, hchr]
    · intro q'
      by_cases he : q' = q
      · subst he
        rw [Function.update_self]
        exact hlinked.remove
      · rw [Function.update_of_ne he]
        exact hlinked.remove_other (hq.linked q') (Ne.symm he)
          (hn ▸ hq.disjoint q q' (Ne.symm he))
    · intro a b hab x hx hy
      exact hq.disjoint a b hab (hsub a hx) (hsub b hy)
    · exact fun q' a ha => hq.below q' a (hsub q' ha)

end Streams

/-- What `_sbrk` has read of the break is what it is. -/
def SbrkPc.Current (b : Nat) : SbrkPc → Prop
  | .record => True
  | .check prevBreak => prevBreak = b
  | .load prevBreak => prevBreak = b
  | .store prevBreak loaded => prevBreak = b ∧ loaded = b

def AllocPc.Current (heapTop b : Nat) : AllocPc → Prop
  | .first .record => True
  | .first pc => pc.Current b ∧ b + streamBufSize ≤ heapTop
  | .second p pc => p = b ∧ pc.Current b ∧ b + streamBufSize ≤ heapTop

/-- `stdmem_allocate` goes on, or it has got the node at the break. -/
theorem allocStep_current {heapTop b : Nat} (htop : heapTop < 2 ^ 32) {pc : AllocPc}
    (hpc : pc.Current heapTop b)
    (hroom : pc = .first .record → b + streamBufSize ≤ heapTop) :
    (∃ pc', allocStep heapTop streamBufSize b pc = (b, .inl pc') ∧ pc'.Current heapTop b) ∨
    (allocStep heapTop streamBufSize b pc = (b + streamBufSize, .inr b) ∧
      b + streamBufSize ≤ heapTop) := by
  have hb : b + streamBufSize ≤ heapTop → b ≠ sbrkFailed := by
    rw [sbrkFailed, streamBufSize]
    omega
  cases pc with
  | first pc =>
    left
    cases pc with
    | record => exact ⟨_, rfl, rfl, hroom rfl⟩
    | check p =>
      obtain ⟨hp, hr⟩ := hpc
      refine ⟨.first (.load p), ?_, hp, hr⟩
      have hlow : ¬ b + 0 > heapTop := Nat.not_lt.mpr (Nat.le_of_add_right_le hr)
      rw [allocStep, sbrkStep, if_neg hlow]
      rfl
    | load p =>
      obtain ⟨hp, hr⟩ := hpc
      exact ⟨_, rfl, ⟨hp, rfl⟩, hr⟩
    | store p x =>
      obtain ⟨⟨rfl, rfl⟩, hr⟩ := hpc
      exact ⟨_, rfl, rfl, trivial, hr⟩
  | second p pc =>
    obtain ⟨rfl, hpc, hr⟩ := hpc
    cases pc with
    | record => exact Or.inl ⟨_, rfl, rfl, rfl, hr⟩
    | check p' =>
      refine Or.inl ⟨.second p (.load p'), ?_, rfl, hpc, hr⟩
      rw [allocStep, sbrkStep, if_neg (Nat.not_lt.mpr hr)]
      rfl
    | load p' => exact Or.inl ⟨_, rfl, rfl, ⟨hpc, rfl⟩, hr⟩
    | store p' x =>
      obtain ⟨rfl, rfl⟩ := hpc
      refine Or.inr ⟨?_, hr⟩
      rw [allocStep, sbrkStep]
      simp [hb hr]

/-- The character in hand, in front of those in `sh_stdin_buffer` or behind them. -/
def Pc.front : Pc → List UInt8
  | .deliver c => [c]
  | _ => []

def Pc.back : Pc → List UInt8
  | .drained c => if c = eof then [] else [c]
  | .alloc c _ => [c]
  | .insert c _ => [c]
  | _ => []

def Pc.Fits (heapTop b : Nat) (nodes : Stream → List Nat) : Pc → Prop
  | .alloc _ pc => pc.Current heapTop b
  | .insert _ chr => chr ≠ 0 ∧ chr < b ∧ ∀ q, chr ∉ nodes q
  | .await => nodes .shStdinBuffer = []
  | _ => True

structure InputInv (heapTop : Nat) (s : Session) (nodes : Stream → List Nat) : Prop where
  queues : Queues s.heap nodes
  top : s.heap.currentBreak ≤ heapTop
  order : s.returned ++ s.pc.front ++ (nodes .shStdinBuffer).map s.heap.c ++ s.pc.back ++
    (nodes .stdinBuffer).map s.heap.c = s.received
  clean : eof ∉ s.received
  fits : s.pc.Fits heapTop s.heap.currentBreak nodes

/-- Others may allocate while the shell does not, and link their nodes into `stdin_buffer`. -/
theorem Pc.Fits.later {heapTop b b' : Nat} {nodes nodes' : Stream → List Nat} {pc : Pc}
    (hf : pc.Fits heapTop b nodes) (hn : ¬ Allocating pc) (hb : b ≤ b')
    (hsh : nodes' .shStdinBuffer = nodes .shStdinBuffer)
    (hnew : ∀ q, ∀ a ∈ nodes' q, a ∈ nodes q ∨ b ≤ a) : pc.Fits heapTop b' nodes' := by
  cases pc with
  | alloc c pc =>
    cases pc with
    | first pc => cases pc <;> first | trivial | exact absurd trivial hn
    | second => exact absurd trivial hn
  | insert c chr =>
    obtain ⟨h0, hlt, hno⟩ := hf
    refine ⟨h0, Nat.lt_of_lt_of_le hlt hb, fun q ha => ?_⟩
    cases hnew q chr ha with
    | inl ha => exact hno q ha
    | inr ha => omega
  | await => exact hsh.trans hf
  | _ => trivial

section Steps
variable {heapTop : Nat} {s t : Session} {nodes : Stream → List Nat}

theorem InputInv.ne_eof (hi : InputInv heapTop s nodes) {q : Stream} {a : Nat} (ha : a ∈ nodes q) :
    s.heap.c a ≠ eof := by
  intro he
  refine hi.clean ?_
  rw [← hi.order, ← he]
  cases q with
  | stdinBuffer => exact List.mem_append_right _ (List.mem_map_of_mem ha)
  | shStdinBuffer =>
    exact List.mem_append_left _ (List.mem_append_left _
      (List.mem_append_right _ (List.mem_map_of_mem ha)))

/-- An interrupt puts its character behind all the others. -/
theorem InputInv.receive (hi : InputInv heapTop s nodes) (htop : heapTop < 2 ^ 32) {c : UInt8}
    (hc : c ≠ eof) (hcalm : Calm heapTop s (.receive c))
    (hs : step heapTop s (.receive c) = some t) : ∃ nodes', InputInv heapTop t nodes' := by
  obtain ⟨hpc, hroom⟩ := hcalm
  obtain rfl := Option.some.inj hs
  have hnew (q : Stream) : s.heap.currentBreak ∉ nodes q :=
    fun ha => Nat.lt_irrefl _ (hi.queues.below q _ ha)
  have hpush : stdstreamPushChar heapTop .stdinBuffer c s.heap =
      insertChar .stdinBuffer c s.heap.currentBreak
        { s.heap with currentBreak := s.heap.currentBreak + streamBufSize } := by
    rw [stdstreamPushChar, stdmemAllocate_room htop (by decide) hroom]
  have hgrow := hi.queues.grow (Nat.le_add_right s.heap.currentBreak streamBufSize)
  refine ⟨Function.update nodes .stdinBuffer (nodes .stdinBuffer ++ [s.heap.currentBreak]),
    ?_, ?_, ?_, ?_, ?_⟩
  · rw [hpush]
    exact hgrow.insertChar (Nat.ne_of_gt hi.queues.pos) (Nat.lt_add_of_pos_right (by decide)) hnew
      .stdinBuffer c
  · rw [hpush]
    exact hroom
  · rw [hpush, Function.update_self, Function.update_of_ne (by decide),
      insertChar_tail_chars (hnew _), insertChar_chars (hnew _), ← List.append_assoc, hi.order]
  · simpa using ⟨hi.clean, Ne.symm hc⟩
  · rw [hpush]
    refine hi.fits.later hpc (Nat.le_add_right _ _) (Function.update_of_ne (by decide) _ _)
      fun q a ha => ?_
    simp only [Function.update_apply] at ha
    split_ifs at ha with hq
    · subst hq
      exact (List.mem_append.mp ha).imp_right fun h =>
        Nat.le_of_eq (List.mem_singleton.mp h).symm
    · exact Or.inl ha

theorem InputInv.elsewhere (hi : InputInv heapTop s nodes) {size : Nat}
    (hcalm : Calm heapTop s (.elsewhere size)) (hs : step heapTop s (.elsewhere size) = some t) :
    InputInv heapTop t nodes := by
  obtain rfl := Option.some.inj hs
  obtain ⟨hle, htop⟩ := stdmemAllocate_mono hi.top size
  exact ⟨hi.queues.grow hle, htop, hi.order, hi.clean,
    hi.fits.later hcalm hle rfl fun _ _ ha => Or.inl ha⟩

/-- A pop from one of the buffers, as the shell sees it. -/
theorem InputInv.pop (hi : InputInv heapTop s nodes) (q : Stream) :
    (nodes q = [] ∧ stdstreamPopChar q s.heap = (eof, s.heap)) ∨
    ∃ chr rest h, nodes q = chr :: rest ∧ stdstreamPopChar q s.heap = (s.heap.c chr, h) ∧
      s.heap.c chr ≠ eof ∧ h.currentBreak = s.heap.currentBreak ∧ h.c = s.heap.c ∧
      Queues h (Function.update nodes q rest) := by
  obtain h | ⟨chr, rest, entries, hn, hpop, hq⟩ := hi.queues.pop q
  · exact Or.inl h
  · exact Or.inr ⟨chr, rest, _, hn, hpop, hi.ne_eof (hn ▸ List.mem_cons_self), rfl, rfl, hq⟩

/-- The read in `handle_input`. -/
theorem InputInv.drain (hi : InputInv heapTop s nodes) (hpc : s.pc = .drain)
    (hs : step heapTop s .run = some t) : ∃ nodes', InputInv heapTop t nodes' := by
  have horder := hi.order
  rw [hpc] at horder
  rw [step, hpc, runStep] at hs
  obtain ⟨hn, hpop⟩ | ⟨chr, rest, h, hn, hpop, hc, hb, hchars, hq⟩ := hi.pop .stdinBuffer
  · rw [hpop] at hs
    obtain rfl := Option.some.inj hs
    exact ⟨nodes, hi.queues, hi.top, horder, hi.clean, trivial⟩
  · rw [hpop] at hs
    obtain rfl := Option.some.inj hs
    refine ⟨_, hq, hb ▸ hi.top, ?_, hi.clean, trivial⟩
    rw [hn] at horder
    simpa [Pc.front, Pc.back, hc, hchars] using horder

/-- The two reads of `get_next_char`, each with where it leads to. -/
theorem InputInv.next (hi : InputInv heapTop s nodes) (hpc : s.pc = .next)
    (hs : step heapTop s .run = some t) : ∃ nodes', InputInv heapTop t nodes' := by
  have horder := hi.order
  rw [hpc] at horder
  rw [step, hpc, runStep] at hs
  obtain ⟨hn, hpop⟩ | ⟨chr, rest, h, hn, hpop, hc, hb, hchars, hq⟩ := hi.pop .shStdinBuffer
  · rw [hpop] at hs
    obtain rfl := Option.some.inj hs
    exact ⟨nodes, hi.queues, hi.top, horder, hi.clean, hn⟩
  · rw [hpop] at hs
    simp only [if_neg hc] at hs
    obtain rfl := Option.some.inj hs
    refine ⟨_, hq, hb ▸ hi.top, ?_, hi.clean, trivial⟩
    rw [hn] at horder
    simpa [Pc.front, Pc.back, hchars] using horder

theorem InputInv.await (hi : InputInv heapTop s nodes) (hpc : s.pc = .await)
    (hs : step heapTop s .run = some t) : ∃ nodes', InputInv heapTop t nodes' := by
  have horder := hi.order
  have hsh : nodes .shStdinBuffer = [] := by
    have := hi.fits
    rwa [hpc] at this
  rw [hpc, hsh] at horder
  rw [step, hpc, runStep] at hs
  obtain ⟨hn, hpop⟩ | ⟨chr, rest, h, hn, hpop, hc, hb, hchars, hq⟩ := hi.pop .stdinBuffer
  · rw [hpop] at hs
    obtain rfl := Option.some.inj hs
    rw [← hsh] at horder
    exact ⟨nodes, hi.queues, hi.top, horder, hi.clean, hsh⟩
  · rw [hpop] at hs
    simp only [if_neg hc] at hs
    obtain rfl := Option.some.inj hs
    refine ⟨_, hq, hb ▸ hi.top, ?_, hi.clean, trivial⟩
    rw [hn] at horder
    simpa [Pc.front, Pc.back, hchars, hsh] using horder

/-- `stdstream_push_char` on `sh_stdin_buffer`, up to the node. -/
theorem InputInv.alloc (hi : InputInv heapTop s nodes) (htop : heapTop < 2 ^ 32) {c : UInt8}
    {pc : AllocPc} (hpc : s.pc = .alloc c pc) (hcalm : Calm heapTop s .run)
    (hs : step heapTop s .run = some t) : InputInv heapTop t nodes := by
  have horder := hi.order
  have hfits := hi.fits
  rw [hpc] at horder hfits
  rw [step, hpc, runStep] at hs
  obtain ⟨pc', hstep, hcur⟩ | ⟨hstep, hroom⟩ := allocStep_current htop hfits fun h => hcalm c (h ▸ hpc)
  · rw [hstep] at hs
    obtain rfl := Option.some.inj hs
    exact ⟨hi.queues, hi.top, horder, hi.clean, hcur⟩
  · rw [hstep] at hs
    obtain rfl := Option.some.inj hs
    exact ⟨hi.queues.grow (Nat.le_add_right _ _), hroom, horder, hi.clean,
      Nat.ne_of_gt hi.queues.pos, Nat.lt_add_of_pos_right (by decide),
      fun q ha => Nat.lt_irrefl _ (hi.queues.below q _ ha)⟩

theorem InputInv.insert (hi : InputInv heapTop s nodes) {c : UInt8} {chr : Nat}
    (hpc : s.pc = .insert c chr) (hs : step heapTop s .run = some t) :
    ∃ nodes', InputInv heapTop t nodes' := by
  have horder := hi.order
  have hfits := hi.fits
  rw [hpc] at horder hfits
  obtain ⟨h0, hlt, hno⟩ := hfits
  rw [step, hpc, runStep] at hs
  obtain rfl := Option.some.inj hs
  refine ⟨_, hi.queues.insertChar h0 hlt hno .shStdinBuffer c, hi.top, ?_, hi.clean, trivial⟩
  rw [Function.update_self, Function.update_of_ne (by decide), insertChar_tail_chars (hno _),
    insertChar_chars (hno _)]
  simpa [Pc.front, Pc.back] using horder

/-- The shell goes on, with the same characters on the way. -/
theorem InputInv.goto (hi : InputInv heapTop s nodes) {pc : Pc} (hfront : pc.front = s.pc.front)
    (hback : pc.back = s.pc.back) (hfits : pc.Fits heapTop s.heap.currentBreak nodes) :
    InputInv heapTop { s with pc := pc } nodes where
  queues := hi.queues
  top := hi.top
  order := by
    rw [hfront, hback]
    exact hi.order
  clean := hi.clean
  fits := hfits

theorem InputInv.next_step (htop : heapTop < 2 ^ 32) (hi : InputInv heapTop s nodes) {act : Act}
    (hc : ∀ c, act = .receive c → c ≠ eof) (hcalm : Calm heapTop s act)
    (hs : step heapTop s act = some t) : ∃ nodes', InputInv heapTop t nodes' := by
  cases act with
  | receive c => exact hi.receive htop (hc c rfl) hcalm hs
  | elsewhere size => exact ⟨nodes, hi.elsewhere hcalm hs⟩
  | handleInput =>
    rw [step] at hs
    split_ifs at hs with hpc
    obtain rfl := Option.some.inj hs
    exact ⟨nodes, hi.goto (by rw [hpc]; rfl) (by rw [hpc]; rfl) trivial⟩
  | getNextChar =>
    rw [step] at hs
    split_ifs at hs with hpc
    obtain rfl := Option.some.inj hs
    exact ⟨nodes, hi.goto (by rw [hpc]; rfl) (by rw [hpc]; rfl) trivial⟩
  | run =>
    cases hpc : s.pc with
    | idle =>
      rw [step, hpc] at hs
      cases hs
    | drain => exact hi.drain hpc hs
    | drained c =>
      rw [step, hpc, runStep] at hs
      obtain rfl := Option.some.inj hs
      refine ⟨nodes, hi.goto ?_ ?_ ?_⟩
      · by_cases he : c = eof <;> simp [hpc, Pc.front, he]
      · by_cases he : c = eof <;> simp [hpc, Pc.back, he]
      · by_cases he : c = eof <;> simp [he, Pc.Fits, AllocPc.Current]
    | alloc c pc => exact ⟨nodes, hi.alloc htop hpc hcalm hs⟩
    | insert c chr => exact hi.insert hpc hs
    | next => exact hi.next hpc hs
    | await => exact hi.await hpc hs
    | deliver c =>
      have horder := hi.order
      rw [hpc] at horder
      rw [step, hpc, runStep] at hs
      obtain rfl := Option.some.inj hs
      refine ⟨nodes, hi.queues, hi.top, ?_, hi.clean, trivial⟩
      simpa [Pc.front, Pc.back] using horder

theorem InputInv.inOrder (hi : InputInv heapTop s nodes) (hset : Settled s.pc) : InOrder s := by
  refine ⟨_, _, ⟨_, (hi.queues.linked .shStdinBuffer).elements, rfl⟩,
    ⟨_, (hi.queues.linked .stdinBuffer).elements, rfl⟩, ?_⟩
  have horder := hi.order
  cases hpc : s.pc <;> rw [hpc] at hset horder <;>
    first | exact absurd hset not_false | simpa [Pc.front, Pc.back] using horder

end Steps

/-- The shell has just got its buffer; some characters may be in `stdin_buffer` by then. -/
structure Started (heapTop : Nat) (s : Session) : Prop where
  pc : s.pc = .idle
  returned : s.returned = []
  early : ∃ nodes, Queues s.heap nodes ∧ nodes .shStdinBuffer = [] ∧
    (nodes .stdinBuffer).map s.heap.c = s.received
  top : s.heap.currentBreak ≤ heapTop
  clean : eof ∉ s.received

/-- Both buffers are empty. -/
def freshSession (b : Nat) : Session where
  heap :=
    { currentBreak := b
      c := fun _ => 0
      entries := init 0 (init 0 ⟨fun _ => 0, fun q => .first q, fun _ => .first .stdinBuffer⟩
        .stdinBuffer) .shStdinBuffer }
  pc := .idle
  received := []
  returned := []

theorem freshSession_started {heapTop b : Nat} (hb : 0 < b) (htop : b ≤ heapTop) :
    Started heapTop (freshSession b) where
  pc := rfl
  returned := rfl
  early := by
    refine ⟨fun _ => [], ⟨fun q => ?_, fun _ _ _ => List.disjoint_nil_left _, by simp, hb⟩, rfl, rfl⟩
    cases q with
    | stdinBuffer => exact ⟨⟨rfl, rfl⟩, List.nodup_nil⟩
    | shStdinBuffer => exact isQueue_init _ _
  top := htop
  clean := by simp [freshSession]

/-- `b` is typed when the shell has read the break for the node of `a`: the handler gets that very
node for `b`, and the shell puts `a` into it. -/
def typedBetween : List Act :=
  [.receive 0x61, .handleInput, .run, .run, .run, .receive 0x62] ++ List.replicate 8 .run

end MalapropOS.Shell
