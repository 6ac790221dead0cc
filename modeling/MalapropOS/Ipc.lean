import Mathlib.Algebra.Group.Nat.Defs
import Mathlib.Data.List.Perm.Basic
import Mathlib.Data.List.Nodup
import MalapropOS.Lib.Runs

/-! The message queue of `ipc.c`. One list holds the messages of all pairs of processes,
and the two receive calls take a message out of its middle. A call is one SVC trap, so the
calls of all processes are one sequence. `none` stands for a failed `stdmem_allocate`,
whose NULL the code writes through. -/
namespace MalapropOS.Ipc

structure Message where
  /-- The address of the record: what `TAILQ_REMOVE` tells two messages apart by. -/
  addr : Nat
  content : Nat
  nbytes : Nat
  fromPid : Int
  toPid : Int
  /-- History variable: the buffer as it was given to `ipc_send_message`. -/
  data : Nat → UInt8

inductive Call where
  | sendMessage (buf : Nat → UInt8) (nbytes : Nat) (fromPid toPid : Int)
  | receiveMessageFrom (buf : Nat → UInt8) (nbytes : Nat) (fromPid toPid : Int)
  | receiveAnyMessage (buf : Nat → UInt8) (nbytes : Nat) (toPid : Int)

/-- The messages a receive call may take. -/
def Call.takes : Call → Message → Bool
  | .sendMessage .., _ => false
  | .receiveMessageFrom _ _ f t, m => m.fromPid = f ∧ m.toPid = t
  | .receiveAnyMessage _ _ t, m => m.toPid = t

/-- The pid whose messages a call adds to or takes from. -/
def Call.toPid : Call → Int
  | .sendMessage _ _ _ t => t
  | .receiveMessageFrom _ _ _ t => t
  | .receiveAnyMessage _ _ t => t

structure State where
  mem : Nat → UInt8
  currentBreak : Nat
  heapTop : Nat
  messages : List Message
  /-- History variables: what was sent, and what was handed to which call. -/
  sent : List Message
  delivered : List (Call × Message)

/-- `sizeof(tailq_message_t)`. -/
def sizeofMessage : Nat := 24

def stdmemAllocate (size : Nat) (s : State) : Option (Nat × State) :=
  if size < 2 ^ 31 ∧ s.currentBreak + size ≤ s.heapTop then
    some (s.currentBreak, { s with currentBreak := s.currentBreak + size })
  else none

def stdmemCopy (destination source : Nat → UInt8) (numbytes : Nat) : Nat → UInt8 :=
  fun i => if i < numbytes then source i else destination i

/-- `stdmem_copy` to an address of the heap. -/
def copyToHeap (mem : Nat → UInt8) (addr : Nat) (source : Nat → UInt8) (n : Nat) : Nat → UInt8 :=
  fun a => if addr ≤ a ∧ a < addr + n then source (a - addr) else mem a

/-- The function has no `return`, so its result is whatever r0 holds: it is left out. -/
def ipcSendMessage (buf : Nat → UInt8) (nbytes : Nat) (fromPid toPid : Int) (s : State) :
    Option State := do
  let (message, s) ← stdmemAllocate sizeofMessage s
  let (content, s) ← stdmemAllocate nbytes s
  let m : Message := ⟨message, content, nbytes, fromPid, toPid, buf⟩
  return { s with
    mem := copyToHeap s.mem content buf nbytes
    messages := s.messages ++ [m]
    sent := s.sent ++ [m] }

/-- The loop that both receive functions run, each with its own test. The bytes copied are as
many as the receiver asks for, whatever the length of the message. -/
def receiveFirst (call : Call) (buf : Nat → UInt8) (nbytes : Nat) (s : State) :
    Int × (Nat → UInt8) × State :=
  match s.messages.find? call.takes with
  | some m =>
    (0, stdmemCopy buf (fun i => s.mem (m.content + i)) nbytes,
      { s with
        messages := s.messages.eraseP call.takes
        delivered := s.delivered ++ [(call, m)] })
  | none => (-1, buf, s)

def ipcReceiveMessageFrom (buf : Nat → UInt8) (nbytes : Nat) (fromPid toPid : Int) (s : State) :
    Int × (Nat → UInt8) × State :=
  receiveFirst (.receiveMessageFrom buf nbytes fromPid toPid) buf nbytes s

def ipcReceiveAnyMessage (buf : Nat → UInt8) (nbytes : Nat) (toPid : Int) (s : State) :
    Int × (Nat → UInt8) × State :=
  receiveFirst (.receiveAnyMessage buf nbytes toPid) buf nbytes s

/-- The three message cases of `kernel_handler_svc`. -/
def kernelHandlerSvc (s : State) : Call → Option State
  | .sendMessage buf nbytes f t => ipcSendMessage buf nbytes f t s
  | .receiveMessageFrom buf nbytes f t => some (ipcReceiveMessageFrom buf nbytes f t s).2.2
  | .receiveAnyMessage buf nbytes t => some (ipcReceiveAnyMessage buf nbytes t s).2.2

def ipcInitialise (mem : Nat → UInt8) (heapLow heapTop : Nat) : State :=
  ⟨mem, heapLow, heapTop, [], [], []⟩

abbrev run := PartialMachine.run kernelHandlerSvc

def received (s : State) : List Message := s.delivered.map Prod.snd

section Steps
variable {s t : State} {call : Call}

/-- The effect of a send: one message at fresh addresses, at the end of the queue. -/
structure Appended (m : Message) (s t : State) : Prop where
  fresh : s.currentBreak ≤ m.addr ∧ m.addr < t.currentBreak
  placed : s.currentBreak ≤ m.content ∧ m.content + m.nbytes ≤ t.currentBreak
  mem : t.mem = copyToHeap s.mem m.content m.data m.nbytes
  messages : t.messages = s.messages ++ [m]
  sent : t.sent = s.sent ++ [m]
  delivered : t.delivered = s.delivered

/-- The effect of a receive that finds `m` behind the messages `pre`. -/
structure Taken (call : Call) (pre post : List Message) (m : Message) (s t : State) : Prop where
  messages : s.messages = pre ++ m :: post
  skipped : ∀ x ∈ pre, ¬ call.takes x
  taken : call.takes m
  after : t = { s with messages := pre ++ post, delivered := s.delivered ++ [(call, m)] }

theorem takes_toPid {m : Message} (h : call.takes m) : m.toPid = call.toPid := by
  cases call <;> simp_all [Call.takes, Call.toPid]

theorem stdmemAllocate_spec {size p : Nat} (h : stdmemAllocate size s = some (p, t)) :
    p = s.currentBreak ∧ t = { s with currentBreak := s.currentBreak + size } := by
  unfold stdmemAllocate at h
  split_ifs at h
  obtain ⟨rfl, rfl⟩ := Prod.mk.inj (Option.some.inj h)
  exact ⟨rfl, rfl⟩

theorem ipcSendMessage_spec {buf : Nat → UInt8} {nbytes : Nat} {f d : Int}
    (h : ipcSendMessage buf nbytes f d s = some t) :
    ∃ m, Appended m s t ∧ m.data = buf ∧ m.nbytes = nbytes ∧ m.fromPid = f ∧ m.toPid = d := by
  obtain ⟨⟨p, s₁⟩, h₁, h⟩ := Option.bind_eq_some_iff.mp h
  obtain ⟨⟨c, s₂⟩, h₂, h⟩ := Option.bind_eq_some_iff.mp h
  obtain ⟨rfl, rfl⟩ := stdmemAllocate_spec h₁
  obtain ⟨rfl, rfl⟩ := stdmemAllocate_spec h₂
  obtain rfl := Option.some.inj h
  refine ⟨⟨s.currentBreak, s.currentBreak + sizeofMessage, nbytes, f, d, buf⟩, ?_, rfl, rfl, rfl, rfl⟩
  constructor <;> simp [sizeofMessage]
  omega

theorem receiveFirst_cases (buf : Nat → UInt8) (nbytes : Nat) (s : State) (call : Call) :
    ((receiveFirst call buf nbytes s).1 = -1 ∧ (receiveFirst call buf nbytes s).2.2 = s ∧
      ∀ m ∈ s.messages, ¬ call.takes m) ∨
    ((receiveFirst call buf nbytes s).1 = 0 ∧
      ∃ pre post m, Taken call pre post m s (receiveFirst call buf nbytes s).2.2) := by
  cases hf : s.messages.find? call.takes with
  | none =>
    exact Or.inl ⟨by simp [receiveFirst, hf], by simp [receiveFirst, hf],
      List.find?_eq_none.mp hf⟩
  | some m =>
    obtain ⟨hm, pre, post, hs, hpre⟩ := List.find?_eq_some_iff_append.mp hf
    have he : s.messages.eraseP call.takes = pre ++ post := by
      rw [hs, List.eraseP_append_right _ (by simpa using hpre), List.eraseP_cons_of_pos hm]
    refine Or.inr ⟨by simp [receiveFirst, hf], pre, post, m, hs, by simpa using hpre, hm, ?_⟩
    simp [receiveFirst, hf, he]

theorem kernelHandlerSvc_cases (h : kernelHandlerSvc s call = some t) :
    t = s ∨ (∃ m, Appended m s t ∧ m.toPid = call.toPid) ∨
      ∃ pre post m, Taken call pre post m s t := by
  have receive : ∀ buf nbytes, some (receiveFirst call buf nbytes s).2.2 = some t →
      t = s ∨ ∃ pre post m, Taken call pre post m s t := by
    intro buf nbytes ht
    obtain rfl := Option.some.inj ht
    obtain ⟨-, he, -⟩ | ⟨-, ht⟩ := receiveFirst_cases buf nbytes s call
    · exact Or.inl he
    · exact Or.inr ht
  cases call with
  | sendMessage buf nbytes f d =>
    obtain ⟨m, hm, -, -, -, hd⟩ := ipcSendMessage_spec h
    exact Or.inr (Or.inl ⟨m, hm, hd⟩)
  | receiveMessageFrom buf nbytes f d => exact (receive buf nbytes h).imp_right Or.inr
  | receiveAnyMessage buf nbytes d => exact (receive buf nbytes h).imp_right Or.inr

end Steps

section Order
variable {s t : State} {call : Call} {c : Message → Bool}

/-- The messages of the class `c` leave the queue in the order in which they were sent. -/
def Ordered (c : Message → Bool) (s : State) : Prop :=
  s.sent.filter c = (received s).filter c ++ s.messages.filter c

theorem Ordered.appended {m : Message} (ho : Ordered c s) (h : Appended m s t) : Ordered c t := by
  simp only [Ordered, received, h.sent, h.messages, h.delivered, List.filter_append] at ho ⊢
  rw [ho, List.append_assoc]

/-- A receive keeps the order of a class that it takes all of. -/
theorem Ordered.taken {pre post : List Message} {m : Message} (ho : Ordered c s)
    (h : Taken call pre post m s t)
    (hc : (∀ x, c x → call.takes x) ∨ (∀ x, call.takes x → ¬ c x)) : Ordered c t := by
  obtain ⟨hm, hpre, ht, rfl⟩ := h
  simp only [Ordered, received, hm, List.map_append, List.map_cons, List.map_nil,
    List.filter_append] at ho ⊢
  rw [ho]
  by_cases hcm : c m
  · have hnone : pre.filter c = [] := by
      rw [List.filter_eq_nil_iff]
      intro x hx hcx
      cases hc with
      | inl hc => exact hpre x hx (hc x hcx)
      | inr hc => exact hc m ht hcm
    simp [hnone, hcm]
  · simp [hcm]

theorem Ordered.step (ho : Ordered c s) (h : kernelHandlerSvc s call = some t)
    (hc : (∀ x, c x → call.takes x) ∨ (∀ x, call.takes x → ¬ c x)) : Ordered c t := by
  obtain rfl | ⟨m, hm, -⟩ | ⟨pre, post, m, hm⟩ := kernelHandlerSvc_cases h
  · exact ho
  · exact ho.appended hm
  · exact ho.taken hm hc

def ofPair (f d : Int) (m : Message) : Bool := m.fromPid = f ∧ m.toPid = d

def addressedTo (d : Int) (m : Message) : Bool := m.toPid = d

/-- No call takes a later message of a pair before an earlier one of it. -/
theorem takes_ofPair (call : Call) (f d : Int) :
    (∀ x, ofPair f d x → call.takes x) ∨ (∀ x, call.takes x → ¬ ofPair f d x) := by
  cases call with
  | sendMessage buf nbytes f' d' => exact Or.inr (by simp [Call.takes])
  | receiveMessageFrom buf nbytes f' d' =>
    by_cases h : f' = f ∧ d' = d
    · exact Or.inl (by simp [Call.takes, ofPair, h])
    · refine Or.inr fun x hx hp => h ?_
      simp only [Call.takes, ofPair, decide_eq_true_eq] at hx hp
      exact ⟨hx.1.symm.trans hp.1, hx.2.symm.trans hp.2⟩
  | receiveAnyMessage buf nbytes d' =>
    by_cases h : d' = d
    · exact Or.inl (by simp [Call.takes, ofPair, h])
    · refine Or.inr fun x hx hp => h ?_
      simp only [Call.takes, ofPair, decide_eq_true_eq] at hx hp
      exact hx.symm.trans hp.2

def IsReceiveFrom (d : Int) : Call → Prop
  | .receiveMessageFrom _ _ _ d' => d' = d
  | _ => False

/-- Only a selective receive can overtake a message for the same destination. -/
theorem takes_addressedTo {call : Call} {d : Int} (h : ¬ IsReceiveFrom d call) :
    (∀ x, addressedTo d x → call.takes x) ∨ (∀ x, call.takes x → ¬ addressedTo d x) := by
  cases call with
  | sendMessage buf nbytes f' d' => exact Or.inr (by simp [Call.takes])
  | receiveMessageFrom buf nbytes f' d' =>
    refine Or.inr fun x hx hp => h ?_
    simp only [Call.takes, addressedTo, decide_eq_true_eq] at hx hp
    exact hx.2.symm.trans hp
  | receiveAnyMessage buf nbytes d' =>
    by_cases h : d' = d
    · exact Or.inl (by simp [Call.takes, addressedTo, h])
    · refine Or.inr fun x hx hp => h ?_
      simp only [Call.takes, addressedTo, decide_eq_true_eq] at hx hp
      exact hx.symm.trans hp

end Order

section Accounts
variable {s t : State} {call : Call}

/-- Every message sent is in one place, in the queue or with the call that took it. -/
structure Accounts (s : State) : Prop where
  below : ∀ m ∈ s.sent, m.addr < s.currentBreak
  distinct : (s.sent.map Message.addr).Nodup
  split : s.sent.Perm (received s ++ s.messages)
  matched : ∀ d ∈ s.delivered, d.1.takes d.2

/-- The bytes of a queued message are still those that were sent. -/
def Intact (s : State) : Prop :=
  ∀ m ∈ s.messages, m.content + m.nbytes ≤ s.currentBreak ∧
    ∀ i < m.nbytes, s.mem (m.content + i) = m.data i

theorem Accounts.appended {m : Message} (ha : Accounts s) (h : Appended m s t) : Accounts t where
  below x hx := by
    rw [h.sent, List.mem_append, List.mem_singleton] at hx
    obtain hx | rfl := hx
    · have := ha.below x hx
      have := h.fresh
      omega
    · exact h.fresh.2
  distinct := by
    rw [h.sent, List.map_append, List.nodup_append]
    refine ⟨ha.distinct, by simp, ?_⟩
    intro a hs b hb he
    obtain ⟨x, hx, rfl⟩ := List.mem_map.mp hs
    have := ha.below x hx
    have := h.fresh.1
    simp only [List.map_cons, List.map_nil, List.mem_singleton] at hb
    omega
  split := by
    rw [received, h.sent, h.messages, h.delivered, ← List.append_assoc]
    exact ha.split.append_right _
  matched := h.delivered ▸ ha.matched

theorem Accounts.taken {pre post : List Message} {m : Message} (ha : Accounts s)
    (h : Taken call pre post m s t) : Accounts t := by
  obtain ⟨hm, -, ht, rfl⟩ := h
  refine ⟨ha.below, ha.distinct, ha.split.trans ?_, ?_⟩
  · simp only [received, hm, List.map_append, List.map_cons, List.map_nil, List.append_assoc]
    exact List.Perm.append_left _ List.perm_middle
  · intro d hd
    cases List.mem_append.mp hd with
    | inl hd => exact ha.matched d hd
    | inr hd => exact List.mem_singleton.mp hd ▸ ht

theorem Accounts.step (ha : Accounts s) (h : kernelHandlerSvc s call = some t) : Accounts t := by
  obtain rfl | ⟨m, hm, -⟩ | ⟨pre, post, m, hm⟩ := kernelHandlerSvc_cases h
  exacts [ha, ha.appended hm, ha.taken hm]

theorem Intact.step (hi : Intact s) (h : kernelHandlerSvc s call = some t) : Intact t := by
  obtain rfl | ⟨m, hm, -⟩ | ⟨pre, post, m, hm⟩ := kernelHandlerSvc_cases h
  · exact hi
  · intro x hx
    have hp := hm.placed
    rw [hm.messages, List.mem_append, List.mem_singleton] at hx
    obtain hx | rfl := hx
    · -- the new content lies above the break that bounds the older one
      obtain ⟨hb, hd⟩ := hi x hx
      refine ⟨by omega, fun i hlt => ?_⟩
      rw [hm.mem, copyToHeap, if_neg (by omega), hd i hlt]
    · refine ⟨hp.2, fun i hlt => ?_⟩
      rw [hm.mem, copyToHeap, if_pos (by omega), Nat.add_sub_cancel_left]
  · obtain ⟨hs, -, -, rfl⟩ := hm
    intro x hx
    exact hi x (hs ▸ by simp only [List.mem_append, List.mem_cons] at hx ⊢; tauto)

theorem Accounts.received_nodup (ha : Accounts s) : (received s).Nodup := by
  have h : (received s ++ s.messages).Nodup := ha.split.nodup_iff.mp (List.Nodup.of_map _ ha.distinct)
  exact (List.nodup_append.mp h).1

theorem Accounts.mem_messages_iff (ha : Accounts s) (m : Message) :
    m ∈ s.messages ↔ m ∈ s.sent ∧ m ∉ received s := by
  have hn : (received s ++ s.messages).Nodup := ha.split.nodup_iff.mp (List.Nodup.of_map _ ha.distinct)
  have hd := (List.nodup_append.mp hn).2.2
  rw [ha.split.mem_iff, List.mem_append]
  constructor
  · exact fun hm => ⟨Or.inr hm, fun hr => hd m hr m hm rfl⟩
  · exact fun ⟨hm, hr⟩ => hm.resolve_left hr

end Accounts

section Runs
variable {mem : Nat → UInt8} {heapLow heapTop : Nat} {calls : List Call} {s : State}

theorem run_accounts (h : run calls (ipcInitialise mem heapLow heapTop) = some s) : Accounts s :=
  PartialMachine.run_invariant Accounts (fun _ _ _ ha hs => ha.step hs)
    ⟨by simp [ipcInitialise], by simp [ipcInitialise], by simp [ipcInitialise, received],
      by simp [ipcInitialise]⟩ h

theorem run_intact (h : run calls (ipcInitialise mem heapLow heapTop) = some s) : Intact s :=
  PartialMachine.run_invariant Intact (fun _ _ _ hi hs => hi.step hs)
    (by simp [Intact, ipcInitialise]) h

/-- A class keeps its order along a run none of whose calls overtakes in it. -/
theorem run_ordered {c : Message → Bool}
    (hc : ∀ call ∈ calls, (∀ x, c x → call.takes x) ∨ (∀ x, call.takes x → ¬ c x))
    (h : run calls (ipcInitialise mem heapLow heapTop) = some s) : Ordered c s :=
  PartialMachine.along_invariant (Ordered c) (fun _ _ _ hg ho hs => ho.step hs hg)
    (PartialMachine.along_of_inputs (fun call hm _ => hc call hm) _)
    (by simp [Ordered, received, ipcInitialise]) h

/-- What the queue promises after the calls of a run, whichever processes made them. -/
structure Delivers (calls : List Call) (s : State) : Prop where
  atMostOnce : (received s).Nodup
  wereSent : ∀ m ∈ received s, m ∈ s.sent
  toReceiver : ∀ d ∈ s.delivered, d.1.takes d.2
  pairFifo : ∀ f d, (received s).filter (ofPair f d) <+: s.sent.filter (ofPair f d)
  globalFifo : ∀ d, (∀ call ∈ calls, ¬ IsReceiveFrom d call) →
    (received s).filter (addressedTo d) <+: s.sent.filter (addressedTo d)
  noneLost : ∀ m, m ∈ s.messages ↔ m ∈ s.sent ∧ m ∉ received s
  intact : Intact s
  receiveFrom : ∀ buf nbytes f d,
    ((ipcReceiveMessageFrom buf nbytes f d s).1 = -1 ↔
      ∀ m ∈ s.messages, ¬ (m.fromPid = f ∧ m.toPid = d)) ∧
    ((ipcReceiveMessageFrom buf nbytes f d s).1 = -1 →
      (ipcReceiveMessageFrom buf nbytes f d s).2.2 = s)
  receiveAny : ∀ buf nbytes d,
    ((ipcReceiveAnyMessage buf nbytes d s).1 = -1 ↔ ∀ m ∈ s.messages, ¬ m.toPid = d) ∧
    ((ipcReceiveAnyMessage buf nbytes d s).1 = -1 →
      (ipcReceiveAnyMessage buf nbytes d s).2.2 = s)

theorem receiveFirst_fails_iff (call : Call) (buf : Nat → UInt8) (nbytes : Nat) (s : State) :
    ((receiveFirst call buf nbytes s).1 = -1 ↔ ∀ m ∈ s.messages, ¬ call.takes m) ∧
    ((receiveFirst call buf nbytes s).1 = -1 → (receiveFirst call buf nbytes s).2.2 = s) := by
  obtain ⟨hr, hs, hn⟩ | ⟨hr, pre, post, m, ht⟩ := receiveFirst_cases buf nbytes s call
  · exact ⟨iff_of_true hr hn, fun _ => hs⟩
  · rw [hr]
    refine ⟨iff_of_false (by decide) fun hn => ?_, fun h => absurd h (by decide)⟩
    exact hn m (by simp [ht.messages]) ht.taken

end Runs

def zeroBuf : Nat → UInt8 := fun _ => 0

/-- Two senders; the receiver first asks for the second of them. -/
def twoSenders : List Call :=
  [.sendMessage zeroBuf 4 1 3, .sendMessage zeroBuf 4 2 3, .sendMessage zeroBuf 1 2 3,
    .receiveMessageFrom zeroBuf 4 2 3, .receiveAnyMessage zeroBuf 4 3]

end MalapropOS.Ipc
