import MalapropOS.Ipc

/-! The chain of `producer.c`, any number of `pipeline.c` and `consumer.c` over the message queue.
Process 0 is the producer, 1 to k are the pipelines and k + 1 is the consumer; each sends to the
next. A step is one `_smessage` or `_rmessage` trap with the code up to the next one. -/
namespace MalapropOS.Pipeline

structure Chain where
  stages : Nat
  pid : Nat → Int
  distinct : ∀ i ≤ stages + 1, ∀ j ≤ stages + 1, pid i = pid j → i = j

/-- Where a process stands: before `_rmessage`, before `_smessage` with the byte that it is
about to send, or behind its loop. -/
inductive Control where
  | receiving
  | sending (outward : UInt8)
  | exited
  deriving DecidableEq

structure Process where
  control : Control
  /-- History variables: the bytes received and the bytes sent. -/
  got : List UInt8
  put : List UInt8

structure State where
  kernel : Ipc.State
  procs : Nat → Process

/-- `*message == -1`: holds of 0xff where `char` is signed and of nothing where it is not. -/
def isEnd (signedChar : Bool) (b : UInt8) : Bool := signedChar && b = 255

/-- A buffer of one `char`. -/
def charBuf (b : UInt8) : Nat → UInt8 := fun _ => b

def smessage (c : Chain) (j : Nat) (b : UInt8) (control : Control) (s : State) : Option State := do
  let kernel ← Ipc.ipcSendMessage (charBuf b) 1 (c.pid j) (c.pid (j + 1)) s.kernel
  let p := s.procs j
  return { kernel := kernel
           procs := Function.update s.procs j { p with control := control, put := p.put ++ [b] } }

/-- One turn of the loop around `_rmessage`; it is left when the result is not negative. -/
def rmessage (c : Chain) (j : Nat) (control : UInt8 → Control) (s : State) : State :=
  let (result, received, kernel) := Ipc.ipcReceiveAnyMessage (charBuf 0) 1 (c.pid j) s.kernel
  if result < 0 then { s with kernel := kernel }
  else
    let p := s.procs j
    { kernel := kernel
      procs := Function.update s.procs j
        { p with control := control (received 0), got := p.got ++ [received 0] } }

/-- `argv[1]` is memory of the process that launched the producer: any byte at each turn. -/
def producer (c : Chain) (argv1 : UInt8) (s : State) : Option State :=
  smessage c 0 argv1 (s.procs 0).control s

def pipeline (signedChar : Bool) (c : Chain) (j : Nat) (s : State) : Option State :=
  match (s.procs j).control with
  | .receiving => some (rmessage c j (fun b => .sending (b + 1)) s)
  | .sending b => smessage c j b (if isEnd signedChar b then .exited else .receiving) s
  | .exited => none

def consumer (signedChar : Bool) (c : Chain) (s : State) : Option State :=
  match (s.procs (c.stages + 1)).control with
  | .receiving =>
    some (rmessage c (c.stages + 1) (fun b => if isEnd signedChar b then .exited else .receiving) s)
  | _ => none

inductive Action where
  | producer (argv1 : UInt8)
  | pipeline (j : Nat)
  | consumer
  | other (call : Ipc.Call)

def step (signedChar : Bool) (c : Chain) (s : State) : Action → Option State
  | .producer argv1 => producer c argv1 s
  | .pipeline j => pipeline signedChar c j s
  | .consumer => consumer signedChar c s
  | .other call => (Ipc.kernelHandlerSvc s.kernel call).map fun kernel => { s with kernel := kernel }

abbrev run (signedChar : Bool) (c : Chain) := PartialMachine.run (step signedChar c)

/-- A pipeline of the chain moves, or another process neither sends to nor receives for it. -/
def Chain.Allows (c : Chain) : Action → Prop
  | .pipeline j => 1 ≤ j ∧ j ≤ c.stages
  | .other call => ∀ j ≤ c.stages + 1, call.toPid ≠ c.pid j
  | _ => True

/-- The chain before its first trap. -/
def start (kernel : Ipc.State) : State := ⟨kernel, fun _ => ⟨.receiving, [], []⟩⟩

/-- The bytes queued for a process. -/
def flight (kernel : Ipc.State) (pid : Int) : List UInt8 :=
  (kernel.messages.filter (Ipc.addressedTo pid)).map fun m => m.data 0

/-- The byte a pipeline has received and not sent on. -/
def pending (p : Process) : List UInt8 :=
  match p.control with
  | .sending b => [b]
  | _ => []

/-- What the first `j` pipelines and the queues before them hold, as the `j`-th will send it. -/
def inTransit (c : Chain) (s : State) : Nat → List UInt8
  | 0 => []
  | j + 1 => pending (s.procs (j + 1)) ++
    (flight s.kernel (c.pid (j + 1)) ++ inTransit c s j).map (· + 1)

/-- The queue still holds the bytes as they were sent, one in each message of the chain. -/
structure Carried (c : Chain) (kernel : Ipc.State) : Prop where
  intact : Ipc.Intact kernel
  single : ∀ m ∈ kernel.messages, ∀ j ≤ c.stages + 1, m.toPid = c.pid j → m.nbytes = 1

section Kernel
variable {c : Chain} {k k' : Ipc.State}

theorem flight_appended {m : Ipc.Message} (h : Ipc.Appended m k k') (pid : Int) :
    flight k' pid = flight k pid ++ if m.toPid = pid then [m.data 0] else [] := by
  by_cases hp : m.toPid = pid <;> simp [flight, h.messages, Ipc.addressedTo, hp]

theorem flight_taken {call : Ipc.Call} {pre post : List Ipc.Message} {m : Ipc.Message}
    (h : Ipc.Taken call pre post m k k') {pid : Int} (hp : m.toPid ≠ pid) :
    flight k' pid = flight k pid := by
  obtain ⟨hm, -, -, rfl⟩ := h
  simp [flight, hm, Ipc.addressedTo, hp]

theorem flight_head {call : Ipc.Call} {pre post : List Ipc.Message} {m : Ipc.Message}
    (h : Ipc.Taken call pre post m k k') (hpre : ∀ x ∈ pre, x.toPid ≠ m.toPid) :
    flight k m.toPid = m.data 0 :: flight k' m.toPid := by
  obtain ⟨hm, -, -, rfl⟩ := h
  have hnone : pre.filter (Ipc.addressedTo m.toPid) = [] := by
    rw [List.filter_eq_nil_iff]
    intro x hx
    simpa [Ipc.addressedTo] using hpre x hx
  simp [flight, hm, hnone, Ipc.addressedTo]

theorem Carried.appended {m : Ipc.Message} (hc : Carried c k) (hi : Ipc.Intact k')
    (h : Ipc.Appended m k k') (hm : ∀ j ≤ c.stages + 1, m.toPid = c.pid j → m.nbytes = 1) :
    Carried c k' := by
  refine ⟨hi, fun x hx j hj he => ?_⟩
  rw [h.messages, List.mem_append, List.mem_singleton] at hx
  rcases hx with hx | rfl
  · exact hc.single x hx j hj he
  · exact hm j hj he

theorem Carried.taken {call : Ipc.Call} {pre post : List Ipc.Message} {m : Ipc.Message}
    (hc : Carried c k) (hi : Ipc.Intact k') (h : Ipc.Taken call pre post m k k') :
    Carried c k' := by
  obtain ⟨hm, -, -, rfl⟩ := h
  refine ⟨hi, fun x hx => hc.single x ?_⟩
  rw [hm]
  simp only [List.mem_append, List.mem_cons] at hx ⊢
  tauto

theorem Carried.send {b : UInt8} {f d : Int} (hc : Carried c k)
    (h : Ipc.ipcSendMessage (charBuf b) 1 f d k = some k') :
    Carried c k' ∧ ∀ pid, flight k' pid = flight k pid ++ if d = pid then [b] else [] := by
  have hcall : Ipc.kernelHandlerSvc k (.sendMessage (charBuf b) 1 f d) = some k' := h
  obtain ⟨m, hm, hd, hn, -, rfl⟩ := Ipc.ipcSendMessage_spec h
  refine ⟨hc.appended (hc.intact.step hcall) hm fun _ _ _ => hn, fun pid => ?_⟩
  rw [flight_appended hm, hd, charBuf]

theorem Carried.receive {j : Nat} (hc : Carried c k) (hj : j ≤ c.stages + 1) :
    let r := Ipc.ipcReceiveAnyMessage (charBuf 0) 1 (c.pid j) k
    (r.1 < 0 ∧ r.2.2 = k) ∨ (¬ r.1 < 0 ∧ Carried c r.2.2 ∧
      flight k (c.pid j) = r.2.1 0 :: flight r.2.2 (c.pid j) ∧
      ∀ pid, pid ≠ c.pid j → flight r.2.2 pid = flight k pid) := by
  intro r
  rcases Ipc.receiveFirst_cases (charBuf 0) 1 k (.receiveAnyMessage (charBuf 0) 1 (c.pid j)) with
    ⟨hr, hs, -⟩ | ⟨hr, pre, post, m, ht⟩
  · exact Or.inl ⟨by rw [show r.1 = -1 from hr]; decide, hs⟩
  · have hto : m.toPid = c.pid j := by simpa [Ipc.Call.takes] using ht.taken
    have hpre : ∀ x ∈ pre, x.toPid ≠ m.toPid := by
      intro x hx
      rw [hto]
      simpa [Ipc.Call.takes] using ht.skipped x hx
    have hmem : m ∈ k.messages := by simp [ht.messages]
    have hbyte : r.2.1 0 = m.data 0 := by
      have hf : k.messages.find? (Ipc.Call.receiveAnyMessage (charBuf 0) 1 (c.pid j)).takes =
          some m :=
        List.find?_eq_some_iff_append.mpr ⟨ht.taken, pre, post, ht.messages, by
          simpa using ht.skipped⟩
      have hsingle := hc.single m hmem j hj hto
      simpa [r, Ipc.ipcReceiveAnyMessage, Ipc.receiveFirst, hf, Ipc.stdmemCopy] using
        (hc.intact m hmem).2 0 (by omega)
    have hcall : Ipc.kernelHandlerSvc k (.receiveAnyMessage (charBuf 0) 1 (c.pid j)) =
      some r.2.2 := rfl
    refine Or.inr ⟨by rw [show r.1 = 0 from hr]; decide, hc.taken (hc.intact.step hcall) ht, ?_,
      fun pid hp => ?_⟩
    · rw [hbyte, ← hto]
      exact flight_head ht hpre
    · exact flight_taken ht (fun he => hp (he.symm.trans hto))

/-- The call of another process leaves the bytes of the chain alone. -/
theorem Carried.other {call : Ipc.Call} (hc : Carried c k)
    (h : Ipc.kernelHandlerSvc k call = some k')
    (hp : ∀ j ≤ c.stages + 1, call.toPid ≠ c.pid j) :
    Carried c k' ∧ ∀ j ≤ c.stages + 1, flight k' (c.pid j) = flight k (c.pid j) := by
  have hi := hc.intact.step h
  obtain rfl | ⟨m, hm, hto⟩ | ⟨pre, post, m, hm⟩ := Ipc.kernelHandlerSvc_cases h
  · exact ⟨hc, fun _ _ => rfl⟩
  · refine ⟨hc.appended hi hm fun j hj he => absurd (hto.symm.trans he) (hp j hj), fun j hj => ?_⟩
    rw [flight_appended hm, if_neg (hto ▸ hp j hj), List.append_nil]
  · refine ⟨hc.taken hi hm, fun j hj => flight_taken hm ?_⟩
    rw [Ipc.takes_toPid hm.taken]
    exact hp j hj

end Kernel

/-- Every process has been given what its predecessor sent, but for what is queued for it, and
every pipeline has sent on what it was given, each byte raised by one, but for what it holds. -/
structure Flows (c : Chain) (s : State) : Prop where
  carried : Carried c s.kernel
  link : ∀ j ≤ c.stages,
    (s.procs j).put = (s.procs (j + 1)).got ++ flight s.kernel (c.pid (j + 1))
  relay : ∀ j, 1 ≤ j → j ≤ c.stages →
    (s.procs j).put ++ pending (s.procs j) = (s.procs j).got.map (· + 1)

section Steps
variable {c : Chain} {s t : State} {j : Nat}

theorem Flows.smessage {b : UInt8} {control : Control} (h : Flows c s) (hj : j ≤ c.stages)
    (hb : 1 ≤ j → (s.procs j).control = .sending b ∧ ∀ x, control ≠ .sending x)
    (ht : smessage c j b control s = some t) : Flows c t := by
  obtain ⟨kernel, hk, ht⟩ := Option.bind_eq_some_iff.mp ht
  obtain rfl := Option.some.inj ht
  obtain ⟨hc, hf⟩ := h.carried.send hk
  refine ⟨hc, fun i hi => ?_, fun i hi hk => ?_⟩
  · have hl := h.link i hi
    simp only [hf]
    by_cases hij : i = j
    · subst hij
      simp [hl]
    · have hp : c.pid (j + 1) ≠ c.pid (i + 1) := fun he =>
        hij (by have := c.distinct _ (by omega) _ (by omega) he; omega)
      by_cases hij' : i + 1 = j
      · subst hij'
        simp [hl, hp]
      · simp [Function.update, hij, hij', hp, hl]
  · have hr := h.relay i hi hk
    by_cases hij : i = j
    · subst hij
      obtain ⟨hs, hn⟩ := hb hi
      cases control with
      | sending x => exact absurd rfl (hn x)
      | receiving => simpa [pending, hs] using hr
      | exited => simpa [pending, hs] using hr
    · simpa [Function.update, hij] using hr

theorem Flows.rmessage {control : UInt8 → Control} (h : Flows c s) (hj : 1 ≤ j)
    (hk : j ≤ c.stages + 1)
    (hb : j ≤ c.stages → (∀ x, (s.procs j).control ≠ .sending x) ∧
      ∀ b, control b = .sending (b + 1)) : Flows c (rmessage c j control s) := by
  have hcase := h.carried.receive hk
  dsimp only at hcase
  unfold Pipeline.rmessage
  generalize Ipc.ipcReceiveAnyMessage (charBuf 0) 1 (c.pid j) s.kernel = r at hcase ⊢
  obtain ⟨result, received, kernel⟩ := r
  rcases hcase with ⟨hr, hs⟩ | ⟨hr, hc, hhead, hrest⟩
  · dsimp only at hr hs ⊢
    rw [if_pos hr, hs]
    exact h
  · dsimp only at hr hc hhead hrest ⊢
    rw [if_neg hr]
    refine ⟨hc, fun i hi => ?_, fun i hi hik => ?_⟩
    · have hl := h.link i hi
      by_cases hij : i + 1 = j
      · subst hij
        simp [Function.update, hl, hhead]
      · have hp : c.pid (i + 1) ≠ c.pid j := fun he =>
          hij (c.distinct _ (by omega) _ hk he)
        by_cases hij' : i = j
        · subst hij'
          simp [hl, hrest _ hp]
        · simp [Function.update, hij, hij', hl, hrest _ hp]
    · have hr := h.relay i hi hik
      by_cases hij : i = j
      · subst hij
        obtain ⟨hn, hs⟩ := hb hik
        have hpend : pending (s.procs i) = [] := by
          cases hcl : (s.procs i).control with
          | sending x => exact absurd hcl (hn x)
          | receiving => simp [pending, hcl]
          | exited => simp [pending, hcl]
        rw [hpend, List.append_nil] at hr
        simp [pending, hs, hr]
      · simpa [Function.update, hij] using hr

theorem Flows.step {signedChar : Bool} {a : Action} (h : Flows c s) (ha : c.Allows a)
    (ht : step signedChar c s a = some t) : Flows c t := by
  cases a with
  | producer argv1 => exact h.smessage (Nat.zero_le _) (fun h0 => absurd h0 (by omega)) ht
  | pipeline j =>
    simp only [Pipeline.step, pipeline] at ht
    split at ht
    · next hcl =>
      obtain rfl := Option.some.inj ht
      exact h.rmessage ha.1 (by have := ha.2; omega) fun _ => ⟨by simp [hcl], fun _ => rfl⟩
    · next b hcl =>
      refine h.smessage ha.2 (fun _ => ⟨hcl, fun x => ?_⟩) ht
      split <;> simp
    · cases ht
  | consumer =>
    simp only [Pipeline.step, consumer] at ht
    split at ht
    · obtain rfl := Option.some.inj ht
      exact h.rmessage (by omega) (Nat.le_refl _) fun hlt => absurd hlt (by omega)
    · cases ht
  | other call =>
    obtain ⟨kernel, hk, rfl⟩ := Option.map_eq_some_iff.mp ht
    obtain ⟨hc, hf⟩ := h.carried.other hk ha
    exact ⟨hc, fun j hj => by rw [h.link j hj, hf _ (by omega)], h.relay⟩

theorem Flows.start {kernel : Ipc.State} (hi : Ipc.Intact kernel)
    (hn : ∀ m ∈ kernel.messages, ∀ j ≤ c.stages + 1, m.toPid ≠ c.pid j) :
    Flows c (start kernel) := by
  refine ⟨⟨hi, fun m hm j hj he => absurd he (hn m hm j hj)⟩, fun j hj => ?_, fun _ _ _ => rfl⟩
  have he : kernel.messages.filter (Ipc.addressedTo (c.pid (j + 1))) = [] := by
    rw [List.filter_eq_nil_iff]
    intro m hm
    simpa [Ipc.addressedTo] using hn m hm (j + 1) (by omega)
  simp [Pipeline.start, flight, he]

/-- What the producer sent is what the `j`-th process sent and what is still on the way to it. -/
theorem Flows.sent (h : Flows c s) (hj : j ≤ c.stages) :
    (s.procs 0).put.map (· + UInt8.ofNat j) = (s.procs j).put ++ inTransit c s j := by
  induction j with
  | zero => simp [inTransit]
  | succ j ih =>
    have hmap : (s.procs 0).put.map (· + UInt8.ofNat (j + 1)) =
        ((s.procs 0).put.map (· + UInt8.ofNat j)).map (· + 1) := by
      simp [Function.comp_def, UInt8.add_assoc]
    calc (s.procs 0).put.map (· + UInt8.ofNat (j + 1))
        = ((s.procs j).put ++ inTransit c s j).map (· + 1) := by rw [hmap, ih (by omega)]
      _ = (s.procs (j + 1)).got.map (· + 1) ++
            (flight s.kernel (c.pid (j + 1)) ++ inTransit c s j).map (· + 1) := by
          rw [h.link j (by omega), List.append_assoc, List.map_append]
      _ = (s.procs (j + 1)).put ++ inTransit c s (j + 1) := by
          rw [← h.relay (j + 1) (by omega) hj, List.append_assoc, inTransit]

end Steps

/-- Whatever the interleaving, the bytes that the producer has sent, each raised by the number of
pipelines, are those that the consumer has received followed by those on the way to it. -/
theorem consumer_receives_in_order (signedChar : Bool) (c : Chain) {mem : Nat → UInt8}
    {heapLow heapTop : Nat} {calls : List Ipc.Call} {kernel : Ipc.State}
    (hk : Ipc.run calls (Ipc.ipcInitialise mem heapLow heapTop) = some kernel)
    (hn : ∀ m ∈ kernel.messages, ∀ j ≤ c.stages + 1, m.toPid ≠ c.pid j)
    (actions : List Action) (ha : ∀ a ∈ actions, c.Allows a) {s : State}
    (h : run signedChar c actions (start kernel) = some s) :
    (s.procs (c.stages + 1)).got <+: (s.procs 0).put.map (· + UInt8.ofNat c.stages) ∧
    (s.procs 0).put.map (· + UInt8.ofNat c.stages) = (s.procs (c.stages + 1)).got ++
      flight s.kernel (c.pid (c.stages + 1)) ++ inTransit c s c.stages := by
  have hs : Flows c s :=
    PartialMachine.along_invariant (Flows c) (fun _ _ _ hg hf hst => hf.step hg hst)
      (PartialMachine.along_of_inputs (fun a hm _ => ha a hm) _)
      (Flows.start (Ipc.run_intact hk) hn) h
  have he := (hs.sent (Nat.le_refl _)).trans (by rw [hs.link c.stages (Nat.le_refl _)])
  exact ⟨⟨_, by rw [he, List.append_assoc]⟩, he⟩

/-- One pipeline: the producer is process 1, the pipeline 2 and the consumer 3. -/
def oneStage : Chain where
  stages := 1
  pid := fun j => j + 1
  distinct := by
    intro i _ j _ h
    omega

/-- The producer sends two letters, one is passed on, and process 4 sends to itself. -/
def twoLetters : List Action :=
  [.producer 65, .other (.sendMessage Ipc.zeroBuf 1 4 4), .pipeline 1, .producer 70, .pipeline 1,
    .consumer, .pipeline 1]

theorem twoLetters_in_order : ∃ s, run false oneStage twoLetters
      (start (Ipc.ipcInitialise Ipc.zeroBuf 0 1000)) = some s ∧
    (s.procs 2).got = [66] ∧ (s.procs 2).got <+: (s.procs 0).put.map (· + UInt8.ofNat 1) := by
  have hr : (run false oneStage twoLetters (start (Ipc.ipcInitialise Ipc.zeroBuf 0 1000))).map
      (fun s => (s.procs 2).got) = some [66] := by decide
  obtain ⟨s, hs, hg⟩ := Option.map_eq_some_iff.mp hr
  have hk : Ipc.run [] (Ipc.ipcInitialise Ipc.zeroBuf 0 1000) =
    some (Ipc.ipcInitialise Ipc.zeroBuf 0 1000) := rfl
  refine ⟨s, hs, hg, (consumer_receives_in_order false oneStage hk (by simp [Ipc.ipcInitialise])
    twoLetters ?_ hs).1⟩
  intro a ha
  simp only [twoLetters, List.mem_cons, List.not_mem_nil, or_false] at ha
  rcases ha with rfl | rfl | rfl | rfl | rfl | rfl | rfl
  case inr.inl =>
    intro j hj he
    simp only [Ipc.Call.toPid, oneStage] at he hj
    omega
  all_goals simp [Chain.Allows, oneStage]

end MalapropOS.Pipeline
