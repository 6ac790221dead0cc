import MalapropOS.Ipc

/-! What a receive shows of the heap. The length that `ipc_send_message` stores in the message is
never read again: both receive functions copy as many bytes as the receiver asks for. -/
namespace MalapropOS.Ipc

/-- The receive calls: from one sender, or from any. -/
def ipcReceive (sender : Option Int) (buf : Nat → UInt8) (nbytes : Nat) (toPid : Int) (s : State) :
    Int × (Nat → UInt8) × State :=
  match sender with
  | some fromPid => ipcReceiveMessageFrom buf nbytes fromPid toPid s
  | none => ipcReceiveAnyMessage buf nbytes toPid s

def mayTake (sender : Option Int) (toPid : Int) (m : Message) : Bool :=
  (∀ f ∈ sender, m.fromPid = f) ∧ m.toPid = toPid

/-- One message in two heaps, wherever its record and its content lie. -/
structure SameMessage (s t : State) (m m' : Message) : Prop where
  fromPid : m'.fromPid = m.fromPid
  toPid : m'.toPid = m.toPid
  nbytes : m'.nbytes = m.nbytes
  content : ∀ i < m.nbytes, t.mem (m'.content + i) = s.mem (m.content + i)

def SameQueue (s t : State) : Prop := List.Forall₂ (SameMessage s t) s.messages t.messages

/-- The buffer with the bytes of the message that fit into it. -/
def delivery (s : State) (m : Option Message) (buf : Nat → UInt8) (nbytes : Nat) : Nat → UInt8 :=
  match m with
  | some m => stdmemCopy buf (fun i => s.mem (m.content + i)) (min nbytes m.nbytes)
  | none => buf

/-- The receive leaves the same buffer in all states with this queue, and nothing but the message
is new in it. -/
def DisclosesNothing (s : State) (sender : Option Int) (nbytes : Nat) (toPid : Int) : Prop :=
  ∀ t, SameQueue s t → ∀ buf,
    (ipcReceive sender buf nbytes toPid t).2.1 = (ipcReceive sender buf nbytes toPid s).2.1 ∧
      (ipcReceive sender buf nbytes toPid s).2.1 =
        delivery s (s.messages.find? (mayTake sender toPid)) buf nbytes

theorem ipcReceive_buffer (sender : Option Int) (buf : Nat → UInt8) (nbytes : Nat) (toPid : Int)
    (s : State) :
    (∀ m, s.messages.find? (mayTake sender toPid) = some m →
      (ipcReceive sender buf nbytes toPid s).2.1 =
        stdmemCopy buf (fun i => s.mem (m.content + i)) nbytes) ∧
    (s.messages.find? (mayTake sender toPid) = none →
      (ipcReceive sender buf nbytes toPid s).2.1 = buf) := by
  cases sender with
  | some f =>
    have ht : mayTake (some f) toPid = Call.takes (.receiveMessageFrom buf nbytes f toPid) := by
      funext m
      simp [mayTake, Call.takes]
    rw [ht]
    constructor
    · intro m hm
      simp [ipcReceive, ipcReceiveMessageFrom, receiveFirst, hm]
    · intro hn
      simp [ipcReceive, ipcReceiveMessageFrom, receiveFirst, hn]
  | none =>
    have ht : mayTake none toPid = Call.takes (.receiveAnyMessage buf nbytes toPid) := by
      funext m
      simp [mayTake, Call.takes]
    rw [ht]
    constructor
    · intro m hm
      simp [ipcReceive, ipcReceiveAnyMessage, receiveFirst, hm]
    · intro hn
      simp [ipcReceive, ipcReceiveAnyMessage, receiveFirst, hn]

theorem sameQueue_refl (s : State) : SameQueue s s :=
  List.forall₂_same.mpr fun _ _ => ⟨rfl, rfl, rfl, fun _ _ => rfl⟩

/-- The search goes by sender and receiver and finds the same message in both. -/
theorem find?_sameMessage (sender : Option Int) (toPid : Int) {s t : State} {ms ns : List Message}
    (h : List.Forall₂ (SameMessage s t) ms ns) :
    (ms.find? (mayTake sender toPid) = none ∧ ns.find? (mayTake sender toPid) = none) ∨
      ∃ m m', ms.find? (mayTake sender toPid) = some m ∧
        ns.find? (mayTake sender toPid) = some m' ∧ SameMessage s t m m' := by
  induction h with
  | nil => exact Or.inl ⟨rfl, rfl⟩
  | @cons m m' ms ns hm _ ih =>
    have htake : mayTake sender toPid m' = mayTake sender toPid m := by
      simp [mayTake, hm.fromPid, hm.toPid]
    by_cases hmt : mayTake sender toPid m
    · exact Or.inr ⟨m, m', by simp [hmt], by simp [htake, hmt], hm⟩
    · simpa [List.find?_cons, htake, hmt] using ih

/-- Beyond the end of the message the receiver gets heap bytes, which show in a buffer that
differs from the heap everywhere. -/
theorem DisclosesNothing.le {s : State} {sender : Option Int} {nbytes : Nat} {toPid : Int}
    (h : DisclosesNothing s sender nbytes toPid) {m : Message}
    (hm : s.messages.find? (mayTake sender toPid) = some m) : nbytes ≤ m.nbytes := by
  by_contra hlt
  let buf : Nat → UInt8 := fun i => s.mem (m.content + i) + 1
  have hd := (h s (sameQueue_refl s) buf).2
  rw [(ipcReceive_buffer sender buf nbytes toPid s).1 m hm, hm] at hd
  have hb := congrFun hd m.nbytes
  simp only [delivery, stdmemCopy, buf] at hb
  rw [if_pos (by omega), if_neg (by omega)] at hb
  exact absurd hb (by simp)

/-- A receive discloses nothing but the message if and only if it does not ask for more bytes than
the message that it finds has. -/
theorem disclosesNothing_iff (s : State) (sender : Option Int) (nbytes : Nat) (toPid : Int) :
    DisclosesNothing s sender nbytes toPid ↔
      ∀ m, s.messages.find? (mayTake sender toPid) = some m → nbytes ≤ m.nbytes := by
  refine ⟨fun h m hm => h.le hm, fun h t hq buf => ?_⟩
  rcases find?_sameMessage sender toPid hq with ⟨hs, ht⟩ | ⟨m, m', hs, ht, hm⟩
  · rw [(ipcReceive_buffer sender buf nbytes toPid s).2 hs,
      (ipcReceive_buffer sender buf nbytes toPid t).2 ht, hs]
    exact ⟨rfl, rfl⟩
  · rw [(ipcReceive_buffer sender buf nbytes toPid s).1 m hs,
      (ipcReceive_buffer sender buf nbytes toPid t).1 m' ht, hs]
    have hle := h m hs
    constructor
    · funext i
      by_cases hi : i < nbytes
      · simp [stdmemCopy, hi, hm.content i (by omega)]
      · simp [stdmemCopy, hi]
    · simp [delivery, Nat.min_eq_left hle]

/-- The messenger sends 4 bytes and its child asks for 100. -/
theorem greeting_discloses_heap :
    ¬ ∀ (calls : List Call) (s : State), run calls (ipcInitialise zeroBuf 0 1000) = some s →
      ∀ sender nbytes toPid, DisclosesNothing s sender nbytes toPid := by
  intro h
  have hr : (run [.sendMessage zeroBuf 4 1 2] (ipcInitialise zeroBuf 0 1000)).map
      (fun s => (s.messages.find? (mayTake none 2)).map Message.nbytes) = some (some 4) := by decide
  obtain ⟨s, hs, hm⟩ := Option.map_eq_some_iff.mp hr
  obtain ⟨m, hf, hn⟩ := Option.map_eq_some_iff.mp hm
  have hle := (h _ s hs none 100 2).le hf
  omega

end MalapropOS.Ipc
