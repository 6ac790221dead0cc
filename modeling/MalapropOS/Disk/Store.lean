import Mathlib.Data.List.Induction
import MalapropOS.Disk.Server

/-! The driver and the server together are a block store: in every interleaving each call
ends with both channels clear, with the image and the caller's buffer as the store has them. -/
namespace MalapropOS.Disk
open LineChannel

inductive Kind where
  | wr | rd
  deriving DecidableEq

/-- A call of `disk_wr` or `disk_rd` with a buffer of `n` bytes. -/
structure Call (n : Nat) where
  kind : Kind
  addr : UInt32
  buf : Bytes
  addr_lt : addr.toNat < 2 ^ 31
  buf_length : buf.length = n

/-- The driver's code for a call; the result is the caller's buffer. -/
def Call.prog {n : Nat} (c : Call n) : Prog UInt8 Bytes :=
  match c.kind with
  | .wr => (diskWr c.addr c.buf n).bind (fun _ => .ret c.buf)
  | .rd => diskRd c.addr c.buf n

section Attempts
variable {args : Args} {image : Bytes} {a : UInt32}

/-- One refused attempt after the other: nothing changes. -/
theorem diskWrLoop_refused (ha : a.toNat < 2 ^ 31) {x : Bytes} (hx : x ≠ []) {n : Nat}
    (hn : x.length = n) (hge : ¬ a.toNat < args.blockNum) (i : Nat) :
    Evals newline (serve args) (diskWrLoop a x n i) ([], [], image) () ([], [], image) := by
  subst hn
  induction i with
  | zero => exact Evals.ret () _
  | succ i ih =>
    have hs : serve args image (wrLine a x) = some (image, ackFail) := by
      rw [serve_wr args image ha hx, if_neg hge]
    refine (writes_wrRequest a x _ _ _ [] [] image).bind ?_
    refine Evals.answered (wrLine_one_line a x) hs ?_
    exact (reads_geth 1 _ _ _ _ [newline] _).bind ((Reads.getc newline _ _ _ _ [] _).bind ih)

theorem diskRdLoop_refused (ha : a.toNat < 2 ^ 31) (x : Bytes) (n : Nat)
    (hge : ¬ a.toNat < args.blockNum) (i : Nat) :
    Evals newline (serve args) (diskRdLoop a x n i) ([], [], image) x ([], [], image) := by
  induction i with
  | zero => exact Evals.ret x _
  | succ i ih =>
    have hs : serve args image (rdLine a) = some (image, ackFail) := by
      rw [serve_rd args image ha, if_neg hge]
    refine (writes_rdRequest a _ _ _ [] [] image).bind ?_
    refine Evals.answered (rdLine_one_line a) hs ?_
    exact (reads_geth 1 _ _ _ _ [newline] _).bind ((Reads.getc newline _ _ _ _ [] _).bind ih)

/-- The first attempt of a write to a block of the disk is the last. -/
theorem diskWrLoop_accepted (ha : a.toNat < 2 ^ 31) {x : Bytes} (hx : x ≠ []) {n : Nat}
    (hn : x.length = n) (hlt : a.toNat < args.blockNum) (i : Nat) :
    Evals newline (serve args) (diskWrLoop a x n (i + 1)) ([], [], image) ()
      ([], [], seekWrite image (a.toNat * args.blockLen) x) := by
  subst hn
  have hs : serve args image (wrLine a x) =
      some (seekWrite image (a.toNat * args.blockLen) x, ackOkay) := by
    rw [serve_wr args image ha hx, if_pos hlt]
  refine (writes_wrRequest a x _ _ _ [] [] image).bind ?_
  refine Evals.answered (wrLine_one_line a x) hs ?_
  exact (reads_geth 0 _ _ _ _ [newline] _).bind
    ((Reads.getc newline _ _ _ _ [] _).bind (Evals.ret () _))

theorem diskRdLoop_accepted (ha : a.toNat < 2 ^ 31) {x : Bytes} {n : Nat} (hn : x.length = n)
    (hlt : a.toNat < args.blockNum)
    (hb : (seekRead image (a.toNat * args.blockLen) args.blockLen).length = n) (i : Nat) :
    Evals newline (serve args) (diskRdLoop a x n (i + 1)) ([], [], image)
      (seekRead image (a.toNat * args.blockLen) args.blockLen) ([], [], image) := by
  subst hn
  have hs : serve args image (rdLine a) = some (image, ackOkay ++
      space :: hexlify (seekRead image (a.toNat * args.blockLen) args.blockLen)) := by
    rw [serve_rd args image ha, if_pos hlt]
  refine (writes_rdRequest a _ _ _ [] [] image).bind ?_
  refine Evals.answered (rdLine_one_line a) hs ?_
  exact (reads_geth 0 _ _ _ _ (space :: (hexlify _ ++ [newline])) _).bind
    ((Reads.getc space _ _ _ _ _ _).bind ((reads_dataGeth hb _ _ _ _ [newline] _).bind
      ((Reads.getc newline _ _ _ _ [] _).bind (Evals.ret _ _))))

end Attempts

section Blocks

def block (len : Nat) (image : Bytes) (a : Nat) : Bytes := seekRead image (a * len) len

theorem seekWrite_of_le {image data : Bytes} {off : Nat} (h : off + data.length ≤ image.length) :
    seekWrite image off data = image.take off ++ data ++ image.drop (off + data.length) := by
  simp [seekWrite, show off - image.length = 0 by omega]

theorem seekWrite_length {image data : Bytes} {off : Nat} (h : off + data.length ≤ image.length) :
    (seekWrite image off data).length = image.length := by
  rw [seekWrite_of_le h]
  simp
  omega

/-- A write to one block is a write to that block only. -/
theorem block_seekWrite {len : Nat} {image data : Bytes} {a b : Nat} (hd : data.length = len)
    (ha : (a + 1) * len ≤ image.length) (hb : (b + 1) * len ≤ image.length) :
    block len (seekWrite image (a * len) data) b = if b = a then data else block len image b := by
  have hal : a * len + data.length ≤ image.length := by rw [Nat.add_mul] at ha; omega
  have hbl : b * len + len ≤ image.length := by rw [Nat.add_mul] at hb; omega
  rw [block, seekRead, seekWrite_of_le hal, block, seekRead]
  obtain hlt | rfl | hgt := Nat.lt_trichotomy b a
  · -- the block lies in front of the bytes written
    have hm : (b + 1) * len ≤ a * len := Nat.mul_le_mul_right len hlt
    rw [Nat.add_mul] at hm
    rw [if_neg (by omega), List.append_assoc, List.drop_append_of_le_length (by simp; omega),
      List.take_append_of_le_length (by simp; omega), List.drop_take, List.take_take]
    congr 1
    omega
  · simp [← hd, show b * data.length ≤ image.length by rw [hd]; omega]
  · have hm : (a + 1) * len ≤ b * len := Nat.mul_le_mul_right len hgt
    rw [Nat.add_mul] at hm
    have hl : (image.take (a * len) ++ data).length = a * len + len := by simp; omega
    rw [if_neg (by omega), List.drop_append, List.drop_eq_nil_of_le (by omega), List.nil_append,
      List.drop_drop, hl, hd]
    congr 2
    omega

theorem block_length {len : Nat} {image : Bytes} {a : Nat} (h : (a + 1) * len ≤ image.length) :
    (block len image a).length = len := by
  rw [Nat.add_mul] at h
  simp [block, seekRead]
  omega

end Blocks

section Store

/-- A block store of `blockNum` blocks: the blocks after a call, and the caller's buffer. -/
def storeCall {n : Nat} (blockNum : Nat) (blocks : Nat → Bytes) (c : Call n) :
    (Nat → Bytes) × Bytes :=
  if c.addr.toNat < blockNum then
    match c.kind with
    | .wr => (Function.update blocks c.addr.toNat c.buf, c.buf)
    | .rd => (blocks, blocks c.addr.toNat)
  else (blocks, c.buf)

/-- The same on the disk image. -/
def imageCall (args : Args) (image : Bytes) (c : Call args.blockLen) : Bytes × Bytes :=
  if c.addr.toNat < args.blockNum then
    match c.kind with
    | .wr => (seekWrite image (c.addr.toNat * args.blockLen) c.buf, c.buf)
    | .rd => (image, block args.blockLen image c.addr.toNat)
  else (image, c.buf)

/-- A sequence of calls, with the buffers they leave. -/
def sequence {n : Nat} {σ : Type} (f : σ → Call n → σ × Bytes) (s : σ) (calls : List (Call n)) :
    σ × List Bytes :=
  calls.foldl (fun r c => ((f r.1 c).1, r.2 ++ [(f r.1 c).2])) (s, [])

@[simp] theorem sequence_append {n : Nat} {σ : Type} (f : σ → Call n → σ × Bytes) (s : σ)
    (calls : List (Call n)) (c : Call n) :
    sequence f s (calls ++ [c]) = ((f (sequence f s calls).1 c).1,
      (sequence f s calls).2 ++ [(f (sequence f s calls).1 c).2]) := by
  simp [sequence]

variable {args : Args} {first image : Bytes} {blocks : Nat → Bytes}

/-- The image holds these blocks; it is as long as the first one and agrees with it behind
the last block. -/
structure Holds (args : Args) (first : Bytes) (blocks : Nat → Bytes) (image : Bytes) : Prop where
  length : image.length = first.length
  blocks : ∀ a < args.blockNum, block args.blockLen image a = blocks a
  beyond : image.drop (args.blockNum * args.blockLen) = first.drop (args.blockNum * args.blockLen)

theorem block_bound (hf : args.blockNum * args.blockLen ≤ first.length)
    (hl : image.length = first.length) {a : Nat} (ha : a < args.blockNum) :
    (a + 1) * args.blockLen ≤ image.length :=
  hl ▸ (Nat.mul_le_mul_right _ ha).trans hf

theorem Holds.call (hf : args.blockNum * args.blockLen ≤ first.length)
    (h : Holds args first blocks image) (c : Call args.blockLen) :
    Holds args first (storeCall args.blockNum blocks c).1 (imageCall args image c).1 ∧
      (imageCall args image c).2 = (storeCall args.blockNum blocks c).2 := by
  by_cases hlt : c.addr.toNat < args.blockNum
  · have hb := block_bound hf h.length hlt
    have hc := c.buf_length
    have hb' := hb
    rw [Nat.add_mul] at hb'
    cases hk : c.kind with
    | rd => simpa [imageCall, storeCall, hlt, hk, h.blocks _ hlt] using h
    | wr =>
      simp only [imageCall, storeCall, hlt, hk, if_true, and_true]
      refine ⟨by rw [seekWrite_length (by omega), h.length], fun a ha => ?_, ?_⟩
      · rw [block_seekWrite hc hb (block_bound hf h.length ha), h.blocks a ha,
          Function.update_apply]
      · have hm : (c.addr.toNat + 1) * args.blockLen ≤ args.blockNum * args.blockLen :=
          Nat.mul_le_mul_right _ hlt
        rw [Nat.add_mul] at hm
        rw [← h.beyond, seekWrite_of_le (by omega), List.drop_append,
          List.drop_eq_nil_of_le (by simp; omega), List.nil_append, List.drop_drop]
        congr 1
        simp
        omega
  · simpa [imageCall, storeCall, hlt] using h

theorem holds_sequence (hf : args.blockNum * args.blockLen ≤ first.length)
    (calls : List (Call args.blockLen)) :
    Holds args first (sequence (storeCall args.blockNum) (block args.blockLen first) calls).1
        (sequence (imageCall args) first calls).1 ∧
      (sequence (imageCall args) first calls).2 =
        (sequence (storeCall args.blockNum) (block args.blockLen first) calls).2 := by
  induction calls using List.reverseRecOn with
  | nil => exact ⟨⟨rfl, fun _ _ => rfl, rfl⟩, rfl⟩
  | append_singleton calls c ih =>
    obtain ⟨hh, hr⟩ := ih
    obtain ⟨hc, hb⟩ := hh.call hf c
    simp only [sequence_append]
    exact ⟨hc, by rw [hr, hb]⟩

/-- One call through the driver and the server, from clear channels to clear channels. -/
theorem call_evals (hn : 0 < args.blockLen) (hf : args.blockNum * args.blockLen ≤ image.length)
    (c : Call args.blockLen) :
    Evals newline (serve args) c.prog ([], [], image) (imageCall args image c).2
      ([], [], (imageCall args image c).1) := by
  have hl := c.buf_length
  have hx : c.buf ≠ [] := fun he => by simp [he] at hl; omega
  cases hk : c.kind with
  | wr =>
    simp only [Call.prog, imageCall, hk]
    split_ifs with hlt
    · exact (diskWrLoop_accepted c.addr_lt hx hl hlt 2).bind (Evals.ret _ _)
    · exact (diskWrLoop_refused c.addr_lt hx hl hlt 3).bind (Evals.ret _ _)
  | rd =>
    simp only [Call.prog, imageCall, hk]
    split_ifs with hlt
    · exact diskRdLoop_accepted c.addr_lt hl hlt (block_length (block_bound hf rfl hlt)) 2
    · exact diskRdLoop_refused c.addr_lt c.buf _ hlt 3

end Store

section System

/-- A sequence of calls in progress. The driver's program returns the buffers of the calls
made so far. -/
structure System (n : Nat) where
  todo : List (Call n)
  config : Config UInt8 (List Bytes) Bytes

variable {args : Args} {first : Bytes} {calls : List (Call args.blockLen)}
  {S T : System args.blockLen}

/-- The driver and the server run in any interleaving; a call is made when the one before it
has returned. -/
inductive System.Step (args : Args) : System args.blockLen → System args.blockLen → Prop
  | inner (todo : List (Call args.blockLen)) {c d : Config UInt8 (List Bytes) Bytes}
      (h : LineChannel.Step newline (serve args) c d) : System.Step args ⟨todo, c⟩ ⟨todo, d⟩
  | call (c : Call args.blockLen) (todo : List (Call args.blockLen)) (rs : List Bytes)
      (i o image : Bytes) :
      System.Step args ⟨c :: todo, ⟨.ret rs, i, o, image⟩⟩
        ⟨todo, ⟨c.prog.bind (fun b => .ret (rs ++ [b])), i, o, image⟩⟩

def System.start (image : Bytes) {n : Nat} (calls : List (Call n)) : System n :=
  ⟨calls, ⟨.ret [], [], [], image⟩⟩

/-- The configuration between two calls, when the calls `done` are through. -/
def between (args : Args) (first : Bytes) (done : List (Call args.blockLen)) :
    Config UInt8 (List Bytes) Bytes :=
  ⟨.ret (sequence (imageCall args) first done).2, [], [], (sequence (imageCall args) first done).1⟩

theorem between_finished (args : Args) (first : Bytes) (done : List (Call args.blockLen)) :
    Finished (between args first done) := ⟨⟨_, rfl⟩, rfl, rfl⟩

/-- The system is `k` steps away from the end of the last call of `done`. -/
def Underway (args : Args) (first : Bytes) (calls done : List (Call args.blockLen)) (k : Nat)
    (S : System args.blockLen) : Prop :=
  calls = done ++ S.todo ∧ Steps (LineChannel.Step newline (serve args)) k S.config
    (between args first done)

/-- The system at the start of the call `c`, after the calls `done`. -/
def calling (args : Args) (first : Bytes) (done : List (Call args.blockLen))
    (c : Call args.blockLen) (todo : List (Call args.blockLen)) : System args.blockLen :=
  ⟨todo, ⟨c.prog.bind (fun b => .ret ((sequence (imageCall args) first done).2 ++ [b])), [], [],
    (sequence (imageCall args) first done).1⟩⟩

theorem calling_underway (hn : 0 < args.blockLen)
    (hf : args.blockNum * args.blockLen ≤ first.length) {done todo : List (Call args.blockLen)}
    {c : Call args.blockLen} (hc : calls = done ++ c :: todo) :
    ∃ j, Underway args first calls (done ++ [c]) j (calling args first done c todo) := by
  have hl : args.blockNum * args.blockLen ≤ (sequence (imageCall args) first done).1.length :=
    (holds_sequence hf done).1.length ▸ hf
  obtain ⟨j, hj⟩ := call_evals hn hl c _
    (fun b => .ret ((sequence (imageCall args) first done).2 ++ [b]))
  exact ⟨j, by simpa [calling] using hc, by simpa [between, calling] using hj⟩

/-- A step inside a call is a step towards its end; a new call starts from clear channels. -/
theorem Underway.step {done : List (Call args.blockLen)} {k : Nat}
    (h : Underway args first calls done k S) (hs : System.Step args S T) :
    (∃ j, k = j + 1 ∧ T.todo = S.todo ∧ Underway args first calls done j T) ∨
      ∃ c rest, S.todo = c :: rest ∧ T = calling args first done c rest := by
  obtain ⟨hc, hk⟩ := h
  cases hs with
  | inner todo hs =>
    obtain ⟨j, rfl, hj⟩ := hk.after_step (between_finished args first done) hs
    exact Or.inl ⟨j, rfl, rfl, hc, hj⟩
  | call c todo rs i o image =>
    have he := hk.returned (between_finished args first done) rfl
    obtain ⟨rfl, rfl, rfl, rfl⟩ : rs = (sequence (imageCall args) first done).2 ∧ i = [] ∧ o = [] ∧
        image = (sequence (imageCall args) first done).1 := by
      simpa [between] using he
    exact Or.inr ⟨c, todo, rfl, rfl⟩

theorem underway_of_steps (hn : 0 < args.blockLen)
    (hf : args.blockNum * args.blockLen ≤ first.length) {m : Nat}
    (h : Steps (System.Step args) m S T) {done : List (Call args.blockLen)} {k : Nat}
    (hS : Underway args first calls done k S) :
    ∃ done' j, Underway args first calls done' j T := by
  induction h generalizing done k with
  | refl S => exact ⟨done, k, hS⟩
  | head hs _ ih =>
    obtain ⟨j, -, -, hj⟩ | ⟨c, rest, hc, rfl⟩ := hS.step hs
    · exact ih hj
    · obtain ⟨j, hj⟩ := calling_underway hn hf (hc ▸ hS.1)
      exact ih hj

/-- A system that has not made all its calls, or is inside one, can take a step. -/
theorem Underway.progress {done : List (Call args.blockLen)} {k : Nat}
    (h : Underway args first calls done k S) :
    (S.todo = [] ∧ S.config = between args first done) ∨ ∃ T, System.Step args S T := by
  obtain ⟨todo, config⟩ := S
  obtain ⟨-, hk⟩ := h
  cases hk with
  | refl =>
    cases todo with
    | nil => exact Or.inl ⟨rfl, rfl⟩
    | cons c todo => exact Or.inr ⟨_, .call c todo _ _ _ _⟩
  | head hs _ => exact Or.inr ⟨_, .inner todo hs⟩

/-- A run of a call and of what follows it is no longer than the two together. -/
theorem Underway.bounded_by {done : List (Call args.blockLen)} {k N : Nat}
    (h : Underway args first calls done k S)
    (hN : ∀ c rest, S.todo = c :: rest → ∀ m T,
      Steps (System.Step args) m (calling args first done c rest) T → m ≤ N)
    {m : Nat} (hm : Steps (System.Step args) m S T) : m ≤ k + (N + 1) := by
  induction hm generalizing k with
  | refl => omega
  | head hs ht ih =>
    obtain ⟨j, rfl, htodo, hj⟩ | ⟨c, rest, hc, rfl⟩ := h.step hs
    · have := ih hj (htodo ▸ hN)
      omega
    · have := hN c rest hc _ _ ht
      omega

/-- No run goes on for ever. -/
theorem Underway.bounded (hn : 0 < args.blockLen)
    (hf : args.blockNum * args.blockLen ≤ first.length) {done : List (Call args.blockLen)}
    {k : Nat} (h : Underway args first calls done k S) :
    ∃ N, ∀ m T, Steps (System.Step args) m S T → m ≤ N := by
  generalize ht : S.todo = todo
  induction todo generalizing S done k with
  | nil =>
    exact ⟨k + 1, fun m T hm => h.bounded_by (fun c rest hc => by simp [ht] at hc) hm⟩
  | cons c rest ih =>
    obtain ⟨j, hj⟩ := calling_underway hn hf (ht ▸ h.1)
    obtain ⟨N, hN⟩ := ih hj rfl
    refine ⟨k + (N + 1), fun m T hm => h.bounded_by (fun c' rest' hc => ?_) hm⟩
    obtain ⟨rfl, rfl⟩ := List.cons.inj (ht.symm.trans hc)
    exact hN

/-- The driver and the server are a block store. Every run is finite and can go on until all
calls are made; whenever the driver is between two calls, both channels are empty, and the
image and the buffers are those of the store after the calls made so far. -/
theorem driver_and_server_store_blocks (hn : 0 < args.blockLen)
    (hf : args.blockNum * args.blockLen ≤ first.length) (calls : List (Call args.blockLen)) :
    (∃ N, ∀ m T, Steps (System.Step args) m (.start first calls) T → m ≤ N) ∧
    ∀ m T, Steps (System.Step args) m (.start first calls) T →
      ((T.todo = [] ∧ ∃ rs, T.config.prog = .ret rs) ∨ ∃ U, System.Step args T U) ∧
      ∀ rs, T.config.prog = .ret rs → ∃ done, calls = done ++ T.todo ∧
        T.config.toServer = [] ∧ T.config.toClient = [] ∧
        (T.config.server, rs) = sequence (imageCall args) first done ∧
        rs = (sequence (storeCall args.blockNum) (block args.blockLen first) done).2 ∧
        Holds args first (sequence (storeCall args.blockNum) (block args.blockLen first) done).1
          T.config.server := by
  have hs : Underway args first calls [] 0 (.start first calls) := ⟨rfl, .refl _⟩
  refine ⟨hs.bounded hn hf, fun m T hT => ?_⟩
  obtain ⟨done, j, hj⟩ := underway_of_steps hn hf hT hs
  refine ⟨hj.progress.imp_left fun ⟨ht, hc⟩ => ⟨ht, _, by rw [hc]; rfl⟩, fun rs hrs => ?_⟩
  have he := hj.2.returned (between_finished args first done) hrs
  rw [he] at hrs ⊢
  obtain rfl : (sequence (imageCall args) first done).2 = rs := by simpa [between] using hrs
  obtain ⟨hh, hr⟩ := holds_sequence hf done
  exact ⟨done, hj.1, rfl, rfl, rfl, hr, hh⟩

/-- A write, a read of the same block and a read past the end of a disk of two blocks. -/
def threeCalls : List (Call 1) :=
  [⟨.wr, 1, [0xAB], by decide, rfl⟩, ⟨.rd, 1, [0], by decide, rfl⟩, ⟨.rd, 2, [7], by decide, rfl⟩]

theorem threeCalls_store_blocks :
    (∃ N, ∀ m T, Steps (System.Step ⟨2, 1⟩) m (.start [0, 0, 5] threeCalls) T → m ≤ N) ∧
    ∀ m T rs, Steps (System.Step ⟨2, 1⟩) m (.start [0, 0, 5] threeCalls) T → T.todo = [] →
      T.config.prog = .ret rs → rs = [[0xAB], [0xAB], [7]] ∧ T.config.server = [0, 0xAB, 5] := by
  have hs := @driver_and_server_store_blocks ⟨2, 1⟩ [0, 0, 5] (by decide) (by decide) threeCalls
  refine ⟨hs.1, fun m T rs hT ht hrs => ?_⟩
  obtain ⟨done, hd, -, -, hi, hr, -⟩ := (hs.2 m T hT).2 rs hrs
  obtain rfl : threeCalls = done := by simpa [ht] using hd
  exact ⟨hr.trans (by decide), (Prod.mk.inj hi).1.trans (by decide)⟩

end System
end MalapropOS.Disk
