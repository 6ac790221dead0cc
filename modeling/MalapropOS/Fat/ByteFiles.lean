import MalapropOS.Fat.Contents
import MalapropOS.Fat.Undisturbed
import MalapropOS.Lib.ByteFile
import MalapropOS.Lib.Interleaving

/-! Open files as arrays of bytes with a cursor. The calls of any number of programs come in any order;
a file sees the calls on its descriptor and those that open its path. -/
namespace MalapropOS.Fat
open LinkedChain PartialMachine Requests

/-- The file calls of a program. Numbers are registers. -/
inductive Syscall where
  | openCall (pathname : CharPtr) (flags : UInt32)
  | mkdir (path : CharPtr)
  | write (fd : Int) (buf : Buffer) (nbytes : UInt32)
  | read (fd : Int) (buf : Buffer) (nbytes : UInt32)
  | lseek (fd : Int) (offset : UInt32) (whence : Int)
  | close (fd : Int)
  | unlink (pathname : CharPtr)
  | fstat (fd : Int) (buf : DirEntry)

/-- What the program gets: the return value, and its buffer if the call fills one. -/
abbrev Reply : Syscall → Type
  | .read .. => Int × Buffer
  | .fstat .. => Int × DirEntry
  | _ => Int

def answer (fs : Fat16) (s : State) : (q : Syscall) → Option (Reply q × State)
  | .openCall pathname flags => sysOpen fs s pathname flags.toNat
  | .mkdir path => sysMkdir fs s path
  | .write fd buf nbytes => sysWrite fs s fd buf nbytes.toNat
  | .read fd buf nbytes =>
    let (r, buf, s) := sysRead fs s fd buf nbytes.toNat
    some ((r, buf), s)
  | .lseek fd offset whence => some (sysLseek s fd offset.toNat whence)
  | .close fd => some (sysClose s fd)
  | .unlink pathname => sysUnlink fs s pathname
  | .fstat fd buf => some (sysFstat s fd buf, s)

/-- `sys_fstat` changes nothing and is no `Call`. -/
def Syscall.asCall : Syscall → Option Call
  | .openCall pathname flags => some (.openCall pathname flags)
  | .mkdir path => some (.mkdir path)
  | .write fd buf nbytes => some (.write fd buf nbytes)
  | .read fd buf nbytes => some (.read fd buf nbytes)
  | .lseek fd offset whence => some (.lseek fd offset whence)
  | .close fd => some (.close fd)
  | .unlink pathname => some (.unlink pathname)
  | .fstat .. => none

/-- The call leaves the file alone that is open as `fd` and starts at the cluster `c`, or it is one
that the file can serve: it reads or writes less than 2^31 bytes, and reads inside the chain. -/
def Served (fs : Fat16) (fd : Int) (c : Nat) (s : State) : Syscall → Prop
  | .write fd' buf nbytes =>
    if fd' = fd then nbytes.toNat < 2 ^ 31 else WritesElsewhere s c (.write fd' buf nbytes)
  | .read fd' _ nbytes => fd' = fd → nbytes.toNat < 2 ^ 31 ∧ ∀ f l, findOpenFileByFd s fd = some f →
      FileChain fs s.disk c l → f.offset < l.length * bytesPerCluster fs
  | .close fd' => fd' ≠ fd
  | _ => True

structure Admitted (fs : Fat16) (fd : Int) (c : Nat) (s : State) (q : Syscall) : Prop where
  guard : ∀ k ∈ q.asCall, Guard fs s k
  tree : ∀ k ∈ q.asCall, StoresInTree fs s k
  served : Served fs fd c s q

theorem Admitted.of_call {fs : Fat16} {fd : Int} {c : Nat} {s : State} {q : Syscall} {k : Call}
    (hk : q.asCall = some k) (hg : Guard fs s k) (ht : StoresInTree fs s k)
    (hs : Served fs fd c s q) : Admitted fs fd c s q where
  guard := by
    intro k' hk'
    rwa [← Option.some.inj (hk.symm.trans hk')]
  tree := by
    intro k' hk'
    rwa [← Option.some.inj (hk.symm.trans hk')]
  served := hs

/-- The offset that `sys_lseek` sets. -/
def sought (v : ByteFile UInt8) (offset : Nat) (whence : Int) : Option Nat :=
  if whence = seekSet then some offset
  else if whence = seekCur then some ((v.offset + offset) % 2 ^ 32)
  else if whence = seekEnd then some ((v.size + offset) % 2 ^ 32)
  else none

/-- The calls of all programs, as the file sees them that is open as `fd` under the path. -/
def FileStep (fd : Int) (path : CharPtr) (v : ByteFile UInt8) :
    (q : Syscall) → Reply q → ByteFile UInt8 → Prop
  | .openCall pathname flags, r, w => if cstr pathname = cstr path then
      r = fd ∧ w = { v with append := flags.toNat &&& oAppend ≠ 0 } else w = v
  | .write fd' buf nbytes, r, w => if fd' = fd then
      ∃ k : Nat, r = (k : Int) ∧ v.Writes (bytesOf buf nbytes.toNat) k w else w = v
  | .read fd' buf nbytes, r, w => if fd' = fd then
      r.1 = ((v.next nbytes.toNat).length : Int) ∧
        (∀ i, r.2 i = (v.next nbytes.toNat).getD i (buf i)) ∧
        w = { v with offset := v.offset + (v.next nbytes.toNat).length } else w = v
  | .lseek fd' offset whence, r, w => if fd' = fd then
      (sought v offset.toNat whence).elim (r = (-1 : Int) ∧ w = v)
        fun o => r = (0 : Int) ∧ w = { v with offset := o } else w = v
  | .fstat fd' _, r, w => w = v ∧ (fd' = fd → r.1 = 0 ∧ r.2.fileSizeBytes = v.size ∧
      ¬ isSubdirectory r.2.attributes)
  | _, _, w => w = v

def viewOf (fs : Fat16) (d : Disk) (f : OpenFile) (l : List Nat) : ByteFile UInt8 where
  bytes := bytesOf (chainByte fs d l) (l.length * bytesPerCluster fs)
  size := f.directoryEntry.fileSizeBytes
  offset := f.offset
  append := f.append

/-- The open file `fd` with the chain `l` is what `v` says. -/
structure Shows (fs : Fat16) (s : State) (fd : Int) (path : CharPtr) (c : Nat) (f : OpenFile)
    (l : List Nat) (v : ByteFile UInt8) : Prop where
  found : findOpenFileByFd s fd = some f
  named : cstr f.path = cstr path
  regular : ¬ isSubdirectory f.directoryEntry.attributes
  start : f.directoryEntry.firstCluster = c
  chain : FileChain fs s.disk c l
  offset_lt : f.offset < 2 ^ 32
  size_lt : f.directoryEntry.fileSizeBytes < 2 ^ 32
  view : v = viewOf fs s.disk f l

/-- On a sound volume the file is what `v` says. -/
def Sees (fs : Fat16) (fd : Int) (path : CharPtr) (c : Nat) (s : State) (v : ByteFile UInt8) : Prop :=
  Integral fs s ∧ TableInv s ∧ ∃ f l, Shows fs s fd path c f l v

/-- The record of a file behind a write of `k` bytes. -/
def recorded (f : OpenFile) (k : Nat) : OpenFile := { f with
  directoryEntry := { f.directoryEntry with
    fileSizeBytes := max f.directoryEntry.fileSizeBytes (f.offset + k) }
  offset := f.offset + k }

section Bytes
variable {x y : Buffer} {n o : Nat} {chunk : List UInt8}

theorem length_bytesOf (x : Buffer) (n : Nat) : (bytesOf x n).length = n := by
  rw [bytesOf, List.length_map, List.length_range]

theorem getElem?_bytesOf (x : Buffer) (n i : Nat) :
    (bytesOf x n)[i]? = if i < n then some (x i) else none := by
  rw [bytesOf, List.getElem?_map]
  split_ifs with h
  · rw [List.getElem?_range h]
    rfl
  · rw [List.getElem?_eq_none (by simpa using h)]
    rfl

theorem bytesOf_splice (hin : chunk ≠ [] → o + chunk.length ≤ n)
    (h : ∀ i < n, y i = if o ≤ i ∧ i < o + chunk.length then chunk.getD (i - o) 0 else x i) :
    bytesOf y n = ByteFile.splice o chunk (bytesOf x n) := by
  cases chunk with
  | nil =>
    rw [ByteFile.splice_nil]
    apply bytesOf_congr
    intro i hi
    rw [h i hi, if_neg]
    rintro ⟨hle, hlt⟩
    exact absurd hlt (Nat.not_lt.mpr hle)
  | cons b chunk =>
    have hin := hin (List.cons_ne_nil b chunk)
    have ho : o ≤ (bytesOf x n).length := by
      rw [length_bytesOf]
      omega
    apply List.ext_getElem?
    intro i
    rw [ByteFile.getElem?_splice ho, getElem?_bytesOf, getElem?_bytesOf]
    by_cases hi : i < n
    · rw [if_pos hi, if_pos hi, h i hi]
      split_ifs with hb
      · rw [List.getD_eq_getElem?_getD, List.getElem?_eq_getElem (by omega)]
        rfl
      · rfl
    · rw [if_neg hi, if_neg hi, if_neg (by omega)]

end Bytes

section Views
variable {fs : Fat16} {s t : State} {fd : Int} {path : CharPtr} {c : Nat} {f g : OpenFile}
  {l : List Nat} {v : ByteFile UInt8}

theorem Shows.held (h : Shows fs s fd path c f l v) : heldBy s.openFiles c :=
  ⟨f, (findOpenFileByFd_mem h.found).1, h.regular, h.start⟩

theorem Shows.fd_ge (h : Shows fs s fd path c f l v) (hi : TableInv s) : 3 ≤ fd := by
  obtain ⟨hm, rfl⟩ := findOpenFileByFd_mem h.found
  exact (hi.range f hm).1

theorem Shows.kept (h : Shows fs s fd path c f l v) (hu : Undisturbed fs s.disk t.disk c l)
    (hf : findOpenFileByFd t fd = some f) : Shows fs t fd path c f l v where
  found := hf
  named := h.named
  regular := h.regular
  start := h.start
  chain := hu.chain
  offset_lt := h.offset_lt
  size_lt := h.size_lt
  view := by
    rw [h.view, viewOf, viewOf, bytesOf_congr hu.data]

/-- A record that a call is not about is found as before. -/
theorem found_other (hi : TableInv s) {k : Call} {r : Int} (ht : TableStep s t k r)
    (hf : findOpenFileByFd s fd = some f) (hne : fd ≠ k.subject r) :
    findOpenFileByFd t fd = some f := by
  obtain ⟨hm, rfl⟩ := findOpenFileByFd_mem hf
  exact (hi.step ht).found ((ht.others hne).mpr hm)

theorem findOpenFile_named (hi : TableInv s) (hf : findOpenFileByFd s fd = some f)
    {pathname : CharPtr} (hn : cstr f.path = cstr pathname) : findOpenFile s pathname = some f := by
  obtain ⟨hm, -⟩ := findOpenFileByFd_mem hf
  cases h : findOpenFile s pathname with
  | none => exact absurd hn (findOpenFile_none.mp h f hm)
  | some g =>
    have hg : cstr g.path = cstr pathname :=
      (stdstringCompare_eq_zero _ _).mp (by simpa using List.find?_some h)
    rw [List.inj_on_of_nodup_map hi.paths (List.mem_of_find?_eq_some h) hm (hg.trans hn.symm)]

theorem viewOf_settle (d : Disk) : (viewOf fs d f l).settle = viewOf fs d (settleOffset f) l := by
  rw [ByteFile.settle, settleOffset]
  cases h : f.append with
  | false => simp [viewOf, h]
  | true => simp [viewOf, h]

end Views

section Own
variable {fs : Fat16} (hl : DirLayout fs) {s t : State} {fd : Int} {path : CharPtr} {c : Nat}
  {f : OpenFile} {l : List Nat} {v : ByteFile UInt8}
include hl

theorem FileChain.capacity_lt {d : Disk} (h : FileChain fs d c l) :
    l.length * bytesPerCluster fs < 2 ^ 32 := by
  have hlen := h.length_lt hl.toLayout
  have hsize := hl.clusterSize
  calc l.length * bytesPerCluster fs ≤ (2 ^ 16 - 1) * 2 ^ 16 := Nat.mul_le_mul (by omega) hsize
    _ < 2 ^ 32 := by decide

/-- What is on the disk when the data of a write is there. -/
theorem writeToFile_short {d : Disk} {o : Nat} (hc : FileChain fs d c l) (buf : Buffer) {n : Nat}
    (hg : n = 0 ∨ o < l.length * bytesPerCluster fs) :
    ∃ d' k new o', writeToFile fs d c o buf n = (d', k) ∧ Written fs d c l o' buf k d' new ∧
      k ≤ n ∧ (k ≠ 0 → o' = o) ∧ (k < n → o + k = (l ++ new).length * bytesPerCluster fs) := by
  obtain rfl | ho := hg
  · exact ⟨d, 0, [], 0, writeToFile_nothing d c o buf, .start hc (Nat.zero_le _), Nat.le_refl _,
      fun h => absurd rfl h, fun h => absurd h (Nat.lt_irrefl 0)⟩
  · obtain ⟨d', k, new, hw, hwr, hk, hshort⟩ := writeToFile_written hl.toLayout hc ho buf n
    exact ⟨d', k, new, o, hw, hwr, hk, fun _ => rfl, fun hlt => (hshort hlt).2⟩

omit hl in
/-- The data after a write, as a whole. -/
theorem Written.bytes {d d' : Disk} {o o' k n : Nat} {buf : Buffer} {new : List Nat}
    (hw : Written fs d c l o' buf k d' new) (hk : k ≤ n) (ho : k ≠ 0 → o' = o) :
    ∃ pad, bytesOf (chainByte fs d' (l ++ new)) ((l ++ new).length * bytesPerCluster fs) =
        ByteFile.splice o ((bytesOf buf n).take k)
          (bytesOf (chainByte fs d l) (l.length * bytesPerCluster fs) ++ pad) ∧
      pad.length = new.length * bytesPerCluster fs := by
  have hlen : ((bytesOf buf n).take k).length = k := by
    rw [List.length_take, length_bytesOf]
    exact Nat.min_eq_left hk
  have hold : bytesOf (chainByte fs d (l ++ new)) ((l ++ new).length * bytesPerCluster fs) =
      bytesOf (chainByte fs d l) (l.length * bytesPerCluster fs) ++
        bytesOf (fun i => chainByte fs d (l ++ new) (l.length * bytesPerCluster fs + i))
          (new.length * bytesPerCluster fs) := by
    rw [List.length_append, Nat.add_mul, bytesOf_add]
    congr 1
    exact bytesOf_congr fun i hi => chainByte_append new hi
  refine ⟨bytesOf (fun i => chainByte fs d (l ++ new) (l.length * bytesPerCluster fs + i))
    (new.length * bytesPerCluster fs), ?_, length_bytesOf _ _⟩
  rw [← hold]
  have hwithin := hw.within
  apply bytesOf_splice
  · intro hne
    have hk₀ : k ≠ 0 := by
      rw [← hlen]
      exact List.length_pos_iff.mpr hne |>.ne'
    rw [hlen, ← ho hk₀]
    exact hwithin
  · intro i hi
    rw [hw.data i hi, hlen]
    by_cases hk₀ : k = 0
    · rw [if_neg (by omega), if_neg (by omega)]
    · rw [ho hk₀]
      split_ifs with hb
      · rw [List.getD_eq_getElem?_getD, List.getElem?_take, if_pos (by omega), getElem?_bytesOf,
          if_pos (by omega)]
        rfl
      · rfl

omit hl in
/-- The record behind a write that does not wrap round. -/
theorem WriteOutcome.record {d d' : Disk} {k : Nat} {r : Int} {g : OpenFile}
    (h : WriteOutcome fs d f k r g d') (hk : k < 2 ^ 31)
    (hsum : (f.offset + k) % 2 ^ 32 = f.offset + k) : r = k ∧ g = recorded f k := by
  rw [recorded]
  cases h with
  | failed wrapped => exact absurd wrapped (toInt32_nonneg hk)
  | inside size =>
    rw [hsum] at size ⊢
    rw [Nat.max_eq_left size]
    exact ⟨rfl, rfl⟩
  | unstored size =>
    rw [hsum] at size
    rw [grown, hsum, Nat.max_eq_right size.le]
    exact ⟨rfl, rfl⟩
  | stored size =>
    rw [hsum] at size
    rw [grown, hsum, Nat.max_eq_right size.le]
    exact ⟨rfl, rfl⟩

/-- Storing the new size leaves the file alone. -/
theorem WriteOutcome.undisturbed (hi : Integral fs s) (hf : heldBy s.openFiles c)
    (hch : FileChain fs s.disk c l) {d d' : Disk}
    {k n o : Nat} {r : Int} {g : OpenFile} {buf : Buffer} {new : List Nat}
    (hw : Written fs s.disk c l o buf k d new) (hk : k ≤ n)
    (hlist : f.directoryEntry.fileSizeBytes < f.offset + n → StillListed fs s.disk f)
    (h : WriteOutcome fs d f k r g d') : Undisturbed fs d d' c (l ++ new) := by
  have hchain := hw.fileChain hch
  cases h with
  | failed => exact .refl hchain
  | inside => exact .refl hchain
  | unstored => exact .refl hchain
  | stored size slot isSlot =>
    have hin := ((hlist (grows_by_more size hk)).found hl hi hf hch hw slot).2
    have hout := hin.apart hl (hi.written hl hf hch hw) hf hchain
    exact .store hl hchain isSlot hout _ _

/-- A write to the file itself. -/
theorem Shows.write (h : Shows fs s fd path c f l v) (hi : Integral fs s) (htab : TableInv s)
    {buf : Buffer} {nbytes : UInt32} (hg : Guard fs s (.write fd buf nbytes))
    (htree : StoresInTree fs s (.write fd buf nbytes)) (hn : nbytes.toNat < 2 ^ 31) {r : Int}
    (ha : sysWrite fs s fd buf nbytes.toNat = some (r, t)) :
    ∃ (k : Nat) (w : ByteFile UInt8) (g : OpenFile) (m : List Nat), r = k ∧
      v.Writes (bytesOf buf nbytes.toNat) k w ∧ Shows fs t fd path c g m w := by
  have hfd : fd ≠ stdoutFiledesc := by
    have := h.fd_ge htab
    unfold stdoutFiledesc
    omega
  have hown := hg hfd f h.found h.regular
  have hinside : nbytes.toNat = 0 ∨ (settleOffset f).offset < l.length * bytesPerCluster fs := by
    refine hown.inside.imp_right ?_
    rintro ⟨m, hm, ho⟩
    rw [settleOffset_directoryEntry, h.start] at hm
    rwa [h.chain.unique hl.toLayout hm]
  obtain ⟨d, k, new, o, hw, hwr, hk, ho, hshort⟩ := writeToFile_short hl h.chain buf hinside
  have hstart : (settleOffset f).directoryEntry.firstCluster = c := by
    rw [settleOffset_directoryEntry, h.start]
  rw [← hstart] at hw
  obtain ⟨r', g, d', he, hout⟩ :=
    writeAtOffset_eq hl hw (hi.written hl h.held h.chain hwr).dirs.to_listed
  have hwrite : sysWrite fs s fd buf nbytes.toNat = some (r', { s with
      disk := d'
      openFiles := updateOpenFile fd (fun _ => g) s.openFiles }) := by
    rw [sysWrite, if_neg hfd, h.found]
    simp only [if_neg h.regular]
    rw [he, settleOffset_fd, (findOpenFileByFd_mem h.found).2]
  obtain ⟨rfl, rfl⟩ := Prod.mk.inj (Option.some.inj (ha.symm.trans hwrite))
  have hun := hout.undisturbed hl hi h.held h.chain hwr hk fun hlt => by
    have hlist := htree hfd f h.found h.regular (settleOffset_directoryEntry f ▸ hlt)
    rwa [StillListed, settleOffset_path, settleOffset_directoryEntry]
  have hlast : (settleOffset f).offset + k < 2 ^ 32 := by
    by_cases hk₀ : k = 0
    · rw [hk₀, settleOffset]
      split_ifs
      · exact h.size_lt
      · exact h.offset_lt
    · have hcap := FileChain.capacity_lt hl (hwr.fileChain h.chain)
      have hwithin := hwr.within
      rw [ho hk₀] at hwithin
      exact hwithin.trans_lt hcap
  obtain ⟨rfl, rfl⟩ := hout.record (hk.trans_lt hn) (Nat.mod_eq_of_lt hlast)
  obtain ⟨pad, hbytes, hpad⟩ := hwr.bytes hk ho
  have hsettle : v.settle = viewOf fs s.disk (settleOffset f) l := by rw [h.view, viewOf_settle]
  have hlen : ((bytesOf buf nbytes.toNat).take k).length = k := by
    rw [List.length_take, length_bytesOf, Nat.min_eq_left hk]
  have hcap : (v.bytes ++ pad).length = (l ++ new).length * bytesPerCluster fs := by
    rw [h.view, List.length_append, hpad, List.length_append, Nat.add_mul]
    exact congrArg (· + _) (length_bytesOf _ _)
  refine ⟨k, v.settle.put ((bytesOf buf nbytes.toNat).take k) pad, recorded (settleOffset f) k,
    l ++ new, rfl, ⟨(length_bytesOf buf _).symm ▸ hk, pad, rfl, fun hk₀ => ?_, fun hlt => ?_⟩, ?_⟩
  · rw [hcap, hsettle]
    have hwithin := hwr.within
    rwa [ho hk₀] at hwithin
  · rw [length_bytesOf] at hlt
    rw [hcap, hsettle]
    exact hshort hlt
  · have hsame : (recorded (settleOffset f) k).fd = fd :=
      (settleOffset_fd f).trans (findOpenFileByFd_mem h.found).2
    refine ⟨find?_updateOpenFile h.found hsame, ?_, ?_, hstart, hun.chain, hlast, ?_, ?_⟩
    · show cstr (settleOffset f).path = cstr path
      rw [settleOffset_path, h.named]
    · show ¬ isSubdirectory (settleOffset f).directoryEntry.attributes = true
      rw [settleOffset_directoryEntry]
      exact h.regular
    · show max (settleOffset f).directoryEntry.fileSizeBytes ((settleOffset f).offset + k) < 2 ^ 32
      rw [settleOffset_directoryEntry]
      exact Nat.max_lt.mpr ⟨h.size_lt, hlast⟩
    · rw [hsettle, ByteFile.put, hlen]
      simp only [viewOf, bytesOf_congr hun.data, hbytes]
      rfl

/-- A read of the file itself. -/
theorem Shows.read (h : Shows fs s fd path c f l v) (htab : TableInv s) (buf : Buffer) {n : Nat}
    (ho : f.offset < l.length * bytesPerCluster fs) (hn : n < 2 ^ 31) :
    (sysRead fs s fd buf n).1 = ((v.next n).length : Int) ∧
    (∀ i, (sysRead fs s fd buf n).2.1 i = (v.next n).getD i (buf i)) ∧
    ∃ g, Shows fs (sysRead fs s fd buf n).2.2 fd path c g l
      { v with offset := v.offset + (v.next n).length } := by
  have hfd : fd ≠ stdinFiledesc := by
    have := h.fd_ge htab
    unfold stdinFiledesc
    omega
  have hch : FileChain fs s.disk f.directoryEntry.firstCluster l := h.start ▸ h.chain
  obtain ⟨e, -, hchain⟩ := hch.chain hl.toLayout
  obtain ⟨k, hk⟩ : ∃ k, k = min n (l.length * bytesPerCluster fs - f.offset) := ⟨_, rfl⟩
  have hnarrow := narrowOffset_eq hchain.toWalk ho hl.clusterSize
  have hread : sysRead fs s fd buf n =
      ((k : Int), readBuffer fs s.disk l f.offset k buf, advance s fd k) := by
    rw [sysRead_inside h.found hfd hchain.toWalk ho buf (hnarrow.symm ▸ hk), hnarrow,
      if_neg (toInt32_nonneg (by omega))]
  have hnext : v.next n = bytesOf (fun i => chainByte fs s.disk l (f.offset + i)) k := by
    rw [h.view]
    apply List.ext_getElem?
    intro i
    rw [ByteFile.next, List.getElem?_take, List.getElem?_drop, getElem?_bytesOf]
    show (if i < n then (bytesOf _ _)[f.offset + i]? else none) = _
    rw [getElem?_bytesOf]
    split_ifs <;> first | rfl | omega
  have hlen : (v.next n).length = k := by rw [hnext, length_bytesOf]
  have hlast : f.offset + k < 2 ^ 32 := by
    have hcap := FileChain.capacity_lt hl h.chain
    omega
  rw [hread, hlen]
  refine ⟨rfl, fun i => ?_, _, findOpenFileByFd_advance h.found k, h.named, h.regular, h.start,
    h.chain, Nat.mod_lt _ (by decide), h.size_lt, ?_⟩
  · rw [hnext, List.getD_eq_getElem?_getD, getElem?_bytesOf]
    show (if i < k then _ else _) = _
    split_ifs
    · rfl
    · rfl
  · rw [h.view, viewOf, viewOf, Nat.mod_eq_of_lt hlast]
    rfl

omit hl in
/-- A seek in the file itself. -/
theorem Shows.lseek (h : Shows fs s fd path c f l v) (offset : UInt32) (whence : Int) :
    ∃ w, ((sought v offset.toNat whence).elim ((sysLseek s fd offset.toNat whence).1 = -1 ∧ w = v)
        fun o => (sysLseek s fd offset.toNat whence).1 = 0 ∧ w = { v with offset := o }) ∧
      ∃ g, Shows fs (sysLseek s fd offset.toNat whence).2 fd path c g l w := by
  have hseek : seekOffset f offset.toNat whence = sought v offset.toNat whence := by
    rw [h.view]
    rfl
  cases ho : sought v offset.toNat whence with
  | none =>
    have hcall : sysLseek s fd offset.toNat whence = (-1, s) := by
      simp only [sysLseek, h.found, hseek, ho]
    rw [hcall]
    exact ⟨v, ⟨rfl, rfl⟩, f, h⟩
  | some o =>
    have hcall : sysLseek s fd offset.toNat whence = (0, { s with
        openFiles := updateOpenFile fd (fun f => { f with offset := o }) s.openFiles }) := by
      simp only [sysLseek, h.found, hseek, ho]
    rw [hcall]
    have hlt := seekOffset_lt (hseek.trans ho)
    refine ⟨{ v with offset := o }, ⟨rfl, rfl⟩, { f with offset := o }, ?_⟩
    exact ⟨find?_updateOpenFile h.found (findOpenFileByFd_mem h.found).2, h.named, h.regular,
      h.start, h.chain, hlt, h.size_lt, by rw [h.view]; rfl⟩

omit hl in
/-- Opening the file again. -/
theorem Shows.open (h : Shows fs s fd path c f l v) (htab : TableInv s) {pathname : CharPtr}
    {flags : Nat} (hn : cstr pathname = cstr path) {r : Int}
    (ha : sysOpen fs s pathname flags = some (r, t)) : r = fd ∧
      ∃ g, Shows fs t fd path c g l { v with append := flags &&& oAppend ≠ 0 } := by
  have hknown := findOpenFile_named htab h.found (h.named.trans hn.symm)
  obtain ⟨-, rfl⟩ := findOpenFileByFd_mem h.found
  rw [sysOpen, hknown] at ha
  obtain ⟨rfl, rfl⟩ := Prod.mk.inj (Option.some.inj ha)
  exact ⟨rfl, { f with append := flags &&& oAppend ≠ 0 }, find?_updateOpenFile h.found rfl,
    h.named, h.regular, h.start, h.chain, h.offset_lt, h.size_lt, by rw [h.view]; rfl⟩

omit hl in
/-- Opening another file. -/
theorem open_other (htab : TableInv s) (hf : findOpenFileByFd s fd = some f) {pathname : CharPtr}
    {flags : UInt32} (hn : cstr pathname ≠ cstr f.path) {r : Int}
    (ha : sysOpen fs s pathname flags.toNat = some (r, t)) : fd ≠ r := by
  obtain ⟨hm, rfl⟩ := findOpenFileByFd_mem hf
  have hlt := (htab.range f hm).2
  have h₃ := (htab.range f hm).1
  cases sysOpen_effect ha with
  | @known g known =>
    intro he
    have hg := htab.found (List.mem_of_find?_eq_some known)
    rw [← he, hf] at hg
    obtain rfl := Option.some.inj hg
    exact hn ((stdstringCompare_eq_zero _ _).mp (by simpa using List.find?_some known)).symm
  | opened unknown found =>
    obtain ⟨e, rfl, -⟩ := openFile_some found
    exact hlt.ne
  | missing => omega
  | failed => omega
  | made _ _ _ _ found =>
    obtain ⟨e, rfl, -⟩ := openFile_some found
    exact hlt.ne

end Own

section Steps
variable {fs : Fat16} (hl : DirLayout fs) {s t : State} {fd : Int} {path : CharPtr} {c : Nat}
  {v w : ByteFile UInt8} {k : Call} {r : Int}
include hl

/-- A call of the file itself. -/
theorem Sees.own (hv : Sees fs fd path c s v) (hg : Guard fs s k) (ha : call fs s k = some (r, t))
    {g : OpenFile} {m : List Nat} (h : Shows fs t fd path c g m w) : Sees fs fd path c t w := by
  obtain ⟨hi, htab, -⟩ := hv
  obtain ⟨r', t', ha', hi'⟩ := call_integral hl hi hg
  obtain ⟨rfl, rfl⟩ := Prod.mk.inj (Option.some.inj (ha.symm.trans ha'))
  exact ⟨hi', htab.step (call_table htab ha), g, m, h⟩

/-- A call that is about something else. -/
theorem Sees.other (hv : Sees fs fd path c s v) (hg : Guard fs s k) (htree : StoresInTree fs s k)
    (hw : WritesElsewhere s c k) (ha : call fs s k = some (r, t)) (hne : fd ≠ k.subject r) :
    Sees fs fd path c t v := by
  obtain ⟨hi, htab, f, l, h⟩ := hv
  have hu := call_undisturbed hl hi h.held h.chain hg htree hw ha
  exact Sees.own hl ⟨hi, htab, f, l, h⟩ hg ha
    (h.kept hu (found_other htab (call_table htab ha) h.found hne))

/-- Each answer is a step of the file. -/
theorem Sees.step {q : Syscall} {r : Reply q} (hq : Admitted fs fd c s q)
    (hv : Sees fs fd path c s v) (ha : answer fs s q = some (r, t)) :
    ∃ w, FileStep fd path v q r w ∧ Sees fs fd path c t w := by
  obtain ⟨hi, htab, f, l, h⟩ := id hv
  have h₃ := h.fd_ge htab
  cases q with
  | openCall pathname flags =>
    have hg := hq.guard _ rfl
    by_cases hn : cstr pathname = cstr path
    · obtain ⟨hr, g, hg'⟩ := h.open htab hn ha
      exact ⟨_, (if_pos hn).mpr ⟨hr, rfl⟩, hv.own hl hg ha hg'⟩
    · have hne := open_other htab h.found (h.named.symm ▸ hn) ha
      exact ⟨v, (if_neg hn).mpr rfl, hv.other hl hg (hq.tree _ rfl) trivial ha hne⟩
  | mkdir path =>
    have hne : fd ≠ -1 := by omega
    exact ⟨v, rfl, hv.other hl (hq.guard _ rfl) (hq.tree _ rfl) trivial ha hne⟩
  | write fd' buf nbytes =>
    have hg := hq.guard _ rfl
    have hs := hq.served
    by_cases hfd : fd' = fd
    · subst hfd
      rw [Served, if_pos rfl] at hs
      obtain ⟨k, w, g, m, hr, hw, hg'⟩ := h.write hl hi htab hg (hq.tree _ rfl) hs ha
      exact ⟨w, (if_pos rfl).mpr ⟨k, hr, hw⟩, hv.own hl hg ha hg'⟩
    · rw [Served, if_neg hfd] at hs
      exact ⟨v, (if_neg hfd).mpr rfl, hv.other hl hg (hq.tree _ rfl) hs ha (Ne.symm hfd)⟩
  | read fd' buf nbytes =>
    have hg := hq.guard _ rfl
    obtain ⟨rfl, rfl⟩ := Prod.mk.inj (Option.some.inj ha)
    by_cases hfd : fd' = fd
    · subst hfd
      obtain ⟨hn, ho⟩ := hq.served rfl
      obtain ⟨hres, hbuf, g, hg'⟩ := h.read hl htab buf (ho f l h.found h.chain) hn
      exact ⟨_, (if_pos rfl).mpr ⟨hres, hbuf, rfl⟩, hv.own hl hg rfl hg'⟩
    · exact ⟨v, (if_neg hfd).mpr rfl,
        hv.other hl hg (hq.tree _ rfl) trivial rfl (Ne.symm hfd)⟩
  | lseek fd' offset whence =>
    have hg := hq.guard _ rfl
    obtain ⟨rfl, rfl⟩ := Prod.mk.inj (Option.some.inj ha)
    by_cases hfd : fd' = fd
    · subst hfd
      obtain ⟨w, hw, g, hg'⟩ := h.lseek offset whence
      exact ⟨w, (if_pos rfl).mpr hw, hv.own hl hg rfl hg'⟩
    · exact ⟨v, (if_neg hfd).mpr rfl,
        hv.other hl hg (hq.tree _ rfl) trivial rfl (Ne.symm hfd)⟩
  | close fd' =>
    obtain ⟨rfl, rfl⟩ := Prod.mk.inj (Option.some.inj ha)
    exact ⟨v, rfl, hv.other hl (hq.guard _ rfl) (hq.tree _ rfl) trivial rfl
      (Ne.symm hq.served)⟩
  | unlink pathname =>
    have hne : fd ≠ -1 := by omega
    exact ⟨v, rfl, hv.other hl (hq.guard _ rfl) (hq.tree _ rfl) trivial ha hne⟩
  | fstat fd' buf =>
    obtain ⟨rfl, rfl⟩ := Prod.mk.inj (Option.some.inj ha)
    refine ⟨v, ⟨rfl, fun hfd => ?_⟩, hv⟩
    rw [hfd, sysFstat, h.found, h.view]
    exact ⟨rfl, rfl, h.regular⟩

theorem Sees.answers {q : Syscall} (hq : Admitted fs fd c s q) (hv : Sees fs fd path c s v) :
    ∃ r t, answer fs s q = some (r, t) := by
  have hcall {k : Call} (hk : q.asCall = some k) := call_integral hl hv.1 (hq.guard k hk)
  cases q with
  | openCall pathname flags => exact (hcall rfl).imp fun _ h => h.imp fun _ h => h.1
  | mkdir path => exact (hcall rfl).imp fun _ h => h.imp fun _ h => h.1
  | write fd buf nbytes => exact (hcall rfl).imp fun _ h => h.imp fun _ h => h.1
  | unlink pathname => exact (hcall rfl).imp fun _ h => h.imp fun _ h => h.1
  | read fd buf nbytes => exact ⟨_, _, rfl⟩
  | lseek fd offset whence => exact ⟨_, _, rfl⟩
  | close fd => exact ⟨_, _, rfl⟩
  | fstat fd buf => exact ⟨_, _, rfl⟩

/-- The calls of all programs, in the order in which they come. -/
theorem Sees.steps (hv : Sees fs fd path c s v) {es : List (Event Reply)}
    (hrun : Happens (answer fs) (Admitted fs fd c) es s t) :
    ∃ w, Steps (FileStep fd path) es v w ∧ Sees fs fd path c t w :=
  hrun.steps (fun _ _ _ _ _ => Sees.step hl) hv

theorem Sees.boot {d : Disk} (hd : Sound fs d fun _ => False) {calls : List Call}
    (hg : Along (Fat.step fs) (Guard fs) calls (fileInitialise d))
    (hs : run (Fat.step fs) calls (fileInitialise d) = some s) {f : OpenFile} {l : List Nat}
    (h : Shows fs s fd path c f l v) : Sees fs fd path c s v := by
  have hi := along_invariant (Integral fs) (fun u k u' hk hu hstep => by
    obtain ⟨w, hw, hinv⟩ := step_integral hl hk hu
    rwa [Option.some.inj (hstep.symm.trans hw)]) hg (integral_initial hd) hs
  exact ⟨hi, run_table (fileInitialise_table d) hs, f, l, h⟩

end Steps

section Examples
variable {s : State} {size offset : Nat}

/-- The record of `/BB.TXT`, as 3. -/
def openRecord (size offset : Nat) : OpenFile :=
  ⟨3, { madeRecord.directoryEntry with fileSizeBytes := size }, rootPath, offset, false⟩

/-- What a write to `/BB.TXT` looks at. -/
structure WriteView where
  found : Option OpenFile
  next : Nat
  slots : List Slot
  entry : DirEntry
  slot : Option (Option Slot)
deriving DecidableEq

def writeView (s : State) : WriteView where
  found := findOpenFileByFd s 3
  next := getSuccessorCluster smallVolume s.disk 3
  slots := liveSlots smallVolume s.disk (rootSectors smallVolume)
  entry := slotEntry s.disk ⟨2, 0⟩
  slot := updateSlot smallVolume s.disk rootPath madeRecord.directoryEntry.filename
    madeRecord.directoryEntry.extension

/-- What it sees if the file has this size and is at this offset. -/
def openView (size offset : Nat) : WriteView :=
  ⟨some (openRecord size offset), 0xffff, [⟨2, 0⟩], (openRecord size offset).directoryEntry,
    some (some ⟨2, 0⟩)⟩

theorem writing_admitted (h : writeView s = openView size offset) (ho : offset < 32) {buf : Buffer}
    {nbytes : UInt32} (hn : nbytes.toNat < 2 ^ 31) :
    Admitted smallVolume 3 3 s (.write 3 buf nbytes) := by
  obtain ⟨hfound, hnext, hlive, hentry, hslot⟩ := WriteView.mk.injEq .. ▸ h
  have hwrite : Guard smallVolume s (.write 3 buf nbytes) ∧
      StoresInTree smallVolume s (.write 3 buf nbytes) := by
    refine ⟨fun _ f hf _ => ?_, fun _ f hf _ _ => ?_⟩
    · obtain rfl := Option.some.inj (hfound.symm.trans hf)
      refine ⟨Or.inr ⟨[3], fileChain_three hnext, ho⟩, fun _ q hq _ => ?_⟩
      obtain rfl := Option.some.inj (Option.some.inj (hslot.symm.trans hq))
      rw [hentry]
      rfl
    · obtain rfl := Option.some.inj (hfound.symm.trans hf)
      refine ⟨⟨2, 0⟩, hslot, _, .root, ?_⟩
      show _ ∈ liveSlots smallVolume s.disk (rootSectors smallVolume)
      rw [hlive]
      exact List.mem_singleton_self _
  apply Admitted.of_call rfl hwrite.1 hwrite.2
  rwa [Served, if_pos rfl]

/-- Opening a file without making one. -/
theorem opening_admitted (pathname : CharPtr) : Admitted smallVolume 3 3 s (.openCall pathname 0) :=
  .of_call rfl (fun _ _ h => absurd rfl h) (fun _ _ h => absurd rfl h) trivial

theorem seeking_admitted (offset : UInt32) (whence : Int) :
    Admitted smallVolume 3 3 s (.lseek 3 offset whence) := .of_call rfl trivial trivial trivial

theorem closing_admitted {fd : Int} (h : fd ≠ 3) : Admitted smallVolume 3 3 s (.close fd) :=
  .of_call rfl trivial trivial h

/-- A program puts `Hi` and a space into `/BB.TXT`; another one opens the root directory and closes
it. -/
def sharedWriting : List (Event Reply) :=
  [⟨true, .openCall rootPath 0, (3 : Int)⟩, ⟨false, .openCall [slash] 0, (4 : Int)⟩,
    ⟨true, .lseek 3 0 seekSet, (0 : Int)⟩, ⟨true, .write 3 (bufferOf [0x48, 0x69]) 2, (2 : Int)⟩,
    ⟨false, .close 4, (0 : Int)⟩, ⟨true, .write 3 (bufferOf [0x20]) 1, (1 : Int)⟩]

theorem sharedWriting_happens : ∃ s t,
    run (step smallVolume) [.openCall rootPath 1] (fileInitialise emptyDisk) = some s ∧
    Shows smallVolume s 3 rootPath 3 (openRecord 0 0) [3]
      (viewOf smallVolume s.disk (openRecord 0 0) [3]) ∧
    Happens (answer smallVolume) (Admitted smallVolume 3 3) sharedWriting s t ∧
    findOpenFile t rootPath = some (openRecord 3 3) ∧
    findOpenFileByFd t 3 = some (openRecord 3 3) := by
  have hres : ((run (step smallVolume) [.openCall rootPath 1] (fileInitialise emptyDisk)).bind
      fun s => (sysOpen smallVolume s rootPath 0).bind
      fun a => (sysOpen smallVolume a.2 [slash] 0).bind
      fun b => (sysWrite smallVolume (sysLseek b.2 3 0 seekSet).2 3 (bufferOf [0x48, 0x69]) 2).bind
      fun w => (sysWrite smallVolume (sysClose w.2 4).2 3 (bufferOf [0x20]) 1).map
      fun x => ([a.1, b.1, (sysLseek b.2 3 0 seekSet).1, w.1, (sysClose w.2 4).1, x.1],
        [writeView s, writeView (sysLseek b.2 3 0 seekSet).2, writeView (sysClose w.2 4).2],
        findOpenFile x.2 rootPath, findOpenFileByFd x.2 3)) =
      some ([3, 4, 0, 2, 0, 1], [openView 0 0, openView 0 0, openView 2 2], some (openRecord 3 3),
        some (openRecord 3 3)) := by decide +kernel
  simp only [Option.bind_eq_some_iff, Option.map_eq_some_iff, Prod.mk.injEq, List.cons.injEq,
    and_true] at hres
  obtain ⟨s, hs, ⟨r₁, s₁⟩, h₁, ⟨r₂, s₂⟩, h₂, ⟨r₃, s₃⟩, h₃, ⟨r₄, s₄⟩, h₄,
    ⟨rfl, rfl, hseek, rfl, hclose, rfl⟩, ⟨hview, hready, hready'⟩, hend⟩ := hres
  have hfound : findOpenFileByFd s 3 = some (openRecord 0 0) := congrArg WriteView.found hview
  have hnext : getSuccessorCluster smallVolume s.disk 3 = 0xffff := congrArg WriteView.next hview
  refine ⟨s, s₄, hs, ⟨hfound, rfl, by decide, rfl, fileChain_three hnext, by decide, by decide, rfl⟩,
    ?_, hend⟩
  have hopen : answer smallVolume s (.openCall rootPath 0) = some ((3 : Int), s₁) := h₁
  have hroot : answer smallVolume s₁ (.openCall [slash] 0) = some ((4 : Int), s₂) := h₂
  have hstart : answer smallVolume s₂ (.lseek 3 0 seekSet) =
      some ((0 : Int), (sysLseek s₂ 3 0 seekSet).2) := congrArg some (Prod.ext hseek rfl)
  have hback : answer smallVolume s₃ (.close 4) = some ((0 : Int), (sysClose s₃ 4).2) :=
    congrArg some (Prod.ext hclose rfl)
  exact .cons (opening_admitted rootPath) hopen <| .cons (opening_admitted [slash]) hroot <|
    .cons (seeking_admitted 0 seekSet) hstart <|
    .cons (writing_admitted hready (by decide) (by decide)) h₃ <|
    .cons (closing_admitted (by decide)) hback <|
    .cons (writing_admitted hready' (by decide) (by decide)) h₄ .nil

theorem rootPath_along : Along (step smallVolume) (Guard smallVolume) [.openCall rootPath 1]
    (fileInitialise emptyDisk) := ⟨fun _ _ _ => rootPath_createGuard, fun _ _ => trivial⟩

end Examples
end MalapropOS.Fat
