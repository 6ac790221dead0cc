import MalapropOS.Fat.Directory
import MalapropOS.Lib.Runs

/-! The open files and the file system calls of `file.c`. A call takes and returns the whole
state; `none` stands for a directory walk that never ends. The path of an open file is taken
as a value. Offsets are `int32_t` and sizes `uint32_t`: both are kept as numbers below 2^32. -/
namespace MalapropOS.Fat

structure OpenFile where
  fd : Int
  directoryEntry : DirEntry
  path : CharPtr
  offset : Nat
  append : Bool
  deriving DecidableEq

structure State where
  disk : Disk
  openFiles : List OpenFile
  nextFd : Int
  stdinBuffer : List UInt8

def oCreat : Nat := 0x1
def oAppend : Nat := 0x2
def seekSet : Int := 1
def seekCur : Int := 2
def seekEnd : Int := 3
def stdinFiledesc : Int := 0
def stdoutFiledesc : Int := 1

/-- A `uint32_t` as the `int32_t` of the same bits. -/
def toInt32 (n : Nat) : Int := if n < 2 ^ 31 then n else n - 2 ^ 32

theorem toInt32_of_lt {n : Nat} (h : n < 2 ^ 31) : toInt32 n = n := if_pos h

theorem toInt32_neg_iff {n : Nat} (h : n < 2 ^ 32) : toInt32 n < 0 ↔ 2 ^ 31 ≤ n := by
  rw [toInt32]
  split_ifs <;> omega

theorem toInt32_nonneg {n : Nat} (h : n < 2 ^ 31) : ¬ toInt32 n < 0 := by
  rw [toInt32_of_lt h]
  omega

def fileInitialise (d : Disk) : State := ⟨d, [], 3, []⟩

def findOpenFile (s : State) (pathname : CharPtr) : Option OpenFile :=
  s.openFiles.find? fun f => stdstringCompare f.path pathname = 0

def findOpenFileByFd (s : State) (fd : Int) : Option OpenFile :=
  s.openFiles.find? fun f => f.fd = fd

theorem findOpenFileByFd_mem {s : State} {fd : Int} {f : OpenFile}
    (h : findOpenFileByFd s fd = some f) : f ∈ s.openFiles ∧ f.fd = fd :=
  ⟨List.mem_of_find?_eq_some h, by simpa using List.find?_some h⟩

/-- A write through the pointer to the open file `fd`. -/
def updateOpenFile (fd : Int) (g : OpenFile → OpenFile) : List OpenFile → List OpenFile
  | [] => []
  | f :: fs => if f.fd = fd then g f :: fs else f :: updateOpenFile fd g fs

/-- The entry that `open_file` makes up for the root directory. -/
def rootEntry (fs : Fat16) : DirEntry where
  filename := slash :: List.replicate 8 0
  extension := List.replicate 4 0
  attributes := 0x10
  firstCluster := 0
  fileSizeBytes := (calculateRegions fs).rootDirectoryRegionSize * fs.bytesPerSector

/-- A new record; `append` is set by the caller. -/
def insertOpenFile (s : State) (e : DirEntry) (pathname : CharPtr) : OpenFile × State :=
  let f : OpenFile := ⟨s.nextFd, e, pathname, 0, false⟩
  (f, { s with openFiles := s.openFiles ++ [f], nextFd := s.nextFd + 1 })

/-- `open_file`; NULL is the inner `none`. -/
def openFile (fs : Fat16) (s : State) (pathname : CharPtr) :
    Option (Option OpenFile × State) := do
  let rootDir := getRootDir fs s.disk
  if CharPtr.at pathname 0 ≠ slash then return (none, s)
  else if CharPtr.at pathname 1 = 0 then
    let (f, s) := insertOpenFile s (rootEntry fs) pathname
    return (some f, s)
  else
    match ← findFile fs s.disk (pathname.drop 1) rootDir with
    | none => return (none, s)
    | some file =>
      let (f, s) := insertOpenFile s file.entry pathname
      return (some f, s)

/-- A string padded with spaces to `n` characters, in an array one byte longer. -/
def padName (s : CharPtr) (n : Nat) : List UInt8 :=
  let chars := cstr (s.take n)
  chars ++ List.replicate (n - chars.length) 0x20 ++ [0]

/-- The entry that `create_new_file` builds. -/
def newFile (fs : Fat16) (d : Disk) (pathname : CharPtr) (attributes : UInt8) : DirEntry where
  filename := padName (splitFilename (toFilename pathname)).name 8
  extension := padName (splitFilename (toFilename pathname)).extension 3
  attributes := attributes
  firstCluster := findFirstFreeCluster fs d
  fileSizeBytes := 0

/-- Add the entry to the directory of a path, which may be the root directory. -/
def addToDirectory (fs : Fat16) (d : Disk) (dirPath : CharPtr) (e : DirEntry) :
    Option (Int × Disk) := do
  let rootDir := getRootDir fs d
  if CharPtr.at dirPath 0 = 0 then addRootDirectoryEntry fs d e
  else
    match ← findDir fs d dirPath rootDir with
    | none => return (-1, d)
    | some dir => addDirectoryEntry fs d dir.entry.firstCluster e

/-- The return value and the disk. The cluster of the new file is marked last. -/
def createNewFile (fs : Fat16) (d : Disk) (pathname : CharPtr) (attributes : UInt8) :
    Option (Int × Disk) := do
  let e := newFile fs d pathname attributes
  let (result, d') ← addToDirectory fs d (toDirectory pathname) e
  if result ≠ 0 then return (-1, d')
  else return (0, setSuccessorCluster fs d' e.firstCluster 0xFFFF)

def updateFileDetails (fs : Fat16) (d : Disk) (pathname : CharPtr) (updatedEntry : DirEntry)
    (oldFilename oldExtension : CharPtr) : Option (Int × Disk) := do
  let rootDir := getRootDir fs d
  if CharPtr.at pathname 0 ≠ slash then return (-1, d)
  else
    let strippedPathname := pathname.drop 1
    let dirPath := toDirectory strippedPathname
    match ← findFile fs d strippedPathname rootDir with
    | none => return (-1, d)
    | some _ =>
      if CharPtr.at dirPath 0 = 0 then
        updateRootDirectoryEntry fs d updatedEntry oldFilename oldExtension
      else
        match ← findDir fs d dirPath rootDir with
        | none => return (-1, d)
        | some dir =>
          updateDirectoryEntry fs d dir.entry.firstCluster updatedEntry oldFilename oldExtension

/-- The end of `sys_open`, with the record found or made. -/
def finishOpen (s : State) (f : OpenFile) (flags : Nat) : Int × State :=
  (f.fd, { s with
    openFiles := updateOpenFile f.fd (fun f => { f with append := flags &&& oAppend ≠ 0 })
      s.openFiles })

def sysOpen (fs : Fat16) (s : State) (pathname : CharPtr) (flags : Nat) :
    Option (Int × State) := do
  match findOpenFile s pathname with
  | some f => return finishOpen s f flags
  | none =>
    match ← openFile fs s pathname with
    | (some f, s) => return finishOpen s f flags
    | (none, s) =>
      if flags &&& oCreat = 0 then return (-1, s)
      else
        let (result, d) ← createNewFile fs s.disk pathname 0x0
        let s := { s with disk := d }
        if result = -1 then return (-1, s)
        else
          match ← openFile fs s pathname with
          | (some f, s) => return finishOpen s f flags
          | (none, s) => return (-1, s)

/-- `sys_write` from where the offset is settled. -/
def writeAtOffset (fs : Fat16) (s : State) (f : OpenFile) (buf : Buffer) (nbytes : Nat) :
    Option (Int × State) := do
  let (d, n) := writeToFile fs s.disk f.directoryEntry.firstCluster f.offset buf nbytes
  if toInt32 n < 0 then
    return (-1, { s with disk := d, openFiles := updateOpenFile f.fd (fun _ => f) s.openFiles })
  else
    let sum := (f.offset + n) % 2 ^ 32
    if sum > f.directoryEntry.fileSizeBytes then
      let e := { f.directoryEntry with fileSizeBytes := sum }
      let (_, d) ← updateFileDetails fs d f.path e e.filename e.extension
      return (n, { s with
        disk := d
        openFiles := updateOpenFile f.fd (fun _ => { f with directoryEntry := e, offset := sum })
          s.openFiles })
    else
      return (n, { s with
        disk := d
        openFiles := updateOpenFile f.fd (fun _ => { f with offset := sum }) s.openFiles })

/-- With the append flag, writing starts at the end of the file. -/
def settleOffset (f : OpenFile) : OpenFile :=
  if f.append then { f with offset := f.directoryEntry.fileSizeBytes } else f

def sysWrite (fs : Fat16) (s : State) (fd : Int) (buf : Buffer) (nbytes : Nat) :
    Option (Int × State) :=
  if fd = stdoutFiledesc then some (toInt32 nbytes, s)
  else
    match findOpenFileByFd s fd with
    | none => some (-1, s)
    | some f =>
      if isSubdirectory f.directoryEntry.attributes then some (-1, s)
      else writeAtOffset fs s (settleOffset f) buf nbytes

/-- The return value, the caller's buffer and the state. -/
def sysRead (fs : Fat16) (s : State) (fd : Int) (buf : Buffer) (nbytes : Nat) :
    Int × Buffer × State :=
  if fd = stdinFiledesc then
    (toInt32 nbytes, stdmemCopy buf 0 (fun i => s.stdinBuffer.getD i 0xff) 0 nbytes,
      { s with stdinBuffer := s.stdinBuffer.drop nbytes })
  else
    match findOpenFileByFd s fd with
    | none => (-1, buf, s)
    | some f =>
      if f.directoryEntry.firstCluster < 2 then (-1, buf, s)
      else
        let (buf, n) := readFromFile fs s.disk f.directoryEntry.firstCluster f.offset buf nbytes
        if toInt32 n < 0 then (-1, buf, s)
        else (n, buf, { s with
          openFiles := updateOpenFile fd (fun f => { f with offset := (f.offset + n) % 2 ^ 32 })
            s.openFiles })

def sysClose (s : State) (fd : Int) : Int × State :=
  match findOpenFileByFd s fd with
  | none => (-1, s)
  | some _ => (0, { s with openFiles := s.openFiles.eraseP (fun f => f.fd = fd) })

def sysUnlink (fs : Fat16) (s : State) (pathname : CharPtr) : Option (Int × State) := do
  match findOpenFile s pathname with
  | some _ => return (-1, s)
  | none =>
    if CharPtr.at pathname 0 ≠ slash then return (-1, s)
    else
      match ← findFile fs s.disk (pathname.drop 1) (getRootDir fs s.disk) with
      | none => return (-1, s)
      | some file =>
        let e := { file.entry with filename := file.entry.filename.set 0 0xe5 }
        let (_, d) ← updateFileDetails fs s.disk pathname e file.entry.filename e.extension
        return (0, { s with disk := d })

/-- The offset that `sys_lseek` sets; the sum wraps round. -/
def seekOffset (f : OpenFile) (offset : Nat) (whence : Int) : Option Nat :=
  if whence = seekSet then some offset
  else if whence = seekCur then some ((f.offset + offset) % 2 ^ 32)
  else if whence = seekEnd then some ((f.directoryEntry.fileSizeBytes + offset) % 2 ^ 32)
  else none

def sysLseek (s : State) (fd : Int) (offset : Nat) (whence : Int) : Int × State :=
  match findOpenFileByFd s fd with
  | none => (-1, s)
  | some f =>
    match seekOffset f offset whence with
    | none => (-1, s)
    | some o => (0, { s with
        openFiles := updateOpenFile fd (fun f => { f with offset := o }) s.openFiles })

/-- The return value and the caller's buffer. -/
def sysFstat (s : State) (fd : Int) (buf : DirEntry) : Int × DirEntry :=
  match findOpenFileByFd s fd with
  | some file => (0, file.directoryEntry)
  | none => (-1, buf)

/-- The listing of an open directory; the inner `none` is NULL. `max_num` is not read. -/
def sysGetdents (fs : Fat16) (s : State) (fd : Int) : Option (Option (List ListEntry)) :=
  match findOpenFileByFd s fd with
  | none => some none
  | some openDirectory =>
    if openDirectory.directoryEntry.firstCluster < 2 then some (some (getRootDir fs s.disk))
    else getDir fs s.disk openDirectory.directoryEntry

def sysMkdir (fs : Fat16) (s : State) (path : CharPtr) : Option (Int × State) := do
  if CharPtr.at path 0 ≠ slash then return (-1, s)
  else if CharPtr.at path 1 = 0 then return (-1, s)
  else
    match ← findFile fs s.disk (path.drop 1) (getRootDir fs s.disk) with
    | some _ => return (-1, s)
    | none =>
      let (result, d) ← createNewFile fs s.disk path 0x10
      return (result, { s with disk := d })

/-- The calls that the runs below are made of. The numbers are registers. -/
inductive Call where
  | openCall (pathname : CharPtr) (flags : UInt32)
  | mkdir (path : CharPtr)
  | write (fd : Int) (buf : Buffer) (nbytes : UInt32)
  | read (fd : Int) (buf : Buffer) (nbytes : UInt32)
  | lseek (fd : Int) (offset : UInt32) (whence : Int)
  | close (fd : Int)
  | unlink (pathname : CharPtr)

/-- One system call, with its return value. -/
def call (fs : Fat16) (s : State) : Call → Option (Int × State)
  | .openCall pathname flags => sysOpen fs s pathname flags.toNat
  | .mkdir path => sysMkdir fs s path
  | .write fd buf nbytes => sysWrite fs s fd buf nbytes.toNat
  | .read fd buf nbytes =>
    some ((sysRead fs s fd buf nbytes.toNat).1, (sysRead fs s fd buf nbytes.toNat).2.2)
  | .lseek fd offset whence => some (sysLseek s fd offset.toNat whence)
  | .close fd => some (sysClose s fd)
  | .unlink pathname => sysUnlink fs s pathname

def step (fs : Fat16) (s : State) (c : Call) : Option State := (call fs s c).map Prod.snd

/-- What `sys_open` does. A file that is made is looked for once more. -/
inductive OpenEffect (fs : Fat16) (s : State) (pathname : CharPtr) (flags : Nat) :
    Int → State → Prop
  | known {f : OpenFile} (known : findOpenFile s pathname = some f) :
      OpenEffect fs s pathname flags f.fd (finishOpen s f flags).2
  | opened {f : OpenFile} {t : State} (unknown : findOpenFile s pathname = none)
      (found : openFile fs s pathname = some (some f, t)) :
      OpenEffect fs s pathname flags f.fd (finishOpen t f flags).2
  | missing (missing : openFile fs s pathname = some (none, s)) (flag : flags &&& oCreat = 0) :
      OpenEffect fs s pathname flags (-1) s
  | failed {result : Int} {d : Disk} (unknown : findOpenFile s pathname = none)
      (missing : openFile fs s pathname = some (none, s)) (flag : flags &&& oCreat ≠ 0)
      (made : createNewFile fs s.disk pathname 0x0 = some (result, d))
      (lost : result = -1 ∨
        openFile fs { s with disk := d } pathname = some (none, { s with disk := d })) :
      OpenEffect fs s pathname flags (-1) { s with disk := d }
  | made {result : Int} {d : Disk} {f : OpenFile} {t : State}
      (unknown : findOpenFile s pathname = none)
      (missing : openFile fs s pathname = some (none, s)) (flag : flags &&& oCreat ≠ 0)
      (made : createNewFile fs s.disk pathname 0x0 = some (result, d))
      (found : openFile fs { s with disk := d } pathname = some (some f, t)) :
      OpenEffect fs s pathname flags f.fd (finishOpen t f flags).2

/-- What `sys_read` and `sys_lseek` do: they leave the disk alone and move one offset at most. -/
inductive OffsetEffect (s : State) (fd : Int) : State → Prop
  | kept {t : State} (disk : t.disk = s.disk) (files : t.openFiles = s.openFiles)
      (next : t.nextFd = s.nextFd) : OffsetEffect s fd t
  | moved {f : OpenFile} {o : OpenFile → Nat} (found : findOpenFileByFd s fd = some f)
      (bound : ∀ f, o f < 2 ^ 32) : OffsetEffect s fd { s with
        openFiles := updateOpenFile fd (fun f => { f with offset := o f }) s.openFiles }

section Effects
variable {fs : Fat16} {s t : State}

/-- `open_file` makes no record, or one of the root directory or of the file that it finds. -/
theorem openFile_cases {pathname : CharPtr} {r : Option OpenFile}
    (h : openFile fs s pathname = some (r, t)) :
    (r = none ∧ t = s) ∨ ∃ e, r = some ⟨s.nextFd, e, pathname, 0, false⟩ ∧
      t = { s with
        openFiles := s.openFiles ++ [⟨s.nextFd, e, pathname, 0, false⟩]
        nextFd := s.nextFd + 1 } ∧
      (isSubdirectory e.attributes ∨ ∃ file, e = file.entry ∧
        findFile fs s.disk (pathname.drop 1) (getRootDir fs s.disk) = some (some file)) := by
  unfold openFile at h
  split_ifs at h
  · obtain ⟨rfl, rfl⟩ := Prod.mk.inj (Option.some.inj h)
    exact Or.inl ⟨rfl, rfl⟩
  · obtain ⟨rfl, rfl⟩ := Prod.mk.inj (Option.some.inj h)
    exact Or.inr ⟨_, rfl, rfl, Or.inl (show isSubdirectory 0x10 = true by decide)⟩
  · obtain ⟨found, hf, h⟩ := Option.bind_eq_some_iff.mp h
    cases found with
    | none =>
      obtain ⟨rfl, rfl⟩ := Prod.mk.inj (Option.some.inj h)
      exact Or.inl ⟨rfl, rfl⟩
    | some file =>
      obtain ⟨rfl, rfl⟩ := Prod.mk.inj (Option.some.inj h)
      exact Or.inr ⟨_, rfl, rfl, Or.inr ⟨file, rfl, hf⟩⟩

theorem openFile_some {pathname : CharPtr} {f : OpenFile}
    (h : openFile fs s pathname = some (some f, t)) :
    ∃ e, f = ⟨s.nextFd, e, pathname, 0, false⟩ ∧ t = { s with
      openFiles := s.openFiles ++ [⟨s.nextFd, e, pathname, 0, false⟩]
      nextFd := s.nextFd + 1 } := by
  obtain ⟨he, -⟩ | ⟨e, he, ht, -⟩ := openFile_cases h
  · cases he
  · exact ⟨e, Option.some.inj he, ht⟩

theorem openFile_none {pathname : CharPtr} (h : openFile fs s pathname = some (none, t)) :
    t = s :=
  (openFile_cases h).elim And.right fun ⟨_, he, _⟩ => nomatch he

theorem sysOpen_effect {pathname : CharPtr} {flags : Nat} {r : Int}
    (h : sysOpen fs s pathname flags = some (r, t)) : OpenEffect fs s pathname flags r t := by
  unfold sysOpen at h
  cases hf : findOpenFile s pathname with
  | some f =>
    rw [hf] at h
    obtain ⟨rfl, rfl⟩ := Prod.mk.inj (Option.some.inj h)
    exact .known hf
  | none =>
    rw [hf] at h
    obtain ⟨⟨found, s₁⟩, ho, h₁⟩ := Option.bind_eq_some_iff.mp h
    cases found with
    | some f =>
      obtain ⟨rfl, rfl⟩ := Prod.mk.inj (Option.some.inj h₁)
      exact .opened hf ho
    | none =>
      obtain rfl := openFile_none ho
      by_cases hc : flags &&& oCreat = 0
      · simp only [hc, if_true] at h₁
        obtain ⟨rfl, rfl⟩ := Prod.mk.inj (Option.some.inj h₁)
        exact .missing ho hc
      · simp only [hc, if_false] at h₁
        obtain ⟨⟨result, d⟩, hm, h₂⟩ := Option.bind_eq_some_iff.mp h₁
        by_cases hr : result = -1
        · simp only [hr, if_true] at h₂
          obtain ⟨rfl, rfl⟩ := Prod.mk.inj (Option.some.inj h₂)
          exact .failed hf ho hc hm (Or.inl hr)
        · simp only [hr, if_false] at h₂
          obtain ⟨⟨found, s₂⟩, ho₂, h₃⟩ := Option.bind_eq_some_iff.mp h₂
          cases found with
          | some f =>
            obtain ⟨rfl, rfl⟩ := Prod.mk.inj (Option.some.inj h₃)
            exact .made hf ho hc hm ho₂
          | none =>
            obtain rfl := openFile_none ho₂
            obtain ⟨rfl, rfl⟩ := Prod.mk.inj (Option.some.inj h₃)
            exact .failed hf ho hc hm (Or.inr ho₂)

/-- `sys_mkdir` changes nothing, or it makes a directory where nothing is found. -/
theorem sysMkdir_cases {path : CharPtr} {r : Int} (h : sysMkdir fs s path = some (r, t)) :
    t = s ∨ CharPtr.at path 0 = slash ∧ CharPtr.at path 1 ≠ 0 ∧
      findFile fs s.disk (path.drop 1) (getRootDir fs s.disk) = some none ∧
      ∃ d, createNewFile fs s.disk path 0x10 = some (r, d) ∧ t = { s with disk := d } := by
  unfold sysMkdir at h
  split_ifs at h with h₀ h₁
  · obtain ⟨-, rfl⟩ := Prod.mk.inj (Option.some.inj h)
    exact Or.inl rfl
  · obtain ⟨-, rfl⟩ := Prod.mk.inj (Option.some.inj h)
    exact Or.inl rfl
  · obtain ⟨found, hf, h⟩ := Option.bind_eq_some_iff.mp h
    cases found with
    | some file =>
      obtain ⟨-, rfl⟩ := Prod.mk.inj (Option.some.inj h)
      exact Or.inl rfl
    | none =>
      obtain ⟨⟨result, d⟩, hm, h⟩ := Option.bind_eq_some_iff.mp h
      obtain ⟨rfl, rfl⟩ := Prod.mk.inj (Option.some.inj h)
      exact Or.inr ⟨not_not.mp h₀, h₁, hf, d, hm, rfl⟩

variable (fs s) in
theorem sysRead_effect (fd : Int) (buf : Buffer) (nbytes : Nat) :
    OffsetEffect s fd (sysRead fs s fd buf nbytes).2.2 := by
  unfold sysRead
  split_ifs
  · exact .kept rfl rfl rfl
  · cases hf : findOpenFileByFd s fd with
    | none => exact .kept rfl rfl rfl
    | some f =>
      dsimp only
      split_ifs
      · exact .kept rfl rfl rfl
      · exact .kept rfl rfl rfl
      · exact .moved hf fun _ => Nat.mod_lt _ (by decide)

theorem seekOffset_lt {f : OpenFile} {offset : UInt32} {whence : Int} {o : Nat}
    (h : seekOffset f offset.toNat whence = some o) : o < 2 ^ 32 := by
  unfold seekOffset at h
  split_ifs at h
  · obtain rfl := Option.some.inj h
    exact offset.toNat_lt
  · obtain rfl := Option.some.inj h
    exact Nat.mod_lt _ (by decide)
  · obtain rfl := Option.some.inj h
    exact Nat.mod_lt _ (by decide)

variable (s) in
theorem sysLseek_effect (fd : Int) (offset : UInt32) (whence : Int) :
    OffsetEffect s fd (sysLseek s fd offset.toNat whence).2 := by
  unfold sysLseek
  cases hf : findOpenFileByFd s fd with
  | none => exact .kept rfl rfl rfl
  | some f =>
    dsimp only
    cases ho : seekOffset f offset.toNat whence with
    | none => exact .kept rfl rfl rfl
    | some o => exact .moved hf fun _ => seekOffset_lt ho

theorem OffsetEffect.disk_eq {fd : Int} (h : OffsetEffect s fd t) : t.disk = s.disk := by
  cases h with
  | kept disk => exact disk
  | moved => rfl

end Effects
end MalapropOS.Fat
