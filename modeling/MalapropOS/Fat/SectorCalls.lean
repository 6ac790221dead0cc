import MalapropOS.Fat.Sectors
import MalapropOS.Fat.Syscalls

/-! The upper half of `file.c` with its sector reads and writes, up to the system calls. -/
namespace MalapropOS.Fat
open Requests

/-- What the system calls keep in memory. -/
structure Tables where
  openFiles : List OpenFile
  nextFd : Int
  stdinBuffer : List UInt8

abbrev Tables.on (t : Tables) (d : Disk) : State := ⟨d, t.openFiles, t.nextFd, t.stdinBuffer⟩

def State.tables (s : State) : Tables := ⟨s.openFiles, s.nextFd, s.stdinBuffer⟩

/-- Calls one after the other, with their return values. -/
def callAll (fs : Fat16) (s : State) : List Call → Option (List Int × State)
  | [] => some ([], s)
  | c :: cs => do
    let r ← call fs s c
    let rs ← callAll fs r.2 cs
    return (r.1 :: rs.1, rs.2)

namespace Code

section Directories
variable (fs : Fat16)

/-- The `while` loop over the clusters of a directory, with `current_cluster`. -/
def searchDirectory (find : Buffer → Option Nat) : Nat → Nat → Buffer →
    Code (Nat × Buffer × Option Nat)
  | 0, _, _ => failure
  | fuel + 1, c, currentCluster => do
    let currentCluster ← loadCluster fs c currentCluster
    match find currentCluster with
    | some i => return (c, currentCluster, some i)
    | none =>
      let next ← getSuccessorCluster fs c
      if next < 0x0002 ∨ next > 0x0fef then return (c, currentCluster, none)
      else searchDirectory find fuel next currentCluster

def searchRoot (find : Buffer → Option Nat) : Nat → Nat → Buffer →
    Code (Nat × Buffer × Option Nat)
  | 0, _, _ => failure
  | fuel + 1, s, currentSector => do
    let currentSector ← diskRd s currentSector 0 fs.bytesPerSector
    match find currentSector with
    | some i => return (s, currentSector, some i)
    | none =>
      let next := (s + 1) % 2 ^ 16
      let regions := calculateRegions fs
      if next > regions.rootDirectoryRegionStart + regions.rootDirectoryRegionSize then
        return (s, currentSector, none)
      else searchRoot find fuel next currentSector

def searchRootDirectory (find : Buffer → Option Nat) : Code (Nat × Buffer × Option Nat) :=
  searchRoot fs find walkFuel ((calculateRegions fs).rootDirectoryRegionStart % 2 ^ 16) zeroBuffer

def addRootDirectoryEntry (e : DirEntry) : Code Int := do
  match ← searchRootDirectory fs (findFirstFreeSpace (sectorEntries fs)) with
  | (s, currentSector, some i) =>
    diskWr s (storeEntry currentSector i e (newFirstByte e)) 0 fs.bytesPerSector
    return 0
  | (_, _, none) => return -1

def addDirectoryEntry (dirCluster : Nat) (e : DirEntry) : Code Int := do
  match ← searchDirectory fs (findFirstFreeSpace (clusterEntries fs)) walkFuel dirCluster
      zeroBuffer with
  | (c, currentCluster, some i) =>
    writeCluster fs c (storeEntry currentCluster i e (newFirstByte e))
    return 0
  | (c, currentCluster, none) =>
    let new ← findFirstFreeCluster fs
    if new < 2 then return -1
    else
      setSuccessorCluster fs c new
      writeCluster fs new (storeEntry currentCluster 0 e (newFirstByte e))
      return 0

def updateRootDirectoryEntry (e : DirEntry) (oldFilename oldExtension : CharPtr) : Code Int := do
  match ← searchRootDirectory fs (findFileSlot (sectorEntries fs) oldFilename oldExtension) with
  | (s, currentSector, some i) =>
    diskWr s (storeEntry currentSector i e (CharPtr.at e.filename 0)) 0 fs.bytesPerSector
    return 0
  | (_, _, none) => return -1

def updateDirectoryEntry (dirCluster : Nat) (e : DirEntry) (oldFilename oldExtension : CharPtr) :
    Code Int := do
  match ← searchDirectory fs (findFileSlot (clusterEntries fs) oldFilename oldExtension) walkFuel
      dirCluster zeroBuffer with
  | (c, currentCluster, some i) =>
    writeCluster fs c (storeEntry currentCluster i e (CharPtr.at e.filename 0))
    return 0
  | (_, _, none) => return -1

/-- The loop of `get_root_dir`. -/
def listRoot (currentSector : Buffer) : List Nat → Code (List ListEntry)
  | [] => return []
  | i :: is => do
    let s := 1 + fs.numSectorsPerFileAllocationTable * fs.numFileAllocationTables + i
    let currentSector ← diskRd s currentSector 0 fs.bytesPerSector
    let r := addSectorDirEntriesToList fs s currentSector 0
    if r.2 then return r.1
    else return r.1 ++ (← listRoot currentSector is)

def getRootDir : Code (List ListEntry) := listRoot fs zeroBuffer (List.range (numRootSectors fs))

/-- The clusters of `get_dir` from `c` on. The next one is looked up before the flag is tested. -/
def listChain : Nat → Nat → Buffer → Code (List ListEntry)
  | 0, _, _ => failure
  | fuel + 1, c, currentCluster => do
    if InChain c then
      let currentCluster ← loadCluster fs c currentCluster
      let r := listSectors (fun i => addSectorDirEntriesToList fs (clusterSector fs c i)
        currentCluster (i * fs.bytesPerSector)) (List.range fs.sectorsPerCluster)
      let next ← getSuccessorCluster fs c
      if r.2 then return r.1
      else return r.1 ++ (← listChain fuel next currentCluster)
    else return []

def getDir (e : DirEntry) : Code (Option (List ListEntry)) := do
  if isSubdirectory e.attributes then return some (← listChain fs walkFuel e.firstCluster zeroBuffer)
  else return none

def resolveFuel (last inner : CharPtr → DirEntry → Bool) :
    Nat → CharPtr → List ListEntry → Code (Option ListEntry)
  | 0, _, _ => return none
  | fuel + 1, pathname, dir =>
    match splitPath pathname with
    | [] => return none
    | [part] => return dir.find? fun f => last part f.entry
    | part :: _ :: _ =>
      dir.foldlM (fun result f => do
        if inner part f.entry then
          match ← getDir fs f.entry with
          | none => return result
          | some nextDir => resolveFuel last inner fuel (descendPath pathname) nextDir
        else return result) none

def findFile (pathname : CharPtr) (dir : List ListEntry) : Code (Option ListEntry) :=
  resolveFuel fs (fun part e => entryNamed (splitFilename part) e)
    (fun part e => isSubdirectory e.attributes ∧ entryNamed (splitFilename part) e)
    (pathname.length + 1) pathname dir

def findDir (pathname : CharPtr) (dir : List ListEntry) : Code (Option ListEntry) :=
  resolveFuel fs
    (fun part e => isSubdirectory e.attributes ∧
      stdstringCompare (splitFilename part).name e.filename = 0)
    (fun part e => isSubdirectory e.attributes ∧ stdstringCompare part e.filename = 0)
    (pathname.length + 1) pathname dir

end Directories

section Calls
variable (fs : Fat16)

def insertOpenFile (t : Tables) (e : DirEntry) (pathname : CharPtr) : OpenFile × Tables :=
  let f : OpenFile := ⟨t.nextFd, e, pathname, 0, false⟩
  (f, { t with openFiles := t.openFiles ++ [f], nextFd := t.nextFd + 1 })

def openFile (t : Tables) (pathname : CharPtr) : Code (Option OpenFile × Tables) := do
  let rootDir ← getRootDir fs
  if CharPtr.at pathname 0 ≠ slash then return (none, t)
  else if CharPtr.at pathname 1 = 0 then
    let (f, t) := insertOpenFile t (rootEntry fs) pathname
    return (some f, t)
  else
    match ← findFile fs (pathname.drop 1) rootDir with
    | none => return (none, t)
    | some file =>
      let (f, t) := insertOpenFile t file.entry pathname
      return (some f, t)

def newFile (pathname : CharPtr) (attributes : UInt8) : Code DirEntry := do
  return {
    filename := padName (splitFilename (toFilename pathname)).name 8
    extension := padName (splitFilename (toFilename pathname)).extension 3
    attributes := attributes
    firstCluster := ← findFirstFreeCluster fs
    fileSizeBytes := 0 }

def addToDirectory (dirPath : CharPtr) (e : DirEntry) : Code Int := do
  let rootDir ← getRootDir fs
  if CharPtr.at dirPath 0 = 0 then addRootDirectoryEntry fs e
  else
    match ← findDir fs dirPath rootDir with
    | none => return -1
    | some dir => addDirectoryEntry fs dir.entry.firstCluster e

def createNewFile (pathname : CharPtr) (attributes : UInt8) : Code Int := do
  let e ← newFile fs pathname attributes
  let result ← addToDirectory fs (toDirectory pathname) e
  if result ≠ 0 then return -1
  else
    setSuccessorCluster fs e.firstCluster 0xFFFF
    return 0

def updateFileDetails (pathname : CharPtr) (updatedEntry : DirEntry)
    (oldFilename oldExtension : CharPtr) : Code Int := do
  let rootDir ← getRootDir fs
  if CharPtr.at pathname 0 ≠ slash then return -1
  else
    let strippedPathname := pathname.drop 1
    let dirPath := toDirectory strippedPathname
    match ← findFile fs strippedPathname rootDir with
    | none => return -1
    | some _ =>
      if CharPtr.at dirPath 0 = 0 then
        updateRootDirectoryEntry fs updatedEntry oldFilename oldExtension
      else
        match ← findDir fs dirPath rootDir with
        | none => return -1
        | some dir =>
          updateDirectoryEntry fs dir.entry.firstCluster updatedEntry oldFilename oldExtension

/-- The end of `sys_open`. -/
def finishOpen (t : Tables) (f : OpenFile) (flags : Nat) : Int × Tables :=
  (f.fd, { t with
    openFiles := updateOpenFile f.fd (fun f => { f with append := flags &&& oAppend ≠ 0 })
      t.openFiles })

def sysOpen (t : Tables) (pathname : CharPtr) (flags : Nat) : Code (Int × Tables) := do
  match t.openFiles.find? fun f => stdstringCompare f.path pathname = 0 with
  | some f => return finishOpen t f flags
  | none =>
    match ← openFile fs t pathname with
    | (some f, t) => return finishOpen t f flags
    | (none, t) =>
      if flags &&& oCreat = 0 then return (-1, t)
      else
        let result ← createNewFile fs pathname 0x0
        if result = -1 then return (-1, t)
        else
          match ← openFile fs t pathname with
          | (some f, t) => return finishOpen t f flags
          | (none, t) => return (-1, t)

def writeAtOffset (t : Tables) (f : OpenFile) (buf : Buffer) (nbytes : Nat) :
    Code (Int × Tables) := do
  let n ← writeToFile fs f.directoryEntry.firstCluster f.offset buf nbytes
  if toInt32 n < 0 then
    return (-1, { t with openFiles := updateOpenFile f.fd (fun _ => f) t.openFiles })
  else
    let sum := (f.offset + n) % 2 ^ 32
    if sum > f.directoryEntry.fileSizeBytes then
      let e := { f.directoryEntry with fileSizeBytes := sum }
      let _ ← updateFileDetails fs f.path e e.filename e.extension
      return (n, { t with
        openFiles := updateOpenFile f.fd (fun _ => { f with directoryEntry := e, offset := sum })
          t.openFiles })
    else
      return (n, { t with
        openFiles := updateOpenFile f.fd (fun _ => { f with offset := sum }) t.openFiles })

def sysWrite (t : Tables) (fd : Int) (buf : Buffer) (nbytes : Nat) : Code (Int × Tables) := do
  if fd = stdoutFiledesc then return (toInt32 nbytes, t)
  else
    match t.openFiles.find? fun f => f.fd = fd with
    | none => return (-1, t)
    | some f =>
      if isSubdirectory f.directoryEntry.attributes then return (-1, t)
      else writeAtOffset fs t (settleOffset f) buf nbytes

def sysRead (t : Tables) (fd : Int) (buf : Buffer) (nbytes : Nat) :
    Code (Int × Buffer × Tables) := do
  if fd = stdinFiledesc then
    return (toInt32 nbytes, stdmemCopy buf 0 (fun i => t.stdinBuffer.getD i 0xff) 0 nbytes,
      { t with stdinBuffer := t.stdinBuffer.drop nbytes })
  else
    match t.openFiles.find? fun f => f.fd = fd with
    | none => return (-1, buf, t)
    | some f =>
      if f.directoryEntry.firstCluster < 2 then return (-1, buf, t)
      else
        let (buf, n) ← readFromFile fs f.directoryEntry.firstCluster f.offset buf nbytes
        if toInt32 n < 0 then return (-1, buf, t)
        else return (n, buf, { t with
          openFiles := updateOpenFile fd (fun f => { f with offset := (f.offset + n) % 2 ^ 32 })
            t.openFiles })

def sysUnlink (t : Tables) (pathname : CharPtr) : Code (Int × Tables) := do
  match t.openFiles.find? fun f => stdstringCompare f.path pathname = 0 with
  | some _ => return (-1, t)
  | none =>
    if CharPtr.at pathname 0 ≠ slash then return (-1, t)
    else
      match ← findFile fs (pathname.drop 1) (← getRootDir fs) with
      | none => return (-1, t)
      | some file =>
        let e := { file.entry with filename := file.entry.filename.set 0 0xe5 }
        let _ ← updateFileDetails fs pathname e file.entry.filename e.extension
        return (0, t)

def sysMkdir (t : Tables) (path : CharPtr) : Code (Int × Tables) := do
  let rootDir ← getRootDir fs
  if CharPtr.at path 0 ≠ slash then return (-1, t)
  else if CharPtr.at path 1 = 0 then return (-1, t)
  else
    match ← findFile fs (path.drop 1) rootDir with
    | some _ => return (-1, t)
    | none =>
      let result ← createNewFile fs path 0x10
      return (result, t)

/-- A system call. Those on descriptors alone make no sector calls. -/
def call (t : Tables) : Call → Code (Int × Tables)
  | .openCall pathname flags => sysOpen fs t pathname flags.toNat
  | .mkdir path => sysMkdir fs t path
  | .write fd buf nbytes => sysWrite fs t fd buf nbytes.toNat
  | .read fd buf nbytes => do
    let r ← sysRead fs t fd buf nbytes.toNat
    return (r.1, r.2.2)
  | .lseek fd offset whence =>
    let r := sysLseek (t.on fun _ => zeroBuffer) fd offset.toNat whence
    return (r.1, r.2.tables)
  | .close fd =>
    let r := sysClose (t.on fun _ => zeroBuffer) fd
    return (r.1, r.2.tables)
  | .unlink pathname => sysUnlink fs t pathname

def callAll (t : Tables) : List Call → Code (List Int × Tables)
  | [] => return ([], t)
  | c :: cs => do
    let r ← call fs t c
    let rs ← callAll r.2 cs
    return (r.1 :: rs.1, rs.2)

end Calls

section DirectoryRefinement
variable {fs : Fat16} (d : Disk)

theorem run_searchDirectory (find : Buffer → Option Nat) (fuel c : Nat) {x : Buffer}
    (hx : BlankFrom (bytesPerCluster fs) x) :
    run onDisk (searchDirectory fs find fuel c x) d =
      (Fat.searchDirectory fs d find fuel c).map fun r =>
        ((r.1, Fat.loadCluster fs d r.1, r.2), d) := by
  induction fuel generalizing c x with
  | zero => rfl
  | succ fuel ih =>
    rw [searchDirectory, Fat.searchDirectory]
    refine run_seq (run_loadCluster d hx c) ?_
    cases find (Fat.loadCluster fs d c) with
    | some i => rfl
    | none =>
      refine run_seq (run_getSuccessorCluster d c) ?_
      simp only
      split
      · rfl
      · exact ih _ (blankFrom_loadCluster d c)

theorem run_searchRoot (find : Buffer → Option Nat) (fuel s : Nat) {x : Buffer}
    (hx : BlankFrom fs.bytesPerSector x) :
    run onDisk (searchRoot fs find fuel s x) d =
      (Fat.searchRoot fs d find fuel s).map fun r =>
        ((r.1, Fat.diskRd d r.1 zeroBuffer 0 fs.bytesPerSector, r.2), d) := by
  induction fuel generalizing s x with
  | zero => rfl
  | succ fuel ih =>
    have hblank := blankFrom_diskRd d hx (Nat.zero_add _).le s
    rw [searchRoot, Fat.searchRoot]
    refine run_seq (run_diskRd d s x 0 _) ?_
    rw [diskRd_over d hx] at hblank ⊢
    cases find (Fat.diskRd d s zeroBuffer 0 fs.bytesPerSector) with
    | some i => rfl
    | none =>
      simp only
      split
      · rfl
      · exact ih _ hblank

theorem run_searchRootDirectory (find : Buffer → Option Nat) :
    run onDisk (searchRootDirectory fs find) d =
      (Fat.searchRootDirectory fs d find).map fun r =>
        ((r.1, Fat.diskRd d r.1 zeroBuffer 0 fs.bytesPerSector, r.2), d) :=
  run_searchRoot d find _ _ blankFrom_zero

theorem run_addRootDirectoryEntry (e : DirEntry) :
    run onDisk (addRootDirectoryEntry fs e) d = Fat.addRootDirectoryEntry fs d e := by
  rw [addRootDirectoryEntry, run_bind, run_searchRootDirectory, Fat.addRootDirectoryEntry]
  cases Fat.searchRootDirectory fs d (findFirstFreeSpace (sectorEntries fs)) with
  | none => rfl
  | some r =>
    obtain ⟨s, _ | i⟩ := r
    · rfl
    · rfl

theorem run_addDirectoryEntry (c : Nat) (e : DirEntry) :
    run onDisk (addDirectoryEntry fs c e) d = Fat.addDirectoryEntry fs d c e := by
  rw [addDirectoryEntry, run_bind, run_searchDirectory d _ _ _ blankFrom_zero,
    Fat.addDirectoryEntry]
  cases Fat.searchDirectory fs d (findFirstFreeSpace (clusterEntries fs)) walkFuel c with
  | none => rfl
  | some r =>
    obtain ⟨a, _ | i⟩ := r
    · refine run_seq (run_findFirstFreeCluster d) ?_
      simp only [Option.bind_eq_bind, Option.bind_some]
      split
      · rfl
      · exact run_seq (run_setSuccessorCluster d a _) (run_seq (run_writeCluster _ _ _) rfl)
    · exact run_seq (run_writeCluster d a _) rfl

theorem run_updateRootDirectoryEntry (e : DirEntry) (oldFilename oldExtension : CharPtr) :
    run onDisk (updateRootDirectoryEntry fs e oldFilename oldExtension) d =
      Fat.updateRootDirectoryEntry fs d e oldFilename oldExtension := by
  rw [updateRootDirectoryEntry, run_bind, run_searchRootDirectory, Fat.updateRootDirectoryEntry]
  cases Fat.searchRootDirectory fs d
      (findFileSlot (sectorEntries fs) oldFilename oldExtension) with
  | none => rfl
  | some r =>
    obtain ⟨s, _ | i⟩ := r
    · rfl
    · rfl

theorem run_updateDirectoryEntry (c : Nat) (e : DirEntry) (oldFilename oldExtension : CharPtr) :
    run onDisk (updateDirectoryEntry fs c e oldFilename oldExtension) d =
      Fat.updateDirectoryEntry fs d c e oldFilename oldExtension := by
  rw [updateDirectoryEntry, run_bind, run_searchDirectory d _ _ _ blankFrom_zero,
    Fat.updateDirectoryEntry]
  cases Fat.searchDirectory fs d
      (findFileSlot (clusterEntries fs) oldFilename oldExtension) walkFuel c with
  | none => rfl
  | some r =>
    obtain ⟨a, _ | i⟩ := r
    · rfl
    · exact run_seq (run_writeCluster d a _) rfl

theorem run_listRoot {x : Buffer} (hx : BlankFrom fs.bytesPerSector x) (is : List Nat) :
    run onDisk (listRoot fs x is) d = some ((listSectors (fun i =>
      let s := 1 + fs.numSectorsPerFileAllocationTable * fs.numFileAllocationTables + i
      addSectorDirEntriesToList fs s (Fat.diskRd d s zeroBuffer 0 fs.bytesPerSector) 0) is).1, d) := by
  induction is generalizing x with
  | nil => rfl
  | cons i is ih =>
    have hblank := blankFrom_diskRd d hx (Nat.zero_add _).le
      (1 + fs.numSectorsPerFileAllocationTable * fs.numFileAllocationTables + i)
    rw [listRoot, listSectors]
    refine run_seq (run_diskRd d _ x 0 _) ?_
    rw [diskRd_over d hx] at hblank ⊢
    simp only
    split
    · rfl
    · exact run_seq (ih hblank) rfl

theorem run_getRootDir : run onDisk (getRootDir fs) d = some (Fat.getRootDir fs d, d) :=
  run_listRoot d blankFrom_zero _

theorem run_listChain (fuel c : Nat) {x : Buffer} (hx : BlankFrom (bytesPerCluster fs) x) :
    run onDisk (listChain fs fuel c x) d = (Fat.listChain fs d fuel c).map (·, d) := by
  induction fuel generalizing c x with
  | zero => rfl
  | succ fuel ih =>
    rw [listChain, Fat.listChain]
    by_cases hc : InChain c
    · rw [if_pos hc, if_pos hc]
      refine run_seq (run_loadCluster d hx c) (run_seq (run_getSuccessorCluster d c) ?_)
      rw [listCluster]
      split
      · rfl
      · rw [run_read (ih _ (blankFrom_loadCluster d c)), Option.map_map,
          Option.map_eq_bind]
        rfl
    · rw [if_neg hc, if_neg hc]
      rfl

theorem run_getDir (e : DirEntry) :
    run onDisk (getDir fs e) d = (Fat.getDir fs d e).map (·, d) := by
  rw [getDir, Fat.getDir]
  split
  · rw [run_read (run_listChain d _ _ blankFrom_zero), Option.map_map, Option.map_eq_bind]
    rfl
  · rfl

theorem run_resolveFuel (last inner : CharPtr → DirEntry → Bool) (fuel : Nat) (pathname : CharPtr)
    (dir : List ListEntry) : run onDisk (resolveFuel fs last inner fuel pathname dir) d =
      (Fat.resolveFuel fs d last inner fuel pathname dir).map (·, d) := by
  induction fuel generalizing pathname dir with
  | zero => rfl
  | succ fuel ih =>
    rw [resolveFuel, Fat.resolveFuel]
    rcases splitPath pathname with - | ⟨part, - | ⟨next, rest⟩⟩
    · rfl
    · rfl
    · refine run_foldlM (fun result f => ?_) dir none
      split
      · refine (run_read (run_getDir d f.entry) _).trans ?_
        refine (Option.bind_congr fun o _ => ?_).trans Option.map_bind.symm
        cases o with
        | none => rfl
        | some nextDir => exact ih _ _
      · rfl

theorem run_findFile (pathname : CharPtr) (dir : List ListEntry) :
    run onDisk (findFile fs pathname dir) d = (Fat.findFile fs d pathname dir).map (·, d) :=
  run_resolveFuel d _ _ _ _ _

theorem run_findDir (pathname : CharPtr) (dir : List ListEntry) :
    run onDisk (findDir fs pathname dir) d = (Fat.findDir fs d pathname dir).map (·, d) :=
  run_resolveFuel d _ _ _ _ _

end DirectoryRefinement

section CallRefinement
variable {fs : Fat16} (t : Tables) (d : Disk)

/-- A result of the volume's functions, with the disk taken out of the state. -/
def splitState {α : Type} (r : α × State) : (α × Tables) × Disk := ((r.1, r.2.tables), r.2.disk)

theorem run_openFile (pathname : CharPtr) : run onDisk (openFile fs t pathname) d =
    (Fat.openFile fs (t.on d) pathname).map splitState := by
  rw [openFile, Fat.openFile]
  refine run_seq (run_getRootDir d) ?_
  split
  · rfl
  · split
    · rfl
    · refine (run_read (run_findFile d _ _) _).trans ?_
      refine (Option.bind_congr fun o _ => ?_).trans Option.map_bind.symm
      cases o with
      | none => rfl
      | some file => rfl

theorem run_addToDirectory (dirPath : CharPtr) (e : DirEntry) :
    run onDisk (addToDirectory fs dirPath e) d = Fat.addToDirectory fs d dirPath e := by
  rw [addToDirectory, Fat.addToDirectory]
  refine run_seq (run_getRootDir d) ?_
  split
  · exact run_addRootDirectoryEntry d e
  · refine (run_read (run_findDir d _ _) _).trans (Option.bind_congr fun o _ => ?_)
    cases o with
    | none => rfl
    | some dir => exact run_addDirectoryEntry d _ e

theorem run_newFile (pathname : CharPtr) (attributes : UInt8) :
    run onDisk (newFile fs pathname attributes) d =
      some (Fat.newFile fs d pathname attributes, d) :=
  run_seq (run_findFirstFreeCluster d) rfl

theorem run_createNewFile (pathname : CharPtr) (attributes : UInt8) :
    run onDisk (createNewFile fs pathname attributes) d =
      Fat.createNewFile fs d pathname attributes := by
  rw [createNewFile, Fat.createNewFile]
  refine run_seq (run_newFile d pathname attributes) ?_
  rw [run_bind, run_addToDirectory]
  refine Option.bind_congr fun r _ => ?_
  obtain ⟨result, d'⟩ := r
  dsimp only
  split
  · rfl
  · exact run_seq (run_setSuccessorCluster _ _ _) rfl

theorem run_updateFileDetails (pathname : CharPtr) (e : DirEntry)
    (oldFilename oldExtension : CharPtr) :
    run onDisk (updateFileDetails fs pathname e oldFilename oldExtension) d =
      Fat.updateFileDetails fs d pathname e oldFilename oldExtension := by
  rw [updateFileDetails, Fat.updateFileDetails]
  refine run_seq (run_getRootDir d) ?_
  split
  · rfl
  · refine (run_read (run_findFile d _ _) _).trans (Option.bind_congr fun o _ => ?_)
    cases o with
    | none => rfl
    | some file =>
      dsimp only
      split
      · exact run_updateRootDirectoryEntry d e _ _
      · refine (run_read (run_findDir d _ _) _).trans (Option.bind_congr fun o _ => ?_)
        cases o with
        | none => rfl
        | some dir => exact run_updateDirectoryEntry d _ e _ _

/-- A step that is `open_file`, and what follows it. -/
theorem run_openFile_bind {α : Type} (pathname : CharPtr)
    (f : Option OpenFile × Tables → Code α) : run onDisk (openFile fs t pathname >>= f) d =
      (Fat.openFile fs (t.on d) pathname).bind fun r => run onDisk (f (r.1, r.2.tables)) r.2.disk := by
  rw [run_bind, run_openFile, Option.bind_map]
  rfl

theorem run_sysOpen (pathname : CharPtr) (flags : Nat) :
    run onDisk (sysOpen fs t pathname flags) d =
      (Fat.sysOpen fs (t.on d) pathname flags).map splitState := by
  rw [sysOpen, Fat.sysOpen, findOpenFile, show (t.on d).openFiles = t.openFiles from rfl]
  cases t.openFiles.find? fun f => stdstringCompare f.path pathname = 0 with
  | some f => rfl
  | none =>
    refine (run_openFile_bind t d pathname _).trans
      ((Option.bind_congr fun r _ => ?_).trans Option.map_bind.symm)
    obtain ⟨_ | f, s⟩ := r
    · dsimp only
      split
      · rfl
      · rw [run_bind, run_createNewFile]
        refine (Option.bind_congr fun r _ => ?_).trans Option.map_bind.symm
        obtain ⟨result, d'⟩ := r
        dsimp only [Function.comp_apply]
        split
        · rfl
        · refine (run_openFile_bind _ d' pathname _).trans
            ((Option.bind_congr fun r _ => ?_).trans Option.map_bind.symm)
          obtain ⟨_ | f, s'⟩ := r
          · rfl
          · rfl
    · rfl

theorem run_writeAtOffset (f : OpenFile) (buf : Buffer) (nbytes : Nat) :
    run onDisk (writeAtOffset fs t f buf nbytes) d =
      (Fat.writeAtOffset fs (t.on d) f buf nbytes).map splitState := by
  rw [writeAtOffset, Fat.writeAtOffset]
  refine run_seq (run_writeToFile d _ _ buf nbytes) ?_
  dsimp only [Tables.on]
  split
  · rfl
  · split
    · rw [run_bind, run_updateFileDetails]
      refine (Option.bind_congr fun r _ => ?_).trans Option.map_bind.symm
      rfl
    · rfl

theorem run_sysWrite (fd : Int) (buf : Buffer) (nbytes : Nat) :
    run onDisk (sysWrite fs t fd buf nbytes) d =
      (Fat.sysWrite fs (t.on d) fd buf nbytes).map splitState := by
  rw [sysWrite, Fat.sysWrite, findOpenFileByFd, show (t.on d).openFiles = t.openFiles from rfl]
  split
  · rfl
  · cases t.openFiles.find? fun f => f.fd = fd with
    | none => rfl
    | some f =>
      dsimp only
      split
      · rfl
      · exact run_writeAtOffset t d _ buf nbytes

theorem run_sysRead (fd : Int) (buf : Buffer) (nbytes : Nat) :
    run onDisk (sysRead fs t fd buf nbytes) d =
      (some (Fat.sysRead fs (t.on d) fd buf nbytes)).map fun r =>
        ((r.1, r.2.1, r.2.2.tables), r.2.2.disk) := by
  rw [sysRead, Fat.sysRead, findOpenFileByFd, show (t.on d).openFiles = t.openFiles from rfl]
  split
  · rfl
  · cases t.openFiles.find? fun f => f.fd = fd with
    | none => rfl
    | some f =>
      dsimp only
      split
      · rfl
      · refine run_seq (run_readFromFile d _ _ buf nbytes) ?_
        dsimp only [Tables.on]
        split
        · rfl
        · rfl

/-- The calls on descriptors leave the disk alone, and do not look at it. -/
theorem sysLseek_on (fd : Int) (offset : Nat) (whence : Int) :
    splitState (sysLseek (t.on d) fd offset whence) =
      (((sysLseek (t.on fun _ => zeroBuffer) fd offset whence).1,
        (sysLseek (t.on fun _ => zeroBuffer) fd offset whence).2.tables), d) := by
  simp only [sysLseek, findOpenFileByFd, Tables.on]
  cases t.openFiles.find? fun f => f.fd = fd with
  | none => rfl
  | some f =>
    dsimp only
    cases seekOffset f offset whence with
    | none => rfl
    | some o => rfl

theorem sysClose_on (fd : Int) : splitState (sysClose (t.on d) fd) =
    (((sysClose (t.on fun _ => zeroBuffer) fd).1,
      (sysClose (t.on fun _ => zeroBuffer) fd).2.tables), d) := by
  simp only [sysClose, findOpenFileByFd, Tables.on]
  cases t.openFiles.find? fun f => f.fd = fd with
  | none => rfl
  | some f => rfl

theorem run_sysUnlink (pathname : CharPtr) : run onDisk (sysUnlink fs t pathname) d =
    (Fat.sysUnlink fs (t.on d) pathname).map splitState := by
  rw [sysUnlink, Fat.sysUnlink, findOpenFile, show (t.on d).openFiles = t.openFiles from rfl]
  cases t.openFiles.find? fun f => stdstringCompare f.path pathname = 0 with
  | some f => rfl
  | none =>
    dsimp only
    split
    · rfl
    · refine run_seq (run_getRootDir d) ((run_read (run_findFile d _ _) _).trans
        ((Option.bind_congr fun o _ => ?_).trans Option.map_bind.symm))
      cases o with
      | none => rfl
      | some file =>
        dsimp only
        rw [run_bind, run_updateFileDetails]
        refine (Option.bind_congr fun r _ => ?_).trans Option.map_bind.symm
        rfl

theorem run_sysMkdir (path : CharPtr) : run onDisk (sysMkdir fs t path) d =
    (Fat.sysMkdir fs (t.on d) path).map splitState := by
  rw [sysMkdir, Fat.sysMkdir]
  refine run_seq (run_getRootDir d) ?_
  split
  · rfl
  · split
    · rfl
    · refine (run_read (run_findFile d _ _) _).trans
        ((Option.bind_congr fun o _ => ?_).trans Option.map_bind.symm)
      cases o with
      | some file => rfl
      | none =>
        dsimp only
        rw [run_bind, run_createNewFile]
        refine (Option.bind_congr fun r _ => ?_).trans Option.map_bind.symm
        rfl

/-- The calls with their sector reads and writes are the calls on the volume. -/
theorem run_call (c : Call) : run onDisk (call fs t c) d =
    (Fat.call fs (t.on d) c).map splitState := by
  cases c with
  | openCall pathname flags => exact run_sysOpen t d pathname _
  | mkdir path => exact run_sysMkdir t d path
  | write fd buf nbytes => exact run_sysWrite t d fd buf _
  | read fd buf nbytes => exact run_seq (run_sysRead t d fd buf _) rfl
  | lseek fd offset whence => exact congrArg some (sysLseek_on t d fd offset.toNat whence).symm
  | close fd => exact congrArg some (sysClose_on t d fd).symm
  | unlink pathname => exact run_sysUnlink t d pathname

theorem run_callAll (cs : List Call) :
    run onDisk (callAll fs t cs) d = (Fat.callAll fs (t.on d) cs).map splitState := by
  induction cs generalizing t d with
  | nil => rfl
  | cons c cs ih =>
    rw [callAll, Fat.callAll, run_bind, run_call, Option.bind_map]
    refine (Option.bind_congr fun r _ => ?_).trans Option.map_bind.symm
    rw [Function.comp_apply, run_bind, ih, Option.bind_map]
    refine (Option.bind_congr fun rs _ => ?_).trans Option.map_bind.symm
    rfl

end CallRefinement
end Code
end MalapropOS.Fat
