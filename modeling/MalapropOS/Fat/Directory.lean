import MalapropOS.Fat.Model

/-! Directories in `file.c`: the slots that are searched and written, the listings, and the
two resolvers of path names. A `char*` is the list of the bytes from there on: a string ends
at its first NUL, bytes may follow, and memory behind the list is zero. `char` is unsigned.
`none` stands for a walk along a chain that never ends. -/
namespace MalapropOS.Fat

abbrev CharPtr := List UInt8

def CharPtr.at (s : CharPtr) (i : Nat) : UInt8 := List.getD s i 0

/-- The string that starts at the pointer. -/
def cstr (s : CharPtr) : List UInt8 := s.takeWhile (· ≠ 0)

def slash : UInt8 := 0x2f
def dot : UInt8 := 0x2e

/-- `stdstring_compare`. -/
def stdstringCompare : CharPtr → CharPtr → Int
  | [], [] => 0
  | [], y :: _ => if y = 0 then 0 else -1
  | x :: _, [] => if x = 0 then 0 else 1
  | x :: xs, y :: ys =>
    if x = 0 ∧ y = 0 then 0
    else if x = 0 then -1
    else if y = 0 then 1
    else if x < y then -1
    else if y < x then 1
    else stdstringCompare xs ys

/-- `fat16_dir_entry_t`. The arrays have 9 and 4 bytes. -/
structure DirEntry where
  filename : List UInt8
  extension : List UInt8
  attributes : UInt8
  firstCluster : Nat
  fileSizeBytes : Nat
  deriving DecidableEq

/-- The bit that `unpack_file_attributes` reads for `is_subdirectory`. -/
def isSubdirectory (attributes : UInt8) : Bool := attributes &&& 0x10 ≠ 0

/-- A slot of 32 bytes: its sector and its first byte there. -/
structure Slot where
  sector : Nat
  index : Nat
  deriving DecidableEq

/-- A node of a listing. The slot is a history variable: no function reads it. -/
structure ListEntry where
  entry : DirEntry
  slot : Slot
  deriving DecidableEq

section Slots

/-- The byte that writing an entry puts at byte `k` of its slot, if it writes that byte. -/
def entryByte (e : DirEntry) (first : UInt8) (k : Nat) : Option UInt8 :=
  if k = 0 then some first
  else if k < 8 then some (CharPtr.at e.filename k)
  else if k < 0x0b then some (CharPtr.at e.extension (k - 0x08))
  else if k = 0x0b then some e.attributes
  else if k < 0x1a then none
  else if k < 0x1c then some (UInt8.ofNat (e.firstCluster / 256 ^ (k - 0x1a)))
  else if k < 0x20 then some (UInt8.ofNat (e.fileSizeBytes / 256 ^ (k - 0x1c)))
  else none

/-- The assignments that store an entry at `x[ i ]`. -/
def storeEntry (x : Buffer) (i : Nat) (e : DirEntry) (first : UInt8) : Buffer :=
  fun k => if i ≤ k then (entryByte e first (k - i)).getD (x k) else x k

/-- The first byte of the slot of a new entry. -/
def newFirstByte (e : DirEntry) : UInt8 :=
  if CharPtr.at e.filename 0 = 0xe5 then 0x05 else CharPtr.at e.filename 0

/-- `find_first_free_space_in_directory_cluster` and `.._in_root_directory_sector` are this
with their own number of entries; -1 is `none`. -/
def findFirstFreeSpace (numEntries : Nat) (x : Buffer) : Option Nat :=
  (List.range numEntries).findSome? fun i =>
    if x (i * 32) = 0x00 ∨ x (i * 32) = 0xe5 then some (i * 32) else none

/-- The loop over the name, from character `j` on. -/
def nameMatches (x : Buffer) (i : Nat) (filename : CharPtr) : List Nat → Bool
  | [] => true
  | j :: js =>
    if x (i * 32 + j) = 0x20 ∧ CharPtr.at filename j = 0 then true
    else x (i * 32 + j) = CharPtr.at filename j && nameMatches x i filename js

def extensionMatches (x : Buffer) (i : Nat) (extension : CharPtr) : Bool :=
  (List.range 3).all fun j => x (i * 32 + 0x8 + j) = CharPtr.at extension j

def slotMatches (x : Buffer) (i : Nat) (filename extension : CharPtr) : Bool :=
  nameMatches x i filename (List.range 8) && extensionMatches x i extension

/-- `find_file_in_directory_cluster` and `find_file_in_root_directory_sector`, likewise. -/
def findFileSlot (numEntries : Nat) (filename extension : CharPtr) (x : Buffer) : Option Nat :=
  (List.range numEntries).findSome? fun i =>
    if slotMatches x i filename extension then some (i * 32) else none

def clusterEntries (fs : Fat16) : Nat := bytesPerCluster fs / 32

def sectorEntries (fs : Fat16) : Nat := fs.bytesPerSector / 32

/-- More links than there are cluster numbers: a longer walk goes round for ever. -/
def walkFuel : Nat := 2 ^ 16 + 1

/-- The `while` loop of the functions that search a directory for a slot. The result is the
last cluster loaded, with the index of the slot if there is one. -/
def searchDirectory (fs : Fat16) (d : Disk) (find : Buffer → Option Nat) :
    Nat → Nat → Option (Nat × Option Nat)
  | 0, _ => none
  | fuel + 1, c =>
    match find (loadCluster fs d c) with
    | some i => some (c, some i)
    | none =>
      let next := getSuccessorCluster fs d c
      if next < 0x0002 ∨ next > 0x0fef then some (c, none) else searchDirectory fs d find fuel next

/-- The same loop over the root directory, whose sector number is `uint16_t`. It goes on up
to and with the sector behind the region. -/
def searchRoot (fs : Fat16) (d : Disk) (find : Buffer → Option Nat) :
    Nat → Nat → Option (Nat × Option Nat)
  | 0, _ => none
  | fuel + 1, s =>
    match find (diskRd d s zeroBuffer 0 fs.bytesPerSector) with
    | some i => some (s, some i)
    | none =>
      let next := (s + 1) % 2 ^ 16
      let regions := calculateRegions fs
      if next > regions.rootDirectoryRegionStart + regions.rootDirectoryRegionSize then
        some (s, none)
      else searchRoot fs d find fuel next

def searchRootDirectory (fs : Fat16) (d : Disk) (find : Buffer → Option Nat) :
    Option (Nat × Option Nat) :=
  searchRoot fs d find walkFuel ((calculateRegions fs).rootDirectoryRegionStart % 2 ^ 16)

/-- Load a sector, store the entry, write the sector back. -/
def storeInSector (fs : Fat16) (d : Disk) (s i : Nat) (e : DirEntry) (first : UInt8) : Disk :=
  diskWr d s (storeEntry (diskRd d s zeroBuffer 0 fs.bytesPerSector) i e first) 0 fs.bytesPerSector

def storeInCluster (fs : Fat16) (d : Disk) (c i : Nat) (e : DirEntry) (first : UInt8) : Disk :=
  writeCluster fs d c (storeEntry (loadCluster fs d c) i e first)

/-- The result is the return value and the disk. -/
def addRootDirectoryEntry (fs : Fat16) (d : Disk) (e : DirEntry) : Option (Int × Disk) := do
  match ← searchRootDirectory fs d (findFirstFreeSpace (sectorEntries fs)) with
  | (s, some i) => return (0, storeInSector fs d s i e (newFirstByte e))
  | (_, none) => return (-1, d)

/-- Behind the last cluster the buffer still holds that cluster, and it is written with the
entry in its first slot to the cluster that is added. -/
def addDirectoryEntry (fs : Fat16) (d : Disk) (dirCluster : Nat) (e : DirEntry) :
    Option (Int × Disk) := do
  match ← searchDirectory fs d (findFirstFreeSpace (clusterEntries fs)) walkFuel dirCluster with
  | (c, some i) => return (0, storeInCluster fs d c i e (newFirstByte e))
  | (c, none) =>
    let new := findFirstFreeCluster fs d
    if new < 2 then return (-1, d)
    else
      let d' := setSuccessorCluster fs d c new
      return (0, writeCluster fs d' new (storeEntry (loadCluster fs d c) 0 e (newFirstByte e)))

def updateRootDirectoryEntry (fs : Fat16) (d : Disk) (e : DirEntry)
    (oldFilename oldExtension : CharPtr) : Option (Int × Disk) := do
  match ← searchRootDirectory fs d (findFileSlot (sectorEntries fs) oldFilename oldExtension) with
  | (s, some i) => return (0, storeInSector fs d s i e (CharPtr.at e.filename 0))
  | (_, none) => return (-1, d)

def updateDirectoryEntry (fs : Fat16) (d : Disk) (dirCluster : Nat) (e : DirEntry)
    (oldFilename oldExtension : CharPtr) : Option (Int × Disk) := do
  match ← searchDirectory fs d (findFileSlot (clusterEntries fs) oldFilename oldExtension)
      walkFuel dirCluster with
  | (c, some i) => return (0, storeInCluster fs d c i e (CharPtr.at e.filename 0))
  | (_, none) => return (-1, d)

end Slots

section Listings

/-- The bytes of a name as a listing has them, padding removed. -/
def decodeChars (x : Buffer) (i n : Nat) : List UInt8 :=
  (List.range n).map fun k => if x (i + k) = 0x20 then 0 else x (i + k)

/-- The entry that a listing makes of the slot at `x[ i ]`. -/
def decodeEntry (x : Buffer) (i : Nat) : DirEntry where
  filename := (if x i = 0x05 then (decodeChars x i 8).set 0 0xe5 else decodeChars x i 8) ++ [0]
  extension := decodeChars x (i + 0x08) 3 ++ [0]
  attributes := x (i + 0x0b)
  firstCluster := (x (i + 0x1a)).toNat + (x (i + 0x1b)).toNat * 256
  fileSizeBytes := (x (i + 0x1c)).toNat + 256 * ((x (i + 0x1d)).toNat +
    256 * ((x (i + 0x1e)).toNat + 256 * (x (i + 0x1f)).toNat))

/-- The loop of `add_sector_dir_entries_to_list` over the slots `js` of sector `s`, which is
at `x[ at ]`. The flag is the return value: the entries end here. -/
def addSectorEntries (s : Nat) (x : Buffer) (i : Nat) : List Nat → List ListEntry × Bool
  | [] => ([], false)
  | j :: js =>
    if x (i + 32 * j) = 0x00 then ([], true)
    else if x (i + 32 * j) = 0xe5 then addSectorEntries s x i js
    else
      let r := addSectorEntries s x i js
      (⟨decodeEntry x (i + 32 * j), ⟨s, 32 * j⟩⟩ :: r.1, r.2)

def addSectorDirEntriesToList (fs : Fat16) (s : Nat) (x : Buffer) (i : Nat) :
    List ListEntry × Bool :=
  addSectorEntries s x i (List.range (sectorEntries fs))

/-- The sectors one after the other, until the entries end. -/
def listSectors (scan : Nat → List ListEntry × Bool) : List Nat → List ListEntry × Bool
  | [] => ([], false)
  | i :: is =>
    if (scan i).2 then ((scan i).1, true)
    else
      let r := listSectors scan is
      ((scan i).1 ++ r.1, r.2)

/-- `num_sectors`, an `int16_t`; the loop does not run when it is negative. -/
def numRootSectors (fs : Fat16) : Nat :=
  if fs.numRootDirectoryEntries / sectorEntries fs < 2 ^ 15 then
    fs.numRootDirectoryEntries / sectorEntries fs
  else 0

def getRootDir (fs : Fat16) (d : Disk) : List ListEntry :=
  let start := 1 + fs.numSectorsPerFileAllocationTable * fs.numFileAllocationTables
  (listSectors (fun i =>
    addSectorDirEntriesToList fs (start + i) (diskRd d (start + i) zeroBuffer 0 fs.bytesPerSector) 0)
    (List.range (numRootSectors fs))).1

def listCluster (fs : Fat16) (d : Disk) (c : Nat) : List ListEntry × Bool :=
  listSectors (fun i =>
    addSectorDirEntriesToList fs (clusterSector fs c i) (loadCluster fs d c) (i * fs.bytesPerSector))
    (List.range fs.sectorsPerCluster)

/-- The clusters of `get_dir` from `c` on. -/
def listChain (fs : Fat16) (d : Disk) : Nat → Nat → Option (List ListEntry)
  | 0, _ => none
  | fuel + 1, c =>
    if InChain c then
      if (listCluster fs d c).2 then some (listCluster fs d c).1
      else (listChain fs d fuel (getSuccessorCluster fs d c)).map ((listCluster fs d c).1 ++ ·)
    else some []

/-- `get_dir`; the inner `none` is NULL. -/
def getDir (fs : Fat16) (d : Disk) (e : DirEntry) : Option (Option (List ListEntry)) :=
  if isSubdirectory e.attributes then (listChain fs d walkFuel e.firstCluster).map some
  else some none

end Listings

section Paths

def stripSlash (pathname : CharPtr) : CharPtr :=
  if CharPtr.at pathname 0 = slash then pathname.drop 1 else pathname

/-- The parts; `{NULL, 0}` is the empty list. -/
def splitPath (pathname : CharPtr) : List CharPtr :=
  let pathname := stripSlash pathname
  if CharPtr.at pathname 1 = 0 then [] else (cstr pathname).splitOn slash

def descendPath (pathname : CharPtr) : CharPtr :=
  (stripSlash pathname).dropWhile (fun c => c ≠ slash ∧ c ≠ 0)

/-- `last_slash_pos`, which is 0 also when there is no slash. -/
def lastSlashPos (pathname : CharPtr) : Nat :=
  (List.range (cstr pathname).length).foldl
    (fun pos i => if CharPtr.at pathname i = slash then i else pos) 0

def toDirectory (pathname : CharPtr) : CharPtr := (cstr pathname).take (lastSlashPos pathname)

def toFilename (pathname : CharPtr) : CharPtr := (cstr pathname).drop (lastSlashPos pathname + 1)

/-- The two arrays of `split_filename` are adjacent, 8 bytes and 3 bytes: a name that fills
its array runs on into the extension. The NULs it writes fall on bytes that are zero. -/
structure FileName where
  name : CharPtr
  extension : CharPtr

def splitFilename (filename : CharPtr) : FileName :=
  let name := (filename.take 8).takeWhile (fun c => c ≠ dot ∧ c ≠ 0)
  let extension :=
    if CharPtr.at filename name.length = 0 then []
    else ((filename.drop (name.length + 1)).take 3).takeWhile (· ≠ 0)
  ⟨name ++ List.replicate (8 - name.length) 0 ++ extension, extension⟩

/-- The comparison of `find_file`. -/
def entryNamed (f : FileName) (e : DirEntry) : Bool :=
  stdstringCompare f.name e.filename = 0 ∧ stdstringCompare f.extension e.extension = 0

/-- `find_file` and `find_dir` are this with their own tests for the last part of the path and
for a part before it. The last directory that fits decides. The recursion takes a part off
the path each time, so that the length of the path is fuel enough. -/
def resolveFuel (fs : Fat16) (d : Disk) (last inner : CharPtr → DirEntry → Bool) :
    Nat → CharPtr → List ListEntry → Option (Option ListEntry)
  | 0, _, _ => some none
  | fuel + 1, pathname, dir =>
    match splitPath pathname with
    | [] => some none
    | [part] => some (dir.find? fun f => last part f.entry)
    | part :: _ :: _ =>
      dir.foldlM (fun result f =>
        if inner part f.entry then do
          match ← getDir fs d f.entry with
          | none => return result
          | some nextDir => resolveFuel fs d last inner fuel (descendPath pathname) nextDir
        else return result) none

def findFile (fs : Fat16) (d : Disk) (pathname : CharPtr) (dir : List ListEntry) :
    Option (Option ListEntry) :=
  resolveFuel fs d (fun part e => entryNamed (splitFilename part) e)
    (fun part e => isSubdirectory e.attributes ∧ entryNamed (splitFilename part) e)
    (pathname.length + 1) pathname dir

/-- `find_dir` compares names only, and those of inner parts as they stand. -/
def findDir (fs : Fat16) (d : Disk) (pathname : CharPtr) (dir : List ListEntry) :
    Option (Option ListEntry) :=
  resolveFuel fs d
    (fun part e => isSubdirectory e.attributes ∧
      stdstringCompare (splitFilename part).name e.filename = 0)
    (fun part e => isSubdirectory e.attributes ∧ stdstringCompare part e.filename = 0)
    (pathname.length + 1) pathname dir

end Paths
end MalapropOS.Fat
