import Mathlib.Algebra.Group.Nat.Defs
import Mathlib.Algebra.Group.Int.Defs
import Mathlib.Data.List.Basic

/-! The lower half of `file.c`: the geometry of the volume, the file allocation table, and
reading and writing the data of a file. `disk_rd` and `disk_wr` are an exact sector store.
`stdmem_allocate` is taken to succeed and to return zeroed memory. -/
namespace MalapropOS.Fat

/-- A `uint8_t` array, seen from a pointer into it. -/
abbrev Buffer := Nat → UInt8

/-- The bytes of each sector. -/
abbrev Disk := Nat → Buffer

/-- `fat16_t`, less what no function reads. The code divides by the first two fields. -/
structure Fat16 where
  bytesPerSector : Nat
  sectorsPerCluster : Nat
  numReservedSectors : Nat
  numFileAllocationTables : Nat
  numRootDirectoryEntries : Nat
  numSectorsPerFileAllocationTable : Nat
  bytesPerSector_pos : 0 < bytesPerSector := by decide
  sectorsPerCluster_pos : 0 < sectorsPerCluster := by decide
  bytesPerSector_lt : bytesPerSector < 2 ^ 16 := by decide
  sectorsPerCluster_lt : sectorsPerCluster < 2 ^ 8 := by decide
  numReservedSectors_lt : numReservedSectors < 2 ^ 16 := by decide
  numFileAllocationTables_lt : numFileAllocationTables < 2 ^ 8 := by decide
  numRootDirectoryEntries_lt : numRootDirectoryEntries < 2 ^ 16 := by decide
  numSectorsPerFileAllocationTable_lt : numSectorsPerFileAllocationTable < 2 ^ 16 := by decide

/-- A volume of sectors of 32 bytes, which hold one slot each: a sector of the table, two of the
root directory, and the clusters from sector 4 on. -/
def smallVolume : Fat16 where
  bytesPerSector := 32
  sectorsPerCluster := 1
  numReservedSectors := 1
  numFileAllocationTables := 1
  numRootDirectoryEntries := 2
  numSectorsPerFileAllocationTable := 1

/-- A table that fits into one sector, for 0x4000 clusters of one sector. -/
def wideVolume : Fat16 where
  bytesPerSector := 0x8000
  sectorsPerCluster := 1
  numReservedSectors := 1
  numFileAllocationTables := 1
  numRootDirectoryEntries := 0x400
  numSectorsPerFileAllocationTable := 1

/-- The same, with a second reserved sector. -/
def reservedVolume : Fat16 := { wideVolume with
  numReservedSectors := 2
  numReservedSectors_lt := by decide }

/-- A root directory of 2^15 sectors of one slot each. -/
def tallVolume : Fat16 where
  bytesPerSector := 32
  sectorsPerCluster := 1
  numReservedSectors := 1
  numFileAllocationTables := 1
  numRootDirectoryEntries := 0x8000
  numSectorsPerFileAllocationTable := 1

/-- The fields of `fat16_regions_t` that are read. They are sums and products of fields too
narrow to reach 2^32. -/
structure Regions where
  fatRegionStart : Nat
  rootDirectoryRegionStart : Nat
  dataRegionStart : Nat
  rootDirectoryRegionSize : Nat

def calculateRegions (fs : Fat16) : Regions :=
  let fatRegionStart := fs.numReservedSectors
  let rootDirectoryRegionStart := fatRegionStart +
    fs.numFileAllocationTables * fs.numSectorsPerFileAllocationTable
  let rootDirectoryRegionSize := fs.numRootDirectoryEntries * 32 / fs.bytesPerSector
  ⟨fatRegionStart, rootDirectoryRegionStart, rootDirectoryRegionStart + rootDirectoryRegionSize,
    rootDirectoryRegionSize⟩

def bytesPerCluster (fs : Fat16) : Nat := fs.bytesPerSector * fs.sectorsPerCluster

def zeroBuffer : Buffer := fun _ => 0

/-- `disk_rd( a, &x[ i ], n )`. -/
def diskRd (d : Disk) (a : Nat) (x : Buffer) (i n : Nat) : Buffer :=
  fun k => if i ≤ k ∧ k < i + n then d a (k - i) else x k

/-- `disk_wr( a, &x[ i ], n )`. -/
def diskWr (d : Disk) (a : Nat) (x : Buffer) (i n : Nat) : Disk :=
  fun s k => if s = a ∧ k < n then x (i + k) else d s k

/-- `stdmem_copy( &x[ i ], &y[ j ], n )`. -/
def stdmemCopy (x : Buffer) (i : Nat) (y : Buffer) (j n : Nat) : Buffer :=
  fun k => if i ≤ k ∧ k < i + n then y (j + (k - i)) else x k

def getSuccessorCluster (fs : Fat16) (d : Disk) (clusterNumber : Nat) : Nat :=
  let inFatSector := clusterNumber * 2 / fs.bytesPerSector
  let inSector := (calculateRegions fs).fatRegionStart + inFatSector
  let fatSector := diskRd d inSector zeroBuffer 0 fs.bytesPerSector
  let entriesPerSector := fs.bytesPerSector / 2
  let entryInSector := clusterNumber - entriesPerSector * inFatSector
  (fatSector (entryInSector * 2)).toNat + (fatSector (entryInSector * 2 + 1)).toNat * 256

def setSuccessorCluster (fs : Fat16) (d : Disk) (clusterNumber successorClusterNumber : Nat) :
    Disk :=
  let inFatSector := clusterNumber * 2 / fs.bytesPerSector
  let inSector := (calculateRegions fs).fatRegionStart + inFatSector
  let fatSector := diskRd d inSector zeroBuffer 0 fs.bytesPerSector
  let indexInSector := clusterNumber * 2 - inFatSector * fs.bytesPerSector
  let fatSector := Function.update fatSector indexInSector (UInt8.ofNat successorClusterNumber)
  let fatSector := Function.update fatSector (indexInSector + 1)
    (UInt8.ofNat (successorClusterNumber / 256))
  diskWr d inSector fatSector 0 fs.bytesPerSector

def findFirstFreeCluster (fs : Fat16) (d : Disk) : Nat :=
  let entriesPerSector := fs.bytesPerSector / 2
  let found := (List.range fs.numSectorsPerFileAllocationTable).findSome? fun i =>
    let fatSector := diskRd d ((calculateRegions fs).fatRegionStart + i) zeroBuffer 0
      fs.bytesPerSector
    (List.range entriesPerSector).findSome? fun j =>
      if fatSector (j * 2) = 0x00 ∧ fatSector (j * 2 + 1) = 0x00 then
        some ((entriesPerSector * i + j) % 2 ^ 16)
      else none
  found.getD 0

/-- `first_sector + i`, in `uint32_t`. The clusters 0 and 1 lie below the data region. -/
def clusterSector (fs : Fat16) (clusterNumber i : Nat) : Nat :=
  (((calculateRegions fs).dataRegionStart + ((clusterNumber : Int) - 2) * fs.sectorsPerCluster + i)
    % 2 ^ 32).toNat

/-- The buffer that `load_cluster` is given has `bytes_per_cluster` bytes, and all are read. -/
def loadCluster (fs : Fat16) (d : Disk) (clusterNumber : Nat) : Buffer :=
  (List.range fs.sectorsPerCluster).foldl (fun buf i =>
    diskRd d (clusterSector fs clusterNumber i) buf (i * fs.bytesPerSector) fs.bytesPerSector)
    zeroBuffer

def writeCluster (fs : Fat16) (d : Disk) (clusterNumber : Nat) (buf : Buffer) : Disk :=
  (List.range fs.sectorsPerCluster).foldl (fun d i =>
    diskWr d (clusterSector fs clusterNumber i) buf (i * fs.bytesPerSector) fs.bytesPerSector) d

/-- The test that a cluster number is inside a chain. -/
def InChain (clusterNumber : Nat) : Prop := 0x0001 < clusterNumber ∧ clusterNumber < 0xfff0

instance (c : Nat) : Decidable (InChain c) := inferInstanceAs (Decidable (_ ∧ _))

/-- The first loop of `read_from_file` and `write_to_file`, with `n` links to go. -/
def walkChain (fs : Fat16) (d : Disk) : Nat → Nat → Nat
  | 0, c => c
  | n + 1, c => if InChain c then walkChain fs d n (getSuccessorCluster fs d c) else c

/-- `data_starts_in_cluster` and `data_offset_in_cluster`, both `uint16_t`. -/
def dataStartsInCluster (fs : Fat16) (offsetBytes : Nat) : Nat :=
  offsetBytes / bytesPerCluster fs % 2 ^ 16

def dataOffsetInCluster (fs : Fat16) (offsetBytes : Nat) : Nat :=
  (offsetBytes - dataStartsInCluster fs offsetBytes * bytesPerCluster fs) % 2 ^ 16

/-- The bytes that the first cluster takes; the subtraction is in `uint32_t`. -/
def numBytesInFirstCluster (fs : Fat16) (offsetBytes numBytes : Nat) : Nat :=
  min numBytes ((bytesPerCluster fs + 2 ^ 32 - dataOffsetInCluster fs offsetBytes) % 2 ^ 32)

/-- The bytes that a later cluster takes. -/
def numBytesInCluster (fs : Fat16) (numBytes done : Nat) : Nat :=
  min (numBytes - done) (bytesPerCluster fs)

/-- The loop of `read_from_file` behind the first cluster. Each round reads a byte at least,
so `numBytes` rounds are enough. The result is the buffer and the number of bytes read. -/
def readClusters (fs : Fat16) (d : Disk) (numBytes : Nat) : Nat → Nat → Buffer → Nat → Buffer × Nat
  | 0, _, buf, numBytesRead => (buf, numBytesRead)
  | fuel + 1, c, buf, numBytesRead =>
    if InChain c ∧ numBytesRead < numBytes then
      let n := numBytesInCluster fs numBytes numBytesRead
      readClusters fs d numBytes fuel (getSuccessorCluster fs d c)
        (stdmemCopy buf numBytesRead (loadCluster fs d c) 0 n) (numBytesRead + n)
    else (buf, numBytesRead)

def readFromFile (fs : Fat16) (d : Disk) (firstCluster offsetBytes : Nat) (buf : Buffer)
    (numBytes : Nat) : Buffer × Nat :=
  let c := walkChain fs d (dataStartsInCluster fs offsetBytes) firstCluster
  let n := numBytesInFirstCluster fs offsetBytes numBytes
  let buf := stdmemCopy buf 0 (loadCluster fs d c) (dataOffsetInCluster fs offsetBytes) n
  readClusters fs d numBytes numBytes (getSuccessorCluster fs d c) buf n

/-- The variables of `write_to_file` that its loops change. -/
structure WriteState where
  disk : Disk
  previousClusterNum : Nat
  currentClusterNum : Nat
  numBytesWritten : Nat

/-- One cluster of `write_to_file`: load it, put in `n` bytes at `i`, write it back. -/
def writePart (fs : Fat16) (d : Disk) (c i : Nat) (buf : Buffer) (j n : Nat) : Disk :=
  writeCluster fs d c (stdmemCopy (loadCluster fs d c) i buf j n)

/-- The second loop of `write_to_file`, over the clusters the file has. -/
def writeClusters (fs : Fat16) (buf : Buffer) (numBytes : Nat) : Nat → WriteState → WriteState
  | 0, w => w
  | fuel + 1, w =>
    if InChain w.currentClusterNum ∧ w.numBytesWritten < numBytes then
      let n := numBytesInCluster fs numBytes w.numBytesWritten
      let d := writePart fs w.disk w.currentClusterNum 0 buf w.numBytesWritten n
      writeClusters fs buf numBytes fuel
        ⟨d, w.currentClusterNum, getSuccessorCluster fs d w.currentClusterNum,
          w.numBytesWritten + n⟩
    else w

/-- The third loop, which takes free clusters. It does not use `current_cluster_num`. -/
def growClusters (fs : Fat16) (buf : Buffer) (numBytes : Nat) : Nat → WriteState → WriteState
  | 0, w => w
  | fuel + 1, w =>
    if w.numBytesWritten < numBytes then
      let c := findFirstFreeCluster fs w.disk
      if c < 2 then w
      else
        let d := setSuccessorCluster fs w.disk w.previousClusterNum c
        let d := setSuccessorCluster fs d c 0xFFFF
        let n := numBytesInCluster fs numBytes w.numBytesWritten
        growClusters fs buf numBytes fuel
          ⟨writePart fs d c 0 buf w.numBytesWritten n, c, c, w.numBytesWritten + n⟩
    else w

/-- The disk and the number of bytes written. -/
def writeToFile (fs : Fat16) (d : Disk) (firstCluster offsetBytes : Nat) (buf : Buffer)
    (numBytes : Nat) : Disk × Nat :=
  let c := walkChain fs d (dataStartsInCluster fs offsetBytes) firstCluster
  let n := numBytesInFirstCluster fs offsetBytes numBytes
  let d := writePart fs d c (dataOffsetInCluster fs offsetBytes) buf 0 n
  let w := writeClusters fs buf numBytes numBytes ⟨d, c, getSuccessorCluster fs d c, n⟩
  let w := growClusters fs buf numBytes numBytes w
  (w.disk, w.numBytesWritten)

end MalapropOS.Fat
