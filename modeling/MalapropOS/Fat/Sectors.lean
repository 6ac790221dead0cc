import MalapropOS.Lib.Requests
import MalapropOS.Fat.Contents

/-! The lower half of `file.c` once more, with the calls of `disk_rd` and `disk_wr` where the code
makes them and with the buffers that it keeps. On an exact sector store it computes what the
functions of the volume compute. -/
namespace MalapropOS.Fat
open Requests

/-- `disk_rd( a, &x[ i ], n )` and `disk_wr( a, &x[ i ], n )`. -/
inductive SectorCall where
  | rd (a : Nat) (x : Buffer) (i n : Nat)
  | wr (a : Nat) (x : Buffer) (i n : Nat)

/-- A read leaves the buffer. -/
def SectorCall.Result : SectorCall → Type
  | .rd _ _ _ _ => Buffer
  | .wr _ _ _ _ => Unit

/-- A function of `file.c`, which may also walk along a chain for ever. -/
abbrev Code := OptionT (Prog SectorCall SectorCall.Result)

def onDisk : (q : SectorCall) → Disk → q.Result × Disk
  | .rd a x i n, d => (diskRd d a x i n, d)
  | .wr a x i n, d => ((), diskWr d a x i n)

namespace Code

def diskRd (a : Nat) (x : Buffer) (i n : Nat) : Code Buffer := request (SectorCall.rd a x i n)

def diskWr (a : Nat) (x : Buffer) (i n : Nat) : Code Unit := request (SectorCall.wr a x i n)

section Functions
variable (fs : Fat16)

def getSuccessorCluster (clusterNumber : Nat) : Code Nat := do
  let inFatSector := clusterNumber * 2 / fs.bytesPerSector
  let inSector := (calculateRegions fs).fatRegionStart + inFatSector
  let fatSector ← diskRd inSector zeroBuffer 0 fs.bytesPerSector
  let entriesPerSector := fs.bytesPerSector / 2
  let entryInSector := clusterNumber - entriesPerSector * inFatSector
  return (fatSector (entryInSector * 2)).toNat + (fatSector (entryInSector * 2 + 1)).toNat * 256

def setSuccessorCluster (clusterNumber successorClusterNumber : Nat) : Code Unit := do
  let inFatSector := clusterNumber * 2 / fs.bytesPerSector
  let inSector := (calculateRegions fs).fatRegionStart + inFatSector
  let fatSector ← diskRd inSector zeroBuffer 0 fs.bytesPerSector
  let indexInSector := clusterNumber * 2 - inFatSector * fs.bytesPerSector
  let fatSector := Function.update fatSector indexInSector (UInt8.ofNat successorClusterNumber)
  let fatSector := Function.update fatSector (indexInSector + 1)
    (UInt8.ofNat (successorClusterNumber / 256))
  diskWr inSector fatSector 0 fs.bytesPerSector

/-- The loops of `find_first_free_cluster`, over the sectors `is` of the table. -/
def findFreeIn (fatSector : Buffer) : List Nat → Code Nat
  | [] => return 0
  | i :: is => do
    let fatSector ← diskRd ((calculateRegions fs).fatRegionStart + i) fatSector 0 fs.bytesPerSector
    let entriesPerSector := fs.bytesPerSector / 2
    let found := (List.range entriesPerSector).findSome? fun j =>
      if fatSector (j * 2) = 0x00 ∧ fatSector (j * 2 + 1) = 0x00 then
        some ((entriesPerSector * i + j) % 2 ^ 16)
      else none
    match found with
    | some c => return c
    | none => findFreeIn fatSector is

def findFirstFreeCluster : Code Nat :=
  findFreeIn fs zeroBuffer (List.range fs.numSectorsPerFileAllocationTable)

def loadCluster (clusterNumber : Nat) (buf : Buffer) : Code Buffer :=
  (List.range fs.sectorsPerCluster).foldlM (fun buf i =>
    diskRd (clusterSector fs clusterNumber i) buf (i * fs.bytesPerSector) fs.bytesPerSector) buf

def writeCluster (clusterNumber : Nat) (buf : Buffer) : Code Unit :=
  (List.range fs.sectorsPerCluster).foldlM (fun _ i =>
    diskWr (clusterSector fs clusterNumber i) buf (i * fs.bytesPerSector) fs.bytesPerSector) ()

def walkChain : Nat → Nat → Code Nat
  | 0, c => return c
  | n + 1, c => do
    if InChain c then walkChain n (← getSuccessorCluster fs c)
    else return c

/-- `data` is `current_cluster_data`. -/
def readClusters (numBytes : Nat) : Nat → Nat → Buffer → Buffer → Nat → Code (Buffer × Nat)
  | 0, _, _, buf, numBytesRead => return (buf, numBytesRead)
  | fuel + 1, c, data, buf, numBytesRead => do
    if InChain c ∧ numBytesRead < numBytes then
      let data ← loadCluster fs c data
      let n := numBytesInCluster fs numBytes numBytesRead
      let buf := stdmemCopy buf numBytesRead data 0 n
      readClusters numBytes fuel (← getSuccessorCluster fs c) data buf (numBytesRead + n)
    else return (buf, numBytesRead)

def readFromFile (firstCluster offsetBytes : Nat) (buf : Buffer) (numBytes : Nat) :
    Code (Buffer × Nat) := do
  let c ← walkChain fs (dataStartsInCluster fs offsetBytes) firstCluster
  let data ← loadCluster fs c zeroBuffer
  let n := numBytesInFirstCluster fs offsetBytes numBytes
  let buf := stdmemCopy buf 0 data (dataOffsetInCluster fs offsetBytes) n
  readClusters fs numBytes numBytes (← getSuccessorCluster fs c) data buf n

/-- The variables of `write_to_file` that its loops change. -/
structure WriteState where
  data : Buffer
  previousClusterNum : Nat
  currentClusterNum : Nat
  numBytesWritten : Nat

/-- Load a cluster, put in `n` bytes at `i`, write it back. -/
def writePart (c : Nat) (data : Buffer) (i : Nat) (buf : Buffer) (j n : Nat) : Code Buffer := do
  let data ← loadCluster fs c data
  let data := stdmemCopy data i buf j n
  writeCluster fs c data
  return data

def writeClusters (buf : Buffer) (numBytes : Nat) : Nat → WriteState → Code WriteState
  | 0, w => return w
  | fuel + 1, w => do
    if InChain w.currentClusterNum ∧ w.numBytesWritten < numBytes then
      let n := numBytesInCluster fs numBytes w.numBytesWritten
      let data ← writePart fs w.currentClusterNum w.data 0 buf w.numBytesWritten n
      let next ← getSuccessorCluster fs w.currentClusterNum
      writeClusters buf numBytes fuel ⟨data, w.currentClusterNum, next, w.numBytesWritten + n⟩
    else return w

def growClusters (buf : Buffer) (numBytes : Nat) : Nat → WriteState → Code WriteState
  | 0, w => return w
  | fuel + 1, w => do
    if w.numBytesWritten < numBytes then
      let c ← findFirstFreeCluster fs
      if c < 2 then return w
      else
        setSuccessorCluster fs w.previousClusterNum c
        setSuccessorCluster fs c 0xFFFF
        let n := numBytesInCluster fs numBytes w.numBytesWritten
        let data ← writePart fs c w.data 0 buf w.numBytesWritten n
        growClusters buf numBytes fuel ⟨data, c, c, w.numBytesWritten + n⟩
    else return w

def writeToFile (firstCluster offsetBytes : Nat) (buf : Buffer) (numBytes : Nat) : Code Nat := do
  let c ← walkChain fs (dataStartsInCluster fs offsetBytes) firstCluster
  let n := numBytesInFirstCluster fs offsetBytes numBytes
  let data ← writePart fs c zeroBuffer (dataOffsetInCluster fs offsetBytes) buf 0 n
  let next ← getSuccessorCluster fs c
  let w ← writeClusters fs buf numBytes numBytes ⟨data, c, next, n⟩
  let w ← growClusters fs buf numBytes numBytes w
  return w.numBytesWritten

end Functions

section Refinement
variable {fs : Fat16} (d : Disk)

/-- Nothing behind the first `n` bytes. -/
def BlankFrom (n : Nat) (x : Buffer) : Prop := ∀ k, n ≤ k → x k = 0

theorem blankFrom_zero {n : Nat} : BlankFrom n zeroBuffer := fun _ _ => rfl

theorem run_diskRd (a : Nat) (x : Buffer) (i n : Nat) :
    run onDisk (diskRd a x i n) d = some (Fat.diskRd d a x i n, d) := rfl

theorem run_diskWr (a : Nat) (x : Buffer) (i n : Nat) :
    run onDisk (diskWr a x i n) d = some ((), Fat.diskWr d a x i n) := rfl

theorem run_getSuccessorCluster (c : Nat) :
    run onDisk (getSuccessorCluster fs c) d = some (Fat.getSuccessorCluster fs d c, d) := rfl

theorem run_setSuccessorCluster (c v : Nat) :
    run onDisk (setSuccessorCluster fs c v) d = some ((), Fat.setSuccessorCluster fs d c v) := rfl

/-- A sector that fills the buffer leaves nothing of what was there. -/
theorem diskRd_over {x : Buffer} {n : Nat} (hx : BlankFrom n x) (a : Nat) :
    Fat.diskRd d a x 0 n = Fat.diskRd d a zeroBuffer 0 n := by
  funext k
  by_cases hk : 0 ≤ k ∧ k < 0 + n
  · simp only [Fat.diskRd, if_pos hk]
  · simp only [Fat.diskRd, if_neg hk]
    exact hx k (by omega)

theorem blankFrom_diskRd {x : Buffer} {i n m : Nat} (hx : BlankFrom m x) (hin : i + n ≤ m) (a : Nat) :
    BlankFrom m (Fat.diskRd d a x i n) := by
  intro k hk
  have hout : ¬ (i ≤ k ∧ k < i + n) := by omega
  simp only [Fat.diskRd, if_neg hout]
  exact hx k hk

theorem run_findFreeIn {x : Buffer} (hx : BlankFrom fs.bytesPerSector x) (is : List Nat) :
    run onDisk (findFreeIn fs x is) d = some ((is.findSome? fun i =>
      let fatSector := Fat.diskRd d ((calculateRegions fs).fatRegionStart + i) zeroBuffer 0
        fs.bytesPerSector
      (List.range (fs.bytesPerSector / 2)).findSome? fun j =>
        if fatSector (j * 2) = 0x00 ∧ fatSector (j * 2 + 1) = 0x00 then
          some ((fs.bytesPerSector / 2 * i + j) % 2 ^ 16)
        else none).getD 0, d) := by
  induction is generalizing x with
  | nil => rfl
  | cons i is ih =>
    have hblank := blankFrom_diskRd d hx (Nat.zero_add _).le
      ((calculateRegions fs).fatRegionStart + i)
    rw [findFreeIn, run_bind, run_diskRd, Option.bind_some, diskRd_over d hx]
    rw [diskRd_over d hx] at hblank
    simp only [List.findSome?_cons]
    split
    · next h => simp only [h]; rfl
    · next h =>
      simp only [h]
      exact ih hblank

theorem run_findFirstFreeCluster :
    run onDisk (findFirstFreeCluster fs) d = some (Fat.findFirstFreeCluster fs d, d) :=
  run_findFreeIn d blankFrom_zero _

theorem run_loadSectors (f : Nat → Nat) (n : Nat) (l : List Nat) (x : Buffer) :
    run onDisk (l.foldlM (fun x i => diskRd (f i) x (i * n) n) x) d =
      some (l.foldl (fun x i => Fat.diskRd d (f i) x (i * n) n) x, d) := by
  induction l generalizing x with
  | nil => rfl
  | cons i l ih =>
    rw [List.foldlM_cons]
    exact run_seq (run_diskRd d _ _ _ _) (ih _)

theorem loadSectors_over (f : Nat → Nat) (b n : Nat) (x : Buffer) (k : Nat) :
    (List.range n).foldl (fun x i => Fat.diskRd d (f i) x (i * b) b) x k =
      if k < n * b then
        (List.range n).foldl (fun x i => Fat.diskRd d (f i) x (i * b) b) zeroBuffer k
      else x k := by
  induction n with
  | zero => simp
  | succ n ih =>
    simp only [List.range_succ, List.foldl_concat, Fat.diskRd]
    rw [Nat.add_mul, Nat.one_mul]
    by_cases hk : n * b ≤ k ∧ k < n * b + b
    · rw [if_pos hk, if_pos hk.2, if_pos hk]
    · rw [if_neg hk, if_neg hk, ih]
      exact if_congr (by omega) rfl rfl

theorem run_loadCluster {x : Buffer} (hx : BlankFrom (bytesPerCluster fs) x) (c : Nat) :
    run onDisk (loadCluster fs c x) d = some (Fat.loadCluster fs d c, d) := by
  rw [loadCluster, run_loadSectors]
  have hload : (List.range fs.sectorsPerCluster).foldl (fun x i => Fat.diskRd d
      (clusterSector fs c i) x (i * fs.bytesPerSector) fs.bytesPerSector) x =
        Fat.loadCluster fs d c := by
    funext k
    rw [loadSectors_over]
    by_cases hk : k < fs.sectorsPerCluster * fs.bytesPerSector
    · rw [if_pos hk]
      rfl
    · have hout : ¬ k < bytesPerCluster fs := by rwa [bytesPerCluster, Nat.mul_comm]
      rw [if_neg hk, loadCluster_eq, if_neg hout]
      exact hx k (Nat.le_of_not_lt hout)
  rw [hload]

theorem blankFrom_loadCluster (c : Nat) :
    BlankFrom (bytesPerCluster fs) (Fat.loadCluster fs d c) := by
  intro k hk
  rw [loadCluster_eq, if_neg (Nat.not_lt.mpr hk)]

theorem run_storeSectors (f : Nat → Nat) (n : Nat) (l : List Nat) (x : Buffer) :
    run onDisk (l.foldlM (fun _ i => diskWr (f i) x (i * n) n) ()) d =
      some ((), l.foldl (fun d i => Fat.diskWr d (f i) x (i * n) n) d) := by
  induction l generalizing d with
  | nil => rfl
  | cons i l ih =>
    rw [List.foldlM_cons]
    exact run_seq (run_diskWr d _ _ _ _) (ih _)

theorem run_writeCluster (c : Nat) (x : Buffer) :
    run onDisk (writeCluster fs c x) d = some ((), Fat.writeCluster fs d c x) :=
  run_storeSectors d _ _ _ x

theorem run_walkChain (n c : Nat) :
    run onDisk (walkChain fs n c) d = some (Fat.walkChain fs d n c, d) := by
  induction n generalizing c with
  | zero => rfl
  | succ n ih =>
    rw [walkChain, Fat.walkChain]
    split
    · exact run_seq (run_getSuccessorCluster d c) (ih _)
    · rfl

theorem run_readClusters (numBytes : Nat) (fuel c : Nat) {data : Buffer}
    (hdata : BlankFrom (bytesPerCluster fs) data) (buf : Buffer) (k : Nat) :
    run onDisk (readClusters fs numBytes fuel c data buf k) d =
      some (Fat.readClusters fs d numBytes fuel c buf k, d) := by
  induction fuel generalizing c data buf k with
  | zero => rfl
  | succ fuel ih =>
    rw [readClusters, Fat.readClusters]
    split
    · exact run_seq (run_loadCluster d hdata c) (run_seq (run_getSuccessorCluster d c)
        (ih _ (blankFrom_loadCluster d c) _ _))
    · rfl

theorem run_readFromFile (c₀ o : Nat) (buf : Buffer) (num : Nat) :
    run onDisk (readFromFile fs c₀ o buf num) d = some (Fat.readFromFile fs d c₀ o buf num, d) := by
  refine run_seq (run_walkChain d _ _) (run_seq (run_loadCluster d blankFrom_zero _) ?_)
  exact run_seq (run_getSuccessorCluster d _)
    (run_readClusters d _ _ _ (blankFrom_loadCluster d _) _ _)

/-- The disk changes, and the buffer is the cluster that is written. -/
theorem run_writePart {data : Buffer} (hdata : BlankFrom (bytesPerCluster fs) data) (c i : Nat)
    (buf : Buffer) (j n : Nat) : run onDisk (writePart fs c data i buf j n) d =
      some (stdmemCopy (Fat.loadCluster fs d c) i buf j n, Fat.writePart fs d c i buf j n) :=
  run_seq (run_loadCluster d hdata c) (run_seq (run_writeCluster d c _) rfl)

/-- The bytes that are put in lie inside the cluster. -/
theorem blankFrom_stdmemCopy {m i n : Nat} {x : Buffer} (hx : BlankFrom m x) (hin : i + n ≤ m)
    (buf : Buffer) (j : Nat) : BlankFrom m (stdmemCopy x i buf j n) := by
  intro k hk
  have hout : ¬ (i ≤ k ∧ k < i + n) := by omega
  simp only [stdmemCopy, if_neg hout]
  exact hx k hk

/-- The variables with a buffer, where the volume has the disk. -/
abbrev WriteState.of (data : Buffer) (v : Fat.WriteState) : WriteState :=
  ⟨data, v.previousClusterNum, v.currentClusterNum, v.numBytesWritten⟩

theorem blankFrom_copied (c : Nat) (buf : Buffer) (numBytes k : Nat) :
    BlankFrom (bytesPerCluster fs) (stdmemCopy (Fat.loadCluster fs d c) 0 buf k
      (numBytesInCluster fs numBytes k)) := by
  have hle : numBytesInCluster fs numBytes k ≤ bytesPerCluster fs := Nat.min_le_right _ _
  exact blankFrom_stdmemCopy (blankFrom_loadCluster d c) (by omega) buf k

theorem run_writeClusters (buf : Buffer) (numBytes fuel : Nat) {data : Buffer}
    (hdata : BlankFrom (bytesPerCluster fs) data) (v : Fat.WriteState) :
    ∃ data', BlankFrom (bytesPerCluster fs) data' ∧
      run onDisk (writeClusters fs buf numBytes fuel (.of data v)) v.disk =
        some (.of data' (Fat.writeClusters fs buf numBytes fuel v),
          (Fat.writeClusters fs buf numBytes fuel v).disk) := by
  induction fuel generalizing data v with
  | zero => exact ⟨data, hdata, rfl⟩
  | succ fuel ih =>
    rw [writeClusters, Fat.writeClusters]
    by_cases hgo : InChain v.currentClusterNum ∧ v.numBytesWritten < numBytes
    · obtain ⟨data', hblank, hrun⟩ := ih (blankFrom_copied v.disk v.currentClusterNum buf numBytes
        v.numBytesWritten) ⟨_, v.currentClusterNum, _, _⟩
      refine ⟨data', hblank, ?_⟩
      rw [if_pos hgo, if_pos hgo]
      exact run_seq (run_writePart v.disk hdata _ _ buf _ _)
        (run_seq (run_getSuccessorCluster _ _) hrun)
    · refine ⟨data, hdata, ?_⟩
      rw [if_neg hgo, if_neg hgo]
      rfl

theorem run_growClusters (buf : Buffer) (numBytes fuel : Nat) {data : Buffer}
    (hdata : BlankFrom (bytesPerCluster fs) data) (v : Fat.WriteState) :
    ∃ data', run onDisk (growClusters fs buf numBytes fuel (.of data v)) v.disk =
      some (.of data' (Fat.growClusters fs buf numBytes fuel v),
        (Fat.growClusters fs buf numBytes fuel v).disk) := by
  induction fuel generalizing data v with
  | zero => exact ⟨data, rfl⟩
  | succ fuel ih =>
    rw [growClusters, Fat.growClusters]
    by_cases hgo : v.numBytesWritten < numBytes
    · by_cases hc : Fat.findFirstFreeCluster fs v.disk < 2
      · refine ⟨data, ?_⟩
        rw [if_pos hgo, if_pos hgo]
        refine run_seq (run_findFirstFreeCluster v.disk) ?_
        rw [if_pos hc, if_pos hc]
        rfl
      · obtain ⟨data', hrun⟩ := ih (blankFrom_copied _ _ buf numBytes v.numBytesWritten)
          ⟨_, Fat.findFirstFreeCluster fs v.disk, _, _⟩
        refine ⟨data', ?_⟩
        rw [if_pos hgo, if_pos hgo]
        refine run_seq (run_findFirstFreeCluster v.disk) ?_
        rw [if_neg hc, if_neg hc]
        exact run_seq (run_setSuccessorCluster _ _ _) (run_seq (run_setSuccessorCluster _ _ _)
          (run_seq (run_writePart _ hdata _ _ buf _ _) hrun))
    · refine ⟨data, ?_⟩
      rw [if_neg hgo, if_neg hgo]
      rfl

theorem run_writeToFile (c₀ o : Nat) (buf : Buffer) (num : Nat) :
    run onDisk (writeToFile fs c₀ o buf num) d =
      some ((Fat.writeToFile fs d c₀ o buf num).2, (Fat.writeToFile fs d c₀ o buf num).1) := by
  have hfirst := numBytesInFirstCluster_eq fs o num
  have hoff := dataOffsetInCluster_lt fs o
  have hblank (c : Nat) := blankFrom_stdmemCopy (@blankFrom_loadCluster fs d c)
    (show dataOffsetInCluster fs o + numBytesInFirstCluster fs o num ≤ bytesPerCluster fs by omega)
    buf 0
  refine run_seq (run_walkChain d _ _) (run_seq (run_writePart d blankFrom_zero _ _ buf _ _)
    (run_seq (run_getSuccessorCluster _ _) ?_))
  obtain ⟨data', hdata', hwrite⟩ := run_writeClusters buf num num (hblank _) ⟨_, _, _, _⟩
  obtain ⟨data'', hgrow⟩ := run_growClusters buf num num hdata' _
  exact run_seq hwrite (run_seq hgrow rfl)

end Refinement
end Code
end MalapropOS.Fat
