import MalapropOS.Fat.SectorCalls
import MalapropOS.Fat.Integrity
import MalapropOS.Disk.Server

/-! The sectors that the file system addresses. On a volume whose chains are valid, a call that stays
inside the clusters of its file addresses blocks of the disk only. -/
namespace MalapropOS.Fat
open Requests LinkedChain
open PartialMachine (Along)

/-- A whole block of the server's disk; the reserved sectors are read only. -/
def OnBlocks (args : Disk.Args) (fs : Fat16) : SectorCall → Prop
  | .rd a _ _ n => a < args.blockNum ∧ n = args.blockLen
  | .wr a _ _ n => fs.numReservedSectors ≤ a ∧ a < args.blockNum ∧ n = args.blockLen

/-- The disk has a block for each sector up to the one behind the root directory, and for the
sectors of each cluster that has an entry in the table. -/
structure Attached (args : Disk.Args) (fs : Fat16) : Prop where
  sector : fs.bytesPerSector = args.blockLen
  regions : (calculateRegions fs).dataRegionStart < args.blockNum
  clusters : ∀ c, 2 ≤ c → c < numEntries fs → firstSector fs c + fs.sectorsPerCluster ≤ args.blockNum

/-- Reading and writing: the offset is inside the clusters of the file, also where no bytes are
asked for. -/
def Inside (fs : Fat16) (s : State) : Call → Prop
  | .read fd _ _ => fd ≠ stdinFiledesc → ∀ f, findOpenFileByFd s fd = some f →
      2 ≤ f.directoryEntry.firstCluster → ∃ l, FileChain fs s.disk f.directoryEntry.firstCluster l ∧
        f.offset < l.length * bytesPerCluster fs
  | .write fd _ _ => fd ≠ stdoutFiledesc → ∀ f, findOpenFileByFd s fd = some f →
      ¬ isSubdirectory f.directoryEntry.attributes →
      ∃ l, FileChain fs s.disk f.directoryEntry.firstCluster l ∧
        (settleOffset f).offset < l.length * bytesPerCluster fs
  | _ => True

/-- The code addresses blocks of the disk only. -/
def InBounds {α : Type} (args : Disk.Args) (fs : Fat16) (p : Code α) (d : Disk) : Prop :=
  Admitted (OnBlocks args fs) onDisk p.run d

namespace Code
variable {args : Disk.Args} {fs : Fat16} {d : Disk} {α γ : Type}

theorem inBounds_pure (a : α) : InBounds args fs (pure a) d := trivial

theorem inBounds_seq {p : Code α} {f : α → Code γ} {d' : Disk} {a : α}
    (hrun : run onDisk p d = some (a, d')) (hp : InBounds args fs p d)
    (hf : InBounds args fs (f a) d') : InBounds args fs (p >>= f) d :=
  admitted_known hrun hp hf

theorem inBounds_read {p : Code α} {f : α → Code γ} {o : Option α}
    (hrun : run onDisk p d = o.map (·, d)) (hp : InBounds args fs p d)
    (hf : ∀ a, o = some a → InBounds args fs (f a) d) : InBounds args fs (p >>= f) d := by
  refine admitted_seq onDisk hp fun a t ha => ?_
  obtain ⟨ho, rfl⟩ := read_result hrun ha
  exact hf a ho

section Functions
variable (hl : DirLayout fs) (ha : Attached args fs)
include ha

theorem inBounds_diskRd {a : Nat} (hlt : a < args.blockNum) (x : Buffer) (i : Nat) :
    InBounds args fs (diskRd a x i fs.bytesPerSector) d := ⟨⟨hlt, ha.sector⟩, trivial⟩

theorem inBounds_diskWr {a : Nat} (hle : fs.numReservedSectors ≤ a) (hlt : a < args.blockNum)
    (x : Buffer) (i : Nat) : InBounds args fs (diskWr a x i fs.bytesPerSector) d :=
  ⟨⟨hle, hlt, ha.sector⟩, trivial⟩

include hl

theorem tableSector_lt {i : Nat} (hi : i ≤ fs.numSectorsPerFileAllocationTable) :
    (calculateRegions fs).fatRegionStart + i < args.blockNum := by
  have htable : fs.numSectorsPerFileAllocationTable ≤
      fs.numFileAllocationTables * fs.numSectorsPerFileAllocationTable :=
    Nat.le_mul_of_pos_left _ hl.tables
  have hregions := ha.regions
  simp only [calculateRegions] at hregions ⊢
  generalize fs.numRootDirectoryEntries * 32 / fs.bytesPerSector = r at hregions
  omega

omit ha in
/-- The number 0, which stands for no free cluster, is in the first sector of the table. -/
theorem entrySector_le {c : Nat} (hc : c = 0 ∨ c < numEntries fs) :
    c * 2 / fs.bytesPerSector ≤ fs.numSectorsPerFileAllocationTable := by
  obtain rfl | hc := hc
  · simp
  · exact (hl.geometry.entrySector_lt hc).le

omit ha in
theorem findFirstFreeCluster_entry (d : Disk) :
    Fat.findFirstFreeCluster fs d = 0 ∨ Fat.findFirstFreeCluster fs d < numEntries fs := by
  obtain hnone | hpos := Nat.eq_zero_or_pos (numEntries fs)
  · left
    rw [findFirstFreeCluster_eq hl.even d fun c hc _ => hl.lt_of_entry hc, hnone]
    rfl
  · exact Or.inr (findFirstFreeCluster_lt hl.toLayout hpos d)

theorem inBounds_getSuccessorCluster {c : Nat} (hc : c = 0 ∨ c < numEntries fs) :
    InBounds args fs (getSuccessorCluster fs c) d :=
  inBounds_seq (run_diskRd d _ _ _ _)
    (inBounds_diskRd ha (tableSector_lt hl ha (entrySector_le hl hc)) _ _) trivial

theorem inBounds_setSuccessorCluster {c : Nat} (hc : c = 0 ∨ c < numEntries fs) (v : Nat) :
    InBounds args fs (setSuccessorCluster fs c v) d :=
  have hlt := tableSector_lt hl ha (entrySector_le hl hc)
  inBounds_seq (run_diskRd d _ _ _ _) (inBounds_diskRd ha hlt _ _)
    (inBounds_diskWr ha (Nat.le_add_right _ _) hlt _ _)

theorem inBounds_findFreeIn {is : List Nat}
    (his : ∀ i ∈ is, i < fs.numSectorsPerFileAllocationTable) (x : Buffer) :
    InBounds args fs (findFreeIn fs x is) d := by
  induction is generalizing x with
  | nil => trivial
  | cons i is ih =>
    obtain ⟨hi, his⟩ := List.forall_mem_cons.mp his
    rw [findFreeIn]
    refine inBounds_seq (run_diskRd d _ _ _ _)
      (inBounds_diskRd ha (tableSector_lt hl ha hi.le) _ _) ?_
    dsimp only
    split
    · exact inBounds_pure _
    · exact ih his _

theorem inBounds_findFirstFreeCluster : InBounds args fs (findFirstFreeCluster fs) d :=
  inBounds_findFreeIn hl ha (fun _ hi => List.mem_range.mp hi) zeroBuffer

/-- The cluster has its sectors on the disk. -/
theorem inBounds_loadCluster {c : Nat} (h2 : 2 ≤ c) (hc : c < numEntries fs) (x : Buffer) :
    InBounds args fs (loadCluster fs c x) d := by
  refine admitted_foldlM onDisk (fun i hi x d => ?_) x d
  have hlt := ha.clusters c h2 hc
  have hi := List.mem_range.mp hi
  rw [clusterSector_eq fs h2 (hl.lt_of_entry hc) hi]
  exact inBounds_diskRd ha (by omega) x _

theorem inBounds_writeCluster {c : Nat} (h2 : 2 ≤ c) (hc : c < numEntries fs) (x : Buffer) :
    InBounds args fs (writeCluster fs c x) d := by
  refine admitted_foldlM onDisk (fun i hi _ d => ?_) () d
  have hlt := ha.clusters c h2 hc
  have hi := List.mem_range.mp hi
  rw [clusterSector_eq fs h2 (hl.lt_of_entry hc) hi]
  have hle : fs.numReservedSectors ≤ firstSector fs c :=
    Nat.le_add_right_of_le (Nat.le_add_right_of_le (Nat.le_add_right _ _))
  exact inBounds_diskWr ha (by omega) (by omega) x _

/-- A walk that does not get past the end. -/
theorem inBounds_walkChain {c e n : Nat} {l : List Nat}
    (hp : Path (Fat.getSuccessorCluster fs d) c l e)
    (hin : ∀ a ∈ l, a < numEntries fs) (hn : n ≤ l.length) : InBounds args fs (walkChain fs n c) d := by
  induction n generalizing c l with
  | zero => trivial
  | succ n ih =>
    cases l with
    | nil => simp at hn
    | cons a l =>
      obtain ⟨rfl, hp⟩ := hp
      obtain ⟨ha', hin⟩ := List.forall_mem_cons.mp hin
      rw [walkChain]
      split
      · exact inBounds_seq (run_getSuccessorCluster d a)
          (inBounds_getSuccessorCluster hl ha (Or.inr ha')) (ih hp hin (by simpa using hn))
      · exact inBounds_pure _

theorem inBounds_readClusters {c e : Nat} {l : List Nat}
    (hp : Path (Fat.getSuccessorCluster fs d) c l e) (hin : ∀ a ∈ l, 2 ≤ a ∧ a < numEntries fs) (he : ¬ InChain e) (numBytes fuel : Nat)
    {data : Buffer} (hdata : BlankFrom (bytesPerCluster fs) data) (buf : Buffer) (k : Nat) :
    InBounds args fs (readClusters fs numBytes fuel c data buf k) d := by
  induction fuel generalizing c l data buf k with
  | zero => trivial
  | succ fuel ih =>
    rw [readClusters]
    split
    · next hgo =>
      cases l with
      | nil =>
        obtain rfl : c = e := hp
        exact absurd hgo.1 he
      | cons a l =>
        obtain ⟨rfl, hp⟩ := hp
        obtain ⟨⟨h2, ha'⟩, hin⟩ := List.forall_mem_cons.mp hin
        exact inBounds_seq (run_loadCluster d hdata a) (inBounds_loadCluster hl ha h2 ha' _)
          (inBounds_seq (run_getSuccessorCluster d a) (inBounds_getSuccessorCluster hl ha (Or.inr ha'))
            (ih hp hin (blankFrom_loadCluster d a) _ _))
    · exact inBounds_pure _

/-- The walk to the cluster of an offset inside the file, and the clusters from there on. -/
theorem inBounds_walkToOffset {c₀ o : Nat} {l : List Nat} (hc : FileChain fs d c₀ l)
    (ho : o < l.length * bytesPerCluster fs) :
    InBounds args fs (walkChain fs (dataStartsInCluster fs o) c₀) d ∧
      ∃ a rest e, Fat.walkChain fs d (dataStartsInCluster fs o) c₀ = a ∧
        (2 ≤ a ∧ a < numEntries fs) ∧ (∀ b ∈ rest, 2 ≤ b ∧ b < numEntries fs) ∧ ¬ InChain e ∧
        Path (Fat.getSuccessorCluster fs d) (Fat.getSuccessorCluster fs d a) rest e := by
  obtain ⟨e, -, hchain⟩ := hc.chain hl.toLayout
  obtain ⟨hj, hstarts⟩ := hchain.dataStartsInCluster_eq ho
  rw [hstarts]
  refine ⟨inBounds_walkChain hl ha hchain.path hchain.inTable hj.le, _,
    l.drop (o / bytesPerCluster fs + 1), e,
    hchain.walkChain_eq hj, hc.inTable _ (getD_mem hj),
    fun b hb => hc.inTable b (List.mem_of_mem_drop hb), hchain.stop, ?_⟩
  rw [List.getD_eq_getElem _ _ hj]
  exact hchain.path.behind hj

/-- Reading from inside the clusters of a file. -/
theorem inBounds_readFromFile {c₀ o : Nat} {l : List Nat} (hc : FileChain fs d c₀ l)
    (ho : o < l.length * bytesPerCluster fs) (buf : Buffer) (num : Nat) :
    InBounds args fs (readFromFile fs c₀ o buf num) d := by
  obtain ⟨hwalk, a, rest, e, hat, ⟨h2, hlt⟩, hin, he, hp⟩ := inBounds_walkToOffset hl ha hc ho
  refine inBounds_seq (run_walkChain d _ _) hwalk ?_
  rw [hat]
  exact inBounds_seq (run_loadCluster d blankFrom_zero a) (inBounds_loadCluster hl ha h2 hlt _)
    (inBounds_seq (run_getSuccessorCluster d a) (inBounds_getSuccessorCluster hl ha (Or.inr hlt))
      (inBounds_readClusters hl ha hp hin he _ _ (blankFrom_loadCluster d a) _ _))

theorem inBounds_writePart {c : Nat} (h2 : 2 ≤ c) (hc : c < numEntries fs) {data : Buffer}
    (hdata : BlankFrom (bytesPerCluster fs) data) (i : Nat) (buf : Buffer) (j n : Nat) :
    InBounds args fs (writePart fs c data i buf j n) d :=
  inBounds_seq (run_loadCluster d hdata c) (inBounds_loadCluster hl ha h2 hc _)
    (inBounds_seq (run_writeCluster d c _) (inBounds_writeCluster hl ha h2 hc _) (inBounds_pure _))

omit ha in
/-- A round of the second loop, and what it leaves of the chain. -/
theorem path_writePart {e a : Nat} {l : List Nat}
    (hp : Path (Fat.getSuccessorCluster fs d) (Fat.getSuccessorCluster fs d a) l e)
    (h2 : 2 ≤ a) (hlt : a < numEntries fs) (hin : ∀ b ∈ l, 2 ≤ b ∧ b < numEntries fs)
    (i : Nat) (buf : Buffer) (j n : Nat) :
    Path (Fat.getSuccessorCluster fs (Fat.writePart fs d a i buf j n))
      (Fat.getSuccessorCluster fs (Fat.writePart fs d a i buf j n) a) l e := by
  have hnext {b : Nat} (hb : b < numEntries fs) :=
    getSuccessor_writePart (d := d) (i := i) (j := j) (n := n) hl.geometry hb h2
      (hl.lt_of_entry hlt) buf
  rw [hnext hlt]
  exact hp.congr fun b hb => hnext (hin b hb).2

/-- The data of the clusters changes, and their entries in the table stay. -/
theorem inBounds_writeClusters (buf : Buffer) (numBytes fuel : Nat) {data : Buffer}
    (hdata : BlankFrom (bytesPerCluster fs) data) {v : Fat.WriteState} {e : Nat} {l : List Nat}
    (hp : Path (Fat.getSuccessorCluster fs v.disk) v.currentClusterNum l e)
    (hin : ∀ a ∈ l, 2 ≤ a ∧ a < numEntries fs) (he : ¬ InChain e)
    (hprevious : v.previousClusterNum < numEntries fs) :
    InBounds args fs (writeClusters fs buf numBytes fuel (.of data v)) v.disk ∧
      (Fat.writeClusters fs buf numBytes fuel v).previousClusterNum < numEntries fs := by
  induction fuel generalizing data v l with
  | zero => exact ⟨trivial, hprevious⟩
  | succ fuel ih =>
    rw [writeClusters, Fat.writeClusters]
    by_cases hgo : InChain v.currentClusterNum ∧ v.numBytesWritten < numBytes
    · rw [if_pos hgo, if_pos hgo]
      cases l with
      | nil =>
        have hend : v.currentClusterNum = e := hp
        exact absurd hgo.1 (hend ▸ he)
      | cons a l =>
        obtain ⟨hcur, hp⟩ := hp
        obtain ⟨⟨h2, hlt⟩, hin⟩ := List.forall_mem_cons.mp hin
        rw [hcur] at h2 hlt hp
        obtain ⟨hrest, hlast⟩ := ih (blankFrom_copied v.disk v.currentClusterNum buf numBytes
          v.numBytesWritten) (v := ⟨_, v.currentClusterNum, _, _⟩)
          (path_writePart hl hp h2 hlt hin 0 buf _ _) hin hlt
        exact ⟨inBounds_seq (run_writePart v.disk hdata _ _ buf _ _)
          (inBounds_writePart hl ha h2 hlt hdata _ buf _ _)
          (inBounds_seq (run_getSuccessorCluster _ _)
            (inBounds_getSuccessorCluster hl ha (Or.inr hlt)) hrest), hlast⟩
    · rw [if_neg hgo, if_neg hgo]
      exact ⟨inBounds_pure _, hprevious⟩

theorem inBounds_growClusters (buf : Buffer) (numBytes fuel : Nat) {data : Buffer}
    (hdata : BlankFrom (bytesPerCluster fs) data) {v : Fat.WriteState}
    (hprevious : v.previousClusterNum < numEntries fs) :
    InBounds args fs (growClusters fs buf numBytes fuel (.of data v)) v.disk := by
  induction fuel generalizing data v with
  | zero => trivial
  | succ fuel ih =>
    rw [growClusters]
    by_cases hgo : v.numBytesWritten < numBytes
    · rw [if_pos hgo]
      refine inBounds_seq (run_findFirstFreeCluster v.disk) (inBounds_findFirstFreeCluster hl ha) ?_
      by_cases hc : Fat.findFirstFreeCluster fs v.disk < 2
      · rw [if_pos hc]
        exact inBounds_pure _
      · have h2 := Nat.le_of_not_lt hc
        have hlt := (findFirstFreeCluster_spec hl.toLayout v.disk rfl h2).1
        rw [if_neg hc]
        exact inBounds_seq (run_setSuccessorCluster _ _ _)
          (inBounds_setSuccessorCluster hl ha (Or.inr hprevious) _)
          (inBounds_seq (run_setSuccessorCluster _ _ _)
            (inBounds_setSuccessorCluster hl ha (Or.inr hlt) _)
            (inBounds_seq (run_writePart _ hdata _ _ buf _ _)
              (inBounds_writePart hl ha h2 hlt hdata _ buf _ _)
              (ih (blankFrom_copied _ _ buf numBytes v.numBytesWritten) (v := ⟨_, _, _, _⟩) hlt)))
    · rw [if_neg hgo]
      exact inBounds_pure _

/-- Writing from inside the clusters of a file, also past their end. -/
theorem inBounds_writeToFile {c₀ o : Nat} {l : List Nat} (hc : FileChain fs d c₀ l)
    (ho : o < l.length * bytesPerCluster fs) (buf : Buffer) (num : Nat) :
    InBounds args fs (writeToFile fs c₀ o buf num) d := by
  obtain ⟨hwalk, a, rest, e, hat, ⟨h2, hlt⟩, hin, he, hp⟩ := inBounds_walkToOffset hl ha hc ho
  have hfirst := numBytesInFirstCluster_eq fs o num
  have hoff := dataOffsetInCluster_lt fs o
  have hblank := blankFrom_stdmemCopy (@blankFrom_loadCluster fs d a)
    (show dataOffsetInCluster fs o + numBytesInFirstCluster fs o num ≤ bytesPerCluster fs by omega)
    buf 0
  refine inBounds_seq (run_walkChain d _ _) hwalk ?_
  rw [hat]
  refine inBounds_seq (run_writePart d blankFrom_zero a _ buf _ _)
    (inBounds_writePart hl ha h2 hlt blankFrom_zero _ buf _ _)
    (inBounds_seq (run_getSuccessorCluster _ a)
      (inBounds_getSuccessorCluster hl ha (Or.inr hlt)) ?_)
  obtain ⟨hwrite, hprevious⟩ := inBounds_writeClusters hl ha buf num num hblank
    (v := ⟨_, a, _, _⟩) (path_writePart hl hp h2 hlt hin _ buf _ _) hin he hlt
  obtain ⟨data, hdata, hrun⟩ := run_writeClusters buf num num hblank ⟨_, a, _, _⟩
  obtain ⟨data', hgrow⟩ := run_growClusters buf num num hdata _
  exact inBounds_seq hrun hwrite (inBounds_seq hgrow
    (inBounds_growClusters hl ha buf num num hdata hprevious) (inBounds_pure _))

end Functions

section Directories
variable (hl : DirLayout fs) (ha : Attached args fs)
include hl ha

theorem inBounds_searchDirectory {c e : Nat} {l : List Nat}
    (hp : Path (Fat.getSuccessorCluster fs d) c l e) (he : 0xfff8 ≤ e) (hne : l ≠ [])
    (hin : ∀ a ∈ l, 2 ≤ a ∧ a < numEntries fs) (find : Buffer → Option Nat) (fuel : Nat) {x : Buffer}
    (hx : BlankFrom (bytesPerCluster fs) x) :
    InBounds args fs (searchDirectory fs find fuel c x) d := by
  induction fuel generalizing c l x with
  | zero => trivial
  | succ fuel ih =>
    cases l with
    | nil => exact absurd rfl hne
    | cons a l =>
      obtain ⟨rfl, hp⟩ := hp
      obtain ⟨⟨h2, hlt⟩, hin⟩ := List.forall_mem_cons.mp hin
      rw [searchDirectory]
      refine inBounds_seq (run_loadCluster d hx a) (inBounds_loadCluster hl ha h2 hlt x) ?_
      cases find (Fat.loadCluster fs d a) with
      | some i => exact inBounds_pure _
      | none =>
        refine inBounds_seq (run_getSuccessorCluster d a)
          (inBounds_getSuccessorCluster hl ha (Or.inr hlt)) ?_
        split
        · exact inBounds_pure _
        · next hnext =>
          have hrest : l ≠ [] := by
            rintro rfl
            have hend : Fat.getSuccessorCluster fs d a = e := hp
            omega
          exact ih hp hrest hin (blankFrom_loadCluster d a)

theorem inBounds_searchChain {c : Nat} {l : List Nat} (hc : FileChain fs d c l)
    (find : Buffer → Option Nat) :
    InBounds args fs (searchDirectory fs find walkFuel c zeroBuffer) d := by
  obtain ⟨e, he, hp⟩ := hc.ends
  exact inBounds_searchDirectory hl ha hp he hc.nonempty hc.inTable find _ blankFrom_zero

omit hl in
theorem inBounds_searchRoot (find : Buffer → Option Nat) (fuel : Nat) {s : Nat}
    (hs : s ≤ (calculateRegions fs).dataRegionStart) {x : Buffer}
    (hx : BlankFrom fs.bytesPerSector x) : InBounds args fs (searchRoot fs find fuel s x) d := by
  induction fuel generalizing s x with
  | zero => trivial
  | succ fuel ih =>
    have hblank := blankFrom_diskRd d hx (Nat.zero_add _).le s
    rw [searchRoot]
    refine inBounds_seq (run_diskRd d s x 0 _)
      (inBounds_diskRd ha (hs.trans_lt ha.regions) x 0) ?_
    split
    · exact inBounds_pure _
    · dsimp only
      split
      · exact inBounds_pure _
      · next hnext => exact ih (Nat.le_of_not_lt hnext) hblank

/-- A search of the root directory, and what is done with the sector that it ends at. -/
theorem inBounds_searchRootDirectory {find : Buffer → Option Nat}
    {f : Nat × Buffer × Option Nat → Code α}
    (hf : ∀ a x o, fs.numReservedSectors ≤ a → a < args.blockNum →
      InBounds args fs (f (a, x, o)) d) :
    InBounds args fs (searchRootDirectory fs find >>= f) d := by
  have hstart : (calculateRegions fs).rootDirectoryRegionStart % 2 ^ 16 ≤
      (calculateRegions fs).dataRegionStart := (Nat.mod_le _ _).trans rootRegionStart_le
  obtain ⟨a, o, hsearch, hle, hlt, -⟩ := searchRootDirectory_ends hl find
  have hrun := @run_searchRootDirectory fs d find
  rw [hsearch, Option.map_some] at hrun
  exact inBounds_seq hrun (inBounds_searchRoot ha find walkFuel hstart blankFrom_zero)
    (hf a _ o (by rw [calculateRegions] at hle; dsimp only at hle; omega) (hlt.trans_lt ha.regions))

theorem inBounds_addRootDirectoryEntry (e : DirEntry) :
    InBounds args fs (addRootDirectoryEntry fs e) d := by
  refine inBounds_searchRootDirectory hl ha fun a x o hle hlt => ?_
  cases o with
  | none => exact inBounds_pure _
  | some i =>
    exact inBounds_seq (run_diskWr d _ _ _ _) (inBounds_diskWr ha hle hlt _ 0) (inBounds_pure _)

theorem inBounds_updateRootDirectoryEntry (e : DirEntry) (oldFilename oldExtension : CharPtr) :
    InBounds args fs (updateRootDirectoryEntry fs e oldFilename oldExtension) d := by
  refine inBounds_searchRootDirectory hl ha fun a x o hle hlt => ?_
  cases o with
  | none => exact inBounds_pure _
  | some i =>
    exact inBounds_seq (run_diskWr d _ _ _ _) (inBounds_diskWr ha hle hlt _ 0) (inBounds_pure _)

/-- A search of a subdirectory, and what is done with the cluster that it ends at. -/
theorem inBounds_searchThen {c : Nat} {l : List Nat} (hc : FileChain fs d c l)
    {find : Buffer → Option Nat} {f : Nat × Buffer × Option Nat → Code α}
    (hf : ∀ a x o, 2 ≤ a → a < numEntries fs → InBounds args fs (f (a, x, o)) d) :
    InBounds args fs (searchDirectory fs find walkFuel c zeroBuffer >>= f) d := by
  obtain ⟨a, o, hsearch, hmem, -⟩ := searchDirectory_chain hl.toLayout hc find
  have hrun := run_searchDirectory d find walkFuel c (blankFrom_zero (n := bytesPerCluster fs))
  rw [hsearch, Option.map_some] at hrun
  exact inBounds_seq hrun (inBounds_searchChain hl ha hc find)
    (hf a _ o (hc.inTable a hmem).1 (hc.inTable a hmem).2)

theorem inBounds_addDirectoryEntry {c : Nat} {l : List Nat} (hc : FileChain fs d c l)
    (e : DirEntry) : InBounds args fs (addDirectoryEntry fs c e) d := by
  refine inBounds_searchThen hl ha hc fun a x o h2 hlt => ?_
  cases o with
  | some i =>
    exact inBounds_seq (run_writeCluster d a _) (inBounds_writeCluster hl ha h2 hlt _)
      (inBounds_pure _)
  | none =>
    refine inBounds_seq (run_findFirstFreeCluster d) (inBounds_findFirstFreeCluster hl ha) ?_
    split
    · exact inBounds_pure _
    · next hnew =>
      have hnew2 := Nat.le_of_not_lt hnew
      have hnewlt := (findFirstFreeCluster_spec hl.toLayout d rfl hnew2).1
      exact inBounds_seq (run_setSuccessorCluster d a _)
        (inBounds_setSuccessorCluster hl ha (Or.inr hlt) _)
        (inBounds_seq (run_writeCluster _ _ _) (inBounds_writeCluster hl ha hnew2 hnewlt _)
          (inBounds_pure _))

theorem inBounds_updateDirectoryEntry {c : Nat} {l : List Nat} (hc : FileChain fs d c l)
    (e : DirEntry) (oldFilename oldExtension : CharPtr) :
    InBounds args fs (updateDirectoryEntry fs c e oldFilename oldExtension) d := by
  refine inBounds_searchThen hl ha hc fun a x o h2 hlt => ?_
  cases o with
  | some i =>
    exact inBounds_seq (run_writeCluster d a _) (inBounds_writeCluster hl ha h2 hlt _)
      (inBounds_pure _)
  | none => exact inBounds_pure _

theorem inBounds_listRoot {is : List Nat} (his : ∀ i ∈ is, i < numRootSectors fs) (x : Buffer) :
    InBounds args fs (listRoot fs x is) d := by
  induction is generalizing x with
  | nil => trivial
  | cons i is ih =>
    obtain ⟨hi, his⟩ := List.forall_mem_cons.mp his
    have hroot := (rootSector_behind hl (List.mem_map.mpr ⟨i, List.mem_range.mpr hi, rfl⟩)).2
    rw [listRoot]
    refine inBounds_seq (run_diskRd d _ x 0 _)
      (inBounds_diskRd ha (hroot.trans ha.regions) x 0) ?_
    dsimp only
    split
    · exact inBounds_pure _
    · exact admitted_seq onDisk (ih his _) fun _ _ _ => inBounds_pure _

theorem inBounds_getRootDir : InBounds args fs (getRootDir fs) d :=
  inBounds_listRoot hl ha (fun _ hi => List.mem_range.mp hi) zeroBuffer

theorem inBounds_listChain {c e : Nat} {l : List Nat}
    (hp : Path (Fat.getSuccessorCluster fs d) c l e) (he : ¬ InChain e)
    (hin : ∀ a ∈ l, 2 ≤ a ∧ a < numEntries fs) (fuel : Nat) {x : Buffer}
    (hx : BlankFrom (bytesPerCluster fs) x) : InBounds args fs (listChain fs fuel c x) d := by
  induction fuel generalizing c l x with
  | zero => trivial
  | succ fuel ih =>
    rw [listChain]
    split
    · next hc =>
      cases l with
      | nil =>
        obtain rfl : c = e := hp
        exact absurd hc he
      | cons a l =>
        obtain ⟨rfl, hp⟩ := hp
        obtain ⟨⟨h2, hlt⟩, hin⟩ := List.forall_mem_cons.mp hin
        refine inBounds_seq (run_loadCluster d hx a) (inBounds_loadCluster hl ha h2 hlt x)
          (inBounds_seq (run_getSuccessorCluster d a)
            (inBounds_getSuccessorCluster hl ha (Or.inr hlt)) ?_)
        split
        · exact inBounds_pure _
        · exact admitted_seq onDisk (ih hp hin (blankFrom_loadCluster d a))
            fun _ _ _ => inBounds_pure _
    · exact inBounds_pure _

theorem inBounds_getDir {e : DirEntry}
    (hc : isSubdirectory e.attributes → ∃ l, FileChain fs d e.firstCluster l) :
    InBounds args fs (getDir fs e) d := by
  rw [getDir]
  split
  · next hs =>
    obtain ⟨l, hc⟩ := hc hs
    obtain ⟨end', -, hchain⟩ := hc.chain hl.toLayout
    exact admitted_seq onDisk (inBounds_listChain hl ha hchain.path hchain.stop hc.inTable _
      blankFrom_zero) fun _ _ _ => inBounds_pure _
  · exact inBounds_pure _

/-- A resolver goes into directories of the tree only. -/
theorem inBounds_resolveFuel (hv : DirsValid (listed fs) d) (last inner : CharPtr → DirEntry → Bool)
    (fuel : Nat) (pathname : CharPtr) {ss : List Nat} (hss : Dir (listed fs) d ss) :
    InBounds args fs (resolveFuel fs last inner fuel pathname (entriesOf fs d ss)) d := by
  induction fuel generalizing pathname ss with
  | zero => trivial
  | succ fuel ih =>
    rw [resolveFuel]
    rcases splitPath pathname with - | ⟨part, - | ⟨next, rest⟩⟩
    · exact inBounds_pure _
    · exact inBounds_pure _
    · refine admitted_foldlM_read onDisk (fun f hf result => ?_) none
      have hlisted := listed_of_mem hss hf
      split
      · have hchain (hs : isSubdirectory f.entry.attributes) :
            ∃ l, FileChain fs d f.entry.firstCluster l := by
          obtain ⟨l, hc⟩ := hv _ hlisted.1 (hlisted.2 ▸ hs)
          exact ⟨l, hlisted.2 ▸ hc⟩
        constructor
        · refine inBounds_read (run_getDir d f.entry) (inBounds_getDir hl ha hchain) fun o ho => ?_
          cases o with
          | none => exact inBounds_pure _
          | some nextDir =>
            obtain hnone | ⟨l, -, hdir, hsome⟩ := hlisted.getDir hl.toLayout hv
            · simp [hnone] at ho
            · obtain rfl := Option.some.inj (Option.some.inj (ho.symm.trans hsome))
              exact ih _ hdir
        · intro b t hb
          rw [run_read (run_getDir d f.entry), Option.bind_eq_some_iff] at hb
          obtain ⟨o, -, hb⟩ := hb
          cases o with
          | none => exact (Prod.mk.inj (Option.some.inj hb)).2.symm
          | some nextDir => exact (read_result (run_resolveFuel d last inner fuel _ nextDir) hb).2
      · exact ⟨inBounds_pure _, fun b t hb => (Prod.mk.inj (Option.some.inj hb)).2.symm⟩

/-- A path is looked up from the root. -/
theorem inBounds_findFile (hv : DirsValid (listed fs) d) (pathname : CharPtr) :
    InBounds args fs (findFile fs pathname (Fat.getRootDir fs d)) d := by
  rw [getRootDir_eq]
  exact inBounds_resolveFuel hl ha hv _ _ _ _ .root

theorem inBounds_findDir (hv : DirsValid (listed fs) d) (pathname : CharPtr) :
    InBounds args fs (findDir fs pathname (Fat.getRootDir fs d)) d := by
  rw [getRootDir_eq]
  exact inBounds_resolveFuel hl ha hv _ _ _ _ .root

end Directories

section Calls
variable (hl : DirLayout fs) (ha : Attached args fs) (hv : DirsValid (listed fs) d)
include hl ha hv

theorem inBounds_openFile (t : Tables) (pathname : CharPtr) :
    InBounds args fs (openFile fs t pathname) d := by
  rw [openFile]
  refine inBounds_seq (run_getRootDir d) (inBounds_getRootDir hl ha) ?_
  split
  · exact inBounds_pure _
  · split
    · exact inBounds_pure _
    · refine inBounds_read (run_findFile d _ _) (inBounds_findFile hl ha hv _) fun o _ => ?_
      cases o with
      | none => exact inBounds_pure _
      | some file => exact inBounds_pure _

theorem inBounds_addToDirectory (dirPath : CharPtr) (e : DirEntry) :
    InBounds args fs (addToDirectory fs dirPath e) d := by
  rw [addToDirectory]
  refine inBounds_seq (run_getRootDir d) (inBounds_getRootDir hl ha) ?_
  split
  · exact inBounds_addRootDirectoryEntry hl ha e
  · refine inBounds_read (run_findDir d _ _) (inBounds_findDir hl ha hv _) fun o ho => ?_
    cases o with
    | none => exact inBounds_pure _
    | some dir =>
      obtain ⟨r, hr, hdir⟩ := findDir_ends hl.toLayout hv dirPath
      obtain rfl := Option.some.inj (ho.symm.trans hr)
      obtain ⟨-, -, l, hc⟩ := hdir dir rfl
      exact inBounds_addDirectoryEntry hl ha hc e

theorem inBounds_createNewFile (pathname : CharPtr) (attributes : UInt8) :
    InBounds args fs (createNewFile fs pathname attributes) d := by
  have hfree : (Fat.newFile fs d pathname attributes).firstCluster = 0 ∨
      (Fat.newFile fs d pathname attributes).firstCluster < numEntries fs :=
    findFirstFreeCluster_entry hl d
  rw [createNewFile]
  refine inBounds_seq (run_newFile d pathname attributes) (inBounds_seq (run_findFirstFreeCluster d)
    (inBounds_findFirstFreeCluster hl ha) (inBounds_pure _)) ?_
  refine admitted_seq onDisk (inBounds_addToDirectory hl ha hv _ _) fun result t _ => ?_
  split
  · exact inBounds_pure _
  · exact inBounds_seq (run_setSuccessorCluster t _ _)
      (inBounds_setSuccessorCluster hl ha hfree _) (inBounds_pure _)

theorem inBounds_updateFileDetails (pathname : CharPtr) (e : DirEntry)
    (oldFilename oldExtension : CharPtr) :
    InBounds args fs (updateFileDetails fs pathname e oldFilename oldExtension) d := by
  rw [updateFileDetails]
  refine inBounds_seq (run_getRootDir d) (inBounds_getRootDir hl ha) ?_
  split
  · exact inBounds_pure _
  · refine inBounds_read (run_findFile d _ _) (inBounds_findFile hl ha hv _) fun o _ => ?_
    cases o with
    | none => exact inBounds_pure _
    | some file =>
      dsimp only
      split
      · exact inBounds_updateRootDirectoryEntry hl ha e _ _
      · refine inBounds_read (run_findDir d _ _) (inBounds_findDir hl ha hv _) fun o ho => ?_
        cases o with
        | none => exact inBounds_pure _
        | some dir =>
          obtain ⟨r, hr, hdir⟩ := findDir_ends hl.toLayout hv (toDirectory (pathname.drop 1))
          obtain rfl := Option.some.inj (ho.symm.trans hr)
          obtain ⟨-, -, l, hc⟩ := hdir dir rfl
          exact inBounds_updateDirectoryEntry hl ha hc e _ _

theorem inBounds_sysUnlink (t : Tables) (pathname : CharPtr) :
    InBounds args fs (sysUnlink fs t pathname) d := by
  rw [sysUnlink]
  split
  · exact inBounds_pure _
  · split
    · exact inBounds_pure _
    · refine inBounds_seq (run_getRootDir d) (inBounds_getRootDir hl ha)
        (inBounds_read (run_findFile d _ _) (inBounds_findFile hl ha hv _) fun o _ => ?_)
      cases o with
      | none => exact inBounds_pure _
      | some file =>
        exact admitted_seq onDisk (inBounds_updateFileDetails hl ha hv _ _ _ _)
          fun _ _ _ => inBounds_pure _

theorem inBounds_sysMkdir (t : Tables) (path : CharPtr) : InBounds args fs (sysMkdir fs t path) d := by
  rw [sysMkdir]
  refine inBounds_seq (run_getRootDir d) (inBounds_getRootDir hl ha) ?_
  split
  · exact inBounds_pure _
  · split
    · exact inBounds_pure _
    · refine inBounds_read (run_findFile d _ _) (inBounds_findFile hl ha hv _) fun o _ => ?_
      cases o with
      | some file => exact inBounds_pure _
      | none =>
        exact admitted_seq onDisk (inBounds_createNewFile hl ha hv _ _)
          fun _ _ _ => inBounds_pure _

end Calls

section Guarded
variable (hl : DirLayout fs) (ha : Attached args fs) {s : State} (h : Integral fs s)
include hl ha h

theorem inBounds_sysOpen {pathname : CharPtr} {flags : UInt32}
    (hg : Guard fs s (.openCall pathname flags)) :
    InBounds args fs (sysOpen fs s.tables pathname flags.toNat) s.disk := by
  have hclosed : (s.tables.openFiles.find? fun f => stdstringCompare f.path pathname = 0) =
    findOpenFile s pathname := rfl
  rw [sysOpen, hclosed]
  cases hf : findOpenFile s pathname with
  | some f => exact inBounds_pure _
  | none =>
    refine admitted_seq onDisk (inBounds_openFile hl ha h.dirs.to_listed _ _) fun r d hr => ?_
    rw [run_openFile, Option.map_eq_some_iff] at hr
    obtain ⟨⟨o, s₁⟩, ho, heq⟩ := hr
    obtain ⟨rfl, rfl⟩ := Prod.mk.inj heq
    cases o with
    | some f => exact inBounds_pure _
    | none =>
      obtain ⟨_, s₂, ho', -, hsame⟩ := openFile_integral hl h pathname
      obtain ⟨rfl, rfl⟩ := Prod.mk.inj (Option.some.inj (ho.symm.trans ho'))
      obtain rfl := hsame rfl
      dsimp only
      split
      · exact inBounds_pure _
      · next hc =>
        refine admitted_seq onDisk (inBounds_createNewFile hl ha h.dirs.to_listed _ _)
          fun result d hmade => ?_
        rw [run_createNewFile] at hmade
        obtain ⟨_, d', hmade', hsound⟩ := createNewFile_sound hl h (hg hf ho hc)
        obtain ⟨rfl, rfl⟩ := Prod.mk.inj (Option.some.inj (hmade.symm.trans hmade'))
        split
        · exact inBounds_pure _
        · refine admitted_seq onDisk (inBounds_openFile hl ha hsound.dirs.to_listed _ _)
            fun r _ _ => ?_
          obtain ⟨_ | f, t⟩ := r
          · exact inBounds_pure _
          · exact inBounds_pure _

theorem inBounds_writeAtOffset {f : OpenFile} {l : List Nat}
    (hc : heldBy s.openFiles f.directoryEntry.firstCluster)
    (hch : FileChain fs s.disk f.directoryEntry.firstCluster l)
    (ho : f.offset < l.length * bytesPerCluster fs) (t : Tables) (buf : Buffer) (nbytes : Nat) :
    InBounds args fs (writeAtOffset fs t f buf nbytes) s.disk := by
  obtain ⟨d, k, new, o, hw, hwr, -, -⟩ := writeToFile_guarded hl hch buf (Or.inr ho)
  have hrun := @run_writeToFile fs s.disk f.directoryEntry.firstCluster f.offset buf nbytes
  rw [hw] at hrun
  refine inBounds_seq hrun (inBounds_writeToFile hl ha hch ho buf nbytes) ?_
  split
  · exact inBounds_pure _
  · dsimp only
    split
    · have hv := (h.written hl hc hch hwr).dirs.to_listed
      exact admitted_seq onDisk (inBounds_updateFileDetails hl ha hv _ _ _ _)
        fun _ _ _ => inBounds_pure _
    · exact inBounds_pure _

theorem inBounds_sysWrite {fd : Int} {buf : Buffer} {nbytes : UInt32}
    (hin : Inside fs s (.write fd buf nbytes)) :
    InBounds args fs (sysWrite fs s.tables fd buf nbytes.toNat) s.disk := by
  have hfind : (s.tables.openFiles.find? fun f => f.fd = fd) = findOpenFileByFd s fd := rfl
  rw [sysWrite, hfind]
  by_cases hfd : fd = stdoutFiledesc
  · rw [if_pos hfd]
    exact inBounds_pure _
  · rw [if_neg hfd]
    cases hf : findOpenFileByFd s fd with
    | none => exact inBounds_pure _
    | some f =>
      dsimp only
      by_cases hs : isSubdirectory f.directoryEntry.attributes
      · rw [if_pos hs]
        exact inBounds_pure _
      · rw [if_neg hs]
        obtain ⟨l, hch, ho⟩ := hin hfd f hf hs
        have hentry := settleOffset_directoryEntry f
        exact inBounds_writeAtOffset hl ha h (hentry ▸ ⟨f, (findOpenFileByFd_mem hf).1, hs, rfl⟩)
          (hentry ▸ hch) ho s.tables buf nbytes.toNat

omit h in
theorem inBounds_sysRead {fd : Int} {buf : Buffer} {nbytes : UInt32}
    (hin : Inside fs s (.read fd buf nbytes)) :
    InBounds args fs (sysRead fs s.tables fd buf nbytes.toNat) s.disk := by
  have hfind : (s.tables.openFiles.find? fun f => f.fd = fd) = findOpenFileByFd s fd := rfl
  rw [sysRead, hfind]
  by_cases hfd : fd = stdinFiledesc
  · rw [if_pos hfd]
    exact inBounds_pure _
  · rw [if_neg hfd]
    cases hf : findOpenFileByFd s fd with
    | none => exact inBounds_pure _
    | some f =>
      dsimp only
      by_cases h2 : f.directoryEntry.firstCluster < 2
      · rw [if_pos h2]
        exact inBounds_pure _
      · rw [if_neg h2]
        obtain ⟨l, hch, ho⟩ := hin hfd f hf (Nat.le_of_not_lt h2)
        refine admitted_seq onDisk (inBounds_readFromFile hl ha hch ho buf nbytes.toNat)
          fun r _ _ => ?_
        obtain ⟨buf', n⟩ := r
        dsimp only
        split
        · exact inBounds_pure _
        · exact inBounds_pure _

/-- A call that meets its guard, and reads and writes inside the clusters of its file, addresses
blocks of the disk only. -/
theorem inBounds_call {c : Call} (hg : Guard fs s c) (hin : Inside fs s c) :
    InBounds args fs (call fs s.tables c) s.disk := by
  cases c with
  | openCall pathname flags => exact inBounds_sysOpen hl ha h hg
  | mkdir path => exact inBounds_sysMkdir hl ha h.dirs.to_listed _ _
  | write fd buf nbytes => exact inBounds_sysWrite hl ha h hin
  | read fd buf nbytes =>
    exact admitted_seq onDisk (inBounds_sysRead hl ha hin) fun _ _ _ => inBounds_pure _
  | lseek fd offset whence => exact inBounds_pure _
  | close fd => exact inBounds_pure _
  | unlink pathname => exact inBounds_sysUnlink hl ha h.dirs.to_listed _ _

end Guarded
end Code

section Runs
variable {args : Disk.Args} {fs : Fat16} {s : State} {calls : List Call}

/-- Guarded calls return, and address sectors of the disk. -/
theorem guarded_calls (hl : DirLayout fs) (ha : Attached args fs) (h : Integral fs s)
    (hg : Along (step fs) (fun s c => Guard fs s c ∧ Inside fs s c) calls s) :
    ∃ rs t, callAll fs s calls = some (rs, t) ∧ PartialMachine.run (step fs) calls s = some t ∧
      InBounds args fs (Code.callAll fs s.tables calls) s.disk := by
  induction calls generalizing s with
  | nil => exact ⟨[], s, rfl, rfl, trivial⟩
  | cons c cs ih =>
    obtain ⟨⟨hguard, hin⟩, hrest⟩ := hg
    obtain ⟨r, u, hcall, hu⟩ := call_integral hl h hguard
    have hstep : step fs s c = some u := by simp [step, hcall]
    obtain ⟨rs, t, hall, hrun, hok⟩ := ih hu (hrest u hstep)
    refine ⟨r :: rs, t, ?_, ?_, ?_⟩
    · rw [callAll, hcall]
      simp [hall]
    · rw [PartialMachine.run, hstep]
      exact hrun
    · have hcode := @Code.run_call fs s.tables s.disk c
      rw [show s.tables.on s.disk = s from rfl, hcall] at hcode
      exact Code.inBounds_seq hcode (Code.inBounds_call hl ha h hguard hin)
        (admitted_seq onDisk hok fun _ _ _ => trivial)

/-- In a run of guarded calls on a sound volume the file system code reads blocks of the disk only,
writes none of the reserved ones, and returns what it returns on the volume. -/
theorem guarded_calls_keep_to_blocks (hl : DirLayout fs) (ha : Attached args fs) {d : Disk}
    (hd : Sound fs d fun _ => False)
    (hg : Along (step fs) (fun s c => Guard fs s c ∧ Inside fs s c) calls (fileInitialise d)) :
    ∃ rs t, callAll fs (fileInitialise d) calls = some (rs, t) ∧
      run onDisk (Code.callAll fs (fileInitialise d).tables calls) d =
        some ((rs, t.tables), t.disk) ∧
      InBounds args fs (Code.callAll fs (fileInitialise d).tables calls) d := by
  obtain ⟨rs, t, hcalls, -, hok⟩ := guarded_calls hl ha (integral_initial hd) hg
  refine ⟨rs, t, hcalls, ?_, hok⟩
  exact (Code.run_callAll _ d calls).trans (congrArg (Option.map Code.splitState) hcalls)

end Runs

section Examples

theorem smallVolume_attached : Attached ⟨18, 32⟩ smallVolume where
  sector := rfl
  regions := by decide
  clusters c h2 hc := by
    have : numEntries smallVolume = 16 := by decide
    have : firstSector smallVolume c = 4 + (c - 2) * 1 := rfl
    have : smallVolume.sectorsPerCluster = 1 := rfl
    show firstSector smallVolume c + smallVolume.sectorsPerCluster ≤ 18
    omega

theorem makeAndWrite_inside (buf : Buffer) : Along (step smallVolume)
    (fun s c => Guard smallVolume s c ∧ Inside smallVolume s c) (makeAndWrite buf)
    (fileInitialise emptyDisk) := by
  have hg := makeAndWrite_guarded buf
  refine ⟨⟨hg.1, trivial⟩, fun t ht => ⟨⟨(hg.2 t ht).1, ?_⟩, fun _ _ => trivial⟩⟩
  have hmade := rootPath_made ht
  intro _ f hf _
  obtain rfl := hmade.record hf
  exact ⟨[3], fileChain_three hmade.next, by decide⟩

theorem makeAndWrite_keeps_to_blocks : ∃ rs t,
    callAll smallVolume (fileInitialise emptyDisk) (makeAndWrite fun _ => 0x58) = some (rs, t) ∧
    run onDisk (Code.callAll smallVolume (fileInitialise emptyDisk).tables
      (makeAndWrite fun _ => 0x58)) emptyDisk = some ((rs, t.tables), t.disk) ∧
    InBounds ⟨18, 32⟩ smallVolume (Code.callAll smallVolume (fileInitialise emptyDisk).tables
      (makeAndWrite fun _ => 0x58)) emptyDisk :=
  guarded_calls_keep_to_blocks smallVolume_layout smallVolume_attached emptyDisk_sound
    (makeAndWrite_inside fun _ => 0x58)

end Examples
end MalapropOS.Fat
