import MalapropOS.Fat.Changes
import MalapropOS.Fat.Syscalls

/-! Which slot the metadata of a file goes to. `update_file_details` and `create_new_file` come
down to a search of one directory for a slot and to storing one entry there. -/
namespace MalapropOS.Fat
open LinkedChain

/-- The slot that a search of the directory `dirPath` finds. `find` is given the number of
entries of a sector or of a cluster. -/
def directorySlot (fs : Fat16) (d : Disk) (dirPath : CharPtr) (find : Nat → Buffer → Option Nat) :
    Option (Option Slot) := do
  if CharPtr.at dirPath 0 = 0 then
    let (s, i) ← searchRootDirectory fs d (find (sectorEntries fs))
    return i.map fun i => ⟨s, i⟩
  else
    match ← findDir fs d dirPath (getRootDir fs d) with
    | none => return none
    | some dir =>
      let (c, i) ← searchDirectory fs d (find (clusterEntries fs)) walkFuel dir.entry.firstCluster
      return i.map (clusterSlot fs c)

/-- The slot that `update_file_details` stores the entry in. -/
def updateSlot (fs : Fat16) (d : Disk) (pathname oldFilename oldExtension : CharPtr) :
    Option (Option Slot) := do
  if CharPtr.at pathname 0 ≠ slash then return none
  else
    match ← findFile fs d (pathname.drop 1) (getRootDir fs d) with
    | none => return none
    | some _ =>
      directorySlot fs d (toDirectory (pathname.drop 1))
        (findFileSlot · oldFilename oldExtension)

/-- The slot that `create_new_file` takes, unless it has to add a cluster to the directory. -/
def newSlot (fs : Fat16) (d : Disk) (pathname : CharPtr) : Option (Option Slot) :=
  directorySlot fs d (toDirectory pathname) findFirstFreeSpace

/-- The file is to be made in a subdirectory without a free slot. -/
def FullSubdirectory (fs : Fat16) (d : Disk) (pathname : CharPtr) : Prop :=
  CharPtr.at (toDirectory pathname) 0 ≠ 0 ∧ newSlot fs d pathname = some none ∧
    ∃ dir, findDir fs d (toDirectory pathname) (getRootDir fs d) = some (some dir)

section Places
variable {fs : Fat16} {d : Disk}

theorem directorySlot_root {dirPath : CharPtr} (h₀ : CharPtr.at dirPath 0 = 0)
    (find : Nat → Buffer → Option Nat) : directorySlot fs d dirPath find =
      (searchRootDirectory fs d (find (sectorEntries fs))).map fun r =>
        r.2.map fun i => ⟨r.1, i⟩ := by
  rw [directorySlot, if_pos h₀]
  cases searchRootDirectory fs d (find (sectorEntries fs)) <;> rfl

theorem directorySlot_missing {dirPath : CharPtr} (h₀ : CharPtr.at dirPath 0 ≠ 0)
    (hr : findDir fs d dirPath (getRootDir fs d) = some none) (find : Nat → Buffer → Option Nat) :
    directorySlot fs d dirPath find = some none := by
  rw [directorySlot, if_neg h₀, hr]
  rfl

theorem directorySlot_sub {dirPath : CharPtr} (h₀ : CharPtr.at dirPath 0 ≠ 0) {dir : ListEntry}
    (hr : findDir fs d dirPath (getRootDir fs d) = some (some dir))
    (find : Nat → Buffer → Option Nat) : directorySlot fs d dirPath find =
      (searchDirectory fs d (find (clusterEntries fs)) walkFuel dir.entry.firstCluster).map fun r =>
        r.2.map (clusterSlot fs r.1) := by
  rw [directorySlot, if_neg h₀, hr]
  simp only [Option.bind_eq_bind, Option.bind_some]
  cases searchDirectory fs d (find (clusterEntries fs)) walkFuel dir.entry.firstCluster <;> rfl

theorem clusterSlot_mem (hl : DirLayout fs) {c i j : Nat} {l : List Nat} (hc : c ∈ l)
    (hj : j < clusterEntries fs) (hi : i = j * 32) :
    clusterSlot fs c i ∈ slotsOf fs (chainSectors fs l) := by
  have hb := fs.bytesPerSector_pos
  have hlt : i < fs.bytesPerSector * fs.sectorsPerCluster := by
    have := Nat.div_mul_le_self (bytesPerCluster fs) 32
    rw [clusterEntries] at hj
    rw [bytesPerCluster] at this hj
    omega
  have hq : i / fs.bytesPerSector < fs.sectorsPerCluster := Nat.div_lt_of_lt_mul hlt
  have hm : i % fs.bytesPerSector < fs.bytesPerSector := Nat.mod_lt _ hb
  have hd : 32 ∣ i % fs.bytesPerSector := (Nat.dvd_mod_iff hl.slots).mpr ⟨j, by omega⟩
  have hs := hl.slots
  refine mem_slotsOf.mpr ⟨mem_chainSectors.mpr ⟨c, hc, Nat.le_add_right _ _,
    Nat.add_lt_add_left hq _⟩, i % fs.bytesPerSector / 32, ?_, ?_⟩
  · rw [sectorEntries]
    omega
  · show i % fs.bytesPerSector = _
    omega

theorem loadCluster_slot (hl : DirLayout fs) {c i k : Nat} (hc : 2 ≤ c) (hc' : c < 2 ^ 16)
    (hi : 32 ∣ i) (hi' : i + 32 ≤ bytesPerCluster fs) (hk : k < 32) :
    loadCluster fs d c (i + k) =
      d (clusterSlot fs c i).sector ((clusterSlot fs c i).index + k) := by
  have hb := fs.bytesPerSector_pos
  have hdm := Nat.div_add_mod i fs.bytesPerSector
  have hroom : i % fs.bytesPerSector + k < fs.bytesPerSector := by
    have hlt := Nat.mod_lt i hb
    have hs := hl.slots
    have hdvd : 32 ∣ i % fs.bytesPerSector := (Nat.dvd_mod_iff hs).mpr hi
    omega
  have hq : i / fs.bytesPerSector < fs.sectorsPerCluster :=
    Nat.div_lt_of_lt_mul (show i < bytesPerCluster fs by omega)
  have he : i + k = i / fs.bytesPerSector * fs.bytesPerSector + (i % fs.bytesPerSector + k) := by
    rw [Nat.mul_comm]
    omega
  rw [he, loadCluster_sector d hc hc' hq hroom]
  rfl

theorem searchRootDirectory_ends (hl : DirLayout fs) (find : Buffer → Option Nat) :
    ∃ s o, searchRootDirectory fs d find = some (s, o) ∧
      (calculateRegions fs).rootDirectoryRegionStart ≤ s ∧
      s ≤ (calculateRegions fs).dataRegionStart ∧
      find (diskRd d s zeroBuffer 0 fs.bytesPerSector) = o := by
  have hfit := hl.rootFits
  have hle : (calculateRegions fs).rootDirectoryRegionStart ≤
      (calculateRegions fs).dataRegionStart := rootRegionStart_le
  rw [searchRootDirectory, Nat.mod_eq_of_lt (by omega)]
  exact searchRoot_ends hfit hle (by rw [walkFuel]; omega)

/-- The directory that `find_dir` finds. -/
theorem findDir_ends (hl : Layout fs) (hv : DirsValid (listed fs) d) (dirPath : CharPtr) :
    ∃ r, findDir fs d dirPath (getRootDir fs d) = some r ∧
      ∀ f ∈ r, Listed fs d f ∧ isSubdirectory f.entry.attributes ∧
        ∃ l, FileChain fs d f.entry.firstCluster l := by
  rw [findDir, getRootDir_eq]
  obtain ⟨r, hr, hf⟩ := resolveFuel_listed hl hv .root
  refine ⟨r, hr, fun f hm => ?_⟩
  obtain ⟨hli, part, hp⟩ := hf f hm
  have hs : isSubdirectory f.entry.attributes := by
    simp only [decide_eq_true_eq] at hp
    exact hp.1
  refine ⟨hli, hs, ?_⟩
  obtain ⟨l, hc⟩ := hv _ hli.1 (hli.2 ▸ hs)
  exact ⟨l, hli.2 ▸ hc⟩

theorem findFile_ends (hl : Layout fs) (hv : DirsValid (listed fs) d) (pathname : CharPtr) :
    ∃ r, findFile fs d pathname (getRootDir fs d) = some r ∧ ∀ f ∈ r, Listed fs d f := by
  rw [findFile, getRootDir_eq]
  obtain ⟨r, hr, hf⟩ := resolveFuel_listed hl hv .root
  exact ⟨r, hr, fun f hm => (hf f hm).1⟩

/-- The search of the directory of a path: in the root region, in the clusters of a subdirectory, or
in none at all, when `find_dir` finds no directory. -/
inductive DirSearch (fs : Fat16) (d : Disk) (dirPath : CharPtr) (find : Nat → Buffer → Option Nat) :
    Prop
  | root {s : Nat} {o : Option Nat} (path : CharPtr.at dirPath 0 = 0)
      (search : searchRootDirectory fs d (find (sectorEntries fs)) = some (s, o))
      (behind : (calculateRegions fs).rootDirectoryRegionStart ≤ s)
      (found : find (sectorEntries fs) (diskRd d s zeroBuffer 0 fs.bytesPerSector) = o) :
      DirSearch fs d dirPath find
  | missing (path : CharPtr.at dirPath 0 ≠ 0)
      (resolved : findDir fs d dirPath (getRootDir fs d) = some none) : DirSearch fs d dirPath find
  | sub {dir : ListEntry} {l : List Nat} {c : Nat} {o : Option Nat}
      (path : CharPtr.at dirPath 0 ≠ 0)
      (resolved : findDir fs d dirPath (getRootDir fs d) = some (some dir))
      (reached : Listed fs d dir) (subdirectory : isSubdirectory dir.entry.attributes)
      (chain : FileChain fs d dir.entry.firstCluster l) (mem : c ∈ l)
      (search : searchDirectory fs d (find (clusterEntries fs)) walkFuel dir.entry.firstCluster =
        some (c, o))
      (found : find (clusterEntries fs) (loadCluster fs d c) = o) : DirSearch fs d dirPath find

theorem dirSearch (hl : DirLayout fs) (hv : DirsValid (listed fs) d) (dirPath : CharPtr)
    (find : Nat → Buffer → Option Nat) : DirSearch fs d dirPath find := by
  by_cases h₀ : CharPtr.at dirPath 0 = 0
  · obtain ⟨s, o, hs, hle, -, ho⟩ := searchRootDirectory_ends (d := d) hl (find (sectorEntries fs))
    exact .root h₀ hs hle ho
  · obtain ⟨r, hr, hf⟩ := findDir_ends hl.toLayout hv dirPath
    cases r with
    | none => exact .missing h₀ hr
    | some dir =>
      obtain ⟨hli, hsub, l, hc⟩ := hf dir rfl
      obtain ⟨c, o, hs, hm, ho⟩ := searchDirectory_chain hl.toLayout hc (find (clusterEntries fs))
      exact .sub h₀ hr hli hsub hc hm hs ho

/-- A search has a result, and a slot that it finds passes the test of the search. -/
theorem directorySlot_ends (hl : DirLayout fs) (hv : DirsValid (listed fs) d) (dirPath : CharPtr)
    {find : Nat → Buffer → Option Nat} (test : Buffer → Prop)
    (htest : ∀ u v : Buffer, (∀ k < 32, v k = u k) → test u → test v)
    (hfind : ∀ n x i, find n x = some i → (∃ j < n, i = j * 32) ∧ test fun k => x (i + k)) :
    ∃ r, directorySlot fs d dirPath find = some r ∧
      ∀ p ∈ r, IsSlot fs p ∧ test fun k => d p.sector (p.index + k) := by
  cases dirSearch hl hv dirPath find with
  | @root s o path search behind found =>
    refine ⟨o.map fun i => ⟨s, i⟩, by rw [directorySlot_root path, search]; rfl, ?_⟩
    intro _ hp
    obtain ⟨i, rfl, rfl⟩ := Option.map_eq_some_iff.mp hp
    obtain ⟨⟨j, hj, rfl⟩, ht⟩ := hfind _ _ _ found
    refine ⟨⟨(rootRegionStart_behind hl.toLayout).trans behind, j, hj, Nat.mul_comm _ _⟩,
      htest _ _ (fun k hk => ?_) ht⟩
    have hlt := slot_in_sector hj hk
    rw [diskRd, if_pos (by omega), Nat.sub_zero]
  | missing path resolved => exact ⟨none, directorySlot_missing path resolved find, by simp⟩
  | @sub dir l c o path resolved reached subdirectory chain mem search found =>
    refine ⟨o.map (clusterSlot fs c), by rw [directorySlot_sub path resolved, search]; rfl, ?_⟩
    intro _ hp
    obtain ⟨i, rfl, rfl⟩ := Option.map_eq_some_iff.mp hp
    obtain ⟨⟨j, hj, hi⟩, ht⟩ := hfind _ _ _ found
    have hin := chain.inTable c mem
    have hmem := clusterSlot_mem hl mem hj hi
    have hroom : i + 32 ≤ bytesPerCluster fs := by
      have := Nat.div_mul_le_self (bytesPerCluster fs) 32
      rw [clusterEntries] at hj
      omega
    obtain ⟨ss, hss, hq⟩ := reached.1
    have hdir : Dir (listed fs) d (chainSectors fs l) :=
      .sub hss hq (reached.2 ▸ subdirectory) (reached.2 ▸ chain)
    refine ⟨hdir.isSlot hl hmem, htest _ _ (fun k hk => ?_) ht⟩
    exact (loadCluster_slot hl hin.1 (hl.lt_of_entry hin.2) ⟨j, by omega⟩ hroom hk).symm

theorem newSlot_ends (hl : DirLayout fs) (hv : DirsValid (listed fs) d) (pathname : CharPtr) :
    ∃ r, newSlot fs d pathname = some r ∧
      ∀ p ∈ r, IsSlot fs p ∧ (firstByte d p = 0x00 ∨ firstByte d p = 0xe5) := by
  refine directorySlot_ends hl hv (toDirectory pathname) (fun u => u 0 = 0x00 ∨ u 0 = 0xe5) ?_ ?_
  · intro u v h hu
    rwa [h 0 (by decide)]
  · intro n x i h
    obtain ⟨j, hj, hi, ht⟩ := findFirstFreeSpace_some h
    exact ⟨⟨j, hj, hi⟩, ht⟩

/-- What the raw search compares of a slot: the first character of the name, and the whole
extension. -/
structure SlotMatch (name ext : CharPtr) (u : Buffer) : Prop where
  first : u 0 = CharPtr.at name 0 ∨ u 0 = 0x20 ∧ CharPtr.at name 0 = 0
  extension : ∀ j < 3, u (0x08 + j) = CharPtr.at ext j

theorem SlotMatch.of_slotMatches {x : Buffer} {j : Nat} {name ext : CharPtr}
    (h : slotMatches x j name ext = true) : SlotMatch name ext fun k => x (j * 32 + k) := by
  refine ⟨by simpa using slotMatches_first h, fun i hi => ?_⟩
  simp only [slotMatches, Bool.and_eq_true, extensionMatches, List.all_eq_true, List.mem_range,
    decide_eq_true_eq] at h
  rw [← h.2 i hi, Nat.add_assoc]

theorem updateSlot_ends (hl : DirLayout fs) (hv : DirsValid (listed fs) d)
    (pathname name ext : CharPtr) :
    ∃ r, updateSlot fs d pathname name ext = some r ∧
      ∀ p ∈ r, IsSlot fs p ∧ SlotMatch name ext fun k => d p.sector (p.index + k) := by
  rw [updateSlot]
  by_cases hsl : CharPtr.at pathname 0 = slash
  · obtain ⟨r, hr, -⟩ := findFile_ends hl.toLayout hv (pathname.drop 1)
    cases r with
    | none => exact ⟨none, by rw [if_neg (by simp [hsl]), hr]; rfl, by simp⟩
    | some f =>
      have hcongr : ∀ u v : Buffer, (∀ k < 32, v k = u k) → SlotMatch name ext u →
          SlotMatch name ext v := fun u v h hu =>
        ⟨by rw [h 0 (by decide)]; exact hu.first,
          fun j hj => by rw [h _ (by omega)]; exact hu.extension j hj⟩
      obtain ⟨r, hd, hp⟩ := directorySlot_ends hl hv (toDirectory (pathname.drop 1))
        (SlotMatch name ext) hcongr fun n x i (h : findFileSlot n name ext x = some i) => by
          obtain ⟨j, hj, rfl, ht⟩ := findFileSlot_some h
          exact ⟨⟨j, hj, rfl⟩, .of_slotMatches ht⟩
      refine ⟨r, ?_, hp⟩
      rw [if_neg (by simp [hsl]), hr]
      exact hd
  · exact ⟨none, by rw [if_pos hsl]; rfl, by simp⟩

/-- A cluster that `find_dir` or `find_file` leads to is one that can be stored in. -/
theorem storeInCluster_found (hl : DirLayout fs) {c c₀ i : Nat} {l : List Nat}
    (hc : FileChain fs d c₀ l) (hm : c ∈ l) (hi : ∃ j < clusterEntries fs, i = j * 32) (e : DirEntry)
    (first : UInt8) : storeInCluster fs d c i e first = writeSlot d (clusterSlot fs c i) e first := by
  obtain ⟨j, hj, rfl⟩ := hi
  have hin := hc.inTable c hm
  have := Nat.div_mul_le_self (bytesPerCluster fs) 32
  rw [clusterEntries] at hj
  exact storeInCluster_eq hl.slots d hin.1 (hl.lt_of_entry hin.2) e first (Dvd.intro_left j rfl)
    (by omega)

theorem storeInSector_found {s i : Nat} (hi : ∃ j < sectorEntries fs, i = j * 32) (e : DirEntry)
    (first : UInt8) : storeInSector fs d s i e first = writeSlot d ⟨s, i⟩ e first := by
  obtain ⟨j, hj, rfl⟩ := hi
  have := slot_in_sector hj (show 31 < 32 by decide)
  exact storeInSector_eq d e first (by omega)

end Places

section Storing
variable {fs : Fat16} {d : Disk} (hl : DirLayout fs) (hv : DirsValid (listed fs) d)
include hl hv

theorem updateDirectory_eq (dirPath name ext : CharPtr) (e : DirEntry) :
    (if CharPtr.at dirPath 0 = 0 then updateRootDirectoryEntry fs d e name ext
      else do
        match ← findDir fs d dirPath (getRootDir fs d) with
        | none => return (-1, d)
        | some dir => updateDirectoryEntry fs d dir.entry.firstCluster e name ext) =
    (directorySlot fs d dirPath (findFileSlot · name ext)).map fun
      | none => (-1, d)
      | some p => (0, writeSlot d p e (CharPtr.at e.filename 0)) := by
  rw [directorySlot]
  cases dirSearch hl hv dirPath (findFileSlot · name ext) with
  | @root _ o path search _ found =>
    cases o with
    | none => simp [path, updateRootDirectoryEntry, search]
    | some i =>
      obtain ⟨j, hj, hi, -⟩ := findFileSlot_some found
      simp [path, updateRootDirectoryEntry, search, storeInSector_found ⟨j, hj, hi⟩]
  | missing path resolved => simp [path, resolved]
  | @sub _ _ _ o path resolved _ _ chain mem search found =>
    cases o with
    | none => simp [path, resolved, updateDirectoryEntry, search]
    | some i =>
      obtain ⟨j, hj, hi, -⟩ := findFileSlot_some found
      simp [path, resolved, updateDirectoryEntry, search,
        storeInCluster_found hl chain mem ⟨j, hj, hi⟩]

/-- `update_file_details` stores the entry in the slot that it reaches, or does nothing. -/
theorem updateFileDetails_eq (pathname name ext : CharPtr) (e : DirEntry) :
    updateFileDetails fs d pathname e name ext =
      (updateSlot fs d pathname name ext).map fun
        | none => (-1, d)
        | some p => (0, writeSlot d p e (CharPtr.at e.filename 0)) := by
  rw [updateFileDetails, updateSlot]
  by_cases hsl : CharPtr.at pathname 0 = slash
  · obtain ⟨r, hr, -⟩ := findFile_ends hl.toLayout hv (pathname.drop 1)
    have h := updateDirectory_eq hl hv (toDirectory (pathname.drop 1)) name ext e
    cases r with
    | none =>
      simp only [hsl, hr, ne_eq, not_true_eq_false, if_false, Option.bind_eq_bind, Option.bind_some]
      rfl
    | some f =>
      simp only [hsl, hr, ne_eq, not_true_eq_false, if_false, Option.bind_eq_bind, Option.bind_some]
      exact h
  · simp [hsl]

theorem addToDirectory_eq (pathname : CharPtr) (e : DirEntry)
    (hg : FullSubdirectory fs d pathname → findFirstFreeCluster fs d < 2) :
    addToDirectory fs d (toDirectory pathname) e = (newSlot fs d pathname).map fun
      | none => (-1, d)
      | some p => (0, writeSlot d p e (newFirstByte e)) := by
  have hns : newSlot fs d pathname =
    directorySlot fs d (toDirectory pathname) findFirstFreeSpace := rfl
  rw [hns, directorySlot, addToDirectory]
  cases dirSearch hl hv (toDirectory pathname) findFirstFreeSpace with
  | @root _ o path search _ found =>
    cases o with
    | none => simp [path, addRootDirectoryEntry, search]
    | some i =>
      obtain ⟨j, hj, hi, -⟩ := findFirstFreeSpace_some found
      simp [path, addRootDirectoryEntry, search, storeInSector_found ⟨j, hj, hi⟩]
  | missing path resolved => simp [path, resolved]
  | @sub dir _ _ o path resolved _ _ chain mem search found =>
    cases o with
    | none =>
      have hfull : FullSubdirectory fs d pathname :=
        ⟨path, by rw [hns, directorySlot]; simp [path, resolved, search], dir, resolved⟩
      simp [path, resolved, addDirectoryEntry, search, hg hfull]
    | some i =>
      obtain ⟨j, hj, hi, -⟩ := findFirstFreeSpace_some found
      simp [path, resolved, addDirectoryEntry, search,
        storeInCluster_found hl chain mem ⟨j, hj, hi⟩]

/-- `create_new_file` where it does not add a cluster to the directory. -/
theorem createNewFile_eq (pathname : CharPtr) (attributes : UInt8)
    (hg : FullSubdirectory fs d pathname → findFirstFreeCluster fs d < 2) :
    createNewFile fs d pathname attributes =
      (newSlot fs d pathname).map fun
        | none => (-1, d)
        | some p => (0, setSuccessorCluster fs
            (writeSlot d p (newFile fs d pathname attributes)
              (newFirstByte (newFile fs d pathname attributes)))
            (findFirstFreeCluster fs d) 0xFFFF) := by
  rw [createNewFile, addToDirectory_eq hl hv pathname _ hg]
  cases newSlot fs d pathname with
  | none => rfl
  | some o => cases o <;> rfl

end Storing

section Congruence
variable {fs : Fat16} (hl : DirLayout fs) {d d' : Disk} {dirPath : CharPtr}
include hl

/-- A search of a subdirectory has the same result on two disks with the same directories. -/
theorem SameDirs.directorySlot_eq (hsame : SameDirs (listed fs) d d')
    (hv : DirsValid (listed fs) d) (h₀ : CharPtr.at dirPath 0 ≠ 0)
    (find : Nat → Buffer → Option Nat) :
    directorySlot fs d' dirPath find = directorySlot fs d dirPath find := by
  have hfd : findDir fs d' dirPath (getRootDir fs d') = findDir fs d dirPath (getRootDir fs d) :=
    hsame.resolve_eq hl.toLayout hv _ _ _ _
  obtain ⟨r, hr, hf⟩ := findDir_ends hl.toLayout hv dirPath
  cases r with
  | none => rw [directorySlot_missing h₀ hr, directorySlot_missing h₀ (hfd.trans hr)]
  | some dir =>
    obtain ⟨hli, hsub, m, hm⟩ := hf dir rfl
    obtain ⟨e, he, hp⟩ := hm.ends
    obtain ⟨ss, hss, hq⟩ := hli.1
    have hdir : Dir (listed fs) d (chainSectors fs m) :=
      .sub hss hq (hli.2 ▸ hsub) (hli.2 ▸ hm)
    have hload : ∀ a ∈ m, loadCluster fs d' a = loadCluster fs d a := by
      intro a ha
      have hin := hm.inTable a ha
      refine loadCluster_congr hin.1 (hl.lt_of_entry hin.2) fun s k hb => ?_
      exact hsame.bytes _ hdir s (mem_chainSectors.mpr ⟨a, ha, hb.1, hb.2.1⟩) k hb.2.2
    rw [directorySlot_sub h₀ (hfd.trans hr), directorySlot_sub h₀ hr,
      searchDirectory_congr hp he hm.nonempty
        (hsame.links _ m hli.1 (hli.2 ▸ hsub) (hli.2 ▸ hm)) hload]

/-- A search of the root directory, on two disks that agree on its region. -/
theorem directorySlot_root_congr
    (hd : ∀ s k, (calculateRegions fs).rootDirectoryRegionStart ≤ s →
      s < (calculateRegions fs).dataRegionStart → d' s k = d s k)
    (h₀ : CharPtr.at dirPath 0 = 0) {find : Nat → Buffer → Option Nat} {q : Slot}
    (hu : directorySlot fs d' dirPath find = some (some q)) :
    directorySlot fs d dirPath find = some (some q) ∨
      q.sector = (calculateRegions fs).dataRegionStart ∧
        ∃ k < fs.bytesPerSector, d' q.sector k ≠ d q.sector k := by
  rw [directorySlot_root h₀] at hu ⊢
  obtain ⟨⟨s, i⟩, hs, hi⟩ := Option.map_eq_some_iff.mp hu
  obtain ⟨i, rfl, rfl⟩ := Option.map_eq_some_iff.mp hi
  have hfit := hl.rootFits
  have hle : (calculateRegions fs).rootDirectoryRegionStart ≤
    (calculateRegions fs).dataRegionStart := rootRegionStart_le
  rw [searchRootDirectory, Nat.mod_eq_of_lt (by omega)] at hs ⊢
  cases searchRoot_congr (d := d) hfit hle (fun a ha ha' k _ => hd a k ha ha') hs with
  | inl hs => exact Or.inr hs
  | inr hs =>
    left
    rw [hs]
    rfl

end Congruence

section Written
variable {fs : Fat16} (hl : DirLayout fs) {d d' : Disk} {c o n : Nat} {l new : List Nat}
  {buf : Buffer}
include hl

/-- The root directory is not changed by writing to a file. -/
theorem Written.root_eq (hc : FileChain fs d c l) (hw : Written fs d c l o buf n d' new) {s k : Nat}
    (hs : (calculateRegions fs).rootDirectoryRegionStart ≤ s)
    (hs' : s < (calculateRegions fs).dataRegionStart) : d' s k = d s k := by
  by_contra hne
  obtain ⟨a, ha, hd | ⟨hf, -⟩⟩ := hw.frame s k hne
  · have := hd.1
    have hle : (calculateRegions fs).dataRegionStart ≤ firstSector fs a := Nat.le_add_right _ _
    omega
  · have := rootRegionStart_behind hl.toLayout
    have := hl.geometry.entrySector_lt (hw.inTable hc a ha).2
    have := hf.1
    omega

/-- A search after writing to a file finds what it found before, or a slot in the clusters of
the file itself: the sector behind the root directory may be one of theirs. -/
theorem directorySlot_written (hv : DirsValid (listed fs) d) (hsame : SameDirs (listed fs) d d')
    (hc : FileChain fs d c l) (hw : Written fs d c l o buf n d' new) {dirPath : CharPtr}
    {find : Nat → Buffer → Option Nat} {q : Slot}
    (hu : directorySlot fs d' dirPath find = some (some q)) :
    directorySlot fs d dirPath find = some (some q) ∨
      ∃ a ∈ l ++ new, ∀ k < fs.bytesPerSector, DataByte fs a q.sector k := by
  by_cases h₀ : CharPtr.at dirPath 0 = 0
  · refine (directorySlot_root_congr hl (fun s k => hw.root_eq hl hc) h₀ hu).imp_right ?_
    intro ⟨hs, k, hk, hne⟩
    obtain ⟨a, ha, hd | ⟨hf, -⟩⟩ := hw.frame _ k hne
    · exact ⟨a, ha, fun k' hk' => ⟨hd.1, hd.2.1, hk'⟩⟩
    · have := data_behind_table hl.toLayout
      have := hl.geometry.entrySector_lt (hw.inTable hc a ha).2
      have := hf.1
      omega
  · left
    rwa [← hsame.directorySlot_eq hl hv h₀]

theorem updateSlot_written (hv : DirsValid (listed fs) d) (hsame : SameDirs (listed fs) d d')
    (hc : FileChain fs d c l) (hw : Written fs d c l o buf n d' new) {pathname name ext : CharPtr}
    {q : Slot} (hu : updateSlot fs d' pathname name ext = some (some q)) :
    updateSlot fs d pathname name ext = some (some q) ∨
      ∃ a ∈ l ++ new, ∀ k < fs.bytesPerSector, DataByte fs a q.sector k := by
  have hff : findFile fs d' (pathname.drop 1) (getRootDir fs d') =
      findFile fs d (pathname.drop 1) (getRootDir fs d) := hsame.resolve_eq hl.toLayout hv _ _ _ _
  rw [updateSlot, hff] at hu
  rw [updateSlot]
  by_cases hsl : CharPtr.at pathname 0 = slash
  · obtain ⟨r, hr, -⟩ := findFile_ends hl.toLayout hv (pathname.drop 1)
    simp only [hsl, hr, ne_eq, not_true_eq_false, if_false, Option.bind_eq_bind, Option.bind_some]
      at hu ⊢
    cases r with
    | none => simp at hu
    | some f => exact directorySlot_written hl hv hsame hc hw hu
  · simp [hsl] at hu

/-- A slot of the tree that a search finds is also found after writing to a file. -/
theorem updateSlot_kept (hv : DirsValid (listed fs) d) (hsame : SameDirs (listed fs) d d')
    (hc : FileChain fs d c l) (hw : Written fs d c l o buf n d' new) {pathname name ext : CharPtr}
    {q : Slot} (hu : updateSlot fs d pathname name ext = some (some q))
    (hr : Reach (listed fs) d q) : updateSlot fs d' pathname name ext = some (some q) := by
  have hff : findFile fs d' (pathname.drop 1) (getRootDir fs d') =
      findFile fs d (pathname.drop 1) (getRootDir fs d) := hsame.resolve_eq hl.toLayout hv _ _ _ _
  rw [updateSlot] at hu
  rw [updateSlot, hff]
  by_cases hsl : CharPtr.at pathname 0 = slash
  · obtain ⟨r, hr', -⟩ := findFile_ends hl.toLayout hv (pathname.drop 1)
    simp only [hsl, hr', ne_eq, not_true_eq_false, if_false, Option.bind_eq_bind, Option.bind_some]
      at hu ⊢
    cases r with
    | none => simp at hu
    | some f =>
      by_cases h₀ : CharPtr.at (toDirectory (pathname.drop 1)) 0 = 0
      · refine (directorySlot_root_congr hl (fun s k h₁ h₂ => (hw.root_eq hl hc h₁ h₂).symm)
          h₀ hu).resolve_right ?_
        rintro ⟨-, k, hk, hne⟩
        obtain ⟨ss, hss, hq⟩ := hr
        have hs := (mem_slotsOf.mp ((listed fs).subset _ _ hq)).1
        exact hne (hsame.bytes ss hss _ hs k hk).symm
      · dsimp only at hu ⊢
        rwa [hsame.directorySlot_eq hl hv h₀]
  · simp [hsl] at hu

end Written
end MalapropOS.Fat
