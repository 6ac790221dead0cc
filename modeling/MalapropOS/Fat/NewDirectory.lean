import MalapropOS.Fat.Creation

/-! What a new directory lists. `sys_mkdir` marks the cluster of the directory but does not write to
it, so that its slots are those that an older file or directory left there. -/
namespace MalapropOS.Fat
open LinkedChain

/-- `create_new_file` from where its parent directory is found. -/
def createIn (fs : Fat16) (d : Disk) (dir e : DirEntry) : Option (Int × Disk) := do
  let (result, d') ← addDirectoryEntry fs d dir.firstCluster e
  if result ≠ 0 then return (-1, d')
  else return (0, setSuccessorCluster fs d' e.firstCluster 0xFFFF)

/-- The entry of the directory that `sys_mkdir` makes, as it is read back. -/
def newDirectory (fs : Fat16) (d : Disk) (path : CharPtr) : DirEntry :=
  storedEntry (newFile fs d path 0x10) (newFirstByte (newFile fs d path 0x10))

/-- What `sys_getdents` returns for the directory on the disk `d`, however it was opened. -/
def Lists (fs : Fat16) (d : Disk) (dir : DirEntry) (es : List ListEntry) : Prop :=
  ∀ s fd f, s.disk = d → findOpenFileByFd s fd = some f → f.directoryEntry = dir →
    sysGetdents fs s fd = some (some es)

/-- The directory is empty, and a file that is made in it is then its only entry. -/
structure MadeEmpty (fs : Fat16) (d : Disk) (dir : DirEntry) : Prop where
  empty : Lists fs d dir []
  single : ∀ pathname d', createIn fs d dir (newFile fs d pathname 0x0) = some (0, d') →
    ∃ p, Lists fs d' dir [⟨storedEntry (newFile fs d pathname 0x0)
      (newFirstByte (newFile fs d pathname 0x0)), p⟩]

/-- The entry of the new directory goes to a free slot, which is not in the cluster that the
directory gets; the first slot of this cluster is free, and the others would not be listed. -/
structure StartsEmpty (fs : Fat16) (d : Disk) (path : CharPtr) : Prop where
  cluster : 2 ≤ findFirstFreeCluster fs d
  slot : ∃ p, newSlot fs d path = some (some p) ∧
    p.sector ∉ clusterSectors fs (findFirstFreeCluster fs d)
  stale : ∃ q rest, slotsOf fs (clusterSectors fs (findFirstFreeCluster fs d)) = q :: rest ∧
    FreeSlot d q ∧ (scanSlots d rest).1 = []

section Entries
variable {fs : Fat16} {d : Disk} {path : CharPtr}

theorem createNewFile_in {pathname : CharPtr} {attributes : UInt8} {dir : ListEntry}
    (h₀ : CharPtr.at (toDirectory pathname) 0 ≠ 0)
    (hr : findDir fs d (toDirectory pathname) (getRootDir fs d) = some (some dir)) :
    createNewFile fs d pathname attributes =
      createIn fs d dir.entry (newFile fs d pathname attributes) := by
  simp [createNewFile, addToDirectory, createIn, h₀, hr]

theorem newDirectory_attributes : isSubdirectory (newDirectory fs d path).attributes := by
  rw [newDirectory, ← slotEntry_writeSlot (d := d) (p := ⟨0, 0⟩), slotEntry_writeSlot_attributes]
  exact (show isSubdirectory 0x10 = true by decide)

theorem newDirectory_firstCluster (h : findFirstFreeCluster fs d < 2 ^ 16) :
    (newDirectory fs d path).firstCluster = findFirstFreeCluster fs d := by
  rw [newDirectory, ← slotEntry_writeSlot (d := d) (p := ⟨0, 0⟩)]
  exact slotEntry_writeSlot_firstCluster h

/-- The listing, for a record of the directory. -/
theorem lists_iff {dir : DirEntry} {es : List ListEntry} : Lists fs d dir es ↔
    (if dir.firstCluster < 2 then some (some (getRootDir fs d)) else getDir fs d dir) =
      some (some es) := by
  constructor
  · intro h
    have hs := h { fileInitialise d with openFiles := [⟨3, dir, [], 0, false⟩] } 3
      ⟨3, dir, [], 0, false⟩ rfl rfl rfl
    exact hs
  · intro h s fd f hd hf he
    subst hd he
    rw [sysGetdents, hf]
    exact h

theorem sysMkdir_made {s t : State} (h : sysMkdir fs s path = some (0, t)) :
    createNewFile fs s.disk path 0x10 = some (0, t.disk) := by
  unfold sysMkdir at h
  split_ifs at h
  · cases h
  · cases h
  · obtain ⟨found, -, h⟩ := Option.bind_eq_some_iff.mp h
    cases found with
    | some file => cases h
    | none =>
      obtain ⟨⟨result, d⟩, hm, h⟩ := Option.bind_eq_some_iff.mp h
      obtain ⟨rfl, rfl⟩ := Prod.mk.inj (Option.some.inj h)
      exact hm

end Entries

section Lists
variable {fs : Fat16} {d : Disk}

theorem scanSlots_ne_nil {q : Slot} (rest : List Slot) (h : ¬ FreeSlot d q) :
    (scanSlots d (q :: rest)).1 ≠ [] := by
  rw [FreeSlot, not_or] at h
  rw [scanSlots, if_neg h.1, if_neg h.2]
  simp

theorem sectorEntries_pos (hl : DirLayout fs) : 0 < sectorEntries fs :=
  Nat.div_pos (Nat.le_of_dvd fs.bytesPerSector_pos hl.slots) (by decide)

theorem slotsOf_cons (s : Nat) (ss : List Nat) (h : 0 < sectorEntries fs) :
    ∃ rest, slotsOf fs (s :: ss) = ⟨s, 0⟩ :: rest := by
  obtain ⟨n, hn⟩ : ∃ n, sectorEntries fs = n + 1 := ⟨sectorEntries fs - 1, by omega⟩
  rw [slotsOf, List.flatMap_cons, sectorSlots, hn, List.range_succ_eq_map, List.map_cons]
  exact ⟨_, rfl⟩

theorem clusterSectors_cons (fs : Fat16) (c : Nat) :
    ∃ ss, clusterSectors fs c = firstSector fs c :: ss := by
  have hpos := fs.sectorsPerCluster_pos
  obtain ⟨n, hn⟩ : ∃ n, fs.sectorsPerCluster = n + 1 := ⟨fs.sectorsPerCluster - 1, by omega⟩
  rw [clusterSectors, hn, List.range_succ_eq_map, List.map_cons]
  exact ⟨_, rfl⟩

theorem chainSectors_singleton (c : Nat) : chainSectors fs [c] = clusterSectors fs c := by
  simp [chainSectors]

theorem mem_clusterSectors {c s : Nat} : s ∈ clusterSectors fs c ↔
    firstSector fs c ≤ s ∧ s < firstSector fs c + fs.sectorsPerCluster := by
  rw [← chainSectors_singleton, mem_chainSectors]
  simp

theorem cluster_isSlot (hl : DirLayout fs) {c : Nat} {q : Slot}
    (hq : q ∈ slotsOf fs (clusterSectors fs c)) : IsSlot fs q :=
  chainSector_isSlot hl (chainSectors_singleton c ▸ hq)

theorem cluster_first (hl : DirLayout fs) {c : Nat} {q : Slot} {rest : List Slot}
    (hslots : slotsOf fs (clusterSectors fs c) = q :: rest) : q = ⟨firstSector fs c, 0⟩ := by
  obtain ⟨ss, hss⟩ := clusterSectors_cons fs c
  obtain ⟨more, hmore⟩ := slotsOf_cons (firstSector fs c) ss (sectorEntries_pos hl)
  rw [hss, hmore] at hslots
  exact (List.cons.inj hslots).1.symm

section Stored
variable (hl : DirLayout fs) {p q : Slot} (hp : IsSlot fs p) {c : Nat} (hc : c < numEntries fs)
include hl hp hc

/-- Storing an entry and marking its cluster leaves the other slots as they are. -/
theorem stored_kept (hq : IsSlot fs q) (hne : q ≠ p) (e : DirEntry) (first : UInt8) {v k : Nat}
    (hk : k < 32) : setSuccessorCluster fs (writeSlot d p e first) c v q.sector (q.index + k) =
      d q.sector (q.index + k) := by
  rw [slotByte_mark hl hq hc, writeSlot_other hp hq hne hk]

theorem stored_not_free (pathname : CharPtr) (attributes : UInt8) {v : Nat} :
    ¬ FreeSlot (setSuccessorCluster fs (writeSlot d p (newFile fs d pathname attributes)
      (newFirstByte (newFile fs d pathname attributes))) c v) p := by
  obtain ⟨h₀, h₅⟩ := newFirstByte_used fs d pathname attributes
  rw [FreeSlot, firstByte_mark hl hp hc, firstByte_writeSlot_self]
  intro h
  cases h with
  | inl h => exact h₀ h
  | inr h => exact h₅ h

end Stored

/-- The listing of a directory of one cluster. -/
theorem getDir_cluster (hl : Layout fs) {dir : DirEntry} (hs : isSubdirectory dir.attributes)
    (hc : FileChain fs d dir.firstCluster [dir.firstCluster]) : getDir fs d dir =
      some (some (scanSlots d (slotsOf fs (clusterSectors fs dir.firstCluster))).1) := by
  rw [getDir_eq hl hs hc, chainSectors_singleton, scanSlots_fst]
  rfl

theorem fileChain_single {c : Nat} (hc : 2 ≤ c) (hc' : c < numEntries fs)
    (he : getSuccessorCluster fs d c = 0xFFFF) : FileChain fs d c [c] :=
  ⟨by simp, List.nodup_singleton c, by simpa using ⟨hc, hc'⟩, 0xFFFF, by decide, rfl, he⟩

/-- A search that starts with a free slot takes it. -/
theorem findFirstFreeSpace_start {n : Nat} {x : Buffer} (hn : 0 < n)
    (h : x 0 = 0x00 ∨ x 0 = 0xe5) : findFirstFreeSpace n x = some 0 := by
  obtain ⟨m, rfl⟩ : ∃ m, n = m + 1 := ⟨n - 1, by omega⟩
  rw [findFirstFreeSpace, List.range_succ_eq_map, List.findSome?_cons]
  simp [h]

end Lists

section First
variable {fs : Fat16} (hl : DirLayout fs) (hpos : 0 < numEntries fs) {d : Disk} {dir : DirEntry}
include hl hpos

/-- A file that is made in a directory of one cluster whose first slot is free goes there. -/
theorem createIn_first (hs : isSubdirectory dir.attributes)
    (hc : FileChain fs d dir.firstCluster [dir.firstCluster]) {q : Slot} {rest : List Slot}
    (hslots : slotsOf fs (clusterSectors fs dir.firstCluster) = q :: rest) (hfree : FreeSlot d q)
    (pathname : CharPtr) : ∃ d', createIn fs d dir (newFile fs d pathname 0x0) = some (0, d') ∧
      getDir fs d' dir = some (some (⟨storedEntry (newFile fs d pathname 0x0)
        (newFirstByte (newFile fs d pathname 0x0)), q⟩ :: (scanSlots d rest).1)) := by
  have hin := hc.inTable dir.firstCluster (by simp)
  have hlt := hl.lt_of_entry hin.2
  have hq : q ∈ slotsOf fs (clusterSectors fs dir.firstCluster) := by simp [hslots]
  have hslot : ∀ p ∈ slotsOf fs (clusterSectors fs dir.firstCluster), IsSlot fs p :=
    fun _ hp => cluster_isSlot hl hp
  -- the search finds the slot
  have hfind : (slotsOf fs (clusterSectors fs dir.firstCluster)).find? (fun p => FreeSlot d p) =
      some q := by rw [hslots, List.find?_cons_of_pos (by simpa using hfree)]
  rw [find?_clusterSlots hl.slots hin.1 hlt] at hfind
  obtain ⟨i, hi, hqi⟩ := Option.map_eq_some_iff.mp hfind
  obtain ⟨j, hj, hij, -⟩ := findFirstFreeSpace_some hi
  have hstore := storeInCluster_found (d := d) hl hc (List.mem_singleton_self _) ⟨j, hj, hij⟩
    (newFile fs d pathname 0x0) (newFirstByte (newFile fs d pathname 0x0))
  rw [hqi] at hstore
  have hmark := findFirstFreeCluster_lt hl.toLayout hpos d
  refine ⟨setSuccessorCluster fs (writeSlot d q (newFile fs d pathname 0x0)
    (newFirstByte (newFile fs d pathname 0x0))) (findFirstFreeCluster fs d) 0xFFFF, ?_, ?_⟩
  · have hadd : addDirectoryEntry fs d dir.firstCluster (newFile fs d pathname 0x0) =
        some (0, writeSlot d q (newFile fs d pathname 0x0)
          (newFirstByte (newFile fs d pathname 0x0))) := by
      rw [← hstore]
      simp [addDirectoryEntry, walkFuel, searchDirectory, hi]
    rw [createIn, hadd]
    rfl
  · obtain ⟨e, he, -, hend⟩ := hc.ends
    have hsucc : getSuccessorCluster fs d dir.firstCluster = e := hend
    have hother : dir.firstCluster ≠ findFirstFreeCluster fs d := by
      intro heq
      have hzero := (findFirstFreeCluster_spec hl.toLayout d heq.symm hin.1).2.1
      omega
    have hchain : FileChain fs (setSuccessorCluster fs (writeSlot d q (newFile fs d pathname 0x0)
        (newFirstByte (newFile fs d pathname 0x0))) (findFirstFreeCluster fs d) 0xFFFF)
        dir.firstCluster [dir.firstCluster] := by
      refine hc.congr fun a ha => ?_
      rw [List.mem_singleton.mp ha, getSuccessorCluster_set _ hl.even _ _ (by decide),
        if_neg hother, getSuccessorCluster_writeSlot hl.toLayout (hslot q hq) hin.2]
    rw [getDir_cluster hl.toLayout hs hchain, hslots]
    have hnodup : (q :: rest).Nodup := by
      rw [← hslots, ← chainSectors_singleton]
      exact slotsOf_nodup (chainSectors_nodup (List.nodup_singleton _) fun a ha =>
        (List.mem_singleton.mp ha) ▸ hin.1)
    -- marking the cluster of the file leaves the slots alone
    have hkept : ∀ p ∈ q :: rest, ∀ k < 32, setSuccessorCluster fs (writeSlot d q
        (newFile fs d pathname 0x0) (newFirstByte (newFile fs d pathname 0x0)))
        (findFirstFreeCluster fs d) 0xFFFF p.sector (p.index + k) = writeSlot d q
        (newFile fs d pathname 0x0) (newFirstByte (newFile fs d pathname 0x0)) p.sector
          (p.index + k) :=
      fun p hp k _ => slotByte_mark hl (hslot p (hslots ▸ hp)) hmark (p.index + k)
    obtain ⟨h₀, h₅⟩ := newFirstByte_used fs d pathname 0x0
    rw [scanSlots_congr hkept, scanSlots, firstByte_writeSlot_self, if_neg h₀, if_neg h₅,
      slotEntry_writeSlot, scanSlots_congr fun p hp k hk => ?_]
    refine writeSlot_apart (hslot q hq).dvd (hslot p (by simp [hslots, hp])).dvd ?_ hk
    intro he
    exact (List.nodup_cons.mp hnodup).1 (he ▸ hp)

/-- A directory of one cluster is as it should be just in case its first slot is free and what lies
in the others is not listed. -/
theorem madeEmpty_cluster (hs : isSubdirectory dir.attributes)
    (hc : FileChain fs d dir.firstCluster [dir.firstCluster]) : MadeEmpty fs d dir ↔
      ∃ q rest, slotsOf fs (clusterSectors fs dir.firstCluster) = q :: rest ∧ FreeSlot d q ∧
        (scanSlots d rest).1 = [] := by
  have hin := hc.inTable dir.firstCluster (by simp)
  have hlists : ∀ {d' es}, Lists fs d' dir es ↔ getDir fs d' dir = some (some es) := by
    intro d' es
    rw [lists_iff, if_neg (by omega)]
  obtain ⟨q, rest, hslots⟩ :
      ∃ q rest, slotsOf fs (clusterSectors fs dir.firstCluster) = q :: rest := by
    obtain ⟨ss, hss⟩ := clusterSectors_cons fs dir.firstCluster
    obtain ⟨rest, hrest⟩ := slotsOf_cons (firstSector fs dir.firstCluster) ss (sectorEntries_pos hl)
    exact ⟨_, rest, hss ▸ hrest⟩
  constructor
  · intro h
    have hempty := hlists.mp h.empty
    rw [getDir_cluster hl.toLayout hs hc, hslots] at hempty
    have hfree : FreeSlot d q := by
      by_contra hno
      exact scanSlots_ne_nil rest hno (Option.some.inj (Option.some.inj hempty))
    obtain ⟨d', hmade, hlist⟩ := createIn_first hl hpos hs hc hslots hfree []
    obtain ⟨p, hp⟩ := h.single [] d' hmade
    have hp := Option.some.inj (Option.some.inj (hlist.symm.trans (hlists.mp hp)))
    exact ⟨q, rest, hslots, hfree, (List.cons.inj hp).2⟩
  · intro h
    obtain ⟨q', rest', hslots', hfree, hrest⟩ := h
    obtain ⟨rfl, rfl⟩ := List.cons.inj (hslots.symm.trans hslots')
    refine ⟨hlists.mpr ?_, fun pathname d' hmade => ?_⟩
    · rw [getDir_cluster hl.toLayout hs hc, hslots, scanSlots]
      cases hfree with
      | inl h₀ => rw [if_pos h₀]
      | inr h₅ => rw [if_neg (by rw [h₅]; decide), if_pos h₅, hrest]
    · obtain ⟨d₁, hmade', hlist⟩ := createIn_first hl hpos hs hc hslots hfree pathname
      obtain rfl := (Prod.mk.inj (Option.some.inj (hmade.symm.trans hmade'))).2
      rw [hrest] at hlist
      exact ⟨q, hlists.mpr hlist⟩

end First

section Root
variable {fs : Fat16} {d d' : Disk}

theorem resolveFuel_nil {last inner : CharPtr → DirEntry → Bool} (fuel : Nat) (pathname : CharPtr) :
    resolveFuel fs d last inner fuel pathname [] = some none := by
  cases fuel with
  | zero => rfl
  | succ fuel =>
    rw [resolveFuel]
    rcases splitPath pathname with _ | ⟨part, _ | ⟨next, rest⟩⟩
    · rfl
    · rfl
    · rfl

/-- A root directory whose first slot is in use is not empty. -/
theorem getRootDir_ne_nil (hse : 0 < sectorEntries fs) (hroot : 0 < numRootSectors fs)
    (hres : fs.numReservedSectors = 1)
    (h : ¬ FreeSlot d ⟨(calculateRegions fs).rootDirectoryRegionStart, 0⟩) :
    getRootDir fs d ≠ [] := by
  obtain ⟨n, hn⟩ : ∃ n, numRootSectors fs = n + 1 := ⟨numRootSectors fs - 1, by omega⟩
  have hstart : 1 + fs.numSectorsPerFileAllocationTable * fs.numFileAllocationTables + 0 =
      (calculateRegions fs).rootDirectoryRegionStart := by
    simp only [calculateRegions, hres]
    rw [Nat.mul_comm, Nat.add_zero]
  have hss : ∃ ss, rootSectors fs = (calculateRegions fs).rootDirectoryRegionStart :: ss := by
    rw [rootSectors, hn, List.range_succ_eq_map, List.map_cons, hstart]
    exact ⟨_, rfl⟩
  obtain ⟨ss, hss⟩ := hss
  obtain ⟨rest, hrest⟩ := slotsOf_cons (calculateRegions fs).rootDirectoryRegionStart ss hse
  have hscan := scanSlots_ne_nil rest h
  rw [getRootDir_eq, hss]
  rw [← hrest, scanSlots_fst] at hscan
  exact hscan

/-- A search takes the first slot of a sector if that is free. -/
theorem found_at_start {s i : Nat} (hse : 0 < sectorEntries fs)
    (h : findFirstFreeSpace (sectorEntries fs) (diskRd d s zeroBuffer 0 fs.bytesPerSector) = some i)
    (hfree : FreeSlot d ⟨s, 0⟩) : i = 0 := by
  have hlt := slot_in_sector hse (show 0 < 32 by decide)
  have hbyte : diskRd d s zeroBuffer 0 fs.bytesPerSector 0 = firstByte d ⟨s, 0⟩ := by
    rw [diskRd, if_pos (by omega)]
    rfl
  have hstart := findFirstFreeSpace_start (x := diskRd d s zeroBuffer 0 fs.bytesPerSector) hse
    (by rw [hbyte]; exact hfree)
  exact Option.some.inj (h.symm.trans hstart)

/-- A root directory whose first slot is free gets its new entry there. -/
theorem searchRootDirectory_start (hl : DirLayout fs) (hse : 0 < sectorEntries fs) {s : Nat}
    {o : Option Nat} (h : searchRootDirectory fs d (findFirstFreeSpace (sectorEntries fs)) =
      some (s, o)) (hfree : FreeSlot d ⟨(calculateRegions fs).rootDirectoryRegionStart, 0⟩) :
    s = (calculateRegions fs).rootDirectoryRegionStart ∧ o = some 0 := by
  have hfit := hl.rootFits
  have hle : (calculateRegions fs).rootDirectoryRegionStart ≤
    (calculateRegions fs).dataRegionStart := rootRegionStart_le
  have hlt := slot_in_sector hse (show 0 < 32 by decide)
  have hstart := findFirstFreeSpace_start hse
    (x := diskRd d (calculateRegions fs).rootDirectoryRegionStart zeroBuffer 0 fs.bytesPerSector)
    (by rw [diskRd, if_pos (by omega)]; exact hfree)
  rw [searchRootDirectory, Nat.mod_eq_of_lt (by omega), walkFuel, searchRoot, hstart] at h
  obtain ⟨rfl, rfl⟩ := Prod.mk.inj (Option.some.inj h)
  exact ⟨rfl, rfl⟩

end Root

section Made
variable {fs : Fat16} (hl : DirLayout fs) {d : Disk} {path : CharPtr} {p : Slot}
include hl

/-- The slot of a new entry is in the root directory, or in a cluster of the directory on its path. -/
theorem newSlot_place (hv : DirsValid (listed fs) d) (hslot : newSlot fs d path = some (some p)) :
    searchRootDirectory fs d (findFirstFreeSpace (sectorEntries fs)) =
        some (p.sector, some p.index) ∨
      getRootDir fs d ≠ [] ∧ ∃ c l c' i, FileChain fs d c l ∧ c' ∈ l ∧ i < bytesPerCluster fs ∧
        p = clusterSlot fs c' i := by
  by_cases hdir : CharPtr.at (toDirectory path) 0 = 0
  · left
    rw [newSlot, directorySlot_root hdir] at hslot
    obtain ⟨⟨s, o⟩, hs, ho⟩ := Option.map_eq_some_iff.mp hslot
    obtain ⟨i, rfl, rfl⟩ := Option.map_eq_some_iff.mp ho
    exact hs
  · right
    cases hr : findDir fs d (toDirectory path) (getRootDir fs d) with
    | none =>
      rw [newSlot, directorySlot, if_neg hdir, hr] at hslot
      cases hslot
    | some found =>
      cases found with
      | none =>
        rw [newSlot, directorySlot_missing hdir hr] at hslot
        cases hslot
      | some dir =>
        obtain ⟨-, -, -, l, hc, -⟩ := findDir_dirAt hl hv hr
        rw [newSlot, directorySlot_sub hdir hr] at hslot
        obtain ⟨c, o, hs, hcl, ho⟩ :=
          searchDirectory_chain hl.toLayout hc (findFirstFreeSpace (clusterEntries fs))
        rw [hs] at hslot
        obtain ⟨i, rfl, rfl⟩ := Option.map_eq_some_iff.mp (Option.some.inj hslot)
        obtain ⟨j, hj, rfl, -⟩ := findFirstFreeSpace_some ho
        have hroom := clusterSlot_room hj
        refine ⟨fun hnil => ?_, _, l, c, j * 32, hc, hcl, by omega, rfl⟩
        rw [hnil, findDir, resolveFuel_nil] at hr
        cases hr

/-- The root directory that a new entry is found through is not empty afterwards. -/
theorem rootDir_made (hv : DirsValid (listed fs) d) (hpos : 0 < numEntries fs)
    (hres : fs.numReservedSectors = 1) (hroot : 0 < numRootSectors fs)
    (hslot : newSlot fs d path = some (some p)) (hp : IsSlot fs p) (e : DirEntry) {first : UInt8}
    (h₀ : first ≠ 0x00) (h₅ : first ≠ 0xe5) : getRootDir fs (setSuccessorCluster fs
      (writeSlot d p e first) (findFirstFreeCluster fs d) 0xFFFF) ≠ [] := by
  have hse := sectorEntries_pos hl
  have hmark := findFirstFreeCluster_lt hl.toLayout hpos d
  cases newSlot_place hl hv hslot with
  | inl hs =>
    -- the first slot of the root directory was in use, or it is the one that was taken
    have hq : IsSlot fs ⟨(calculateRegions fs).rootDirectoryRegionStart, 0⟩ :=
      ⟨rootRegionStart_behind hl.toLayout, 0, hse, rfl⟩
    refine getRootDir_ne_nil hse hroot hres fun hfree => ?_
    rw [FreeSlot, firstByte_mark hl hq hmark] at hfree
    by_cases heq : (⟨(calculateRegions fs).rootDirectoryRegionStart, 0⟩ : Slot) = p
    · rw [heq, firstByte_writeSlot_self] at hfree
      cases hfree with
      | inl h => exact h₀ h
      | inr h => exact h₅ h
    · rw [firstByte_writeSlot_other hp hq heq] at hfree
      obtain ⟨hsector, hi⟩ := searchRootDirectory_start hl hse hs hfree
      refine heq ?_
      rw [← hsector, ← Option.some.inj hi]
  | inr hsub =>
    -- the entry is in a subdirectory, which the root directory leads to
    obtain ⟨hne, -, -, c, i, -, -, -, rfl⟩ := hsub
    have hbehind : (calculateRegions fs).dataRegionStart ≤ firstSector fs c := Nat.le_add_right _ _
    have hsame : getRootDir fs (setSuccessorCluster fs (writeSlot d (clusterSlot fs c i) e first)
        (findFirstFreeCluster fs d) 0xFFFF) = getRootDir fs d := by
      rw [getRootDir_eq, getRootDir_eq]
      refine entriesOf_congr fun s hs k _ => ?_
      have hlt := rootSector_behind hl hs
      by_contra hne
      rw [slotByte_mark hl (p := ⟨s, 0⟩) ⟨hlt.1, 0, hse, rfl⟩ hmark] at hne
      have hps : s = firstSector fs c + i / fs.bytesPerSector := (writeSlot_frame hne).1
      have hle : firstSector fs c ≤ s := hps ▸ Nat.le_add_right _ _
      omega
    rw [hsame]
    exact hne

variable (hpos : 0 < numEntries fs)
include hpos

omit hpos in
/-- A new directory has one cluster, the one that its entry names. -/
theorem newDirectory_chain {d' : Disk} (h2 : 2 ≤ findFirstFreeCluster fs d)
    (hmark : getSuccessorCluster fs d' (findFirstFreeCluster fs d) = 0xFFFF) :
    FileChain fs d' (newDirectory fs d path).firstCluster
      [(newDirectory fs d path).firstCluster] := by
  have hlt := (findFirstFreeCluster_spec hl.toLayout d rfl h2).1
  rw [newDirectory_firstCluster (hl.lt_of_entry hlt)]
  exact fileChain_single h2 hlt hmark

omit hpos in
/-- If the first slot of a free cluster is free, then the slot of a new entry is that one, or it is
not in the cluster. -/
theorem newSlot_outside (hv : DirsValid (listed fs) d)
    (hslot : newSlot fs d path = some (some p)) (h2 : 2 ≤ findFirstFreeCluster fs d)
    (hfree : FreeSlot d ⟨firstSector fs (findFirstFreeCluster fs d), 0⟩)
    (hne : ⟨firstSector fs (findFirstFreeCluster fs d), 0⟩ ≠ p) :
    p.sector ∉ clusterSectors fs (findFirstFreeCluster fs d) := by
  intro hin
  obtain ⟨hle, hlt⟩ := mem_clusterSectors.mp hin
  cases newSlot_place hl hv hslot with
  | inl hs =>
    -- only the first sector behind the root directory is searched
    obtain ⟨t, o, ht, -, hend, hfound⟩ :=
      searchRootDirectory_ends (d := d) hl (findFirstFreeSpace (sectorEntries fs))
    obtain ⟨rfl, rfl⟩ := Prod.mk.inj (Option.some.inj (ht.symm.trans hs))
    have hstart : (calculateRegions fs).dataRegionStart ≤
      firstSector fs (findFirstFreeCluster fs d) := Nat.le_add_right _ _
    have hsector : firstSector fs (findFirstFreeCluster fs d) = p.sector := by omega
    rw [hsector] at hfree hne
    have hindex := found_at_start (sectorEntries_pos hl) hfound hfree
    refine hne ?_
    rw [← hindex]
  | inr hsub =>
    obtain ⟨-, c, l, c', i, hc, hcl, hi, rfl⟩ := hsub
    have hq := sector_lt fs hi
    rw [show (clusterSlot fs c' i).sector = firstSector fs c' + i / fs.bytesPerSector from rfl]
      at hle hlt
    obtain ⟨j, hj⟩ : ∃ j, firstSector fs c' + i / fs.bytesPerSector =
        firstSector fs (findFirstFreeCluster fs d) + j := ⟨_, (Nat.add_sub_of_le hle).symm⟩
    have hsame := firstSector_disjoint fs (hc.inTable c' hcl).1 h2 hq (by omega) hj
    exact hc.successor_ne_zero c' hcl
      (hsame.1 ▸ (findFirstFreeCluster_spec hl.toLayout d rfl h2).2.1)

/-- A directory whose entry went to a free slot is as it should be if and only if that slot and the
stale ones in its cluster allow it. -/
theorem made_at_iff (hv : DirsValid (listed fs) d) (hslot : newSlot fs d path = some (some p))
    (h2 : 2 ≤ findFirstFreeCluster fs d) : MadeEmpty fs (setSuccessorCluster fs
      (writeSlot d p (newFile fs d path 0x10) (newFirstByte (newFile fs d path 0x10)))
      (findFirstFreeCluster fs d) 0xFFFF) (newDirectory fs d path) ↔ StartsEmpty fs d path := by
  obtain ⟨hlt, hzero, -⟩ := findFirstFreeCluster_spec hl.toLayout d rfl h2
  obtain ⟨-, hs, -⟩ := createNewFile_at hl hv hslot 0x10
  have hchain : FileChain fs (setSuccessorCluster fs (writeSlot d p (newFile fs d path 0x10)
      (newFirstByte (newFile fs d path 0x10))) (findFirstFreeCluster fs d) 0xFFFF)
      (newDirectory fs d path).firstCluster [(newDirectory fs d path).firstCluster] :=
    newDirectory_chain hl h2 (by
      rw [getSuccessorCluster_set _ hl.even _ _ (by decide), if_pos rfl])
  -- apart from the slot of the entry, the cluster is as it was
  have hkept : ∀ q ∈ slotsOf fs (clusterSectors fs (findFirstFreeCluster fs d)), q ≠ p →
      ∀ k < 32, setSuccessorCluster fs (writeSlot d p (newFile fs d path 0x10)
        (newFirstByte (newFile fs d path 0x10))) (findFirstFreeCluster fs d) 0xFFFF q.sector
          (q.index + k) = d q.sector (q.index + k) := by
    intro q hq hne k hk
    exact stored_kept hl hs hlt (cluster_isSlot hl hq) hne _ _ hk
  rw [madeEmpty_cluster hl hpos newDirectory_attributes hchain,
    newDirectory_firstCluster (hl.lt_of_entry hlt)]
  constructor
  · intro h
    obtain ⟨q, rest, hslots, hfree, hrest⟩ := h
    have hq : q ∈ slotsOf fs (clusterSectors fs (findFirstFreeCluster fs d)) := by simp [hslots]
    have hqp : q ≠ p := by
      intro he
      exact stored_not_free hl hs hlt path 0x10 (he ▸ hfree)
    obtain rfl := cluster_first hl hslots
    have hbyte := hkept _ hq hqp 0 (by decide)
    have hfree' : FreeSlot d ⟨firstSector fs (findFirstFreeCluster fs d), 0⟩ := by
      rw [FreeSlot, firstByte, ← Nat.add_zero (0 : Nat), ← hbyte]
      exact hfree
    have hout := newSlot_outside hl hv hslot h2 hfree' hqp
    have hrest' : ∀ r ∈ rest, r ≠ p := by
      intro r hr he
      exact hout (he ▸ (mem_slotsOf.mp (hslots ▸ List.mem_cons_of_mem _ hr)).1)
    refine ⟨h2, ⟨p, hslot, hout⟩, _, rest, hslots, hfree', ?_⟩
    rw [← hrest]
    refine congrArg Prod.fst (scanSlots_congr fun r hr k hk => ?_).symm
    exact hkept r (hslots ▸ List.mem_cons_of_mem _ hr) (hrest' r hr) k hk
  · intro h
    obtain ⟨p', hslot', hout⟩ := h.slot
    obtain rfl := Option.some.inj (Option.some.inj (hslot.symm.trans hslot'))
    obtain ⟨q, rest, hslots, hfree, hrest⟩ := h.stale
    have hne : ∀ r ∈ q :: rest, r ≠ p := by
      intro r hr he
      exact hout (he ▸ (mem_slotsOf.mp (hslots ▸ hr)).1)
    refine ⟨q, rest, hslots, ?_, ?_⟩
    · have hbyte := hkept q (by simp [hslots]) (hne q (by simp)) 0 (by decide)
      rw [FreeSlot, firstByte, ← Nat.add_zero q.index, hbyte]
      exact hfree
    · rw [← hrest]
      refine congrArg Prod.fst (scanSlots_congr fun r hr k hk => ?_)
      exact hkept r (hslots ▸ List.mem_cons_of_mem _ hr) (hne r (List.mem_cons_of_mem _ hr)) k hk

/-- A directory for which its parent grew starts with its own entry. -/
theorem not_madeEmpty_grown {dir : ListEntry} {before after : List Nat} {z : Nat}
    (hg : Grows fs d path dir before z after) : ¬ MadeEmpty fs (grownDisk fs d z
      (findFirstFreeCluster fs d) (newFile fs d path 0x10) (newFirstByte (newFile fs d path 0x10)))
      (newDirectory fs d path) := by
  intro h
  have hlt := hg.full.inTable
  obtain ⟨h₀, h₅⟩ := newFirstByte_used fs d path 0x10
  have hchain : FileChain fs (grownDisk fs d z (findFirstFreeCluster fs d)
      (newFile fs d path 0x10) (newFirstByte (newFile fs d path 0x10)))
      (newDirectory fs d path).firstCluster [(newDirectory fs d path).firstCluster] :=
    newDirectory_chain hl hg.full.start (by rw [hg.full.successor_eq hl.toLayout hlt, if_pos rfl])
  rw [madeEmpty_cluster hl hpos newDirectory_attributes hchain,
    newDirectory_firstCluster (hl.lt_of_entry hlt)] at h
  obtain ⟨q, rest, hslots, hfree, -⟩ := h
  have hq : q = clusterSlot fs (findFirstFreeCluster fs d) (0 * 32) := by
    rw [cluster_first hl hslots]
    simp [clusterSlot]
  have hbyte := hg.full.new_byte hl (newFile fs d path 0x10)
    (newFirstByte (newFile fs d path 0x10)) (clusterEntries_pos hl) (show 0 < 32 by decide)
  rw [Nat.add_zero, ← hq] at hbyte
  rw [FreeSlot, firstByte, hbyte] at hfree
  cases hfree with
  | inl h => exact h₀ h
  | inr h => exact h₅ h

/-- The directory that `sys_mkdir` makes is empty, and takes a file as its only entry, if the cluster
it gets allows that. Where the root directory is listed from its first slot, only then. -/
theorem made_empty_iff {s t : State} (hv : DirsValid (listed fs) s.disk)
    (h : sysMkdir fs s path = some (0, t)) :
    (StartsEmpty fs s.disk path → MadeEmpty fs t.disk (newDirectory fs s.disk path)) ∧
      (fs.numReservedSectors = 1 → 0 < numRootSectors fs →
        MadeEmpty fs t.disk (newDirectory fs s.disk path) → StartsEmpty fs s.disk path) := by
  have hmade := sysMkdir_made h
  have hroom : HasRoom fs s.disk path := by
    by_contra hno
    have hfull := createNewFile_full hl hv hno 0x10
    exact absurd (hmade.symm.trans hfull) (by simp)
  cases hroom with
  | inl hslot =>
    obtain ⟨p, hslot⟩ := hslot
    obtain ⟨hat, hs, -⟩ := createNewFile_at hl hv hslot 0x10
    rw [(Prod.mk.inj (Option.some.inj (hmade.symm.trans hat))).2]
    by_cases h2 : 2 ≤ findFirstFreeCluster fs s.disk
    · have hiff := made_at_iff hl hpos hv hslot h2
      exact ⟨hiff.mpr, fun _ _ => hiff.mp⟩
    · refine ⟨fun hstart => absurd hstart.cluster h2, fun hres hroot hempty => ?_⟩
      -- without a cluster of its own the directory lists the root directory
      obtain ⟨h₀, h₅⟩ := newFirstByte_used fs s.disk path 0x10
      have hlists := lists_iff.mp hempty.empty
      rw [if_pos (by rw [newDirectory_firstCluster (by omega)]; omega)] at hlists
      exact absurd (Option.some.inj (Option.some.inj hlists))
        (rootDir_made hl hv hpos hres hroot hslot hs _ h₀ h₅)
  | inr hgrow =>
    obtain ⟨hfull, h2⟩ := hgrow
    obtain ⟨dir, before, z, after, hg, hgrown⟩ := createNewFile_grown hl hv hfull h2 0x10
    rw [(Prod.mk.inj (Option.some.inj (hmade.symm.trans hgrown))).2]
    refine ⟨fun hstart => ?_, fun _ _ hempty => absurd hempty (not_madeEmpty_grown hl hpos hg)⟩
    obtain ⟨p, hslot, -⟩ := hstart.slot
    exact absurd (hfull.2.1.symm.trans hslot) (by simp)

end Made

section Examples

theorem emptyDisk_startsEmpty : StartsEmpty smallVolume emptyDisk rootPath :=
  ⟨by decide +kernel, ⟨⟨2, 0⟩, by decide +kernel, by decide +kernel⟩,
    ⟨5, 0⟩, [], by decide +kernel, by decide, rfl⟩

theorem emptyDisk_made_empty : ∃ t,
    sysMkdir smallVolume (fileInitialise emptyDisk) rootPath = some (0, t) ∧
      MadeEmpty smallVolume t.disk (newDirectory smallVolume emptyDisk rootPath) := by
  have hres : (sysMkdir smallVolume (fileInitialise emptyDisk) rootPath).map Prod.fst = some 0 := by
    decide +kernel
  obtain ⟨⟨r, t⟩, ht, hr⟩ := Option.map_eq_some_iff.mp hres
  obtain rfl : r = 0 := hr
  exact ⟨t, ht, (made_empty_iff smallVolume_layout (by decide) emptyDisk_sound.dirs.to_listed
    ht).1 emptyDisk_startsEmpty⟩

/-- The same volume, where cluster 3 still holds an entry of a directory that was deleted. -/
def staleDisk : Disk := diskOf [[], [0xf8, 0xff, 0xff, 0xff, 0xff, 0xff], [], [], [],
  slotOf 0x41 0x41 0x54 0x58 0x54 0x00 7 9]

theorem staleDisk_sound : Sound smallVolume staleDisk fun _ => False :=
  sound_of_empty (by decide +kernel)

/-- The directory `/BB.TXT` is made, is opened, and lists the file `AA.TXT`. -/
theorem staleDisk_lists_stale : WellFormed smallVolume staleDisk ∧
    ∃ t u es, sysMkdir smallVolume (fileInitialise staleDisk) rootPath = some (0, t) ∧
      sysOpen smallVolume t rootPath 0 = some (3, u) ∧
      sysGetdents smallVolume u 3 = some (some es) ∧ es ≠ [] ∧
      ¬ MadeEmpty smallVolume t.disk (newDirectory smallVolume staleDisk rootPath) := by
  have hres : ((sysMkdir smallVolume (fileInitialise staleDisk) rootPath).bind fun r =>
      (sysOpen smallVolume r.2 rootPath 0).bind fun o => (sysGetdents smallVolume o.2 3).map fun es =>
        (r.1, o.1, es.map List.length)) = some (0, 3, some 1) := by decide +kernel
  have hlist : ((sysMkdir smallVolume (fileInitialise staleDisk) rootPath).bind fun r =>
      (getDir smallVolume r.2.disk (newDirectory smallVolume staleDisk rootPath)).map
        fun es => es.map List.length) = some (some 1) := by decide +kernel
  obtain ⟨⟨r, t⟩, ht, hres⟩ := Option.bind_eq_some_iff.mp hres
  obtain ⟨⟨fd, u⟩, hu, hres⟩ := Option.bind_eq_some_iff.mp hres
  obtain ⟨es, hes, hres⟩ := Option.map_eq_some_iff.mp hres
  simp only [Prod.mk.injEq] at hres
  obtain ⟨rfl, rfl, hlen⟩ := hres
  obtain ⟨es, rfl, hone⟩ := Option.map_eq_some_iff.mp hlen
  refine ⟨staleDisk_sound.wellFormed smallVolume_layout, t, u, es, ht, hu, hes, ?_, fun hm => ?_⟩
  · rintro rfl
    cases hone
  · have hdir := lists_iff.mp hm.empty
    rw [if_neg (by decide +kernel)] at hdir
    rw [ht, Option.bind_some, hdir] at hlist
    cases hlist

end Examples
end MalapropOS.Fat
