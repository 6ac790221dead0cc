import MalapropOS.Fat.Insertion

/-! Which sectors the writers of the root directory touch. Their search goes on to the sector behind
the region, and its sector number has 16 bits. -/
namespace MalapropOS.Fat

/-- A sector of the root directory region. -/
def InRootRegion (fs : Fat16) (s : Nat) : Prop :=
  (calculateRegions fs).rootDirectoryRegionStart ≤ s ∧
    s < (calculateRegions fs).rootDirectoryRegionStart + (calculateRegions fs).rootDirectoryRegionSize

/-- The search reads the sector `s`: the first one, or the next after one in which it found nothing,
unless it then gives up. -/
inductive SearchReads (fs : Fat16) (d : Disk) (find : Buffer → Option Nat) : Nat → Prop
  | first : SearchReads fs d find ((calculateRegions fs).rootDirectoryRegionStart % 2 ^ 16)
  | next {s : Nat} (read : SearchReads fs d find s)
      (missed : find (diskRd d s zeroBuffer 0 fs.bytesPerSector) = none)
      (inside : ¬ (s + 1) % 2 ^ 16 > (calculateRegions fs).rootDirectoryRegionStart +
        (calculateRegions fs).rootDirectoryRegionSize) :
      SearchReads fs d find ((s + 1) % 2 ^ 16)

/-- The search reads sectors of the root directory only. -/
def ReadsInRegion (fs : Fat16) (d : Disk) (find : Buffer → Option Nat) : Prop :=
  ∀ s, SearchReads fs d find s → InRootRegion fs s

/-- A call that has this result writes to sectors of the root directory only. -/
def WritesInRegion (fs : Fat16) (d : Disk) (result : Option (Int × Disk)) : Prop :=
  ∀ r d', result = some (r, d') → ∀ s k, d' s k ≠ d s k → InRootRegion fs s

/-- Every slot of the root directory is in use. -/
def RootInUse (fs : Fat16) (d : Disk) : Prop := ∀ p ∈ slotsOf fs (rootRegion fs), ¬ FreeSlot d p

/-- A sector of the root directory, with a number of 16 bits, has a slot that is looked for. -/
def InReach (fs : Fat16) (d : Disk) (find : Buffer → Option Nat) : Prop :=
  ∃ s, InRootRegion fs s ∧ s < 2 ^ 16 ∧ (find (diskRd d s zeroBuffer 0 fs.bytesPerSector)).isSome

section Search
variable {fs : Fat16} {d : Disk} {find : Buffer → Option Nat}

/-- The sector in which a search ends is one that it reads. -/
theorem searchRoot_reads {fuel s t : Nat} {o : Option Nat} (hs : SearchReads fs d find s)
    (h : searchRoot fs d find fuel s = some (t, o)) : SearchReads fs d find t := by
  induction fuel generalizing s with
  | zero => cases h
  | succ fuel ih =>
    rw [searchRoot] at h
    cases hf : find (diskRd d s zeroBuffer 0 fs.bytesPerSector) with
    | some i =>
      simp only [hf, Option.some.injEq, Prod.mk.injEq] at h
      exact h.1 ▸ hs
    | none =>
      simp only [hf] at h
      split_ifs at h with hn
      · simp only [Option.some.injEq, Prod.mk.injEq] at h
        exact h.1 ▸ hs
      · exact ih (hs.next hf hn) h

/-- Up to the first sector in which it finds a slot, a search reads one sector after the other. -/
theorem SearchReads.le {t : Nat} (hfit : t < 2 ^ 16)
    (hfound : (find (diskRd d t zeroBuffer 0 fs.bytesPerSector)).isSome)
    (hstart : (calculateRegions fs).rootDirectoryRegionStart ≤ t) {s : Nat}
    (h : SearchReads fs d find s) : (calculateRegions fs).rootDirectoryRegionStart ≤ s ∧ s ≤ t := by
  induction h with
  | first =>
    rw [Nat.mod_eq_of_lt (by omega)]
    exact ⟨Nat.le_refl _, hstart⟩
  | @next s read missed inside ih =>
    have hne : s ≠ t := by
      intro he
      rw [he] at missed
      rw [missed] at hfound
      cases hfound
    rw [Nat.mod_eq_of_lt (by omega)]
    omega

/-- Where nothing is found, the next sector is read too. -/
theorem SearchReads.upto (hfit : (calculateRegions fs).rootDirectoryRegionStart < 2 ^ 16) {t : Nat}
    (ht : t < 2 ^ 16) (hend : t ≤ (calculateRegions fs).rootDirectoryRegionStart +
      (calculateRegions fs).rootDirectoryRegionSize)
    (hle : (calculateRegions fs).rootDirectoryRegionStart ≤ t)
    (hmiss : ∀ s, (calculateRegions fs).rootDirectoryRegionStart ≤ s → s < t →
      find (diskRd d s zeroBuffer 0 fs.bytesPerSector) = none) : SearchReads fs d find t := by
  induction t, hle using Nat.le_induction with
  | base =>
    have h : SearchReads fs d find ((calculateRegions fs).rootDirectoryRegionStart % 2 ^ 16) := .first
    rwa [Nat.mod_eq_of_lt hfit] at h
  | succ t hle ih =>
    have hread := ih (by omega) (by omega) fun s hs hlt => hmiss s hs (by omega)
    have hmod : (t + 1) % 2 ^ 16 = t + 1 := Nat.mod_eq_of_lt ht
    have hnext := hread.next (hmiss t hle (Nat.lt_succ_self t)) (by rw [hmod]; omega)
    rwa [hmod] at hnext

theorem rootDirectoryRegionSize_lt (h32 : 32 ∣ fs.bytesPerSector) :
    (calculateRegions fs).rootDirectoryRegionSize < 2 ^ 16 := by
  rw [rootDirectoryRegionSize_eq h32]
  exact (Nat.div_le_self _ _).trans_lt fs.numRootDirectoryEntries_lt

/-- A search stays in the region if and only if there is something to find in reach. -/
theorem readsInRegion_iff (h32 : 32 ∣ fs.bytesPerSector) :
    ReadsInRegion fs d find ↔ InReach fs d find := by
  have hsize := rootDirectoryRegionSize_lt h32
  constructor
  · intro h
    by_contra hno
    have hmiss : ∀ s, InRootRegion fs s → s < 2 ^ 16 →
        find (diskRd d s zeroBuffer 0 fs.bytesPerSector) = none := by
      intro s hs hlt
      by_contra hne
      exact hno ⟨s, hs, hlt, Option.isSome_iff_ne_none.mpr hne⟩
    have hfirst := h _ .first
    have hstart : (calculateRegions fs).rootDirectoryRegionStart < 2 ^ 16 := by
      have := hfirst.1
      have := Nat.mod_lt (calculateRegions fs).rootDirectoryRegionStart (show 0 < 2 ^ 16 by decide)
      omega
    by_cases hend : (calculateRegions fs).rootDirectoryRegionStart +
        (calculateRegions fs).rootDirectoryRegionSize < 2 ^ 16
    · -- the sector behind the region is read
      have hread : SearchReads fs d find ((calculateRegions fs).rootDirectoryRegionStart +
          (calculateRegions fs).rootDirectoryRegionSize) :=
        .upto hstart hend (Nat.le_refl _) (Nat.le_add_right _ _)
          fun s hs hlt => hmiss s ⟨hs, hlt⟩ (by omega)
      have := (h _ hread).2
      omega
    · -- the sector number wraps round to 0
      have hread : SearchReads fs d find (2 ^ 16 - 1) :=
        .upto hstart (by decide) (by omega) (by omega)
          fun s hs hlt => hmiss s ⟨hs, by omega⟩ (by omega)
      have hlast := hmiss (2 ^ 16 - 1) ⟨by omega, by omega⟩ (by decide)
      have hwrap := (h _ (hread.next hlast (by omega))).1
      omega
  · intro h s hs
    obtain ⟨t, ht, hlt, hfound⟩ := h
    have hle := hs.le hlt hfound ht.1
    exact ⟨hle.1, hle.2.trans_lt ht.2⟩

/-- What is stored in the sector that a search ends in is written there. -/
theorem storeInSector_outside {s t i k : Nat} {e : DirEntry} {first : UInt8}
    (h : storeInSector fs d t i e first s k ≠ d s k) : s = t := by
  by_contra hne
  rw [storeInSector, diskWr, if_neg fun hs => hne hs.1] at h
  exact h rfl

theorem WritesInRegion.of_reads (h : ReadsInRegion fs d find) {first : UInt8} {e : DirEntry}
    {result : Option (Int × Disk)}
    (hresult : ∀ r d', result = some (r, d') → d' = d ∨ ∃ s i,
      searchRootDirectory fs d find = some (s, some i) ∧ d' = storeInSector fs d s i e first) :
    WritesInRegion fs d result := by
  intro r d' hr s k hne
  cases hresult r d' hr with
  | inl hsame => exact absurd (by rw [hsame]) hne
  | inr hstored =>
    obtain ⟨t, i, hsearch, rfl⟩ := hstored
    rw [storeInSector_outside hne]
    exact h t (searchRoot_reads .first hsearch)

theorem addRootDirectoryEntry_stores {e : DirEntry} {r : Int} {d' : Disk}
    (h : addRootDirectoryEntry fs d e = some (r, d')) : d' = d ∨ ∃ s i,
      searchRootDirectory fs d (findFirstFreeSpace (sectorEntries fs)) = some (s, some i) ∧
        d' = storeInSector fs d s i e (newFirstByte e) := by
  rw [addRootDirectoryEntry] at h
  obtain ⟨⟨s, o⟩, hs, h⟩ := Option.bind_eq_some_iff.mp h
  cases o with
  | none => exact Or.inl (Prod.mk.inj (Option.some.inj h)).2.symm
  | some i => exact Or.inr ⟨s, i, hs, (Prod.mk.inj (Option.some.inj h)).2.symm⟩

theorem updateRootDirectoryEntry_stores {e : DirEntry} {name extension : CharPtr} {r : Int}
    {d' : Disk} (h : updateRootDirectoryEntry fs d e name extension = some (r, d')) :
    d' = d ∨ ∃ s i,
      searchRootDirectory fs d (findFileSlot (sectorEntries fs) name extension) = some (s, some i) ∧
        d' = storeInSector fs d s i e (CharPtr.at e.filename 0) := by
  rw [updateRootDirectoryEntry] at h
  obtain ⟨⟨s, o⟩, hs, h⟩ := Option.bind_eq_some_iff.mp h
  cases o with
  | none => exact Or.inl (Prod.mk.inj (Option.some.inj h)).2.symm
  | some i => exact Or.inr ⟨s, i, hs, (Prod.mk.inj (Option.some.inj h)).2.symm⟩

theorem RootInUse.not_inReach (h : RootInUse fs d) :
    ¬ InReach fs d (findFirstFreeSpace (sectorEntries fs)) := by
  intro hr
  obtain ⟨s, hs, -, hfound⟩ := hr
  have hnone : (slotsOf fs (rootRegion fs)).find? (fun p => FreeSlot d p) = none :=
    List.find?_eq_none.mpr fun p hp => by simpa using h p hp
  rw [find?_sectors, Option.map_eq_none_iff, List.findSome?_eq_none_iff] at hnone
  have hmem : s ∈ rootRegion fs := by
    refine List.mem_map.mpr ⟨s - (calculateRegions fs).rootDirectoryRegionStart, ?_, ?_⟩
    · have := hs.1
      have := hs.2
      exact List.mem_range.mpr (by omega)
    · have := hs.1
      omega
  rw [Option.map_eq_none_iff.mp (hnone s hmem)] at hfound
  cases hfound

/-- The two writers of the root directory stay in its region, and the first one reports a full
directory, if and only if there is a slot to find in reach: there is none in a full directory. -/
theorem root_writers_in_region_iff (h32 : 32 ∣ fs.bytesPerSector) (d : Disk) (e : DirEntry)
    (name extension : CharPtr) :
    ((ReadsInRegion fs d (findFirstFreeSpace (sectorEntries fs)) ∧
      WritesInRegion fs d (addRootDirectoryEntry fs d e) ∧
      (RootInUse fs d → addRootDirectoryEntry fs d e = some (-1, d))) ↔
      InReach fs d (findFirstFreeSpace (sectorEntries fs))) ∧
    ((ReadsInRegion fs d (findFileSlot (sectorEntries fs) name extension) ∧
      WritesInRegion fs d (updateRootDirectoryEntry fs d e name extension)) ↔
      InReach fs d (findFileSlot (sectorEntries fs) name extension)) := by
  refine ⟨⟨fun h => (readsInRegion_iff h32).mp h.1, fun h => ?_⟩,
    ⟨fun h => (readsInRegion_iff h32).mp h.1, fun h => ?_⟩⟩
  · have hreads := (readsInRegion_iff h32).mpr h
    exact ⟨hreads, .of_reads hreads fun _ _ => addRootDirectoryEntry_stores,
      fun hfull => absurd h hfull.not_inReach⟩
  · have hreads := (readsInRegion_iff h32).mpr h
    exact ⟨hreads, .of_reads hreads fun _ _ => updateRootDirectoryEntry_stores⟩

end Search

section Examples

theorem emptyDisk_root_writers : WritesInRegion smallVolume emptyDisk
      (addRootDirectoryEntry smallVolume emptyDisk entryA) ∧
    WritesInRegion smallVolume emptyDisk
      (updateRootDirectoryEntry smallVolume emptyDisk entryA [] []) := by
  have h32 : 32 ∣ smallVolume.bytesPerSector := by decide
  have h := root_writers_in_region_iff h32 emptyDisk entryA [] []
  exact ⟨(h.1.mpr ⟨2, ⟨by decide, by decide⟩, by decide, by decide +kernel⟩).2.1,
    (h.2.mpr ⟨2, ⟨by decide, by decide⟩, by decide, by decide +kernel⟩).2⟩

/-- Both slots of the root directory are in use, and the clusters are empty. -/
def crowdedDisk : Disk := diskOf [[], [0xf8, 0xff, 0xff, 0xff], [0x41], [0x42]]

/-- The entry goes to the first sector of cluster 2. -/
theorem crowdedDisk_overwritten : RootInUse smallVolume crowdedDisk ∧
    loadCluster smallVolume crowdedDisk 2 0 = 0 ∧
    ∃ d', addRootDirectoryEntry smallVolume crowdedDisk entryA = some (0, d') ∧
      loadCluster smallVolume d' 2 0 = 0x41 ∧
      ¬ WritesInRegion smallVolume crowdedDisk
        (addRootDirectoryEntry smallVolume crowdedDisk entryA) := by
  have hres : (addRootDirectoryEntry smallVolume crowdedDisk entryA).map
      (fun r => (r.1, loadCluster smallVolume r.2 2 0, r.2 4 0)) = some (0, 0x41, 0x41) := by
    decide +kernel
  obtain ⟨⟨r, d'⟩, hd, he⟩ := Option.map_eq_some_iff.mp hres
  simp only [Prod.mk.injEq] at he
  obtain ⟨rfl, hload, hbyte⟩ := he
  have hused : ∀ p ∈ slotsOf smallVolume (rootRegion smallVolume), ¬ FreeSlot crowdedDisk p := by
    decide
  refine ⟨hused, by decide +kernel, d', hd, hload, fun h => ?_⟩
  have hout := (h 0 d' hd 4 0 (by rw [hbyte]; decide)).2
  exact absurd hout (by decide)

end Examples
end MalapropOS.Fat
