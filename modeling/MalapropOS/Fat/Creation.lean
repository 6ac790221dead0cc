import MalapropOS.Fat.Insertion
import MalapropOS.Fat.Reopen

/-! The cluster that a new file is given. It is taken from the whole table, it is looked for once
more when the directory grows, and it is marked last. -/
namespace MalapropOS.Fat
open LinkedChain

/-- The directory grew as it should for the entry of a new file: by a cluster that is not the file's
own, and its listing by this entry. -/
structure GrewExactly (fs : Fat16) (d d' : Disk) (dir : DirEntry) (l : List Nat) (e : DirEntry) :
    Prop where
  grown : ∃ c, c ≠ e.firstCluster ∧ ChainOf fs d' dir.firstCluster (l ++ [c])
  listing : ∃ old p, getDir fs d dir = some (some old) ∧
    getDir fs d' dir = some (some (old ++ [⟨storedEntry e (newFirstByte e), p⟩]))

section Growing
variable {fs : Fat16} {d d' : Disk} {pathname : CharPtr} {attributes : UInt8} {dir : ListEntry}
  {l : List Nat}

/-- A full directory always grows by the first cluster of the file. -/
theorem grown_by_own_cluster (hl : Layout fs) (h32 : 32 ∣ fs.bytesPerSector)
    (h₀ : CharPtr.at (toDirectory pathname) 0 ≠ 0)
    (hr : findDir fs d (toDirectory pathname) (getRootDir fs d) = some (some dir))
    (hc : FileChain fs d dir.entry.firstCluster l)
    (hfull : ∀ p ∈ slotsOf fs (chainSectors fs l), ¬ FreeSlot d p)
    (hmade : createNewFile fs d pathname attributes = some (0, d')) :
    ¬ GrewExactly fs d d' dir.entry l (newFile fs d pathname attributes) := by
  intro hg
  obtain ⟨c, hne, hgrown⟩ := hg.grown
  obtain ⟨e, he, hp⟩ := hc.ends
  have hnum : ∀ a ∈ l, 2 ≤ a ∧ a < 2 ^ 16 := fun a ha =>
    ⟨(hc.inTable a ha).1, hl.lt_of_entry (hc.inTable a ha).2⟩
  have hnone : (slotsOf fs (chainSectors fs l)).find? (fun p => FreeSlot d p) = none :=
    List.find?_eq_none.mpr fun p hp => by simpa using hfull p hp
  rw [find?_chainSlots h32 hnum, Option.map_eq_none_iff, List.findSome?_eq_none_iff] at hnone
  obtain ⟨z, o, hs, hz, hfound⟩ :=
    searchDirectory_chain hl hc (findFirstFreeSpace (clusterEntries fs))
  obtain rfl : o = none := hfound.symm.trans (Option.map_eq_none_iff.mp (hnone z hz))
  obtain ⟨before, after, rfl, hall⟩ := searchDirectory_full hp he hc.nonempty hs
  rw [createNewFile_of_full attributes h₀ hr hs] at hmade
  split_ifs at hmade with h2
  · cases hmade
  · obtain rfl := (Prod.mk.inj (Option.some.inj hmade)).2
    obtain ⟨hlt, hzero, -⟩ := findFirstFreeCluster_spec hl d rfl (by omega)
    have hf : Full fs d dir.entry.firstCluster before z after (findFirstFreeCluster fs d) :=
      ⟨hc, hall, by omega, hlt, hzero⟩
    -- there is only one chain, and it ends in the cluster of the file
    have hsame := hgrown.unique ((hf.chain_grown hl).chainOf hl)
    have hlast := (List.append_inj' hsame rfl).2
    exact hne (List.cons.inj hlast).1

theorem fullDisk_chain : FileChain smallVolume fullDisk 2 [2] where
  nonempty := by simp
  nodup := by decide
  inTable := by decide
  ends := ⟨0xffff, by decide, rfl,
    show getSuccessorCluster smallVolume fullDisk 2 = 0xffff by decide +kernel⟩

theorem fullDisk_full :
    ∀ p ∈ slotsOf smallVolume (chainSectors smallVolume [2]), ¬ FreeSlot fullDisk p := by
  decide

theorem fullDisk_grown_by_own : ∃ d',
    createNewFile smallVolume fullDisk newPath 0x0 = some (0, d') ∧
      ¬ GrewExactly smallVolume fullDisk d' fullDirectory.entry [2]
        (newFile smallVolume fullDisk newPath 0x0) := by
  have hres : (createNewFile smallVolume fullDisk newPath 0x0).map Prod.fst = some 0 := by
    decide +kernel
  obtain ⟨⟨r, d'⟩, hd, hr⟩ := Option.map_eq_some_iff.mp hres
  obtain rfl : r = 0 := hr
  exact ⟨d', hd, grown_by_own_cluster smallVolume_layout.toLayout (by decide) (by decide)
    (by decide +kernel) fullDisk_chain fullDisk_full hd⟩

/-- `/DD/BB` is made with cluster 4, which becomes the second cluster of `DD` as well. -/
theorem fullDisk_shares_cluster : WellFormed smallVolume fullDisk ∧
    (∀ c ∈ [4, 5], getSuccessorCluster smallVolume fullDisk c = 0) ∧
    ¬ entryNamed (splitFilename (toFilename newPath)) oldFile.entry ∧
    ∃ d', createNewFile smallVolume fullDisk newPath 0x0 = some (0, d') ∧
      getSuccessorCluster smallVolume d' 2 = (newFile smallVolume fullDisk newPath 0x0).firstCluster ∧
      ¬ GrewExactly smallVolume fullDisk d' fullDirectory.entry [2]
        (newFile smallVolume fullDisk newPath 0x0) := by
  have hres : (createNewFile smallVolume fullDisk newPath 0x0).map
      (fun r => (r.1, getSuccessorCluster smallVolume r.2 2)) = some (0, 4) := by decide +kernel
  have hcluster : (newFile smallVolume fullDisk newPath 0x0).firstCluster = 4 := by decide +kernel
  obtain ⟨⟨r, d'⟩, hd, he⟩ := Option.map_eq_some_iff.mp hres
  obtain ⟨rfl, hnext⟩ := Prod.mk.inj he
  refine ⟨fullDisk_wellFormed, by decide +kernel, by decide, d', hd, hnext.trans hcluster.symm,
    fun hg => ?_⟩
  obtain ⟨c, hne, hchain⟩ := hg.grown
  obtain ⟨e, -, hp⟩ := hchain.ends
  exact hne ((show c = getSuccessorCluster smallVolume d' 2 from hp.2.1).trans
    (hnext.trans hcluster.symm))

end Growing

/-- `data_region_size`, an `uint32_t`. No function reads it. -/
def dataRegionSize (fs : Fat16) (totalNumSectors : Nat) : Nat :=
  (totalNumSectors + 2 ^ 32 - (fs.numReservedSectors +
    fs.numFileAllocationTables * fs.numSectorsPerFileAllocationTable +
    (calculateRegions fs).rootDirectoryRegionSize)) % 2 ^ 32

/-- The cluster lies in the data region. -/
def InData (fs : Fat16) (totalNumSectors c : Nat) : Prop :=
  2 ≤ c ∧ c < 2 + dataRegionSize fs totalNumSectors / fs.sectorsPerCluster

/-- A cluster of the data region is free. -/
def FreeInData (fs : Fat16) (totalNumSectors : Nat) (d : Disk) : Prop :=
  ∃ c, InData fs totalNumSectors c ∧ c < numEntries fs ∧ getSuccessorCluster fs d c = 0

/-- The two calls that make an entry. -/
inductive Creation where
  | openCall (flags : Nat)
  | mkdir

def Creation.attributes : Creation → UInt8
  | openCall _ => 0x0
  | mkdir => 0x10

def create (fs : Fat16) (s : State) (path : CharPtr) : Creation → Option (Int × State)
  | .openCall flags => sysOpen fs s path flags
  | .mkdir => sysMkdir fs s path

/-- The call comes to make an entry: nothing is found under the path. -/
def ComesToCreate (fs : Fat16) (s : State) (path : CharPtr) : Creation → Prop
  | .openCall flags => findOpenFile s path = none ∧ openFile fs s path = some (none, s) ∧
      flags &&& oCreat ≠ 0
  | .mkdir => CharPtr.at path 0 = slash ∧ CharPtr.at path 1 ≠ 0 ∧
      findFile fs s.disk (path.drop 1) (getRootDir fs s.disk) = some none

/-- What the making of the entry `e` has to do with the table. -/
structure CreatesInData (fs : Fat16) (totalNumSectors : Nat) (d : Disk) (e : DirEntry) (r : Int)
    (d' : Disk) : Prop where
  made : r ≠ -1 → InData fs totalNumSectors e.firstCluster ∧
    getSuccessorCluster fs d e.firstCluster = 0 ∧
    0xfff8 ≤ getSuccessorCluster fs d' e.firstCluster ∧
    ∀ a < 2, getSuccessorCluster fs d' a = getSuccessorCluster fs d a
  full : ¬ FreeInData fs totalNumSectors d → r = -1 ∧ d' = d

section Clusters
variable {fs : Fat16} (hl : DirLayout fs) {d : Disk} {pathname : CharPtr} {attributes : UInt8}

/-- The first free entry of the table is that of a free cluster, unless no entry is free. -/
theorem findFirstFreeCluster_free (hl : Layout fs)
    (hheader : ∀ a < 2, getSuccessorCluster fs d a ≠ 0) {c : Nat} (hc : c < numEntries fs)
    (hfree : getSuccessorCluster fs d c = 0) :
    2 ≤ findFirstFreeCluster fs d ∧ findFirstFreeCluster fs d ≤ c := by
  rw [findFirstFreeCluster_eq hl.even d fun c hc _ => hl.lt_of_entry hc]
  cases hfind : (List.range (numEntries fs)).find? fun c => getSuccessorCluster fs d c = 0 with
  | none =>
    have hno := List.find?_eq_none.mp hfind c (List.mem_range.mpr hc)
    exact absurd (decide_eq_true hfree) hno
  | some m =>
    rw [List.find?_range_eq_some] at hfind
    obtain ⟨hm, -, hmin⟩ := hfind
    rw [Option.getD_some]
    constructor
    · by_contra hlt
      exact hheader m (by omega) (of_decide_eq_true hm)
    · by_contra hlt
      have := hmin c (by omega)
      simp [hfree] at this

/-- A free cluster in the data region makes the first free one lie there. -/
theorem freeInData_iff (hl : Layout fs)
    (hheader : ∀ a < 2, getSuccessorCluster fs d a ≠ 0) (total : Nat) :
    FreeInData fs total d ↔ InData fs total (findFirstFreeCluster fs d) := by
  constructor
  · intro h
    obtain ⟨c, hc, hct, hfree⟩ := h
    have hm := findFirstFreeCluster_free hl hheader hct hfree
    exact ⟨hm.1, hm.2.trans_lt hc.2⟩
  · intro h
    have hs := findFirstFreeCluster_spec hl d rfl h.1
    exact ⟨_, h, hs.1, hs.2.1⟩

include hl

/-- The disk once an entry was made: it differs, and of the table the entry of the new cluster and
that of the last cluster of a full directory were set. -/
theorem createNewFile_table (attributes : UInt8) (hn : 2 ≤ numEntries fs) (hv : DirsValid (listed fs) d)
    (hroom : HasRoom fs d pathname) : ∃ d',
    createNewFile fs d pathname attributes = some (0, d') ∧ d' ≠ d ∧
      (2 ≤ findFirstFreeCluster fs d →
        getSuccessorCluster fs d' (findFirstFreeCluster fs d) = 0xFFFF ∧
        ∀ a < 2, getSuccessorCluster fs d' a = getSuccessorCluster fs d a) := by
  cases hroom with
  | inl hslot =>
    obtain ⟨p, hslot⟩ := hslot
    obtain ⟨hmade, hs, hfree⟩ := createNewFile_at hl hv hslot attributes
    have hlt : findFirstFreeCluster fs d < numEntries fs :=
      findFirstFreeCluster_lt hl.toLayout (by omega) d
    refine ⟨_, hmade, fun he => ?_, fun h2 => ⟨?_, fun a ha => ?_⟩⟩
    · -- the first byte of the slot differs
      have hbyte := firstByte_mark (d := writeSlot d p (newFile fs d pathname attributes)
        (newFirstByte (newFile fs d pathname attributes))) (v := 0xFFFF) hl hs hlt
      rw [he, firstByte_writeSlot_self] at hbyte
      obtain ⟨h₀, h₅⟩ := newFirstByte_used fs d pathname attributes
      cases hfree with
      | inl h => exact h₀ (hbyte.symm.trans h)
      | inr h => exact h₅ (hbyte.symm.trans h)
    · rw [getSuccessorCluster_set _ hl.even _ _ (by decide), if_pos rfl]
    · rw [getSuccessorCluster_set _ hl.even _ _ (by decide), if_neg (by omega),
        getSuccessorCluster_writeSlot hl.toLayout hs (by omega)]
  | inr hgrow =>
    obtain ⟨hfull, h2⟩ := hgrow
    obtain ⟨dir, before, z, after, hg, hmade⟩ := createNewFile_grown hl hv hfull h2 attributes
    have hz := hg.full.last_inTable
    have hmark : getSuccessorCluster fs (grownDisk fs d z (findFirstFreeCluster fs d)
        (newFile fs d pathname attributes) (newFirstByte (newFile fs d pathname attributes)))
        (findFirstFreeCluster fs d) = 0xFFFF := by
      rw [hg.full.successor_eq hl.toLayout hg.full.inTable, if_pos rfl]
    refine ⟨_, hmade, fun he => ?_, fun _ => ⟨hmark, fun a ha => ?_⟩⟩
    · rw [he, hg.full.free] at hmark
      exact absurd hmark (by decide)
    · rw [hg.full.successor_eq hl.toLayout (by omega), if_neg (by omega), if_neg (by omega)]

omit hl in
/-- The call makes the entry with `create_new_file`, and fails if that does. -/
theorem create_made {s t : State} {path : CharPtr} {kind : Creation} {r : Int}
    (hcomes : ComesToCreate fs s path kind) (h : create fs s path kind = some (r, t)) :
    ∃ result, createNewFile fs s.disk path kind.attributes = some (result, t.disk) ∧
      (result = -1 → r = -1) := by
  cases kind with
  | openCall flags =>
    obtain ⟨hunknown, hmissing, hflag⟩ := hcomes
    cases sysOpen_effect h with
    | known known => rw [hunknown] at known; cases known
    | opened _ found => rw [hmissing] at found; cases found
    | missing _ flag => exact absurd flag hflag
    | @failed result d _ _ _ made _ => exact ⟨result, made, fun _ => rfl⟩
    | @made result d f t _ _ _ made found =>
      obtain ⟨e, -, rfl⟩ := openFile_some found
      refine ⟨result, made, fun hr => ?_⟩
      -- after a failure nothing has changed, so that the file is not found
      obtain hzero | ⟨-, rfl⟩ := createNewFile_result made
      · exact absurd (hzero.symm.trans hr) (by decide)
      · exact absurd (hmissing.symm.trans found) (by simp)
  | mkdir =>
    obtain ⟨h₀, h₁, hmissing⟩ := hcomes
    have h : sysMkdir fs s path = some (r, t) := h
    rw [sysMkdir, if_neg (not_not.mpr h₀), if_neg h₁] at h
    obtain ⟨found, hfound, h⟩ := Option.bind_eq_some_iff.mp h
    obtain rfl := Option.some.inj (hfound.symm.trans hmissing)
    obtain ⟨⟨result, d⟩, hmade, h⟩ := Option.bind_eq_some_iff.mp h
    obtain ⟨rfl, rfl⟩ := Prod.mk.inj (Option.some.inj h)
    exact ⟨result, hmade, id⟩

/-- A new entry gets a free cluster of the data region, or the call fails and changes nothing, if and
only if such a cluster is free whenever the directory has room for the entry. -/
theorem creation_in_data_iff (hn : 2 ≤ numEntries fs) {s t : State} {path : CharPtr}
    {kind : Creation} {r : Int} (hv : DirsValid (listed fs) s.disk)
    (hheader : ∀ a < 2, getSuccessorCluster fs s.disk a ≠ 0) (totalNumSectors : Nat)
    (hcomes : ComesToCreate fs s path kind) (h : create fs s path kind = some (r, t)) :
    CreatesInData fs totalNumSectors s.disk (newFile fs s.disk path kind.attributes) r t.disk ↔
      (HasRoom fs s.disk path → FreeInData fs totalNumSectors s.disk) := by
  obtain ⟨result, hmade, hr⟩ := create_made hcomes h
  by_cases hroom : HasRoom fs s.disk path
  · obtain ⟨d', hc, hne, htable⟩ :=
      createNewFile_table hl kind.attributes hn hv hroom
    obtain ⟨rfl, rfl⟩ := Prod.mk.inj (Option.some.inj (hmade.symm.trans hc))
    constructor
    · intro hp _
      by_contra hno
      exact hne (hp.full hno).2
    · intro hcond
      have hdata := (freeInData_iff hl.toLayout hheader totalNumSectors).mp (hcond hroom)
      obtain ⟨hmark, hkept⟩ := htable hdata.1
      refine ⟨fun _ => ⟨hdata, (findFirstFreeCluster_spec hl.toLayout s.disk rfl hdata.1).2.1,
        ?_, hkept⟩, fun hno => absurd (hcond hroom) hno⟩
      show 0xfff8 ≤ getSuccessorCluster fs t.disk (findFirstFreeCluster fs s.disk)
      rw [hmark]
      decide
  · have hc := createNewFile_full hl hv hroom kind.attributes
    obtain ⟨rfl, hsame⟩ := Prod.mk.inj (Option.some.inj (hmade.symm.trans hc))
    exact ⟨fun _ h => absurd h hroom,
      fun _ => ⟨fun hne => absurd (hr rfl) hne, fun _ => ⟨hr rfl, hsame⟩⟩⟩

end Clusters

section Examples

theorem emptyDisk_header : ∀ a < 2, getSuccessorCluster smallVolume emptyDisk a ≠ 0 := by
  decide +kernel

theorem emptyDisk_comes : ComesToCreate smallVolume (fileInitialise emptyDisk) rootPath .mkdir :=
  ⟨by decide, by decide, by decide +kernel⟩

/-- With two clusters behind the root directory, the second of them is free. -/
theorem emptyDisk_creation_in_data : ∃ r t,
    create smallVolume (fileInitialise emptyDisk) rootPath .mkdir = some (r, t) ∧
      CreatesInData smallVolume 6 emptyDisk (newFile smallVolume emptyDisk rootPath 0x10) r
        t.disk := by
  obtain ⟨⟨r, t⟩, h⟩ : ∃ u, create smallVolume (fileInitialise emptyDisk) rootPath .mkdir = some u :=
    Option.isSome_iff_exists.mp (by decide +kernel)
  exact ⟨r, t, h, (creation_in_data_iff smallVolume_layout (by decide)
    emptyDisk_sound.dirs.to_listed emptyDisk_header 6 emptyDisk_comes h).mpr fun _ =>
      ⟨3, ⟨by decide, by decide⟩, by decide, by decide +kernel⟩⟩

/-- With one cluster behind the root directory, which is in use, a directory is made all the same,
with a cluster behind the end of the volume. -/
theorem emptyDisk_creation_outside : ¬ FreeInData smallVolume 5 emptyDisk ∧
    ∃ t, create smallVolume (fileInitialise emptyDisk) rootPath .mkdir = some (0, t) ∧
      ¬ CreatesInData smallVolume 5 emptyDisk (newFile smallVolume emptyDisk rootPath 0x10) 0
        t.disk := by
  have hres : (create smallVolume (fileInitialise emptyDisk) rootPath .mkdir).map Prod.fst =
    some 0 := by decide +kernel
  obtain ⟨⟨r, t⟩, ht, hr⟩ := Option.map_eq_some_iff.mp hres
  obtain rfl : r = 0 := hr
  refine ⟨?_, t, ht, fun h => ?_⟩
  · intro h
    obtain ⟨c, hc, -, hfree⟩ := h
    obtain rfl : c = 2 := by
      have := hc.1
      have : c < 3 := hc.2
      omega
    exact absurd hfree (by decide +kernel)
  · exact absurd (h.made (by decide)).1.2 (by decide +kernel)

end Examples
end MalapropOS.Fat
