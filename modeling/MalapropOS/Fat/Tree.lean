import Mathlib.Data.List.TakeWhile
import MalapropOS.Fat.Search

/-! The directory tree: the directories that are reached from the root, the slots in them, and
how the two resolvers of path names walk it. -/
namespace MalapropOS.Fat
open LinkedChain

/-- Which slots of a directory count, by their first bytes. -/
structure Selection (fs : Fat16) where
  slots : Disk → List Nat → List Slot
  subset : ∀ d ss, slots d ss ⊆ slotsOf fs ss
  congr : ∀ {d d' : Disk} {ss : List Nat},
    (∀ p ∈ slotsOf fs ss, firstByte d' p = firstByte d p) → slots d' ss = slots d ss

/-- The sectors of a directory that is reached from the root. -/
inductive Dir {fs : Fat16} (sel : Selection fs) (d : Disk) : List Nat → Prop
  | root : Dir sel d (rootSectors fs)
  | sub {ss l : List Nat} {p : Slot} (hss : Dir sel d ss) (hp : p ∈ sel.slots d ss)
      (hs : isSubdirectory (slotEntry d p).attributes)
      (hc : FileChain fs d (slotEntry d p).firstCluster l) : Dir sel d (chainSectors fs l)

/-- A slot of one of these directories. -/
def Reach {fs : Fat16} (sel : Selection fs) (d : Disk) (p : Slot) : Prop :=
  ∃ ss, Dir sel d ss ∧ p ∈ sel.slots d ss

/-- Every directory that is reached has a chain. -/
def DirsValid {fs : Fat16} (sel : Selection fs) (d : Disk) : Prop :=
  ∀ p, Reach sel d p → isSubdirectory (slotEntry d p).attributes →
    ∃ l, FileChain fs d (slotEntry d p).firstCluster l

section Selections

/-- A listing depends on the bytes of its own slots only. -/
theorem takeWhile_filter_congr {α : Type} {t t' u u' : α → Bool} {l : List α}
    (ht : ∀ a ∈ l, t a = t' a) (hu : ∀ a ∈ l, u a = u' a) :
    (l.takeWhile t).filter u = (l.takeWhile t').filter u' := by
  induction l with
  | nil => rfl
  | cons a l ih =>
    have ih := ih (fun b hb => ht b (by simp [hb])) fun b hb => hu b (by simp [hb])
    rw [List.takeWhile_cons, List.takeWhile_cons, ht a (by simp)]
    split_ifs
    · rw [List.filter_cons, List.filter_cons, hu a (by simp), ih]
    · rfl

variable (fs : Fat16)

/-- The slots of a listing. -/
def listed : Selection fs where
  slots := liveSlots fs
  subset _ _ _ hp := (List.takeWhile_sublist _).subset (List.mem_filter.mp hp).1
  congr h := takeWhile_filter_congr (fun p hp => by rw [h p hp]) fun p hp => by rw [h p hp]

/-- The slots in use, also those behind the end of the directory. -/
def used : Selection fs where
  slots d ss := (slotsOf fs ss).filter fun p => firstByte d p ≠ 0x00 ∧ firstByte d p ≠ 0xe5
  subset _ _ _ hp := (List.mem_filter.mp hp).1
  congr h := List.filter_congr fun p hp => by rw [h p hp]

end Selections

section Basics
variable {fs : Fat16} {d : Disk} {ss : List Nat} {p : Slot}

theorem mem_used : p ∈ (used fs).slots d ss ↔
    p ∈ slotsOf fs ss ∧ firstByte d p ≠ 0x00 ∧ firstByte d p ≠ 0xe5 := by
  simp [used]

theorem listed_subset_used : (listed fs).slots d ss ⊆ (used fs).slots d ss := by
  intro p hp
  obtain ⟨ht, h5⟩ := List.mem_filter.mp hp
  have h0 := List.mem_takeWhile_imp ht
  simp only [decide_eq_true_eq] at h0 h5
  exact mem_used.mpr ⟨(listed fs).subset d ss hp, h0, h5⟩

theorem Dir.to_used (hd : Dir (listed fs) d ss) : Dir (used fs) d ss := by
  induction hd with
  | root => exact .root
  | sub _ hp hs hc ih => exact .sub ih (listed_subset_used hp) hs hc

theorem Reach.to_used (hr : Reach (listed fs) d p) : Reach (used fs) d p := by
  obtain ⟨ss, hss, hp⟩ := hr
  exact ⟨ss, hss.to_used, listed_subset_used hp⟩

theorem rootSector_behind (hl : DirLayout fs) {s : Nat} (hs : s ∈ rootSectors fs) :
    fs.numReservedSectors + fs.numSectorsPerFileAllocationTable ≤ s ∧
      s < (calculateRegions fs).dataRegionStart := by
  simp only [rootSectors, List.mem_map, List.mem_range] at hs
  obtain ⟨i, hi, rfl⟩ := hs
  refine ⟨hl.rootBehindTable.trans (Nat.le_add_right _ _), ?_⟩
  have hn : numRootSectors fs ≤ fs.numRootDirectoryEntries / sectorEntries fs := by
    rw [numRootSectors]
    split_ifs <;> omega
  have hd : fs.numRootDirectoryEntries / sectorEntries fs =
      fs.numRootDirectoryEntries * 32 / fs.bytesPerSector := by
    obtain ⟨m, hm⟩ := hl.slots
    rw [sectorEntries, hm, Nat.mul_div_cancel_left _ (by decide), Nat.mul_comm 32 m,
      Nat.mul_div_mul_right _ _ (by decide)]
  have hr := hl.reserved
  simp only [calculateRegions]
  rw [Nat.mul_comm fs.numFileAllocationTables]
  omega

theorem mem_chainSectors {l : List Nat} {s : Nat} : s ∈ chainSectors fs l ↔
    ∃ c ∈ l, firstSector fs c ≤ s ∧ s < firstSector fs c + fs.sectorsPerCluster := by
  simp only [chainSectors, clusterSectors, List.mem_flatMap, List.mem_map, List.mem_range]
  constructor
  · rintro ⟨c, hc, i, hi, rfl⟩
    exact ⟨c, hc, by omega, by omega⟩
  · rintro ⟨c, hc, h₁, h₂⟩
    exact ⟨c, hc, s - firstSector fs c, by omega, by omega⟩

theorem chainSector_behind {l : List Nat} {s : Nat} (hs : s ∈ chainSectors fs l) :
    (calculateRegions fs).dataRegionStart ≤ s := by
  obtain ⟨c, -, hle, -⟩ := mem_chainSectors.mp hs
  exact (Nat.le_add_right _ _).trans hle

theorem rootRegionStart_behind (hl : Layout fs) : fs.numReservedSectors +
    fs.numSectorsPerFileAllocationTable ≤ (calculateRegions fs).rootDirectoryRegionStart := by
  have h : 1 * fs.numSectorsPerFileAllocationTable ≤
      fs.numFileAllocationTables * fs.numSectorsPerFileAllocationTable :=
    Nat.mul_le_mul_right _ hl.tables
  simp only [calculateRegions]
  omega

theorem rootRegionStart_le :
    (calculateRegions fs).rootDirectoryRegionStart ≤ (calculateRegions fs).dataRegionStart :=
  Nat.le_add_right _ _

theorem data_behind_table (hl : Layout fs) : fs.numReservedSectors +
    fs.numSectorsPerFileAllocationTable ≤ (calculateRegions fs).dataRegionStart :=
  (rootRegionStart_behind hl).trans rootRegionStart_le

variable {sel : Selection fs}

/-- The sectors of directories lie behind the table. -/
theorem Dir.behind (hl : DirLayout fs) (hd : Dir sel d ss) {s : Nat} (hs : s ∈ ss) :
    fs.numReservedSectors + fs.numSectorsPerFileAllocationTable ≤ s := by
  cases hd with
  | root => exact (rootSector_behind hl hs).1
  | sub _ _ _ _ =>
    exact (data_behind_table hl.toLayout).trans (chainSector_behind hs)

theorem Dir.isSlot (hl : DirLayout fs) (hd : Dir sel d ss) (hp : p ∈ slotsOf fs ss) :
    IsSlot fs p := by
  rw [mem_slotsOf] at hp
  exact ⟨hd.behind hl hp.1, hp.2⟩

end Basics

section Resolution
variable {fs : Fat16} {d : Disk} {ss : List Nat}

/-- A loop each round of which has a result, and keeps a property of it. -/
theorem foldlM_total {α β : Type} {f : β → α → Option β} (good : β → Prop) {l : List α}
    (h : ∀ b, good b → ∀ a ∈ l, ∃ b', f b a = some b' ∧ good b') {b : β} (hb : good b) :
    ∃ b', l.foldlM f b = some b' ∧ good b' := by
  induction l generalizing b with
  | nil => exact ⟨b, rfl, hb⟩
  | cons a l ih =>
    obtain ⟨b', hf, hb'⟩ := h b hb a (by simp)
    obtain ⟨c, hc, hg⟩ := ih (fun b hb x hx => h b hb x (by simp [hx])) hb'
    exact ⟨c, by simp [List.foldlM_cons, hf, hc], hg⟩

/-- An entry of a listing of the tree. -/
def Listed (fs : Fat16) (d : Disk) (f : ListEntry) : Prop :=
  Reach (listed fs) d f.slot ∧ f.entry = slotEntry d f.slot

theorem listed_of_mem (hss : Dir (listed fs) d ss) {f : ListEntry}
    (hf : f ∈ entriesOf fs d ss) : Listed fs d f := by
  simp only [entriesOf, List.mem_map] at hf
  obtain ⟨p, hp, rfl⟩ := hf
  exact ⟨⟨ss, hss, hp⟩, rfl⟩

/-- The listing of a listed directory is that of a directory of the tree. -/
theorem Listed.getDir (hl : Layout fs) (hv : DirsValid (listed fs) d) {f : ListEntry}
    (hf : Listed fs d f) : getDir fs d f.entry = some none ∨
      ∃ l, FileChain fs d f.entry.firstCluster l ∧ Dir (listed fs) d (chainSectors fs l) ∧
        Fat.getDir fs d f.entry = some (some (entriesOf fs d (chainSectors fs l))) := by
  obtain ⟨hr, he⟩ := hf
  by_cases hs : isSubdirectory f.entry.attributes
  · obtain ⟨l, hc⟩ := hv _ hr (he ▸ hs)
    obtain ⟨ss, hss, hp⟩ := hr
    exact Or.inr ⟨l, he ▸ hc, .sub hss hp (he ▸ hs) hc, getDir_eq hl hs (he ▸ hc)⟩
  · exact Or.inl (if_neg hs)

/-- A resolver has a result, and finds an entry of the tree. -/
theorem resolveFuel_listed (hl : Layout fs) (hv : DirsValid (listed fs) d)
    {last inner : CharPtr → DirEntry → Bool} {fuel : Nat} {pathname : CharPtr}
    (hss : Dir (listed fs) d ss) :
    ∃ r, resolveFuel fs d last inner fuel pathname (entriesOf fs d ss) = some r ∧
      ∀ f ∈ r, Listed fs d f ∧ ∃ part, last part f.entry = true := by
  induction fuel generalizing pathname ss with
  | zero => exact ⟨none, rfl, by simp⟩
  | succ fuel ih =>
    rw [resolveFuel]
    match splitPath pathname with
    | [] => exact ⟨none, rfl, by simp⟩
    | [part] =>
      refine ⟨_, rfl, fun f hf => ?_⟩
      exact ⟨listed_of_mem hss (List.mem_of_find?_eq_some hf), part, by
        simpa using List.find?_some hf⟩
    | part :: _ :: _ =>
      refine foldlM_total (fun r : Option ListEntry =>
        ∀ f ∈ r, Listed fs d f ∧ ∃ part, last part f.entry = true) (fun r hr f hf => ?_) (by simp)
      split_ifs with hi
      · obtain hd | ⟨l, -, hd, he⟩ := (listed_of_mem hss hf).getDir hl hv
        · exact ⟨r, by simp [hd], hr⟩
        · obtain ⟨r', hr', hg⟩ := ih hd
          exact ⟨r', by simpa [he] using hr', hg⟩
      · exact ⟨r, rfl, hr⟩

end Resolution
end MalapropOS.Fat
