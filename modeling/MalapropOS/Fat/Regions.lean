import Mathlib.Tactic.Ring
import Mathlib.Tactic.Linarith
import MalapropOS.Fat.Model

/-! Where the bytes of the volume lie. The laws of the file allocation table and of the
clusters: what was written is read back, and nothing else changes. -/
namespace MalapropOS.Fat

section Clusters
variable (fs : Fat16) (d : Disk)

theorem bytesPerCluster_pos : 0 < bytesPerCluster fs :=
  Nat.mul_pos fs.bytesPerSector_pos fs.sectorsPerCluster_pos

theorem loadCluster_eq (c k : Nat) : loadCluster fs d c k =
    if k < bytesPerCluster fs then
      d (clusterSector fs c (k / fs.bytesPerSector)) (k % fs.bytesPerSector)
    else 0 := by
  have loop (n : Nat) : (List.range n).foldl (fun buf i => diskRd d (clusterSector fs c i) buf
      (i * fs.bytesPerSector) fs.bytesPerSector) zeroBuffer k =
      if k < fs.bytesPerSector * n then
        d (clusterSector fs c (k / fs.bytesPerSector)) (k % fs.bytesPerSector)
      else 0 := by
    induction n with
    | zero => simp [zeroBuffer]
    | succ n ih =>
      have hm : n * fs.bytesPerSector + fs.bytesPerSector = fs.bytesPerSector * (n + 1) := by ring
      have hc : fs.bytesPerSector * n = n * fs.bytesPerSector := Nat.mul_comm _ _
      rw [List.range_succ, List.foldl_append, List.foldl_cons, List.foldl_nil, diskRd, ih]
      by_cases h : n * fs.bytesPerSector ≤ k ∧ k < n * fs.bytesPerSector + fs.bytesPerSector
      · have hd : k / fs.bytesPerSector = n :=
          Nat.div_eq_of_lt_le (by omega) (by rw [Nat.add_mul]; omega)
        have hr : k % fs.bytesPerSector = k - n * fs.bytesPerSector := by
          rw [Nat.mod_eq_sub, hd, hc]
        rw [if_pos h, if_pos (by omega), hd, hr]
      · by_cases hk : k < fs.bytesPerSector * n
        · rw [if_neg h, if_pos hk, if_pos (by omega)]
        · rw [if_neg h, if_neg hk, if_neg (by omega)]
  exact loop fs.sectorsPerCluster

/-- Writing back what was loaded changes nothing, whatever the cluster number. -/
theorem writeCluster_loadCluster (c : Nat) : writeCluster fs d c (loadCluster fs d c) = d := by
  have loop (n : Nat) (hn : n ≤ fs.sectorsPerCluster) :
      (List.range n).foldl (fun d' i => diskWr d' (clusterSector fs c i) (loadCluster fs d c)
        (i * fs.bytesPerSector) fs.bytesPerSector) d = d := by
    induction n with
    | zero => rfl
    | succ n ih =>
      rw [List.range_succ, List.foldl_append, ih (by omega)]
      funext s k
      simp only [List.foldl_cons, List.foldl_nil, diskWr, ite_eq_right_iff]
      rintro ⟨rfl, hk⟩
      have hm : (n + 1) * fs.bytesPerSector ≤ fs.sectorsPerCluster * fs.bytesPerSector :=
        Nat.mul_le_mul_right _ hn
      rw [Nat.add_mul, Nat.mul_comm fs.sectorsPerCluster] at hm
      rw [loadCluster_eq, if_pos (by rw [bytesPerCluster]; omega),
        Nat.mul_comm n, Nat.mul_add_div fs.bytesPerSector_pos, Nat.div_eq_of_lt hk,
        Nat.mul_add_mod, Nat.mod_eq_of_lt hk, Nat.add_zero]
  exact loop _ (le_refl _)

/-- The first sector of a data cluster. -/
def firstSector (c : Nat) : Nat :=
  (calculateRegions fs).dataRegionStart + (c - 2) * fs.sectorsPerCluster

theorem dataRegionStart_lt : (calculateRegions fs).dataRegionStart < 2 ^ 25 := by
  have h₁ := fs.numReservedSectors_lt
  have h₂ : fs.numFileAllocationTables * fs.numSectorsPerFileAllocationTable ≤ 2 ^ 8 * 2 ^ 16 :=
    Nat.mul_le_mul fs.numFileAllocationTables_lt.le fs.numSectorsPerFileAllocationTable_lt.le
  have h₃ : fs.numRootDirectoryEntries * 32 / fs.bytesPerSector ≤ fs.numRootDirectoryEntries * 32 :=
    Nat.div_le_self _ _
  have h₄ := fs.numRootDirectoryEntries_lt
  simp only [calculateRegions]
  omega

/-- No sector number of a data cluster wraps round. -/
theorem clusterSector_eq {c i : Nat} (hc : 2 ≤ c) (hc' : c < 2 ^ 16)
    (hi : i < fs.sectorsPerCluster) : clusterSector fs c i = firstSector fs c + i := by
  have h₁ := dataRegionStart_lt fs
  have h₂ : (c - 2) * fs.sectorsPerCluster ≤ 2 ^ 16 * 2 ^ 8 :=
    Nat.mul_le_mul (by omega) fs.sectorsPerCluster_lt.le
  have h₃ := fs.sectorsPerCluster_lt
  have he : ((calculateRegions fs).dataRegionStart : Int) +
      ((c : Int) - 2) * fs.sectorsPerCluster + i = ((firstSector fs c + i : Nat) : Int) := by
    rw [firstSector]
    push_cast [Nat.cast_sub hc]
    ring
  rw [clusterSector, he]
  have : firstSector fs c + i < 2 ^ 32 := by rw [firstSector]; omega
  omega

theorem writeCluster_eq {c : Nat} (hc : 2 ≤ c) (hc' : c < 2 ^ 16) (buf : Buffer) (s k : Nat) :
    writeCluster fs d c buf s k =
      if firstSector fs c ≤ s ∧ s < firstSector fs c + fs.sectorsPerCluster ∧
          k < fs.bytesPerSector then
        buf ((s - firstSector fs c) * fs.bytesPerSector + k)
      else d s k := by
  have loop (n : Nat) (hn : n ≤ fs.sectorsPerCluster) :
      (List.range n).foldl (fun d' i => diskWr d' (clusterSector fs c i) buf
        (i * fs.bytesPerSector) fs.bytesPerSector) d s k =
      if firstSector fs c ≤ s ∧ s < firstSector fs c + n ∧ k < fs.bytesPerSector then
        buf ((s - firstSector fs c) * fs.bytesPerSector + k)
      else d s k := by
    induction n with
    | zero =>
      rw [if_neg (by omega)]
      rfl
    | succ n ih =>
      rw [List.range_succ, List.foldl_append, List.foldl_cons, List.foldl_nil, diskWr,
        ih (by omega), clusterSector_eq fs hc hc' (by omega)]
      by_cases hs : s = firstSector fs c + n
      · subst hs
        by_cases hk : k < fs.bytesPerSector
        · rw [if_pos ⟨rfl, hk⟩, if_pos ⟨by omega, by omega, hk⟩, Nat.add_sub_cancel_left]
        · rw [if_neg (by omega), if_neg (by omega), if_neg (by omega)]
      · rw [if_neg (by omega)]
        exact if_congr (by omega) rfl rfl
  exact loop _ (le_refl _)

/-- The sectors of a cluster differ, also where their numbers wrap round. -/
theorem clusterSector_injective {c i j : Nat} (hi : i < fs.sectorsPerCluster)
    (hj : j < fs.sectorsPerCluster) (h : clusterSector fs c i = clusterSector fs c j) : i = j := by
  have hlt := fs.sectorsPerCluster_lt
  simp only [clusterSector] at h
  omega

/-- What `write_cluster` puts into a sector, whatever the cluster number. -/
theorem writeCluster_sector (c : Nat) (buf : Buffer) {q k : Nat} (hq : q < fs.sectorsPerCluster)
    (hk : k < fs.bytesPerSector) :
    writeCluster fs d c buf (clusterSector fs c q) k = buf (q * fs.bytesPerSector + k) := by
  have loop (n : Nat) (hn : n ≤ fs.sectorsPerCluster) (hqn : q < n) :
      (List.range n).foldl (fun d' i => diskWr d' (clusterSector fs c i) buf
        (i * fs.bytesPerSector) fs.bytesPerSector) d (clusterSector fs c q) k =
      buf (q * fs.bytesPerSector + k) := by
    induction n with
    | zero => omega
    | succ n ih =>
      rw [List.range_succ, List.foldl_append, List.foldl_cons, List.foldl_nil, diskWr]
      by_cases hqe : q = n
      · rw [if_pos ⟨by rw [hqe], hk⟩, hqe]
      · have hne : clusterSector fs c q ≠ clusterSector fs c n := fun h =>
          hqe (clusterSector_injective fs hq (by omega) h)
        rw [if_neg (fun h => hne h.1), ih (by omega) (by omega)]
  exact loop _ (le_refl _) hq

/-- `write_cluster` leaves the other sectors alone. -/
theorem writeCluster_outside (c : Nat) (buf : Buffer) {s k : Nat}
    (h : ∀ q < fs.sectorsPerCluster, s = clusterSector fs c q → fs.bytesPerSector ≤ k) :
    writeCluster fs d c buf s k = d s k := by
  have loop (n : Nat) (hn : n ≤ fs.sectorsPerCluster) :
      (List.range n).foldl (fun d' i => diskWr d' (clusterSector fs c i) buf
        (i * fs.bytesPerSector) fs.bytesPerSector) d s k = d s k := by
    induction n with
    | zero => rfl
    | succ n ih =>
      rw [List.range_succ, List.foldl_append, List.foldl_cons, List.foldl_nil, diskWr,
        if_neg (fun hs => by have := h n (by omega) hs.1; omega), ih (by omega)]
  exact loop _ (le_refl _)

/-- A sector of the data region belongs to one cluster. -/
theorem firstSector_disjoint {c c' i i' : Nat} (hc : 2 ≤ c) (hc' : 2 ≤ c')
    (hi : i < fs.sectorsPerCluster) (hi' : i' < fs.sectorsPerCluster)
    (h : firstSector fs c + i = firstSector fs c' + i') : c = c' ∧ i = i' := by
  have key : ∀ a b : Nat, a < b → (a + 1) * fs.sectorsPerCluster ≤ b * fs.sectorsPerCluster :=
    fun a b hab => Nat.mul_le_mul_right _ hab
  simp only [firstSector] at h
  obtain hlt | heq | hgt := Nat.lt_trichotomy (c - 2) (c' - 2)
  · have := key _ _ hlt
    rw [Nat.add_mul] at this
    omega
  · rw [heq] at h
    omega
  · have := key _ _ hgt
    rw [Nat.add_mul] at this
    omega

theorem sector_lt {k : Nat} (hk : k < bytesPerCluster fs) :
    k / fs.bytesPerSector < fs.sectorsPerCluster := by
  rw [Nat.div_lt_iff_lt_mul fs.bytesPerSector_pos, Nat.mul_comm]
  exact hk

/-- What a cluster holds after a write to the same or to another one. -/
theorem loadCluster_writeCluster {c c' : Nat} (hc : 2 ≤ c) (hc₁ : c < 2 ^ 16) (hc' : 2 ≤ c')
    (hc₁' : c' < 2 ^ 16) (buf : Buffer) {k : Nat} (hk : k < bytesPerCluster fs) :
    loadCluster fs (writeCluster fs d c buf) c' k =
      if c' = c then buf k else loadCluster fs d c' k := by
  have hi := sector_lt fs hk
  have hr : k % fs.bytesPerSector < fs.bytesPerSector := Nat.mod_lt _ fs.bytesPerSector_pos
  rw [loadCluster_eq, if_pos hk, clusterSector_eq fs hc' hc₁' hi, writeCluster_eq fs d hc hc₁]
  by_cases h : c' = c
  · subst h
    rw [if_pos rfl, if_pos ⟨Nat.le_add_right _ _, Nat.add_lt_add_left hi _, hr⟩,
      Nat.add_sub_cancel_left, Nat.mul_comm, Nat.div_add_mod]
  · rw [if_neg h, loadCluster_eq, if_pos hk, clusterSector_eq fs hc' hc₁' hi]
    rw [if_neg]
    rintro ⟨h₁, h₂, -⟩
    have hs : firstSector fs c' + k / fs.bytesPerSector = firstSector fs c +
        (firstSector fs c' + k / fs.bytesPerSector - firstSector fs c) := by omega
    exact h (firstSector_disjoint fs hc' hc hi (by omega) hs).1

variable {fs d} in
/-- A cluster is what its sectors hold. -/
theorem loadCluster_sectors {d' : Disk} {c : Nat} (hc : 2 ≤ c) (hc' : c < 2 ^ 16)
    (h : ∀ s k, firstSector fs c ≤ s → s < firstSector fs c + fs.sectorsPerCluster →
      k < fs.bytesPerSector → d' s k = d s k) : loadCluster fs d' c = loadCluster fs d c := by
  funext k
  rw [loadCluster_eq, loadCluster_eq]
  by_cases hk : k < bytesPerCluster fs
  · have hi := sector_lt fs hk
    rw [if_pos hk, if_pos hk, clusterSector_eq fs hc hc' hi]
    exact h _ _ (Nat.le_add_right _ _) (Nat.add_lt_add_left hi _)
      (Nat.mod_lt _ fs.bytesPerSector_pos)
  · rw [if_neg hk, if_neg hk]

end Clusters

section Table
variable (fs : Fat16) (d : Disk)

/-- The number of entries of the table. -/
def numEntries : Nat := fs.numSectorsPerFileAllocationTable * (fs.bytesPerSector / 2)

variable {fs} (he : 2 ∣ fs.bytesPerSector)
include he

theorem entryInSector_eq (c : Nat) :
    (c - fs.bytesPerSector / 2 * (c * 2 / fs.bytesPerSector)) * 2 = c * 2 % fs.bytesPerSector := by
  have h₁ : fs.bytesPerSector / 2 * 2 = fs.bytesPerSector := Nat.div_mul_cancel he
  have h₂ := Nat.div_add_mod (c * 2) fs.bytesPerSector
  have h₃ : fs.bytesPerSector / 2 * (c * 2 / fs.bytesPerSector) * 2 =
      fs.bytesPerSector * (c * 2 / fs.bytesPerSector) := by
    rw [Nat.mul_right_comm, h₁]
  omega

theorem entry_room (c : Nat) : c * 2 % fs.bytesPerSector + 1 < fs.bytesPerSector := by
  have hlt := Nat.mod_lt (c * 2) fs.bytesPerSector_pos
  have h2 : 2 ∣ c * 2 % fs.bytesPerSector := (Nat.dvd_mod_iff he).mpr (Nat.dvd_mul_left 2 c)
  omega

/-- An entry is two bytes of the table. -/
theorem getSuccessorCluster_eq (c : Nat) : getSuccessorCluster fs d c =
    (d (fs.numReservedSectors + c * 2 / fs.bytesPerSector) (c * 2 % fs.bytesPerSector)).toNat +
    (d (fs.numReservedSectors + c * 2 / fs.bytesPerSector)
      (c * 2 % fs.bytesPerSector + 1)).toNat * 256 := by
  have hr := entry_room he c
  simp only [getSuccessorCluster, entryInSector_eq he, calculateRegions, diskRd]
  rw [if_pos (by omega), if_pos (by omega), Nat.sub_zero, Nat.sub_zero]

theorem getSuccessorCluster_lt (c : Nat) : getSuccessorCluster fs d c < 2 ^ 16 := by
  have h := fun x : UInt8 => x.toNat_lt
  rw [getSuccessorCluster_eq d he]
  have h₁ := h (d (fs.numReservedSectors + c * 2 / fs.bytesPerSector) (c * 2 % fs.bytesPerSector))
  have h₂ := h (d (fs.numReservedSectors + c * 2 / fs.bytesPerSector)
    (c * 2 % fs.bytesPerSector + 1))
  omega

theorem setSuccessorCluster_eq (a v s k : Nat) : setSuccessorCluster fs d a v s k =
    if s = fs.numReservedSectors + a * 2 / fs.bytesPerSector ∧ k = a * 2 % fs.bytesPerSector then
      UInt8.ofNat v
    else if s = fs.numReservedSectors + a * 2 / fs.bytesPerSector ∧
        k = a * 2 % fs.bytesPerSector + 1 then UInt8.ofNat (v / 256)
    else d s k := by
  have hr := entry_room he a
  have hi : a * 2 - a * 2 / fs.bytesPerSector * fs.bytesPerSector = a * 2 % fs.bytesPerSector := by
    rw [Nat.mul_comm (a * 2 / fs.bytesPerSector), Nat.mod_eq_sub]
  simp only [setSuccessorCluster, calculateRegions, hi, diskWr, diskRd, Nat.zero_add,
    Function.update_apply]
  by_cases hs : s = fs.numReservedSectors + a * 2 / fs.bytesPerSector
  · subst hs
    by_cases h₁ : k = a * 2 % fs.bytesPerSector
    · subst h₁
      simp [show a * 2 % fs.bytesPerSector < fs.bytesPerSector by omega]
    · by_cases h₂ : k = a * 2 % fs.bytesPerSector + 1
      · subst h₂
        simp [hr]
      · by_cases hk : k < fs.bytesPerSector <;> simp [h₁, h₂, hk]
  · simp [hs]

/-- Different entries are different bytes. -/
theorem entry_injective {a b : Nat} (hd : a * 2 / fs.bytesPerSector = b * 2 / fs.bytesPerSector)
    (hm : a * 2 % fs.bytesPerSector = b * 2 % fs.bytesPerSector ∨
      a * 2 % fs.bytesPerSector = b * 2 % fs.bytesPerSector + 1 ∨
      a * 2 % fs.bytesPerSector + 1 = b * 2 % fs.bytesPerSector) : a = b := by
  have h2 (c : Nat) : 2 ∣ c * 2 % fs.bytesPerSector :=
    (Nat.dvd_mod_iff he).mpr (Nat.dvd_mul_left 2 c)
  have ha := Nat.div_add_mod (a * 2) fs.bytesPerSector
  have hb := Nat.div_add_mod (b * 2) fs.bytesPerSector
  have h₁ := h2 a
  have h₂ := h2 b
  rw [hd] at ha
  omega

/-- The table is an array. -/
theorem getSuccessorCluster_set (a b : Nat) {v : Nat} (hv : v < 2 ^ 16) :
    getSuccessorCluster fs (setSuccessorCluster fs d a v) b =
      if b = a then v else getSuccessorCluster fs d b := by
  simp only [getSuccessorCluster_eq _ he, setSuccessorCluster_eq d he]
  by_cases h : b = a
  · subst h
    simp
    omega
  · rw [if_neg h]
    by_cases hd : b * 2 / fs.bytesPerSector = a * 2 / fs.bytesPerSector
    · have hne := fun hm => h (entry_injective he hd hm)
      simp only [hd, true_and, Nat.add_right_cancel_iff]
      rw [if_neg (by tauto), if_neg (by tauto), if_neg (by tauto), if_neg (by tauto)]
    · simp [hd]

end Table

/-- A layout in which the table lies below the data region and an offset in a cluster is a
`uint16_t`. -/
structure Geometry (fs : Fat16) : Prop where
  even : 2 ∣ fs.bytesPerSector
  tables : 0 < fs.numFileAllocationTables
  clusterSize : bytesPerCluster fs ≤ 2 ^ 16

/-- A layout in which the table lies below the data region and has no entry for a cluster
number that marks the end of a chain, and in which an offset in a cluster is a `uint16_t`. -/
structure Layout (fs : Fat16) : Prop where
  even : 2 ∣ fs.bytesPerSector
  tables : 0 < fs.numFileAllocationTables
  entries : numEntries fs ≤ 0xfff0
  clusterSize : bytesPerCluster fs ≤ 2 ^ 16

theorem Layout.geometry {fs : Fat16} (hl : Layout fs) : Geometry fs :=
  ⟨hl.even, hl.tables, hl.clusterSize⟩

theorem Layout.lt_of_entry {fs : Fat16} (hl : Layout fs) {c : Nat} (hc : c < numEntries fs) :
    c < 2 ^ 16 :=
  hc.trans_le (hl.entries.trans (by decide))

namespace Geometry
variable {fs : Fat16} (hg : Geometry fs) (d : Disk)
include hg

theorem entrySector_lt {c : Nat} (hc : c < numEntries fs) :
    c * 2 / fs.bytesPerSector < fs.numSectorsPerFileAllocationTable := by
  have h : fs.bytesPerSector / 2 * 2 = fs.bytesPerSector := Nat.div_mul_cancel hg.even
  rw [Nat.div_lt_iff_lt_mul fs.bytesPerSector_pos]
  calc c * 2 < numEntries fs * 2 := by omega
    _ = fs.numSectorsPerFileAllocationTable * fs.bytesPerSector := by
      rw [numEntries, Nat.mul_assoc, h]

theorem table_below_data {c : Nat} (hc : c < numEntries fs) :
    fs.numReservedSectors + c * 2 / fs.bytesPerSector < (calculateRegions fs).dataRegionStart := by
  have h₁ := hg.entrySector_lt hc
  have h₂ : 1 * fs.numSectorsPerFileAllocationTable ≤
      fs.numFileAllocationTables * fs.numSectorsPerFileAllocationTable :=
    Nat.mul_le_mul_right _ hg.tables
  simp only [calculateRegions]
  generalize fs.numRootDirectoryEntries * 32 / fs.bytesPerSector = r
  omega

/-- Writing a cluster leaves the table as it is. -/
theorem get_writeCluster {c c' : Nat} (hc : c < numEntries fs) (hc' : 2 ≤ c')
    (hc₁ : c' < 2 ^ 16) (buf : Buffer) :
    getSuccessorCluster fs (writeCluster fs d c' buf) c = getSuccessorCluster fs d c := by
  have hb := hg.table_below_data hc
  have hf : (calculateRegions fs).dataRegionStart ≤ firstSector fs c' := Nat.le_add_right _ _
  rw [getSuccessorCluster_eq _ hg.even, getSuccessorCluster_eq _ hg.even,
    writeCluster_eq fs d hc' hc₁, writeCluster_eq fs d hc' hc₁, if_neg (by omega),
    if_neg (by omega)]

/-- Setting an entry leaves the clusters as they are. -/
theorem load_setSuccessor {a c v : Nat} (ha : a < numEntries fs) (hc : 2 ≤ c) (hc' : c < 2 ^ 16) :
    loadCluster fs (setSuccessorCluster fs d a v) c = loadCluster fs d c := by
  have hb := hg.table_below_data ha
  have hf : (calculateRegions fs).dataRegionStart ≤ firstSector fs c := Nat.le_add_right _ _
  refine loadCluster_sectors hc hc' fun s k hs _ _ => ?_
  rw [setSuccessorCluster_eq d hg.even, if_neg (by omega), if_neg (by omega)]

end Geometry

section FreeClusters

/-- A search through `m` blocks of `e` items is a search through the items. -/
theorem findSome_blocks {α : Type} (f : Nat → Option α) (m e : Nat) :
    (List.range m).findSome? (fun i => (List.range e).findSome? fun j => f (e * i + j)) =
      (List.range (m * e)).findSome? f := by
  induction m with
  | zero => simp
  | succ m ih =>
    rw [List.range_succ, List.findSome?_append, ih, Nat.add_mul, Nat.one_mul, List.range_add,
      List.findSome?_append, List.findSome?_map]
    simp [Function.comp_def, Nat.mul_comm e m]

theorem findSome_congr {α β : Type} {f g : α → Option β} {l : List α} (h : ∀ a ∈ l, f a = g a) :
    l.findSome? f = l.findSome? g := by
  induction l with
  | nil => rfl
  | cons a l ih =>
    rw [List.findSome?_cons, List.findSome?_cons, h a (by simp), ih fun b hb => h b (by simp [hb])]

variable {fs : Fat16}

/-- `find_first_free_cluster` goes through the entries in order. -/
theorem findFirstFreeCluster_eq (heven : 2 ∣ fs.bytesPerSector) (d : Disk)
    (hsmall : ∀ c < numEntries fs, getSuccessorCluster fs d c = 0 → c < 2 ^ 16) :
    findFirstFreeCluster fs d =
    ((List.range (numEntries fs)).find? fun c => getSuccessorCluster fs d c = 0).getD 0 := by
  have he : fs.bytesPerSector / 2 * 2 = fs.bytesPerSector := Nat.div_mul_cancel heven
  have hbytes (i j : Nat) (hj : j < fs.bytesPerSector / 2) :
      (diskRd d (fs.numReservedSectors + i) zeroBuffer 0 fs.bytesPerSector (j * 2) = 0 ∧
        diskRd d (fs.numReservedSectors + i) zeroBuffer 0 fs.bytesPerSector (j * 2 + 1) = 0) ↔
      getSuccessorCluster fs d (fs.bytesPerSector / 2 * i + j) = 0 := by
    have h2 : (fs.bytesPerSector / 2 * i + j) * 2 = fs.bytesPerSector * i + j * 2 := by
      rw [Nat.add_mul, Nat.mul_right_comm, he]
    have hlt : j * 2 + 1 < fs.bytesPerSector := by omega
    rw [getSuccessorCluster_eq d heven, h2, Nat.mul_add_div fs.bytesPerSector_pos,
      Nat.mul_add_mod, Nat.div_eq_of_lt (by omega), Nat.mod_eq_of_lt (by omega), Nat.add_zero]
    simp only [diskRd, Nat.zero_le, true_and, Nat.zero_add, Nat.sub_zero]
    rw [if_pos (by omega), if_pos hlt, ← UInt8.toNat_inj, ← UInt8.toNat_inj, UInt8.toNat_zero,
      Nat.add_eq_zero_iff, Nat.mul_eq_zero]
    simp
  have hf := findSome_blocks
    (fun c => if getSuccessorCluster fs d c = 0 then some (c % 2 ^ 16) else none)
    fs.numSectorsPerFileAllocationTable (fs.bytesPerSector / 2)
  have hguard : (List.range (numEntries fs)).findSome? (fun c =>
      if getSuccessorCluster fs d c = 0 then some (c % 2 ^ 16) else none) =
      (List.range (numEntries fs)).find? fun c => getSuccessorCluster fs d c = 0 := by
    rw [List.find?_eq_findSome?_guard]
    refine findSome_congr fun c hc => ?_
    rw [List.mem_range] at hc
    by_cases hz : getSuccessorCluster fs d c = 0
    · rw [Nat.mod_eq_of_lt (hsmall c hc hz)]
      simp [Option.guard]
    · simp [Option.guard, hz]
  rw [← hguard, numEntries, ← hf]
  refine congrArg (Option.getD · 0) (findSome_congr fun i _ => findSome_congr fun j hj => ?_)
  rw [List.mem_range] at hj
  exact if_congr (hbytes i j hj) rfl rfl

/-- The cluster found is the first free one; 0 is found also when there is none. -/
theorem findFirstFreeCluster_spec (hl : Layout fs) (d : Disk) {c : Nat}
    (h : findFirstFreeCluster fs d = c) (hc : 2 ≤ c) :
    c < numEntries fs ∧ getSuccessorCluster fs d c = 0 ∧
      ∀ a < c, getSuccessorCluster fs d a ≠ 0 := by
  rw [findFirstFreeCluster_eq hl.even d fun c hc _ => hl.lt_of_entry hc] at h
  cases hf : (List.range (numEntries fs)).find? fun c => getSuccessorCluster fs d c = 0 with
  | none =>
    rw [hf] at h
    simp only [Option.getD_none] at h
    omega
  | some b =>
    rw [hf, Option.getD_some] at h
    subst h
    rw [List.find?_range_eq_some] at hf
    exact ⟨by simpa using hf.2.1, by simpa using hf.1, fun a ha => by simpa using hf.2.2 a ha⟩

/-- A table that is not empty has an entry for what is found. -/
theorem findFirstFreeCluster_lt (hl : Layout fs) (hpos : 0 < numEntries fs) (d : Disk) :
    findFirstFreeCluster fs d < numEntries fs := by
  cases Nat.lt_or_ge (findFirstFreeCluster fs d) 2 with
  | inl hlt =>
    rw [findFirstFreeCluster_eq hl.even d fun c hc _ => hl.lt_of_entry hc]
    cases hf : (List.range (numEntries fs)).find? fun c => getSuccessorCluster fs d c = 0 with
    | none => exact hpos
    | some b =>
      rw [List.find?_range_eq_some] at hf
      exact List.mem_range.mp hf.2.1
  | inr hge => exact (findFirstFreeCluster_spec hl d rfl hge).1

end FreeClusters
end MalapropOS.Fat
