import MalapropOS.Fat.Directory
import MalapropOS.Fat.WriteFile

/-! The slots of a directory. A listing is the list of its live slots, decoded; the two kinds
of search find a slot by its number; storing an entry changes one slot. -/
namespace MalapropOS.Fat
open LinkedChain

/-- The byte that says whether a slot is in use: 0x00 ends the directory, 0xe5 is deleted. -/
def firstByte (d : Disk) (p : Slot) : UInt8 := d p.sector p.index

/-- The entry in a slot. -/
def slotEntry (d : Disk) (p : Slot) : DirEntry := decodeEntry (d p.sector) p.index

def sectorSlots (fs : Fat16) (s : Nat) : List Slot :=
  (List.range (sectorEntries fs)).map fun j => ⟨s, 32 * j⟩

/-- The slots of a directory that lies in the sectors `ss`. -/
def slotsOf (fs : Fat16) (ss : List Nat) : List Slot := ss.flatMap (sectorSlots fs)

/-- The slots that a listing shows: those in use in front of the first that ends it. -/
def liveSlots (fs : Fat16) (d : Disk) (ss : List Nat) : List Slot :=
  ((slotsOf fs ss).takeWhile fun p => firstByte d p ≠ 0x00).filter fun p => firstByte d p ≠ 0xe5

def rootSectors (fs : Fat16) : List Nat :=
  (List.range (numRootSectors fs)).map fun i =>
    1 + fs.numSectorsPerFileAllocationTable * fs.numFileAllocationTables + i

def clusterSectors (fs : Fat16) (c : Nat) : List Nat :=
  (List.range fs.sectorsPerCluster).map fun i => firstSector fs c + i

/-- The sectors of the clusters `l`. -/
def chainSectors (fs : Fat16) (l : List Nat) : List Nat := l.flatMap (clusterSectors fs)

/-- The entries of a listing of the sectors `ss`. -/
def entriesOf (fs : Fat16) (d : Disk) (ss : List Nat) : List ListEntry :=
  (liveSlots fs d ss).map fun p => ⟨slotEntry d p, p⟩

section Decoding
variable {x y : Buffer} {i j : Nat}

theorem decodeChars_congr {n : Nat} (h : ∀ k < n, x (i + k) = y (j + k)) :
    decodeChars x i n = decodeChars y j n := by
  refine List.map_congr_left fun k hk => ?_
  rw [h k (List.mem_range.mp hk)]

/-- The name of an entry depends on the first 11 bytes of its slot. -/
theorem decodeEntry_name (h : ∀ k < 0x0b, x (i + k) = y (j + k)) :
    (decodeEntry x i).filename = (decodeEntry y j).filename ∧
      (decodeEntry x i).extension = (decodeEntry y j).extension := by
  have h₀ : x i = y j := h 0 (by decide)
  have he : ∀ k < 3, x (i + 0x08 + k) = y (j + 0x08 + k) := fun k hk => by
    rw [Nat.add_assoc, Nat.add_assoc, h _ (by omega)]
  have hn : decodeChars x i 8 = decodeChars y j 8 := decodeChars_congr fun k hk => h k (by omega)
  exact ⟨by simp only [decodeEntry, h₀, hn], by simp only [decodeEntry, decodeChars_congr he]⟩

/-- An entry depends on the bytes of its slot that are read. -/
theorem decodeEntry_read (h : ∀ k < 32, k < 0x0c ∨ 0x1a ≤ k → x (i + k) = y (j + k)) :
    decodeEntry x i = decodeEntry y j := by
  obtain ⟨hn, he⟩ := decodeEntry_name fun k (hk : k < 0x0b) => h k (by omega) (by omega)
  simp only [decodeEntry] at hn he ⊢
  rw [hn, he, h 0x0b (by decide) (by decide), h 0x1a (by decide) (by decide),
    h 0x1b (by decide) (by decide), h 0x1c (by decide) (by decide), h 0x1d (by decide) (by decide),
    h 0x1e (by decide) (by decide), h 0x1f (by decide) (by decide)]

theorem decodeEntry_congr (h : ∀ k < 32, x (i + k) = y (j + k)) :
    decodeEntry x i = decodeEntry y j :=
  decodeEntry_read fun k hk _ => h k hk

end Decoding

section Listing

/-- A listing, slot by slot. -/
def scanSlots (d : Disk) : List Slot → List ListEntry × Bool
  | [] => ([], false)
  | p :: ps =>
    if firstByte d p = 0x00 then ([], true)
    else if firstByte d p = 0xe5 then scanSlots d ps
    else (⟨slotEntry d p, p⟩ :: (scanSlots d ps).1, (scanSlots d ps).2)

theorem scanSlots_fst (d : Disk) (ps : List Slot) : (scanSlots d ps).1 =
    ((ps.takeWhile fun p => firstByte d p ≠ 0x00).filter fun p => firstByte d p ≠ 0xe5).map
      fun p => ⟨slotEntry d p, p⟩ := by
  induction ps with
  | nil => rfl
  | cons p ps ih =>
    by_cases h₀ : firstByte d p = 0x00
    · simp [scanSlots, h₀]
    · by_cases h₁ : firstByte d p = 0xe5
      · simp [scanSlots, h₁, ih]
      · simp [scanSlots, h₀, h₁, ih]

theorem scanSlots_append (d : Disk) (ps qs : List Slot) : scanSlots d (ps ++ qs) =
    if (scanSlots d ps).2 then scanSlots d ps
    else ((scanSlots d ps).1 ++ (scanSlots d qs).1, (scanSlots d qs).2) := by
  induction ps with
  | nil => rfl
  | cons p ps ih =>
    by_cases h₀ : firstByte d p = 0x00
    · simp [scanSlots, h₀]
    · by_cases h₁ : firstByte d p = 0xe5
      · simp [scanSlots, h₁, ih]
      · simp only [List.cons_append, scanSlots, h₀, h₁, if_false, ih]
        split_ifs <;> rfl

/-- The loop over a sector that was read to `x[ i ]`. -/
theorem addSectorEntries_eq (d : Disk) (s : Nat) (x : Buffer) (i : Nat) (js : List Nat)
    (h : ∀ j ∈ js, ∀ k < 32, x (i + 32 * j + k) = d s (32 * j + k)) :
    addSectorEntries s x i js = scanSlots d (js.map fun j => ⟨s, 32 * j⟩) := by
  induction js with
  | nil => rfl
  | cons j js ih =>
    have h₀ : x (i + 32 * j) = firstByte d ⟨s, 32 * j⟩ := h j (by simp) 0 (by decide)
    have hd : decodeEntry x (i + 32 * j) = slotEntry d ⟨s, 32 * j⟩ :=
      decodeEntry_congr (h j (by simp))
    simp only [addSectorEntries, List.map_cons, scanSlots, h₀, hd,
      ih fun j hj => h j (by simp [hj])]

theorem listSectors_eq (fs : Fat16) (d : Disk) (scan : Nat → List ListEntry × Bool)
    (sector : Nat → Nat) (is : List Nat)
    (h : ∀ i ∈ is, scan i = scanSlots d (sectorSlots fs (sector i))) :
    listSectors scan is = scanSlots d (slotsOf fs (is.map sector)) := by
  induction is with
  | nil => rfl
  | cons i is ih =>
    rw [listSectors, List.map_cons, slotsOf, List.flatMap_cons, scanSlots_append, h i (by simp),
      ih fun j hj => h j (by simp [hj])]
    split_ifs with ht
    · rw [← ht]
    · rfl

theorem slot_in_sector {fs : Fat16} {j k : Nat} (hj : j < sectorEntries fs) (hk : k < 32) :
    32 * j + k < fs.bytesPerSector := by
  have : fs.bytesPerSector / 32 * 32 ≤ fs.bytesPerSector := Nat.div_mul_le_self _ _
  simp only [sectorEntries] at hj
  omega

theorem getRootDir_eq (fs : Fat16) (d : Disk) :
    getRootDir fs d = entriesOf fs d (rootSectors fs) := by
  have h := listSectors_eq fs d (fun i => addSectorDirEntriesToList fs
    (1 + fs.numSectorsPerFileAllocationTable * fs.numFileAllocationTables + i)
    (diskRd d (1 + fs.numSectorsPerFileAllocationTable * fs.numFileAllocationTables + i) zeroBuffer
      0 fs.bytesPerSector) 0)
    (fun i => 1 + fs.numSectorsPerFileAllocationTable * fs.numFileAllocationTables + i)
    (List.range (numRootSectors fs)) fun i _ => by
      refine addSectorEntries_eq d _ _ _ _ fun j hj k hk => ?_
      have := slot_in_sector (List.mem_range.mp hj) hk
      rw [diskRd, if_pos (by omega), Nat.zero_add, Nat.sub_zero]
  simp only [getRootDir, h, scanSlots_fst]
  rfl

theorem loadCluster_sector {fs : Fat16} (d : Disk) {c q k : Nat} (hc : 2 ≤ c) (hc' : c < 2 ^ 16)
    (hq : q < fs.sectorsPerCluster) (hk : k < fs.bytesPerSector) :
    loadCluster fs d c (q * fs.bytesPerSector + k) = d (firstSector fs c + q) k := by
  have hpos : q * fs.bytesPerSector + k < bytesPerCluster fs := by
    have : (q + 1) * fs.bytesPerSector ≤ fs.sectorsPerCluster * fs.bytesPerSector :=
      Nat.mul_le_mul_right _ hq
    rw [Nat.add_mul, Nat.mul_comm fs.sectorsPerCluster] at this
    rw [bytesPerCluster]
    omega
  rw [loadCluster_eq, if_pos hpos, Nat.mul_comm q, Nat.mul_add_div fs.bytesPerSector_pos,
    Nat.div_eq_of_lt hk, Nat.mul_add_mod, Nat.mod_eq_of_lt hk, Nat.add_zero,
    clusterSector_eq fs hc hc' hq]

theorem listCluster_eq (fs : Fat16) (d : Disk) {c : Nat} (hc : 2 ≤ c) (hc' : c < 2 ^ 16) :
    listCluster fs d c = scanSlots d (slotsOf fs (clusterSectors fs c)) := by
  refine listSectors_eq fs d _ _ _ fun i hi => ?_
  rw [List.mem_range] at hi
  rw [clusterSector_eq fs hc hc' hi]
  refine addSectorEntries_eq d _ _ _ _ fun j hj k hk => ?_
  have hlt := slot_in_sector (List.mem_range.mp hj) hk
  rw [Nat.add_assoc, loadCluster_sector d hc hc' hi hlt]

/-- `get_dir` lists the slots of the whole chain. -/
theorem listChain_path {fs : Fat16} {d : Disk} {c : Nat} {l : List Nat} {e : Nat}
    (hp : Path (getSuccessorCluster fs d) c l e) (he : ¬ InChain e) (hin : ∀ a ∈ l, InChain a)
    {fuel : Nat} (hf : l.length < fuel) :
    listChain fs d fuel c = some (scanSlots d (slotsOf fs (chainSectors fs l))).1 := by
  induction l generalizing c fuel with
  | nil =>
    obtain ⟨fuel, rfl⟩ : ∃ n, fuel = n + 1 := ⟨fuel - 1, by simp at hf; omega⟩
    obtain rfl : c = e := hp
    rw [listChain, if_neg he]
    rfl
  | cons a l ih =>
    obtain ⟨fuel, rfl⟩ : ∃ n, fuel = n + 1 := ⟨fuel - 1, by simp at hf; omega⟩
    obtain ⟨rfl, hp⟩ := hp
    have hic : InChain a := hin a (by simp)
    have hlc := listCluster_eq fs d (show 2 ≤ a from hic.1) (hic.2.trans (by decide))
    rw [listChain, if_pos hic, hlc, ih hp (fun b hb => hin b (by simp [hb])) (by simpa using hf)]
    have happ : slotsOf fs (chainSectors fs (a :: l)) =
        slotsOf fs (clusterSectors fs a) ++ slotsOf fs (chainSectors fs l) := by
      simp [slotsOf, chainSectors]
    rw [happ, scanSlots_append]
    split_ifs <;> rfl

theorem listChain_eq {fs : Fat16} (hl : Layout fs) {d : Disk} {c : Nat} {l : List Nat} {e : Nat}
    (hp : Path (getSuccessorCluster fs d) c l e) (he : 0xfff8 ≤ e)
    (hin : ∀ a ∈ l, 2 ≤ a ∧ a < numEntries fs) {fuel : Nat} (hf : l.length < fuel) :
    listChain fs d fuel c = some (scanSlots d (slotsOf fs (chainSectors fs l))).1 := by
  refine listChain_path hp (fun h => ?_) (fun a ha => ?_) hf
  · have := h.2
    omega
  · have := hin a ha
    have := hl.entries
    exact ⟨by omega, by omega⟩

/-- The listing of a directory whose chain is `l`. -/
theorem getDir_eq {fs : Fat16} (hl : Layout fs) {d : Disk} {e : DirEntry} {l : List Nat}
    (hs : isSubdirectory e.attributes) (hc : FileChain fs d e.firstCluster l) :
    getDir fs d e = some (some (entriesOf fs d (chainSectors fs l))) := by
  obtain ⟨m, he, hp⟩ := hc.ends
  have hlen := hc.length_lt hl
  rw [getDir, if_pos hs, listChain_eq hl hp he hc.inTable (by rw [walkFuel]; omega), scanSlots_fst]
  rfl

end Listing

/-- A layout for directories: slots do not cross sectors, the root directory as it is listed
lies behind the table, and its sector numbers do not wrap round. -/
structure DirLayout (fs : Fat16) : Prop extends Layout fs where
  slots : 32 ∣ fs.bytesPerSector
  reserved : 1 ≤ fs.numReservedSectors
  rootBehindTable : fs.numReservedSectors + fs.numSectorsPerFileAllocationTable ≤
    1 + fs.numSectorsPerFileAllocationTable * fs.numFileAllocationTables
  rootFits : (calculateRegions fs).dataRegionStart + 1 < 2 ^ 16

/-- The slot at byte `i` of the cluster `c`. -/
def clusterSlot (fs : Fat16) (c i : Nat) : Slot :=
  ⟨firstSector fs c + i / fs.bytesPerSector, i % fs.bytesPerSector⟩

/-- The same, also for the cluster numbers 0 and 1, whose sector numbers may wrap round. -/
def wrappedSlot (fs : Fat16) (c i : Nat) : Slot :=
  ⟨clusterSector fs c (i / fs.bytesPerSector), i % fs.bytesPerSector⟩

/-- The disk after an entry was stored in a slot. -/
def writeSlot (d : Disk) (p : Slot) (e : DirEntry) (first : UInt8) : Disk :=
  fun s k => if s = p.sector ∧ p.index ≤ k then (entryByte e first (k - p.index)).getD (d s k)
    else d s k

section Storing

theorem entryByte_none {e : DirEntry} {first : UInt8} {k : Nat} (hk : 32 ≤ k) :
    entryByte e first k = none := by
  simp [entryByte, show ¬ k = 0 by omega, show ¬ k < 8 by omega, show ¬ k < 0x0b by omega,
    show ¬ k = 0x0b by omega, show ¬ k < 0x1a by omega, show ¬ k < 0x1c by omega,
    show ¬ k < 0x20 by omega]

/-- The bytes between the attributes and the first cluster are not written. -/
theorem entryByte_gap {e : DirEntry} {first : UInt8} {k : Nat} (hk : 0x0c ≤ k) (hk' : k < 0x1a) :
    entryByte e first k = none := by
  simp [entryByte, show ¬ k = 0 by omega, show ¬ k < 8 by omega, show ¬ k < 0x0b by omega,
    show ¬ k = 0x0b by omega, hk']

/-- Those that a listing reads are. -/
theorem entryByte_read (e : DirEntry) (first : UInt8) {k : Nat}
    (hk : k < 0x0c ∨ 0x1a ≤ k ∧ k < 0x20) : ∃ b, entryByte e first k = some b := by
  unfold entryByte
  split_ifs
  · exact ⟨_, rfl⟩
  · exact ⟨_, rfl⟩
  · exact ⟨_, rfl⟩
  · exact ⟨_, rfl⟩
  · omega
  · exact ⟨_, rfl⟩
  · exact ⟨_, rfl⟩
  · omega

/-- Only the bytes of the slot change. -/
theorem writeSlot_frame {d : Disk} {p : Slot} {e : DirEntry} {first : UInt8} {s k : Nat}
    (h : writeSlot d p e first s k ≠ d s k) : s = p.sector ∧ p.index ≤ k ∧ k < p.index + 32 := by
  by_cases hs : s = p.sector ∧ p.index ≤ k
  · refine ⟨hs.1, hs.2, ?_⟩
    by_contra hk
    rw [writeSlot, if_pos hs, entryByte_none (by omega)] at h
    exact h rfl
  · rw [writeSlot, if_neg hs] at h
    exact absurd rfl h

theorem storeInSector_eq {fs : Fat16} (d : Disk) {s i : Nat} (e : DirEntry) (first : UInt8)
    (hi : i + 32 ≤ fs.bytesPerSector) :
    storeInSector fs d s i e first = writeSlot d ⟨s, i⟩ e first := by
  funext s' k
  simp only [storeInSector, diskWr, storeEntry, diskRd, writeSlot, Nat.zero_add, Nat.zero_le,
    true_and, Nat.sub_zero]
  by_cases hs : s' = s
  · subst hs
    by_cases hk : k < fs.bytesPerSector
    · simp [hk]
    · rw [if_neg (by tauto)]
      split_ifs with h
      · rw [entryByte_none (by omega)]
        rfl
      · rfl
  · simp [hs]

/-- Storing an entry in a cluster, whatever its number, changes one slot. -/
theorem storeInCluster_wrapped {fs : Fat16} (h32 : 32 ∣ fs.bytesPerSector) (d : Disk) (c : Nat)
    {i : Nat} (e : DirEntry) (first : UInt8) (hi : 32 ∣ i) (hi' : i + 32 ≤ bytesPerCluster fs) :
    storeInCluster fs d c i e first = writeSlot d (wrappedSlot fs c i) e first := by
  funext s k
  have hb := fs.bytesPerSector_pos
  have hdm := Nat.div_add_mod i fs.bytesPerSector
  have hroom : i % fs.bytesPerSector + 32 ≤ fs.bytesPerSector := by
    have hlt := Nat.mod_lt i hb
    have hdvd : 32 ∣ i % fs.bytesPerSector := (Nat.dvd_mod_iff h32).mpr hi
    omega
  have hq := sector_lt fs (show i < bytesPerCluster fs by omega)
  rw [storeInCluster]
  show _ = if s = clusterSector fs c (i / fs.bytesPerSector) ∧ i % fs.bytesPerSector ≤ k then
    (entryByte e first (k - i % fs.bytesPerSector)).getD (d s k) else d s k
  by_cases hin : ∃ q < fs.sectorsPerCluster, s = clusterSector fs c q ∧ k < fs.bytesPerSector
  · obtain ⟨q, hqlt, rfl, hk⟩ := hin
    have hload : loadCluster fs d c (q * fs.bytesPerSector + k) = d (clusterSector fs c q) k := by
      have : (q + 1) * fs.bytesPerSector ≤ fs.sectorsPerCluster * fs.bytesPerSector :=
        Nat.mul_le_mul_right _ hqlt
      rw [Nat.add_mul, Nat.mul_comm fs.sectorsPerCluster] at this
      rw [loadCluster_eq, if_pos (by rw [bytesPerCluster]; omega), Nat.mul_comm q,
        Nat.mul_add_div hb, Nat.div_eq_of_lt hk, Nat.mul_add_mod, Nat.mod_eq_of_lt hk, Nat.add_zero]
    rw [writeCluster_sector fs d c _ hqlt hk, storeEntry, hload]
    by_cases hqe : q = i / fs.bytesPerSector
    · subst hqe
      rw [Nat.mul_comm (i / fs.bytesPerSector)]
      by_cases hle : i % fs.bytesPerSector ≤ k
      · rw [if_pos (by omega), if_pos ⟨rfl, hle⟩]
        congr 2
        omega
      · rw [if_neg (by omega), if_neg (by omega)]
    · have hne : clusterSector fs c q ≠ clusterSector fs c (i / fs.bytesPerSector) := fun h =>
        hqe (clusterSector_injective fs hqlt hq h)
      rw [if_neg (fun h => hne h.1 : ¬ (clusterSector fs c q =
        clusterSector fs c (i / fs.bytesPerSector) ∧ i % fs.bytesPerSector ≤ k))]
      split_ifs with hle
      · -- the byte lies in a later sector than the slot
        have hlt : i / fs.bytesPerSector < q := by
          by_contra hge
          have : q + 1 ≤ i / fs.bytesPerSector := by omega
          have : (q + 1) * fs.bytesPerSector ≤ i / fs.bytesPerSector * fs.bytesPerSector :=
            Nat.mul_le_mul_right _ this
          rw [Nat.add_mul, Nat.mul_comm (i / fs.bytesPerSector)] at this
          omega
        have : (i / fs.bytesPerSector + 1) * fs.bytesPerSector ≤ q * fs.bytesPerSector :=
          Nat.mul_le_mul_right _ hlt
        rw [Nat.add_mul, Nat.mul_comm (i / fs.bytesPerSector)] at this
        rw [entryByte_none (by omega)]
        rfl
      · rfl
  · rw [writeCluster_outside fs d c _ fun q hq hs => by
      by_contra hk
      exact hin ⟨q, hq, hs, by omega⟩]
    split_ifs with h
    · obtain ⟨rfl, hle⟩ := h
      have hk : fs.bytesPerSector ≤ k := by
        by_contra hlt
        exact hin ⟨_, hq, rfl, by omega⟩
      rw [entryByte_none (by omega)]
      rfl
    · rfl

theorem wrappedSlot_eq {fs : Fat16} {c i : Nat} (hc : 2 ≤ c) (hc' : c < 2 ^ 16)
    (hi : i < bytesPerCluster fs) : wrappedSlot fs c i = clusterSlot fs c i := by
  rw [wrappedSlot, clusterSector_eq fs hc hc' (sector_lt fs hi), clusterSlot]

theorem storeInCluster_eq {fs : Fat16} (h32 : 32 ∣ fs.bytesPerSector) (d : Disk) {c i : Nat}
    (hc : 2 ≤ c) (hc' : c < 2 ^ 16) (e : DirEntry) (first : UInt8) (hi : 32 ∣ i)
    (hi' : i + 32 ≤ bytesPerCluster fs) :
    storeInCluster fs d c i e first = writeSlot d (clusterSlot fs c i) e first := by
  rw [storeInCluster_wrapped h32 d c e first hi hi', wrappedSlot_eq hc hc' (by omega)]

end Storing
end MalapropOS.Fat
