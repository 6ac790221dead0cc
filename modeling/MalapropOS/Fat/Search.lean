import MalapropOS.Fat.Slots

/-! What the searches for a slot find, and what storing an entry in a slot changes. -/
namespace MalapropOS.Fat
open LinkedChain

/-- A slot behind the table, aligned in its sector. -/
structure IsSlot (fs : Fat16) (p : Slot) : Prop where
  behind : fs.numReservedSectors + fs.numSectorsPerFileAllocationTable ≤ p.sector
  aligned : ∃ j < sectorEntries fs, p.index = 32 * j

section Scan

/-- The loops over slots stop at the first that passes their test. -/
theorem scan_some {n i : Nat} {t : Nat → Prop} [DecidablePred t]
    (h : ((List.range n).findSome? fun j => if t j then some (j * 32) else none) = some i) :
    ∃ j < n, i = j * 32 ∧ t j := by
  obtain ⟨j, hj, he⟩ := List.exists_of_findSome?_eq_some h
  by_cases ht : t j
  · rw [if_pos ht] at he
    exact ⟨j, List.mem_range.mp hj, (Option.some.inj he).symm, ht⟩
  · rw [if_neg ht] at he
    cases he

theorem findFirstFreeSpace_some {n i : Nat} {x : Buffer} (h : findFirstFreeSpace n x = some i) :
    ∃ j < n, i = j * 32 ∧ (x i = 0x00 ∨ x i = 0xe5) := by
  obtain ⟨j, hj, rfl, ht⟩ := scan_some h
  exact ⟨j, hj, rfl, ht⟩

theorem findFileSlot_some {n i : Nat} {name ext : CharPtr} {x : Buffer}
    (h : findFileSlot n name ext x = some i) :
    ∃ j < n, i = j * 32 ∧ slotMatches x j name ext = true :=
  scan_some h

/-- A slot that matches starts with the first character of the name, or both are blank. -/
theorem slotMatches_first {x : Buffer} {j : Nat} {name ext : CharPtr}
    (h : slotMatches x j name ext = true) :
    x (j * 32) = CharPtr.at name 0 ∨ x (j * 32) = 0x20 ∧ CharPtr.at name 0 = 0 := by
  simp only [slotMatches, Bool.and_eq_true] at h
  have h₁ := h.1
  rw [show List.range 8 = 0 :: (List.range 7).map (· + 1) from rfl, nameMatches] at h₁
  split_ifs at h₁ with hb
  · exact Or.inr hb
  · simp only [Bool.and_eq_true, decide_eq_true_eq] at h₁
    exact Or.inl h₁.1

end Scan

section Directories
variable {fs : Fat16} {d : Disk} {find : Buffer → Option Nat}

/-- A search along a chain ends in one of its clusters. -/
theorem searchDirectory_path {c e : Nat} {l : List Nat} (hp : Path (getSuccessorCluster fs d) c l e)
    (he : ¬ InChain e) (hne : l ≠ []) {fuel : Nat} (hf : l.length ≤ fuel) :
    ∃ a o, searchDirectory fs d find fuel c = some (a, o) ∧ a ∈ l ∧
      find (loadCluster fs d a) = o := by
  induction l generalizing c fuel with
  | nil => exact absurd rfl hne
  | cons b l ih =>
    obtain ⟨fuel, rfl⟩ : ∃ n, fuel = n + 1 := ⟨fuel - 1, by simp at hf; omega⟩
    obtain ⟨rfl, hp⟩ := hp
    cases hb : find (loadCluster fs d b) with
    | some i => exact ⟨b, some i, by simp [searchDirectory, hb], by simp, hb⟩
    | none =>
      by_cases hn : getSuccessorCluster fs d b < 0x0002 ∨ getSuccessorCluster fs d b > 0x0fef
      · exact ⟨b, none, by rw [searchDirectory, hb]; exact if_pos hn, by simp, hb⟩
      · have hl : l ≠ [] := by
          rintro rfl
          have hout : ¬ InChain (getSuccessorCluster fs d b) := hp ▸ he
          exact hout ⟨by omega, by omega⟩
        obtain ⟨a, o, ha, hm, ho⟩ := ih hp hl (by simpa using hf)
        exact ⟨a, o, by rw [searchDirectory, hb]; simp only [if_neg hn]; exact ha,
          List.mem_cons_of_mem _ hm, ho⟩

theorem searchDirectory_chain (hl : Layout fs) {c : Nat} {l : List Nat} (hc : FileChain fs d c l)
    (find : Buffer → Option Nat) : ∃ a o, searchDirectory fs d find walkFuel c = some (a, o) ∧
      a ∈ l ∧ find (loadCluster fs d a) = o := by
  obtain ⟨e, he, hp⟩ := hc.ends
  have := hc.length_lt hl
  have hout : ¬ InChain e := fun h => by
    have := h.2
    omega
  exact searchDirectory_path hp hout hc.nonempty (by rw [walkFuel]; omega)

/-- A search depends on the clusters of the chain only. -/
theorem searchDirectory_congr {d' : Disk} {c e : Nat} {l : List Nat}
    (hp : Path (getSuccessorCluster fs d) c l e) (he : 0xfff8 ≤ e) (hne : l ≠ [])
    (hs : ∀ a ∈ l, getSuccessorCluster fs d' a = getSuccessorCluster fs d a)
    (hd : ∀ a ∈ l, loadCluster fs d' a = loadCluster fs d a) (fuel : Nat) :
    searchDirectory fs d' find fuel c = searchDirectory fs d find fuel c := by
  induction l generalizing c fuel with
  | nil => exact absurd rfl hne
  | cons b l ih =>
    cases fuel with
    | zero => rfl
    | succ fuel =>
      obtain ⟨rfl, hp⟩ := hp
      rw [searchDirectory, searchDirectory, hd b (by simp), hs b (by simp)]
      cases find (loadCluster fs d b) with
      | some i => rfl
      | none =>
        by_cases hn : getSuccessorCluster fs d b < 0x0002 ∨ getSuccessorCluster fs d b > 0x0fef
        · simp only [if_pos hn]
        · have hl : l ≠ [] := by
            rintro rfl
            obtain rfl : getSuccessorCluster fs d b = e := hp
            omega
          simp only [if_neg hn]
          exact ih hp hl (fun a ha => hs a (by simp [ha])) (fun a ha => hd a (by simp [ha])) fuel

end Directories

section Root
variable {fs : Fat16} {d : Disk} {find : Buffer → Option Nat}

/-- A round of the search, below the sector numbers that wrap round. -/
theorem searchRoot_succ (hfit : (calculateRegions fs).dataRegionStart + 1 < 2 ^ 16) {s : Nat}
    (hs : s ≤ (calculateRegions fs).dataRegionStart) (fuel : Nat) :
    searchRoot fs d find (fuel + 1) s =
      match find (diskRd d s zeroBuffer 0 fs.bytesPerSector) with
      | some i => some (s, some i)
      | none =>
        if s = (calculateRegions fs).dataRegionStart then some (s, none)
        else searchRoot fs d find fuel (s + 1) := by
  have hmod : (s + 1) % 2 ^ 16 = s + 1 := Nat.mod_eq_of_lt (by omega)
  have hd : (calculateRegions fs).rootDirectoryRegionStart +
      (calculateRegions fs).rootDirectoryRegionSize = (calculateRegions fs).dataRegionStart := rfl
  rw [searchRoot]
  cases find (diskRd d s zeroBuffer 0 fs.bytesPerSector) with
  | some i => rfl
  | none =>
    simp only [hmod, hd]
    by_cases hn : s = (calculateRegions fs).dataRegionStart
    · rw [if_pos (by omega), if_pos hn]
    · rw [if_neg (by omega), if_neg hn]

/-- A search of the root directory ends in one of its sectors or in the one behind them. -/
theorem searchRoot_ends (hfit : (calculateRegions fs).dataRegionStart + 1 < 2 ^ 16) {s fuel : Nat}
    (hs : s ≤ (calculateRegions fs).dataRegionStart)
    (hf : (calculateRegions fs).dataRegionStart < s + fuel) :
    ∃ t o, searchRoot fs d find fuel s = some (t, o) ∧ s ≤ t ∧
      t ≤ (calculateRegions fs).dataRegionStart ∧
      find (diskRd d t zeroBuffer 0 fs.bytesPerSector) = o := by
  induction fuel generalizing s with
  | zero => omega
  | succ fuel ih =>
    rw [searchRoot_succ hfit hs]
    cases hb : find (diskRd d s zeroBuffer 0 fs.bytesPerSector) with
    | some i => exact ⟨s, some i, rfl, Nat.le_refl _, hs, hb⟩
    | none =>
      by_cases hn : s = (calculateRegions fs).dataRegionStart
      · exact ⟨s, none, by simp only [if_pos hn], Nat.le_refl _, hs, hb⟩
      · obtain ⟨t, o, ht, hle, hle', ho⟩ := ih (s := s + 1) (by omega) (by omega)
        exact ⟨t, o, by simp only [if_neg hn, ht], by omega, hle', ho⟩

/-- Two disks that agree on the sectors of the region: a slot found on one is found on the
other, unless it is in the sector behind the region and they differ there. -/
theorem searchRoot_congr {d' : Disk} {s fuel t i : Nat}
    (hfit : (calculateRegions fs).dataRegionStart + 1 < 2 ^ 16)
    (hs : s ≤ (calculateRegions fs).dataRegionStart)
    (hd : ∀ a, s ≤ a → a < (calculateRegions fs).dataRegionStart → ∀ k < fs.bytesPerSector,
      d' a k = d a k)
    (h : searchRoot fs d' find fuel s = some (t, some i)) :
    (t = (calculateRegions fs).dataRegionStart ∧ ∃ k < fs.bytesPerSector, d' t k ≠ d t k) ∨
      searchRoot fs d find fuel s = some (t, some i) := by
  induction fuel generalizing s with
  | zero => simp [searchRoot] at h
  | succ fuel ih =>
    rw [searchRoot_succ hfit hs] at h ⊢
    by_cases hk : ∀ k < fs.bytesPerSector, d' s k = d s k
    · have hr : diskRd d' s zeroBuffer 0 fs.bytesPerSector =
          diskRd d s zeroBuffer 0 fs.bytesPerSector := by
        funext k
        by_cases hb : k < fs.bytesPerSector
        · simp [diskRd, hb, hk k hb]
        · simp [diskRd, hb]
      rw [hr] at h
      cases hb : find (diskRd d s zeroBuffer 0 fs.bytesPerSector) with
      | some j =>
        rw [hb] at h
        exact Or.inr h
      | none =>
        simp only [hb] at h ⊢
        by_cases hn : s = (calculateRegions fs).dataRegionStart
        · simp [if_pos hn] at h
        · rw [if_neg hn] at h ⊢
          exact ih (by omega) (fun a ha => hd a (by omega)) h
    · -- the sector differs, so it is the one behind the region
      have hn : s = (calculateRegions fs).dataRegionStart := by
        by_contra hn
        exact hk (hd s (Nat.le_refl _) (by omega))
      left
      cases hb : find (diskRd d' s zeroBuffer 0 fs.bytesPerSector) with
      | some j =>
        simp only [hb, Option.some.injEq, Prod.mk.injEq] at h
        obtain rfl := h.1
        exact ⟨hn, by simpa using hk⟩
      | none => simp [hb, if_pos hn] at h

end Root

section Storing
variable {fs : Fat16} {d : Disk} {p q : Slot} {e : DirEntry} {first : UInt8}

theorem mem_slotsOf {ss : List Nat} :
    p ∈ slotsOf fs ss ↔ p.sector ∈ ss ∧ ∃ j < sectorEntries fs, p.index = 32 * j := by
  simp only [slotsOf, sectorSlots, List.mem_flatMap, List.mem_map, List.mem_range]
  constructor
  · rintro ⟨s, hs, j, hj, rfl⟩
    exact ⟨hs, j, hj, rfl⟩
  · rintro ⟨hs, j, hj, hi⟩
    exact ⟨p.sector, hs, j, hj, by rw [← hi]⟩

theorem IsSlot.room (hp : IsSlot fs p) : p.index + 32 ≤ fs.bytesPerSector := by
  obtain ⟨j, hj, hi⟩ := hp.aligned
  have := slot_in_sector hj (show 31 < 32 by decide)
  omega

/-- Storing an entry leaves the other slots as they are. -/
theorem writeSlot_apart (hp : 32 ∣ p.index) (hq : 32 ∣ q.index) (hne : q ≠ p) {k : Nat}
    (hk : k < 32) :
    writeSlot d p e first q.sector (q.index + k) = d q.sector (q.index + k) := by
  by_contra h
  obtain ⟨hs, hle, hlt⟩ := writeSlot_frame h
  refine hne ?_
  cases p
  cases q
  simp only [Slot.mk.injEq] at *
  omega

theorem IsSlot.dvd (hp : IsSlot fs p) : 32 ∣ p.index :=
  hp.aligned.elim fun j hj => ⟨j, hj.2⟩

theorem writeSlot_other (hp : IsSlot fs p) (hq : IsSlot fs q) (hne : q ≠ p) {k : Nat} (hk : k < 32) :
    writeSlot d p e first q.sector (q.index + k) = d q.sector (q.index + k) :=
  writeSlot_apart hp.dvd hq.dvd hne hk

theorem firstByte_writeSlot_self : firstByte (writeSlot d p e first) p = first := by
  simp [firstByte, writeSlot, entryByte]

theorem firstByte_writeSlot_other (hp : IsSlot fs p) (hq : IsSlot fs q) (hne : q ≠ p) :
    firstByte (writeSlot d p e first) q = firstByte d q :=
  writeSlot_other hp hq hne (show 0 < 32 by decide)

theorem slotEntry_writeSlot_other (hp : IsSlot fs p) (hq : IsSlot fs q) (hne : q ≠ p) :
    slotEntry (writeSlot d p e first) q = slotEntry d q :=
  decodeEntry_congr fun _ hk => writeSlot_other hp hq hne hk

theorem writeSlot_byte {k : Nat} {b : UInt8} (h : entryByte e first k = some b) :
    writeSlot d p e first p.sector (p.index + k) = b := by
  rw [writeSlot, if_pos ⟨rfl, Nat.le_add_right _ _⟩, Nat.add_sub_cancel_left, h, Option.getD_some]

theorem slotEntry_writeSlot_attributes :
    (slotEntry (writeSlot d p e first) p).attributes = e.attributes :=
  writeSlot_byte rfl

theorem slotEntry_writeSlot_firstCluster (hc : e.firstCluster < 2 ^ 16) :
    (slotEntry (writeSlot d p e first) p).firstCluster = e.firstCluster := by
  have h₀ : writeSlot d p e first p.sector (p.index + 0x1a) =
      UInt8.ofNat (e.firstCluster / 256 ^ 0) := writeSlot_byte rfl
  have h₁ : writeSlot d p e first p.sector (p.index + 0x1b) =
      UInt8.ofNat (e.firstCluster / 256 ^ 1) := writeSlot_byte rfl
  simp only [slotEntry, decodeEntry, h₀, h₁, UInt8.toNat_ofNat']
  omega

theorem slotEntry_writeSlot_fileSizeBytes (hs : e.fileSizeBytes < 2 ^ 32) :
    (slotEntry (writeSlot d p e first) p).fileSizeBytes = e.fileSizeBytes := by
  have h₀ : writeSlot d p e first p.sector (p.index + 0x1c) =
      UInt8.ofNat (e.fileSizeBytes / 256 ^ 0) := writeSlot_byte rfl
  have h₁ : writeSlot d p e first p.sector (p.index + 0x1d) =
      UInt8.ofNat (e.fileSizeBytes / 256 ^ 1) := writeSlot_byte rfl
  have h₂ : writeSlot d p e first p.sector (p.index + 0x1e) =
      UInt8.ofNat (e.fileSizeBytes / 256 ^ 2) := writeSlot_byte rfl
  have h₃ : writeSlot d p e first p.sector (p.index + 0x1f) =
      UInt8.ofNat (e.fileSizeBytes / 256 ^ 3) := writeSlot_byte rfl
  simp only [slotEntry, decodeEntry, h₀, h₁, h₂, h₃, UInt8.toNat_ofNat']
  omega

/-- The extension of a slot stays when the stored one is, byte by byte, what was there. -/
theorem slotEntry_writeSlot_extension
    (he : ∀ j < 3, d p.sector (p.index + (0x08 + j)) = CharPtr.at e.extension j) :
    (slotEntry (writeSlot d p e first) p).extension = (slotEntry d p).extension := by
  simp only [slotEntry, decodeEntry]
  congr 1
  refine decodeChars_congr fun j hj => ?_
  have hb : entryByte e first (0x08 + j) = some (CharPtr.at e.extension j) := by
    have h₈ : ¬ 0x08 + j < 8 := by omega
    have hb : 0x08 + j < 0x0b := by omega
    simp [entryByte, h₈, hb]
  rw [Nat.add_assoc, writeSlot_byte hb, he j hj]

/-- The table does not hold slots. -/
theorem getSuccessorCluster_writeSlot (hl : Layout fs) (hp : IsSlot fs p) {c : Nat}
    (hc : c < numEntries fs) :
    getSuccessorCluster fs (writeSlot d p e first) c = getSuccessorCluster fs d c := by
  refine getSuccessorCluster_congr hl.geometry fun s k hb => ?_
  by_contra h
  have hs := (writeSlot_frame h).1
  have hlt := hl.geometry.entrySector_lt hc
  have := hp.behind
  rw [hb.1] at hs
  omega

end Storing
end MalapropOS.Fat
