import MalapropOS.Fat.Names

/-! A directory that gets another cluster. `add_directory_entry` links it behind the last cluster
that it searched, as a copy of that one with the new entry in the first slot. -/
namespace MalapropOS.Fat
open LinkedChain

/-- The disk after the cluster `c` was linked behind `z` for the entry of a new file, and was marked
as the cluster of the file. -/
def grownDisk (fs : Fat16) (d : Disk) (z c : Nat) (e : DirEntry) (first : UInt8) : Disk :=
  setSuccessorCluster fs (writeCluster fs (setSuccessorCluster fs d z c) c
    (storeEntry (loadCluster fs d z) 0 e first)) c 0xFFFF

/-- The directory in the clusters `l` is full up to `z`, where the search for a slot ends, and the
cluster `c` is free. -/
structure Full (fs : Fat16) (d : Disk) (c₀ : Nat) (before : List Nat) (z : Nat) (after : List Nat)
    (c : Nat) : Prop where
  chain : FileChain fs d c₀ (before ++ [z] ++ after)
  full : ∀ a ∈ before ++ [z], findFirstFreeSpace (clusterEntries fs) (loadCluster fs d a) = none
  start : 2 ≤ c
  inTable : c < numEntries fs
  free : getSuccessorCluster fs d c = 0

section Lists
variable {fs : Fat16} {d : Disk}

theorem findFirstFreeSpace_none {n : Nat} {x : Buffer} (h : findFirstFreeSpace n x = none) :
    ∀ j < n, x (j * 32) ≠ 0x00 ∧ x (j * 32) ≠ 0xe5 := by
  intro j hj
  have hnone := List.findSome?_eq_none_iff.mp h j (List.mem_range.mpr hj)
  rw [← not_or]
  intro ht
  rw [if_pos ht] at hnone
  cases hnone

/-- A search that finds no slot ends behind clusters without one. -/
theorem searchDirectory_full {find : Buffer → Option Nat} {c e z fuel : Nat} {l : List Nat}
    (hp : Path (getSuccessorCluster fs d) c l e) (he : 0xfff8 ≤ e) (hne : l ≠ [])
    (h : searchDirectory fs d find fuel c = some (z, none)) :
    ∃ before after, l = before ++ [z] ++ after ∧
      ∀ a ∈ before ++ [z], find (loadCluster fs d a) = none := by
  induction l generalizing c fuel with
  | nil => exact absurd rfl hne
  | cons b l ih =>
    cases fuel with
    | zero => cases h
    | succ fuel =>
      obtain ⟨rfl, hp⟩ := hp
      rw [searchDirectory] at h
      cases hb : find (loadCluster fs d b) with
      | some i => simp [hb] at h
      | none =>
        simp only [hb] at h
        by_cases hn : getSuccessorCluster fs d b < 0x0002 ∨ getSuccessorCluster fs d b > 0x0fef
        · simp only [if_pos hn, Option.some.injEq, Prod.mk.injEq, and_true] at h
          exact ⟨[], l, by rw [h]; rfl, by simpa [← h] using hb⟩
        · rw [if_neg hn] at h
          have hl : l ≠ [] := by
            rintro rfl
            obtain rfl : getSuccessorCluster fs d b = e := hp
            omega
          obtain ⟨before, after, rfl, hall⟩ := ih hp hl h
          exact ⟨b :: before, after, rfl, by simpa [hb] using hall⟩

theorem chainSectors_append (l m : List Nat) :
    chainSectors fs (l ++ m) = chainSectors fs l ++ chainSectors fs m :=
  List.flatMap_append

theorem slotsOf_append (ss ts : List Nat) : slotsOf fs (ss ++ ts) = slotsOf fs ss ++ slotsOf fs ts :=
  List.flatMap_append

/-- A file in a directory that is full: a cluster is added to the directory, if one is free. -/
theorem createNewFile_of_full {pathname : CharPtr} (attributes : UInt8) {dir : ListEntry} {z : Nat}
    (h₀ : CharPtr.at (toDirectory pathname) 0 ≠ 0)
    (hr : findDir fs d (toDirectory pathname) (getRootDir fs d) = some (some dir))
    (hs : searchDirectory fs d (findFirstFreeSpace (clusterEntries fs)) walkFuel
      dir.entry.firstCluster = some (z, none)) :
    createNewFile fs d pathname attributes =
      if findFirstFreeCluster fs d < 2 then some (-1, d)
      else some (0, grownDisk fs d z (findFirstFreeCluster fs d) (newFile fs d pathname attributes)
        (newFirstByte (newFile fs d pathname attributes))) := by
  by_cases h2 : findFirstFreeCluster fs d < 2
  · simp [createNewFile, addToDirectory, addDirectoryEntry, h₀, hr, hs, h2]
  · simp [createNewFile, addToDirectory, addDirectoryEntry, h₀, hr, hs, h2, grownDisk, newFile]

/-- The slots of a cluster, by their numbers. -/
theorem mem_clusterSlots (hl : DirLayout fs) {c : Nat} {q : Slot} :
    q ∈ slotsOf fs (chainSectors fs [c]) ↔
      ∃ j < clusterEntries fs, q = clusterSlot fs c (j * 32) := by
  constructor
  · intro hq
    obtain ⟨hs, j, hj, hi⟩ := mem_slotsOf.mp hq
    obtain ⟨a, ha, hle, hlt⟩ := mem_chainSectors.mp hs
    obtain rfl := List.mem_singleton.mp ha
    obtain ⟨m, hm⟩ := hl.slots
    have hse : sectorEntries fs = m := by
      rw [sectorEntries, hm, Nat.mul_div_cancel_left _ (by decide)]
    have hpos : 0 < fs.bytesPerSector := fs.bytesPerSector_pos
    have hslot := slot_in_sector hj (show 0 < 32 by decide)
    obtain ⟨i, hi'⟩ : ∃ i, q.sector = firstSector fs a + i := ⟨q.sector - firstSector fs a, by omega⟩
    have hj' : (i * m + j) * 32 = fs.bytesPerSector * i + 32 * j := by
      rw [hm]
      ring
    refine ⟨i * m + j, ?_, ?_⟩
    · have hce : clusterEntries fs = fs.sectorsPerCluster * m := by
        rw [clusterEntries, bytesPerCluster, hm, Nat.mul_assoc, Nat.mul_div_cancel_left _ (by decide),
          Nat.mul_comm]
      have : (i + 1) * m ≤ fs.sectorsPerCluster * m := Nat.mul_le_mul_right _ (by omega)
      rw [Nat.add_mul] at this
      omega
    · cases q
      simp only [clusterSlot, Slot.mk.injEq] at hi hi' ⊢
      rw [hj', Nat.mul_add_div hpos, Nat.mul_add_mod, Nat.div_eq_of_lt (by omega),
        Nat.mod_eq_of_lt (by omega)]
      exact ⟨hi', hi⟩
  · rintro ⟨j, hj, rfl⟩
    exact clusterSlot_mem hl (List.mem_singleton_self c) hj rfl

theorem clusterSlot_room {j : Nat} (hj : j < clusterEntries fs) :
    j * 32 + 32 ≤ bytesPerCluster fs := by
  have := Nat.div_mul_le_self (bytesPerCluster fs) 32
  rw [clusterEntries] at hj
  omega

theorem clusterEntries_pos (hl : DirLayout fs) : 0 < clusterEntries fs := by
  have hle : 32 ≤ fs.bytesPerSector := Nat.le_of_dvd fs.bytesPerSector_pos hl.slots
  have hmul : fs.bytesPerSector * 1 ≤ fs.bytesPerSector * fs.sectorsPerCluster :=
    Nat.mul_le_mul_left _ fs.sectorsPerCluster_pos
  rw [clusterEntries, bytesPerCluster]
  omega

theorem liveSlots_used {ss : List Nat}
    (h : ∀ q ∈ slotsOf fs ss, firstByte d q ≠ 0x00 ∧ firstByte d q ≠ 0xe5) :
    liveSlots fs d ss = slotsOf fs ss := by
  rw [liveSlots, List.takeWhile_eq_self_iff.mpr (by simpa using fun q hq => (h q hq).1)]
  exact List.filter_eq_self.mpr (by simpa using fun q hq => (h q hq).2)

/-- A listing of slots that are all in use shows them all. -/
theorem liveSlots_full {ss ts : List Nat}
    (h : ∀ q ∈ slotsOf fs ss, firstByte d q ≠ 0x00 ∧ firstByte d q ≠ 0xe5) :
    liveSlots fs d (ss ++ ts) = slotsOf fs ss ++ liveSlots fs d ts := by
  rw [liveSlots, slotsOf_append, List.takeWhile_append_of_pos (by simpa using fun q hq => (h q hq).1),
    List.filter_append, List.filter_eq_self.mpr (by simpa using fun q hq => (h q hq).2)]
  rfl

end Lists

namespace Full
variable {fs : Fat16} {d : Disk} {c₀ z c : Nat} {before after : List Nat}
  {e : DirEntry} {first : UInt8}

theorem last_inTable (h : Full fs d c₀ before z after c) : 2 ≤ z ∧ z < numEntries fs :=
  h.chain.inTable z (by simp)

theorem not_mem (h : Full fs d c₀ before z after c) {a : Nat} {l : List Nat}
    (hc : FileChain fs d a l) : c ∉ l :=
  fun hm => hc.successor_ne_zero c hm h.free

section Links
variable (hl : Layout fs)
include hl

theorem successor_eq (h : Full fs d c₀ before z after c) {a : Nat} (ha : a < numEntries fs) :
    getSuccessorCluster fs (grownDisk fs d z c e first) a =
      if a = c then 0xFFFF else if a = z then c else getSuccessorCluster fs d a := by
  have hc := hl.lt_of_entry h.inTable
  rw [grownDisk, getSuccessorCluster_set _ hl.even _ _ (by decide),
    hl.geometry.get_writeCluster _ ha h.start hc, getSuccessorCluster_set _ hl.even _ _ hc]

theorem chain_other (h : Full fs d c₀ before z after c) {a : Nat} {l : List Nat}
    (hc : FileChain fs d a l) (hz : z ∉ l) : FileChain fs (grownDisk fs d z c e first) a l := by
  refine hc.congr fun b hb => ?_
  have hbc : b ≠ c := by
    rintro rfl
    exact h.not_mem hc hb
  have hbz : b ≠ z := by
    rintro rfl
    exact hz hb
  rw [h.successor_eq hl (hc.inTable b hb).2, if_neg hbc, if_neg hbz]

/-- The new cluster is the last, behind the clusters that were searched. -/
theorem chain_grown (h : Full fs d c₀ before z after c) :
    FileChain fs (grownDisk fs d z c e first) c₀ (before ++ [z] ++ [c]) := by
  have hnot := h.not_mem h.chain
  have hne : ∀ a ∈ before ++ [z], a ≠ c := by
    rintro a ha rfl
    exact hnot (List.mem_append_left _ ha)
  obtain ⟨e', -, hp⟩ := h.chain.ends
  obtain ⟨b, hpre, -⟩ := path_append.mp hp
  have hnodup : (before ++ [z]).Nodup := h.chain.nodup.of_append_left
  have hzb : z ∉ before := fun hm => (List.nodup_append.mp hnodup).2.2 z hm z (by simp) rfl
  have hpath : Path (getSuccessorCluster fs (grownDisk fs d z c e first)) c₀ (before ++ [z]) c := by
    refine hpre.redirect hzb (fun a ha haz => ?_) ?_
    · rw [h.successor_eq hl (h.chain.inTable a (by simp [ha])).2, if_neg (hne a (by simp [ha])),
        if_neg haz]
    · rw [h.successor_eq hl h.last_inTable.2, if_neg (hne z (by simp)), if_pos rfl]
  refine ⟨by simp, ?_, fun a ha => ?_, 0xFFFF, by decide, path_concat.mpr ⟨hpath, ?_⟩⟩
  · refine List.nodup_append.mpr ⟨hnodup, List.nodup_singleton c, fun a ha b hb => ?_⟩
    rw [List.mem_singleton.mp hb]
    exact hne a ha
  · cases List.mem_append.mp ha with
    | inl ha => exact h.chain.inTable a (List.mem_append_left _ ha)
    | inr ha =>
      rw [List.mem_singleton.mp ha]
      exact ⟨h.start, h.inTable⟩
  · rw [h.successor_eq hl h.inTable, if_pos rfl]

end Links

variable (hl : DirLayout fs)
include hl

/-- The directories of the tree hold neither table nor free clusters. -/
theorem byte_eq (h : Full fs d c₀ before z after c) {sel : Selection fs} {ss : List Nat}
    (hss : Dir sel d ss) {s k : Nat} (hs : s ∈ ss) :
    grownDisk fs d z c e first s k = d s k := by
  have hz := h.last_inTable
  have hdata : ¬ DataByte fs c s k := by
    intro hb
    obtain ⟨p, m, -, -, hm, hmem⟩ := hss.dataByte hl hs h.start hb
    exact h.not_mem hm hmem
  by_contra hne
  rw [grownDisk] at hne
  have h₁ : ∀ d' : Disk, setSuccessorCluster fs d' c 0xFFFF s k = d' s k := fun d' => by
    by_contra h'
    exact hss.not_fatByte hl hs h.inTable (setSuccessorCluster_frame hl.geometry d' h')
  have h₂ : setSuccessorCluster fs d z c s k = d s k := by
    by_contra h'
    exact hss.not_fatByte hl hs hz.2 (setSuccessorCluster_frame hl.geometry d h')
  rw [h₁, ← h₂] at hne
  exact hdata (writeCluster_frame _ h.start (hl.lt_of_entry h.inTable) hne)

omit hl in
theorem searched_sector {s : Nat}
    (hs : s ∈ chainSectors fs (before ++ [z])) : s ∈ chainSectors fs (before ++ [z] ++ after) := by
  rw [chainSectors_append]
  exact List.mem_append_left _ hs

theorem last_slot {j : Nat} (hj : j < clusterEntries fs) :
    clusterSlot fs z (j * 32) ∈ slotsOf fs (chainSectors fs (before ++ [z])) := by
  rw [chainSectors_append, slotsOf_append, List.mem_append]
  exact Or.inr ((mem_clusterSlots hl).mpr ⟨j, hj, rfl⟩)

/-- The slots of the clusters that were searched are in use. -/
theorem used_slots (h : Full fs d c₀ before z after c) :
    ∀ q ∈ slotsOf fs (chainSectors fs (before ++ [z])),
      firstByte d q ≠ 0x00 ∧ firstByte d q ≠ 0xe5 := by
  intro q hq
  obtain ⟨hs, hi⟩ := mem_slotsOf.mp hq
  obtain ⟨a, ha, hle, hlt⟩ := mem_chainSectors.mp hs
  have hqa : q ∈ slotsOf fs (chainSectors fs [a]) :=
    mem_slotsOf.mpr ⟨mem_chainSectors.mpr ⟨a, by simp, hle, hlt⟩, hi⟩
  obtain ⟨j, hj, rfl⟩ := (mem_clusterSlots hl).mp hqa
  have hin := h.chain.inTable a (List.mem_append_left _ ha)
  have hbyte := loadCluster_slot (d := d) hl hin.1 (hl.lt_of_entry hin.2) ⟨j, Nat.mul_comm _ _⟩
    (clusterSlot_room hj) (show 0 < 32 by decide)
  have hused := findFirstFreeSpace_none (h.full a ha) j hj
  rwa [← Nat.add_zero (j * 32), hbyte] at hused

/-- The bytes of a slot of the new cluster. -/
theorem new_byte (h : Full fs d c₀ before z after c) (e : DirEntry) (first : UInt8) {j k : Nat}
    (hj : j < clusterEntries fs) (hk : k < 32) : grownDisk fs d z c e first (clusterSlot fs c (j * 32)).sector
      ((clusterSlot fs c (j * 32)).index + k) =
    storeEntry (loadCluster fs d z) 0 e first (j * 32 + k) := by
  have hc := hl.lt_of_entry h.inTable
  have hroom := clusterSlot_room hj
  rw [← loadCluster_slot (d := grownDisk fs d z c e first) hl h.start hc ⟨j, Nat.mul_comm _ _⟩ hroom
    hk, grownDisk, hl.geometry.load_setSuccessor _ h.inTable h.start hc,
    loadCluster_writeCluster fs _ h.start hc h.start hc _ (by omega), if_pos rfl]

/-- The first slot of the new cluster holds the entry, the others copies. -/
theorem new_slot (h : Full fs d c₀ before z after c) (e : DirEntry) (first : UInt8) {j : Nat}
    (hj : j < clusterEntries fs) : j = 0 ∨ ∀ k < 32, grownDisk fs d z c e first (clusterSlot fs c (j * 32)).sector
      ((clusterSlot fs c (j * 32)).index + k) =
      d (clusterSlot fs z (j * 32)).sector ((clusterSlot fs z (j * 32)).index + k) := by
  cases Nat.eq_zero_or_pos j with
  | inl h₀ => exact Or.inl h₀
  | inr hpos =>
    right
    intro k hk
    have hz := h.last_inTable
    rw [h.new_byte hl e first hj hk, storeEntry, if_pos (Nat.zero_le _), Nat.sub_zero,
      entryByte_none (by omega), Option.getD_none,
      loadCluster_slot hl hz.1 (hl.lt_of_entry hz.2) ⟨j, Nat.mul_comm _ _⟩
        (clusterSlot_room hj) hk]

theorem used_grown (h : Full fs d c₀ before z after c)
    (hdir : Dir (listed fs) d (chainSectors fs (before ++ [z] ++ after))) (h₀ : first ≠ 0x00)
    (h₅ : first ≠ 0xe5) : ∀ q ∈ slotsOf fs (chainSectors fs (before ++ [z] ++ [c])),
      firstByte (grownDisk fs d z c e first) q ≠ 0x00 ∧
        firstByte (grownDisk fs d z c e first) q ≠ 0xe5 := by
  intro q hq
  rw [chainSectors_append, slotsOf_append, List.mem_append] at hq
  cases hq with
  | inl hq =>
    rw [firstByte, h.byte_eq hl hdir (searched_sector (mem_slotsOf.mp hq).1)]
    exact h.used_slots hl q hq
  | inr hq =>
    obtain ⟨j, hj, rfl⟩ := (mem_clusterSlots hl).mp hq
    obtain rfl | hcopy := h.new_slot hl e first hj
    · have hb := h.new_byte hl e first hj (show 0 < 32 by decide)
      rw [firstByte, ← Nat.add_zero (clusterSlot fs c (0 * 32)).index, hb]
      simpa [storeEntry, entryByte] using ⟨h₀, h₅⟩
    · have hused := h.used_slots hl _ (last_slot hl hj)
      have hb : firstByte (grownDisk fs d z c e first) (clusterSlot fs c (j * 32)) =
        firstByte d (clusterSlot fs z (j * 32)) := hcopy 0 (by decide)
      rwa [hb]

/-- If the directory had no entry of a name, it has one afterwards just in case that is the name of
the new entry. -/
theorem named_iff (h : Full fs d c₀ before z after c)
    (hdir : Dir (listed fs) d (chainSectors fs (before ++ [z] ++ after))) (h₀ : first ≠ 0x00)
    (h₅ : first ≠ 0xe5) {n : FileName}
    (hold : ∀ f ∈ entriesOf fs d (chainSectors fs (before ++ [z] ++ after)), ¬ entryNamed n f.entry) :
    (∃ f ∈ entriesOf fs (grownDisk fs d z c e first) (chainSectors fs (before ++ [z] ++ [c])),
      entryNamed n f.entry) ↔ entryNamed n (storedEntry e first) := by
  have hlive : liveSlots fs (grownDisk fs d z c e first) (chainSectors fs (before ++ [z] ++ [c])) =
      slotsOf fs (chainSectors fs (before ++ [z] ++ [c])) :=
    liveSlots_used (h.used_grown hl hdir h₀ h₅)
  -- the searched slots were listed before
  have hshown : ∀ q ∈ slotsOf fs (chainSectors fs (before ++ [z])),
      ¬ entryNamed n (slotEntry d q) := by
    intro q hq
    refine hold ⟨slotEntry d q, q⟩ (List.mem_map.mpr ⟨q, ?_, rfl⟩)
    rw [chainSectors_append, liveSlots_full (h.used_slots hl)]
    exact List.mem_append_left _ hq
  have hpos := clusterEntries_pos hl
  have hfirst : entryNamed n (slotEntry (grownDisk fs d z c e first) (clusterSlot fs c (0 * 32))) =
      entryNamed n (storedEntry e first) := by
    refine entryNamed_stored (x := loadCluster fs d z) n fun k hk => ?_
    rw [h.new_byte hl e first hpos (by omega), Nat.zero_mul, Nat.zero_add]
  rw [entriesOf, hlive]
  constructor
  · rintro ⟨f, hf, hn⟩
    obtain ⟨q, hq, rfl⟩ := List.mem_map.mp hf
    rw [chainSectors_append, slotsOf_append, List.mem_append] at hq
    cases hq with
    | inl hq =>
      have hs : q.sector ∈ chainSectors fs (before ++ [z] ++ after) :=
        searched_sector (mem_slotsOf.mp hq).1
      have he : slotEntry (grownDisk fs d z c e first) q = slotEntry d q :=
        decodeEntry_congr fun _ _ => h.byte_eq hl hdir hs
      exact absurd (he ▸ hn) (hshown q hq)
    | inr hq =>
      obtain ⟨j, hj, rfl⟩ := (mem_clusterSlots hl).mp hq
      obtain rfl | hcopy := h.new_slot hl e first hj
      · rwa [← hfirst]
      · have he : slotEntry (grownDisk fs d z c e first) (clusterSlot fs c (j * 32)) =
          slotEntry d (clusterSlot fs z (j * 32)) := decodeEntry_congr hcopy
        exact absurd (he ▸ hn) (hshown _ (last_slot hl hj))
  · intro hn
    refine ⟨⟨slotEntry (grownDisk fs d z c e first) (clusterSlot fs c (0 * 32)),
      clusterSlot fs c (0 * 32)⟩, List.mem_map.mpr ⟨_, ?_, rfl⟩, hfirst ▸ hn⟩
    rw [chainSectors_append, slotsOf_append, List.mem_append]
    exact Or.inr ((mem_clusterSlots hl).mpr ⟨0, hpos, rfl⟩)

end Full
end MalapropOS.Fat
