import MalapropOS.Fat.Growth
import MalapropOS.Fat.Walkers

/-! Where a new entry goes in a directory with a free slot, and what a listing shows of it. The
search and the listing go through the same slots in the same order. -/
namespace MalapropOS.Fat
open LinkedChain

/-- A slot that `add_directory_entry` may take. -/
def FreeSlot (d : Disk) (p : Slot) : Prop := firstByte d p = 0x00 ∨ firstByte d p = 0xe5

instance (d : Disk) (p : Slot) : Decidable (FreeSlot d p) := inferInstanceAs (Decidable (_ ∨ _))

/-- Behind a slot that ends the directory there are only such slots. -/
def ZeroTail (d : Disk) (slots : List Slot) : Prop :=
  slots.Pairwise fun p q => firstByte d p = 0x00 → firstByte d q = 0x00

/-- An entry that `create_new_file` builds for a name and an extension: both are padded with blanks,
and hold no blank or NUL themselves. -/
structure BuiltEntry (name extension : List UInt8) (e : DirEntry) : Prop where
  nameLength : name.length ≤ 8
  extensionLength : extension.length ≤ 3
  filename : e.filename = name ++ List.replicate (8 - name.length) 0x20 ++ [0]
  extensionBytes : e.extension = extension ++ List.replicate (3 - extension.length) 0x20 ++ [0]
  plainName : 0x20 ∉ name ∧ 0x00 ∉ name
  plainExtension : 0x20 ∉ extension ∧ 0x00 ∉ extension
  first : name.head? ≠ some 0x05
  firstCluster : e.firstCluster < 2 ^ 16
  fileSizeBytes : e.fileSizeBytes < 2 ^ 32

/-- The entry as it is listed: the same, without the padding. -/
def withoutPadding (name extension : List UInt8) (e : DirEntry) : DirEntry := { e with
  filename := name ++ List.replicate (8 - name.length) 0x00 ++ [0]
  extension := extension ++ List.replicate (3 - extension.length) 0x00 ++ [0] }

/-- The listing `new` of the slots is `old` with the entry inserted where the slot `p` is. -/
structure Inserted (slots : List Slot) (p : Slot) (e : DirEntry) (old new : List ListEntry) :
    Prop where
  position : ∃ before after front back, slots = before ++ p :: after ∧ old = front ++ back ∧
    new = front ++ ⟨e, p⟩ :: back ∧ (∀ f ∈ front, f.slot ∈ before) ∧ ∀ f ∈ back, f.slot ∈ after

/-- A result of adding the entry to the directory in `slots`: one free slot is taken, the listing
gets the entry there, and nothing else changes. -/
def InsertsExactly (d : Disk) (slots : List Slot) (listing : Disk → Option (Option (List ListEntry)))
    (e : DirEntry) (result : Option (Int × Disk)) : Prop :=
  ∃ d' p old new, result = some (0, d') ∧ FreeSlot d p ∧ listing d = some (some old) ∧
    listing d' = some (some new) ∧ Inserted slots p e old new ∧ ZeroTail d' slots ∧
    ∀ s k, d' s k ≠ d s k → s = p.sector ∧ p.index ≤ k ∧ k < p.index + 32

/-- The directory can take an entry: only slots that end it follow one that does, and a slot of it
is free. -/
def Ready (d : Disk) (slots : List Slot) : Prop := ZeroTail d slots ∧ ∃ p ∈ slots, FreeSlot d p

/-- A chain of a subdirectory that every walker follows: its clusters are at most 0x0fef, and their
table entries lie in front of the root directory. -/
structure DirChain (fs : Fat16) (d : Disk) (c : Nat) (l : List Nat) : Prop extends
    DataChain fs d c l where
  low : ∀ a ∈ l, a ≤ 0x0fef
  inFat : ∀ a ∈ l, fs.numReservedSectors + a * 2 / fs.bytesPerSector <
    (calculateRegions fs).rootDirectoryRegionStart

/-- The sectors of the root directory region. -/
def rootRegion (fs : Fat16) : List Nat :=
  (List.range (calculateRegions fs).rootDirectoryRegionSize).map fun i =>
    (calculateRegions fs).rootDirectoryRegionStart + i

section Order
variable {fs : Fat16} {d : Disk}

/-- Blocks of equal length, one after the other. -/
theorem range_blocks {α : Type} (f : Nat → α) (m e : Nat) :
    (List.range m).flatMap (fun i => (List.range e).map fun j => f (e * i + j)) =
      (List.range (m * e)).map f := by
  induction m with
  | zero => simp
  | succ m ih =>
    rw [List.range_succ, List.flatMap_append, ih, Nat.succ_mul, List.range_add, List.map_append,
      List.map_map, List.flatMap_singleton, Nat.mul_comm e m]
    rfl

/-- The slots of a cluster, by their numbers in it. -/
theorem clusterSlots_eq (h32 : 32 ∣ fs.bytesPerSector) (c : Nat) :
    slotsOf fs (clusterSectors fs c) =
      (List.range (clusterEntries fs)).map fun j => clusterSlot fs c (j * 32) := by
  obtain ⟨m, hm⟩ := h32
  have hpos := fs.bytesPerSector_pos
  have hse : sectorEntries fs = m := by
    rw [sectorEntries, hm, Nat.mul_div_cancel_left _ (by decide)]
  have hce : clusterEntries fs = fs.sectorsPerCluster * m := by
    rw [clusterEntries, bytesPerCluster, hm, Nat.mul_assoc, Nat.mul_div_cancel_left _ (by decide),
      Nat.mul_comm]
  rw [hce, ← range_blocks, slotsOf, clusterSectors, List.flatMap_map]
  refine List.flatMap_congr fun i _ => ?_
  rw [sectorSlots, hse]
  refine List.map_congr_left fun j hj => ?_
  have hlt : 32 * j < fs.bytesPerSector := by
    have := List.mem_range.mp hj
    omega
  have he : (m * i + j) * 32 = fs.bytesPerSector * i + 32 * j := by
    rw [hm]
    ring
  rw [clusterSlot, he, Nat.mul_add_div hpos, Nat.mul_add_mod, Nat.div_eq_of_lt hlt,
    Nat.mod_eq_of_lt hlt, Nat.add_zero]

/-- A loop over slots finds the first that passes its test. -/
theorem scan_first {n : Nat} {t : Nat → Prop} [DecidablePred t] :
    ((List.range n).findSome? fun j => if t j then some (j * 32) else none) =
      ((List.range n).find? fun j => t j).map (· * 32) := by
  induction List.range n with
  | nil => rfl
  | cons j js ih =>
    by_cases ht : t j
    · simp [ht]
    · simp [ht, ih]

theorem find?_congr {α : Type} {t u : α → Bool} {l : List α} (h : ∀ a ∈ l, t a = u a) :
    l.find? t = l.find? u := by
  induction l with
  | nil => rfl
  | cons a l ih =>
    have ih := ih fun b hb => h b (by simp [hb])
    simp only [List.find?_cons, h a (by simp), ih]

/-- The first in a list of blocks is the first in the first block that has one. -/
theorem find?_blocks {α β : Type} {t : β → Bool} {block : α → List β} {g : α → Option Nat}
    {k : α → Nat → β} {l : List α} (h : ∀ a ∈ l, (block a).find? t = (g a).map (k a)) :
    (l.flatMap block).find? t =
      (l.findSome? fun a => (g a).map fun i => (a, i)).map fun r => k r.1 r.2 := by
  induction l with
  | nil => rfl
  | cons a l ih =>
    have ih := ih fun b hb => h b (by simp [hb])
    rw [List.flatMap_cons, List.find?_append, h a (by simp), ih, List.findSome?_cons]
    cases g a <;> rfl

/-- The first free slot of a cluster. -/
theorem find?_clusterSlots (h32 : 32 ∣ fs.bytesPerSector) {c : Nat} (hc : 2 ≤ c) (hc' : c < 2 ^ 16) :
    (slotsOf fs (clusterSectors fs c)).find? (fun p => FreeSlot d p) =
      (findFirstFreeSpace (clusterEntries fs) (loadCluster fs d c)).map (clusterSlot fs c) := by
  rw [clusterSlots_eq h32, List.find?_map, findFirstFreeSpace, scan_first, Option.map_map]
  refine congrArg _ (find?_congr fun j hj => ?_)
  have hroom : j * 32 < bytesPerCluster fs := by
    have := clusterSlot_room (List.mem_range.mp hj)
    omega
  have hbyte : loadCluster fs d c (j * 32) = firstByte d (clusterSlot fs c (j * 32)) := by
    rw [loadCluster_eq, if_pos hroom, clusterSector_eq fs hc hc' (sector_lt fs hroom)]
    rfl
  rw [hbyte]
  rfl

theorem find?_chainSlots (h32 : 32 ∣ fs.bytesPerSector) {l : List Nat}
    (hin : ∀ a ∈ l, 2 ≤ a ∧ a < 2 ^ 16) :
    (slotsOf fs (chainSectors fs l)).find? (fun p => FreeSlot d p) =
      (l.findSome? fun a => (findFirstFreeSpace (clusterEntries fs) (loadCluster fs d a)).map
        fun i => (a, i)).map fun r => clusterSlot fs r.1 r.2 := by
  rw [slotsOf, chainSectors, List.flatMap_assoc]
  exact find?_blocks fun a ha => find?_clusterSlots h32 (hin a ha).1 (hin a ha).2

/-- The first free slot of a list of sectors. -/
theorem find?_sectors (ss : List Nat) : (slotsOf fs ss).find? (fun p => FreeSlot d p) =
    (ss.findSome? fun s => (findFirstFreeSpace (sectorEntries fs)
      (diskRd d s zeroBuffer 0 fs.bytesPerSector)).map fun i => (s, i)).map
        fun r => Slot.mk r.1 r.2 := by
  refine find?_blocks fun s _ => ?_
  rw [sectorSlots, List.find?_map, findFirstFreeSpace, scan_first, Option.map_map]
  have hslot : ((Slot.mk s) ∘ fun j => j * 32) = fun j => Slot.mk s (32 * j) := by
    funext j
    rw [Function.comp_apply, Nat.mul_comm]
  rw [hslot]
  refine congrArg _ (find?_congr fun j hj => ?_)
  have hlt := slot_in_sector (List.mem_range.mp hj) (show 0 < 32 by decide)
  have hbyte : diskRd d s zeroBuffer 0 fs.bytesPerSector (j * 32) = firstByte d ⟨s, 32 * j⟩ := by
    rw [diskRd, if_pos (by omega), Nat.sub_zero, Nat.mul_comm]
    rfl
  rw [hbyte]
  rfl

theorem sectorSlots_nodup (s : Nat) : (sectorSlots fs s).Nodup := by
  refine List.Nodup.map (fun j j' h => ?_) List.nodup_range
  simp only [Slot.mk.injEq] at h
  omega

theorem slotsOf_nodup {ss : List Nat} (h : ss.Nodup) : (slotsOf fs ss).Nodup := by
  refine List.nodup_flatMap.mpr ⟨fun s _ => sectorSlots_nodup s, h.imp fun hne p hp hq => ?_⟩
  simp only [sectorSlots, List.mem_map] at hp hq
  obtain ⟨j, -, rfl⟩ := hp
  obtain ⟨j', -, he⟩ := hq
  simp only [Slot.mk.injEq] at he
  exact hne he.1.symm

theorem chainSectors_nodup {l : List Nat} (h : l.Nodup) (hin : ∀ a ∈ l, 2 ≤ a) :
    (chainSectors fs l).Nodup := by
  refine List.nodup_flatMap.mpr ⟨fun c _ => ?_, ?_⟩
  · exact List.Nodup.map (fun i j h => Nat.add_left_cancel h) List.nodup_range
  · refine h.imp_of_mem fun {a b} ha hb hne s hs hs' => ?_
    simp only [clusterSectors, List.mem_map, List.mem_range] at hs hs'
    obtain ⟨i, hi, rfl⟩ := hs
    obtain ⟨j, hj, he⟩ := hs'
    exact hne (firstSector_disjoint fs (hin a ha) (hin b hb) hi hj he.symm).1

end Order

section Taken
variable {d : Disk} {slots : List Slot} {p : Slot} {e : DirEntry} {first : UInt8}

theorem scanSlots_used {ps : List Slot} (h : ∀ q ∈ ps, firstByte d q ≠ 0x00) :
    (scanSlots d ps).2 = false := by
  induction ps with
  | nil => rfl
  | cons p ps ih =>
    have ih := ih fun q hq => h q (by simp [hq])
    simp only [scanSlots, h p (by simp), if_false]
    split_ifs
    · exact ih
    · exact ih

theorem scanSlots_congr {d' : Disk} {ps : List Slot}
    (h : ∀ q ∈ ps, ∀ k < 32, d' q.sector (q.index + k) = d q.sector (q.index + k)) :
    scanSlots d' ps = scanSlots d ps := by
  induction ps with
  | nil => rfl
  | cons p ps ih =>
    have hb : firstByte d' p = firstByte d p := h p (by simp) 0 (by decide)
    have he : slotEntry d' p = slotEntry d p := decodeEntry_congr (h p (by simp))
    simp only [scanSlots, hb, he, ih fun q hq => h q (by simp [hq])]

theorem scanSlots_mem {ps : List Slot} {f : ListEntry} (h : f ∈ (scanSlots d ps).1) :
    f.slot ∈ ps := by
  rw [scanSlots_fst] at h
  obtain ⟨q, hq, rfl⟩ := List.mem_map.mp h
  exact (List.takeWhile_sublist _).subset (List.mem_filter.mp hq).1

/-- Taking the first free slot inserts the entry in the listing, and what ended the directory still
ends it. -/
theorem taken_inserted (hp : slots.find? (fun q => FreeSlot d q) = some p) (hnodup : slots.Nodup)
    (haligned : ∀ q ∈ slots, 32 ∣ q.index) (hz : ZeroTail d slots) (h₀ : first ≠ 0x00)
    (h₅ : first ≠ 0xe5) :
    Inserted slots p (slotEntry (writeSlot d p e first) p) (scanSlots d slots).1
      (scanSlots (writeSlot d p e first) slots).1 ∧ ZeroTail (writeSlot d p e first) slots := by
  obtain ⟨hfree, before, after, rfl, hused⟩ := List.find?_eq_some_iff_append.mp hp
  have hfree : FreeSlot d p := of_decide_eq_true hfree
  have hused : ∀ q ∈ before, firstByte d q ≠ 0x00 := by
    intro q hq h
    have hno := hused q hq
    rw [Bool.not_eq_true', decide_eq_false_iff_not] at hno
    exact hno (Or.inl h)
  obtain ⟨-, hnodup', hdisj⟩ := List.nodup_append.mp hnodup
  have hpafter := (List.nodup_cons.mp hnodup').1
  have hkeep : ∀ q ∈ before ++ p :: after, q ≠ p → ∀ k < 32,
      writeSlot d p e first q.sector (q.index + k) = d q.sector (q.index + k) :=
    fun q hq hne k hk => writeSlot_apart (haligned p (by simp)) (haligned q hq) hne hk
  have hbefore : ∀ q ∈ before, q ≠ p := fun q hq => hdisj q hq p (by simp)
  have hafter : ∀ q ∈ after, q ≠ p := by
    intro q hq he
    exact hpafter (he ▸ hq)
  have hself : firstByte (writeSlot d p e first) p = first := firstByte_writeSlot_self
  have hsame₁ : scanSlots (writeSlot d p e first) before = scanSlots d before :=
    scanSlots_congr fun q hq => hkeep q (by simp [hq]) (hbefore q hq)
  have hsame₂ : scanSlots (writeSlot d p e first) after = scanSlots d after :=
    scanSlots_congr fun q hq => hkeep q (by simp [hq]) (hafter q hq)
  rw [ZeroTail, List.pairwise_append, List.pairwise_cons] at hz
  refine ⟨⟨before, after, (scanSlots d before).1, (scanSlots d after).1, rfl, ?_, ?_,
    fun f hf => scanSlots_mem hf, fun f hf => scanSlots_mem hf⟩, ?_⟩
  · rw [scanSlots_append, scanSlots_used hused, if_neg (by decide), scanSlots]
    cases hfree with
    | inl hzero =>
      -- the slots behind one that ends the directory end it too
      have hnil : (scanSlots d after).1 = [] := by
        cases after with
        | nil => rfl
        | cons q after => simp [scanSlots, hz.2.1.1 q (by simp) hzero]
      simp [hzero, hnil]
    | inr hdeleted => simp [hdeleted]
  · rw [scanSlots_append, hsame₁, scanSlots_used hused, if_neg (by decide), scanSlots, hself,
      if_neg h₀, if_neg h₅, hsame₂]
  · have hbyte : ∀ q ∈ before ++ p :: after, q ≠ p →
        firstByte (writeSlot d p e first) q = firstByte d q :=
      fun q hq hne => hkeep q hq hne 0 (by decide)
    rw [ZeroTail, List.pairwise_append, List.pairwise_cons]
    refine ⟨hz.1.imp_of_mem fun {q r} hq hr h => ?_, ⟨fun q hq h => ?_, ?_⟩, fun q hq r hr h => ?_⟩
    · rwa [hbyte q (by simp [hq]) (hbefore q hq), hbyte r (by simp [hr]) (hbefore r hr)]
    · exact absurd (hself.symm.trans h) h₀
    · refine hz.2.1.2.imp_of_mem fun {q r} hq hr h => ?_
      rwa [hbyte q (by simp [hq]) (hafter q hq), hbyte r (by simp [hr]) (hafter r hr)]
    · rw [hbyte q (by simp [hq]) (hbefore q hq)] at h
      exact absurd h (hused q hq)

end Taken

section Entries
variable {d : Disk} {p : Slot} {e : DirEntry} {first : UInt8} {name extension : List UInt8}

/-- The entry in a slot is the one that was stored there, as it is read back. -/
theorem slotEntry_writeSlot : slotEntry (writeSlot d p e first) p = storedEntry e first := by
  refine decodeEntry_read fun k hk hread => ?_
  obtain ⟨b, hb⟩ := entryByte_read e first (hread.imp_right fun h => ⟨h, hk⟩)
  rw [writeSlot_byte hb, storeEntry, if_pos (Nat.zero_le _), Nat.zero_add, Nat.sub_zero, hb]
  rfl

theorem map_decodeChar {s : List UInt8} (h : 0x20 ∉ s) : s.map decodeChar = s := by
  refine (List.map_congr_left fun c hc => ?_).trans (List.map_id s)
  exact if_neg fun he : c = 0x20 => h (he ▸ hc)

/-- What was padded is read back without the padding. -/
theorem storedEntry_built (h : BuiltEntry name extension e) :
    storedEntry e (newFirstByte e) = withoutPadding name extension e := by
  have hname := newFile_filename h.nameLength h.filename
  have hext : (storedEntry e (newFirstByte e)).extension =
      (extension ++ List.replicate (3 - extension.length) 0x20).map decodeChar ++ [0] :=
    newFile_extension h.extensionLength h.extensionBytes
  rw [readFirst, if_neg h.first, List.map_append, map_decodeChar h.plainName.1,
    List.map_replicate] at hname
  rw [List.map_append, map_decodeChar h.plainExtension.1, List.map_replicate] at hext
  have hattr : (slotEntry (writeSlot (fun _ => zeroBuffer) ⟨0, 0⟩ e (newFirstByte e))
      ⟨0, 0⟩).attributes = e.attributes := slotEntry_writeSlot_attributes
  have hcluster : (slotEntry (writeSlot (fun _ => zeroBuffer) ⟨0, 0⟩ e (newFirstByte e))
      ⟨0, 0⟩).firstCluster = e.firstCluster := slotEntry_writeSlot_firstCluster h.firstCluster
  have hsize : (slotEntry (writeSlot (fun _ => zeroBuffer) ⟨0, 0⟩ e (newFirstByte e))
      ⟨0, 0⟩).fileSizeBytes = e.fileSizeBytes := slotEntry_writeSlot_fileSizeBytes h.fileSizeBytes
  rw [slotEntry_writeSlot] at hattr hcluster hsize
  cases hs : storedEntry e (newFirstByte e)
  rw [hs] at hname hext hattr hcluster hsize
  rw [withoutPadding, DirEntry.mk.injEq]
  exact ⟨hname, hext, hattr, hcluster, hsize⟩

theorem BuiltEntry.firstByte_used (h : BuiltEntry name extension e) :
    newFirstByte e ≠ 0x00 ∧ newFirstByte e ≠ 0xe5 := by
  have hne : CharPtr.at e.filename 0 ≠ 0x00 := by
    rw [h.filename]
    cases name with
    | nil => decide
    | cons c name => exact fun hc => h.plainName.2 (by rw [← show c = 0x00 from hc]; simp)
  rw [newFirstByte]
  split_ifs with h₅
  · decide
  · exact ⟨hne, h₅⟩

end Entries

section Directories
variable {fs : Fat16} (h32 : 32 ∣ fs.bytesPerSector) {d : Disk} {c : Nat} {l : List Nat}
  {name extension : List UInt8} {e : DirEntry}

/-- The entry is inserted if it is stored in the first free slot and the listing goes through the
slots. -/
theorem stored_insertsExactly {ss : List Nat} {p : Slot}
    {listing : Disk → Option (Option (List ListEntry))} (h : BuiltEntry name extension e)
    (hss : ss.Nodup) (hz : ZeroTail d (slotsOf fs ss))
    (hp : (slotsOf fs ss).find? (fun q => FreeSlot d q) = some p)
    (hold : listing d = some (some (scanSlots d (slotsOf fs ss)).1))
    (hnew : listing (writeSlot d p e (newFirstByte e)) =
      some (some (scanSlots (writeSlot d p e (newFirstByte e)) (slotsOf fs ss)).1)) :
    InsertsExactly d (slotsOf fs ss) listing (withoutPadding name extension e)
      (some (0, writeSlot d p e (newFirstByte e))) := by
  have haligned : ∀ q ∈ slotsOf fs ss, 32 ∣ q.index := fun q hq =>
    (mem_slotsOf.mp hq).2.elim fun j hj => ⟨j, hj.2⟩
  have htaken := taken_inserted (e := e) hp (slotsOf_nodup hss) haligned hz h.firstByte_used.1
    h.firstByte_used.2
  rw [slotEntry_writeSlot, storedEntry_built h] at htaken
  have hfree : FreeSlot d p := by simpa using List.find?_some hp
  exact ⟨_, p, _, _, rfl, hfree, hold, hnew, htaken.1, htaken.2,
    fun s k hne => writeSlot_frame hne⟩

theorem Ready.find {slots : List Slot} (h : Ready d slots) :
    ∃ p, slots.find? (fun q => FreeSlot d q) = some p := by
  obtain ⟨q, hq, hfree⟩ := h.2
  exact Option.isSome_iff_exists.mp (List.find?_isSome.mpr ⟨q, hq, decide_eq_true hfree⟩)

theorem DirChain.numbers (hc : DirChain fs d c l) : ∀ a ∈ l, 2 ≤ a ∧ a < 2 ^ 16 := fun a ha => by
  have := hc.data a ha
  omega

/-- `get_dir` lists the slots of the chain. -/
theorem DirChain.getDir_eq {dir : DirEntry} (hs : isSubdirectory dir.attributes)
    (hc : DirChain fs d dir.firstCluster l) :
    getDir fs d dir = some (some (scanSlots d (slotsOf fs (chainSectors fs l))).1) := by
  obtain ⟨z, hz, hp⟩ := hc.ends
  have hin : ∀ a ∈ l, InChain a := fun a ha => by
    have := hc.data a ha
    exact ⟨by omega, by omega⟩
  have hlen : l.length < walkFuel := by
    have := hc.length_lt
    rw [walkFuel]
    omega
  rw [getDir, if_pos hs, listChain_path hp hz hin hlen]
  rfl

theorem DirChain.searched_all (hc : DirChain fs d c l) : searchedClusters fs d walkFuel c = l := by
  cases l with
  | nil => exact absurd rfl hc.nonempty
  | cons a m =>
    rw [hc.searched, List.takeWhile_eq_self_iff.mpr fun b hb =>
      decide_eq_true (hc.low b (by simp [hb]))]

include h32

/-- The table lies in front of the clusters, so that storing an entry there keeps a chain. -/
theorem DirChain.writeSlot {p : Slot} (hc : DirChain fs d c l)
    (hp : (calculateRegions fs).dataRegionStart ≤ p.sector) (e : DirEntry) (first : UInt8) :
    DirChain fs (Fat.writeSlot d p e first) c l := by
  obtain ⟨z, hz, hpath⟩ := hc.ends
  refine ⟨⟨hc.nonempty, hc.nodup, hc.data, z, hz, hpath.congr fun a ha => ?_⟩, hc.low, hc.inFat⟩
  have heven : 2 ∣ fs.bytesPerSector := (show 2 ∣ 32 by decide).trans h32
  have hbelow := hc.inFat a ha
  have hle : (calculateRegions fs).rootDirectoryRegionStart ≤
    (calculateRegions fs).dataRegionStart := rootRegionStart_le
  have hne : fs.numReservedSectors + a * 2 / fs.bytesPerSector ≠ p.sector := by omega
  rw [getSuccessorCluster_eq _ heven, getSuccessorCluster_eq _ heven, Fat.writeSlot,
    if_neg fun hw => hne hw.1, Fat.writeSlot, if_neg fun hw => hne hw.1]

/-- The entry goes to the first free slot of the chain. -/
theorem DirChain.add_eq (hc : DirChain fs d c l) {p : Slot}
    (hfind : (slotsOf fs (chainSectors fs l)).find? (fun q => FreeSlot d q) = some p)
    (e : DirEntry) : (calculateRegions fs).dataRegionStart ≤ p.sector ∧
      addDirectoryEntry fs d c e = some (0, Fat.writeSlot d p e (newFirstByte e)) := by
  have hnum := hc.numbers
  rw [find?_chainSlots h32 hnum] at hfind
  obtain ⟨⟨a, i⟩, hfirst, rfl⟩ := Option.map_eq_some_iff.mp hfind
  obtain ⟨b, hb, hload⟩ := List.exists_of_findSome?_eq_some hfirst
  obtain ⟨i', hi', he⟩ := Option.map_eq_some_iff.mp hload
  obtain ⟨rfl, rfl⟩ := Prod.mk.inj he
  obtain ⟨a', j', hsearch⟩ := searchDirectory_found (by rwa [hc.searched_all]) hi'
  have hsame := searchDirectory_first hsearch
  rw [hc.searched_all, hfirst, Option.map_some, Option.some.injEq, Prod.mk.injEq] at hsame
  obtain ⟨rfl, rfl⟩ := hsame
  obtain ⟨j, hj, rfl, -⟩ := findFirstFreeSpace_some hi'
  have hstore := storeInCluster_eq h32 d (hnum b hb).1 (hnum b hb).2 e (newFirstByte e)
    (Dvd.intro_left j rfl) (clusterSlot_room hj)
  refine ⟨(Nat.le_add_right _ _).trans (Nat.le_add_right _ _), ?_⟩
  rw [addDirectoryEntry, hsearch, ← hstore]
  rfl

theorem addDirectoryEntry_inserts {dir : DirEntry} {l : List Nat} (h : BuiltEntry name extension e)
    (hs : isSubdirectory dir.attributes) (hc : DirChain fs d dir.firstCluster l)
    (hr : Ready d (slotsOf fs (chainSectors fs l))) :
    InsertsExactly d (slotsOf fs (chainSectors fs l)) (fun d => getDir fs d dir)
      (withoutPadding name extension e) (addDirectoryEntry fs d dir.firstCluster e) := by
  obtain ⟨p, hfind⟩ := hr.find
  obtain ⟨hp, hadd⟩ := hc.add_eq h32 hfind e
  rw [hadd]
  exact stored_insertsExactly h (chainSectors_nodup hc.nodup fun a ha => (hc.numbers a ha).1) hr.1
    hfind (hc.getDir_eq hs) ((hc.writeSlot h32 hp e _).getDir_eq hs)

omit h32 in
theorem rootRegion_prefix (hfit : (calculateRegions fs).dataRegionStart ≤ 65535) :
    rootRegion fs <+: rootSearchSectors fs := by
  have hdata : (calculateRegions fs).dataRegionStart =
      (calculateRegions fs).rootDirectoryRegionStart +
        (calculateRegions fs).rootDirectoryRegionSize := rfl
  refine List.prefix_iff_getElem?.mpr fun i hi => ?_
  rw [rootRegion, List.length_map, List.length_range] at hi
  rw [rootSearchSectors, Nat.mod_eq_of_lt (by omega),
    searchedSectors_getElem? (by rw [walkFuel]; omega) (by omega) (by omega)]
  simp [rootRegion]

theorem addRootDirectoryEntry_inserts (hfit : (calculateRegions fs).dataRegionStart ≤ 65535)
    (hres : fs.numReservedSectors = 1)
    (hlt : fs.numRootDirectoryEntries / sectorEntries fs < 2 ^ 15) (h : BuiltEntry name extension e)
    (hr : Ready d (slotsOf fs (rootRegion fs))) :
    InsertsExactly d (slotsOf fs (rootRegion fs)) (fun d => some (some (getRootDir fs d)))
      (withoutPadding name extension e) (addRootDirectoryEntry fs d e) := by
  have hsectors : rootSectors fs = rootRegion fs := by
    rw [rootSectors, rootRegion, numRootSectors, if_pos hlt, rootDirectoryRegionSize_eq h32]
    refine List.map_congr_left fun i _ => ?_
    simp only [calculateRegions, hres]
    rw [Nat.mul_comm]
  have hnodup : (rootRegion fs).Nodup :=
    List.Nodup.map (fun i j h => Nat.add_left_cancel h) List.nodup_range
  obtain ⟨p, hfind⟩ := hr.find
  have hfind' := hfind
  rw [find?_sectors] at hfind'
  obtain ⟨⟨s, i⟩, hfirst, rfl⟩ := Option.map_eq_some_iff.mp hfind'
  obtain ⟨s', hs', hload⟩ := List.exists_of_findSome?_eq_some hfirst
  obtain ⟨i', hi', he⟩ := Option.map_eq_some_iff.mp hload
  obtain ⟨rfl, rfl⟩ := Prod.mk.inj he
  obtain ⟨rest, hrest⟩ := rootRegion_prefix hfit
  have hmem : s' ∈ rootSearchSectors fs := by
    rw [← hrest]
    exact List.mem_append_left _ hs'
  obtain ⟨t, j', hsearch⟩ := searchRoot_found hmem hi'
  have hsame := searchRoot_first hsearch
  have hsplit : searchedSectors fs walkFuel ((calculateRegions fs).rootDirectoryRegionStart % 2 ^ 16) =
    rootRegion fs ++ rest := hrest.symm
  rw [hsplit, List.findSome?_append, hfirst, Option.some_or, Option.map_some, Option.some.injEq,
    Prod.mk.injEq] at hsame
  obtain ⟨rfl, rfl⟩ := hsame
  obtain ⟨j, hj, hij, -⟩ := findFirstFreeSpace_some hi'
  have hstore := storeInSector_found (d := d) (s := s') ⟨j, hj, hij⟩ e (newFirstByte e)
  rw [addRootDirectoryEntry, searchRootDirectory, hsearch]
  show InsertsExactly d _ _ _ (some (0, storeInSector fs d s' i' e (newFirstByte e)))
  rw [hstore]
  refine stored_insertsExactly h hnodup hr.1 hfind ?_ ?_
  · rw [getRootDir_eq, hsectors, scanSlots_fst]
    rfl
  · rw [getRootDir_eq, hsectors, scanSlots_fst]
    rfl

omit h32 in
/-- From 2^15 sectors on, the listing of the root directory is empty. -/
theorem getRootDir_empty (h : 2 ^ 15 ≤ fs.numRootDirectoryEntries / sectorEntries fs) (d : Disk) :
    getRootDir fs d = [] := by
  rw [getRootDir, numRootSectors, if_neg (by omega)]
  rfl

omit h32 in
theorem not_insertsExactly {slots : List Slot} {listing : Disk → Option (Option (List ListEntry))}
    {e : DirEntry} {result : Option (Int × Disk)} (h : ∀ d, listing d = some (some [])) :
    ¬ InsertsExactly d slots listing e result := by
  intro hi
  obtain ⟨d', p, old, new, -, -, -, hnew, hins, -⟩ := hi
  obtain ⟨_, _, front, back, -, -, rfl, -⟩ := hins.position
  rw [h d', Option.some.injEq, Option.some.injEq] at hnew
  exact absurd hnew.symm (by simp)

/-- Adding an entry to a directory with a free slot is an exact insertion, in a subdirectory always
and in the root directory if and only if it has fewer than 2^15 sectors, which an `int16_t` holds. -/
theorem insertion_exact_iff (hfit : (calculateRegions fs).dataRegionStart ≤ 65535)
    (h : BuiltEntry name extension e) (d : Disk) :
    (∀ dir l, isSubdirectory dir.attributes → DirChain fs d dir.firstCluster l →
      Ready d (slotsOf fs (chainSectors fs l)) →
      InsertsExactly d (slotsOf fs (chainSectors fs l)) (fun d => getDir fs d dir)
        (withoutPadding name extension e) (addDirectoryEntry fs d dir.firstCluster e)) ∧
    (fs.numReservedSectors = 1 → Ready d (slotsOf fs (rootRegion fs)) →
      (InsertsExactly d (slotsOf fs (rootRegion fs)) (fun d => some (some (getRootDir fs d)))
        (withoutPadding name extension e) (addRootDirectoryEntry fs d e) ↔
        fs.numRootDirectoryEntries / sectorEntries fs < 2 ^ 15)) := by
  refine ⟨fun dir l hs hc hr => addDirectoryEntry_inserts h32 h hs hc hr, fun hres hr => ?_⟩
  constructor
  · intro hi
    by_contra hge
    exact not_insertsExactly (fun d => by rw [getRootDir_empty (by omega) d]) hi
  · exact fun hlt => addRootDirectoryEntry_inserts h32 hfit hres hlt h hr

end Directories

section Examples

/-- The entry of a new file `A`, with first cluster 3. -/
def entryA : DirEntry where
  filename := 0x41 :: List.replicate 7 0x20 ++ [0]
  extension := List.replicate 3 0x20 ++ [0]
  attributes := 0
  firstCluster := 3
  fileSizeBytes := 0

theorem entryA_built : BuiltEntry [0x41] [] entryA where
  nameLength := by decide
  extensionLength := by decide
  filename := rfl
  extensionBytes := rfl
  plainName := by decide
  plainExtension := by decide
  first := by decide
  firstCluster := by decide
  fileSizeBytes := by decide

theorem emptyDisk_chain : DirChain smallVolume emptyDisk 2 [2] where
  nonempty := by simp
  nodup := by decide
  data := by decide
  ends := ⟨0xffff, by decide, rfl,
    show getSuccessorCluster smallVolume emptyDisk 2 = 0xffff by decide +kernel⟩
  low := by decide
  inFat := by decide

theorem emptyDisk_inserts :
    InsertsExactly emptyDisk (slotsOf smallVolume (chainSectors smallVolume [2]))
      (fun d => getDir smallVolume d { entryA with attributes := 0x10, firstCluster := 2 })
      (withoutPadding [0x41] [] entryA) (addDirectoryEntry smallVolume emptyDisk 2 entryA) ∧
    InsertsExactly emptyDisk (slotsOf smallVolume (rootRegion smallVolume))
      (fun d => some (some (getRootDir smallVolume d))) (withoutPadding [0x41] [] entryA)
      (addRootDirectoryEntry smallVolume emptyDisk entryA) := by
  have h32 : 32 ∣ smallVolume.bytesPerSector := by decide
  have h := insertion_exact_iff h32 (by decide) entryA_built emptyDisk
  refine ⟨h.1 { entryA with attributes := 0x10, firstCluster := 2 } [2] (by decide)
    emptyDisk_chain ⟨List.pairwise_singleton _ _, ⟨4, 0⟩, by decide, Or.inl rfl⟩, ?_⟩
  exact (h.2 rfl ⟨List.Pairwise.cons (fun q hq _ => by
    obtain rfl := List.mem_singleton.mp hq
    rfl) (List.pairwise_singleton _ _), ⟨2, 0⟩, by decide, Or.inl rfl⟩).mpr (by decide)

/-- An entry is added to the empty root directory, and not listed. -/
theorem tallVolume_not_listed :
    (32 ∣ tallVolume.bytesPerSector ∧ (calculateRegions tallVolume).dataRegionStart ≤ 65535 ∧
      tallVolume.numReservedSectors = 1 ∧ BuiltEntry [0x41] [] entryA ∧
      Ready (fun _ => zeroBuffer) (slotsOf tallVolume (rootRegion tallVolume))) ∧
    ¬ InsertsExactly (fun _ => zeroBuffer) (slotsOf tallVolume (rootRegion tallVolume))
      (fun d => some (some (getRootDir tallVolume d))) (withoutPadding [0x41] [] entryA)
      (addRootDirectoryEntry tallVolume (fun _ => zeroBuffer) entryA) := by
  have hzero : ZeroTail (fun _ => zeroBuffer) (slotsOf tallVolume (rootRegion tallVolume)) :=
    List.pairwise_iff_forall_sublist.mpr fun _ _ => rfl
  have hslot : Slot.mk 2 0 ∈ slotsOf tallVolume (rootRegion tallVolume) :=
    mem_slotsOf.mpr ⟨List.mem_map.mpr ⟨0, List.mem_range.mpr (by decide), by decide⟩, 0, by decide,
      rfl⟩
  refine ⟨⟨by decide, by decide, rfl, entryA_built, hzero, _, hslot, Or.inl rfl⟩, ?_⟩
  exact not_insertsExactly fun d => by rw [getRootDir_empty (by decide) d]

end Examples
end MalapropOS.Fat
