import MalapropOS.Fat.Insertion

/-! Which bytes an update of a directory entry changes. The slot is looked for by the name as it was
read, and is written again from the entry as it was read. -/
namespace MalapropOS.Fat
open LinkedChain

/-- A directory chain without a cycle. Its first cluster may be any number. -/
structure AcyclicChain (fs : Fat16) (d : Disk) (c : Nat) (l : List Nat) : Prop where
  start : c < 2 ^ 16
  nonempty : l ≠ []
  nodup : l.Nodup
  inner : ∀ a ∈ l.tail, InChain a
  ends : ∃ e, ¬ InChain e ∧ Path (getSuccessorCluster fs d) c l e

/-- The slots that `update_directory_entry` looks through, in chain order: each is a cluster that it
walks and a number in that. -/
def walkedSlots (fs : Fat16) (d : Disk) (c : Nat) : List (Nat × Nat) :=
  (searchedClusters fs d walkFuel c).flatMap fun a =>
    (List.range (clusterEntries fs)).map fun j => (a, j)

/-- `find_file_in_directory_cluster` matches the slot. -/
def matchesSlot (fs : Fat16) (d : Disk) (name extension : CharPtr) (q : Nat × Nat) : Bool :=
  slotMatches (loadCluster fs d q.1) q.2 name extension

/-- A byte of the slot that updating an entry writes. -/
def UpdatedByte (p : Slot) (s k : Nat) : Prop :=
  s = p.sector ∧ ∃ b, k = p.index + b ∧ (b < 0x0c ∨ 0x1a ≤ b ∧ b < 0x20)

section Update
variable {fs : Fat16} {d : Disk} {c : Nat} {l : List Nat} {name extension : CharPtr}

theorem writeSlot_updatedByte {p : Slot} {e : DirEntry} {first : UInt8} {s k : Nat}
    (h : writeSlot d p e first s k ≠ d s k) : UpdatedByte p s k := by
  obtain ⟨hs, hle, hlt⟩ := writeSlot_frame h
  refine ⟨hs, k - p.index, by omega, ?_⟩
  by_contra hb
  rw [writeSlot, if_pos ⟨hs, hle⟩, entryByte_gap (by omega) (by omega)] at h
  exact h rfl

theorem AcyclicChain.length_lt (h : AcyclicChain fs d c l) : l.length < walkFuel := by
  have hsub : l ⊆ List.range (2 ^ 16) := by
    intro a ha
    obtain ⟨e, -, hp⟩ := h.ends
    cases l with
    | nil => cases ha
    | cons b m =>
      cases List.mem_cons.mp ha with
      | inl hab => exact List.mem_range.mpr (hab ▸ hp.1 ▸ h.start)
      | inr hm => exact List.mem_range.mpr ((h.inner a hm).2.trans (by decide))
  have hle := (h.nodup.subperm hsub).length_le
  rw [List.length_range] at hle
  rw [walkFuel]
  omega

/-- The clusters that are walked are the first of the chain. -/
theorem AcyclicChain.searched_prefix (h : AcyclicChain fs d c l) :
    searchedClusters fs d walkFuel c <+: l := by
  have hlen := h.length_lt
  obtain ⟨e, he, hp⟩ := h.ends
  cases l with
  | nil => exact absurd rfl h.nonempty
  | cons a m =>
    rw [searchedClusters_path hp he (fun b hb => (h.inner b hb).1) (by simp at hlen; omega)]
    exact List.cons_prefix_cons.mpr ⟨rfl, List.takeWhile_prefix _⟩

/-- The first slot that matches is in the cluster where the search ends. -/
theorem find?_walkedSlots {r : Nat × Option Nat}
    (h : searchDirectory fs d (findFileSlot (clusterEntries fs) name extension) walkFuel c = some r) :
    (walkedSlots fs d c).find? (matchesSlot fs d name extension) =
      r.2.map fun i => (r.1, i / 32) := by
  have hblock : ∀ a ∈ searchedClusters fs d walkFuel c,
      ((List.range (clusterEntries fs)).map fun j => (a, j)).find? (matchesSlot fs d name extension) =
        (findFileSlot (clusterEntries fs) name extension (loadCluster fs d a)).map
          fun i => (a, i / 32) := by
    intro a _
    rw [List.find?_map, findFileSlot, scan_first, Option.map_map]
    have hnumber : ((fun i => (a, i / 32)) ∘ fun j => j * 32) = fun j => (a, j) := by
      funext j
      simp
    rw [hnumber]
    exact congrArg _ (find?_congr fun j _ => by simp [matchesSlot])
  rw [walkedSlots, find?_blocks hblock, searchDirectory_first h, Option.map_map]
  rfl

/-- An update fails and changes nothing, if no slot that it walks matches; otherwise it changes bytes
of the first slot that matches. -/
theorem update_first_match (h32 : 32 ∣ fs.bytesPerSector) (h : AcyclicChain fs d c l) (e : DirEntry)
    (name extension : CharPtr) : searchedClusters fs d walkFuel c <+: l ∧
    ∃ r d', updateDirectoryEntry fs d c e name extension = some (r, d') ∧
      (r = -1 ∧ d' = d ∨ r = 0 ∧ ∃ q,
        (walkedSlots fs d c).find? (matchesSlot fs d name extension) = some q ∧
        ∀ s k, d' s k ≠ d s k → UpdatedByte (wrappedSlot fs q.1 (q.2 * 32)) s k) ∧
      (r = -1 ↔ ∀ q ∈ walkedSlots fs d c, ¬ matchesSlot fs d name extension q) := by
  refine ⟨h.searched_prefix, ?_⟩
  have hlen := h.length_lt
  obtain ⟨z, hz, hp⟩ := h.ends
  obtain ⟨a, o, hsearch, -, hfound⟩ : ∃ a o, searchDirectory fs d
      (findFileSlot (clusterEntries fs) name extension) walkFuel c = some (a, o) ∧ a ∈ l ∧
        findFileSlot (clusterEntries fs) name extension (loadCluster fs d a) = o :=
    searchDirectory_path hp hz h.nonempty hlen.le
  have hfirst := find?_walkedSlots hsearch
  rw [updateDirectoryEntry, hsearch]
  cases o with
  | none =>
    exact ⟨-1, d, rfl, Or.inl ⟨rfl, rfl⟩, iff_of_true rfl (List.find?_eq_none.mp hfirst)⟩
  | some i =>
    obtain ⟨j, hj, rfl, hm⟩ := findFileSlot_some hfound
    have hstore := storeInCluster_wrapped h32 d a e (CharPtr.at e.filename 0) (Dvd.intro_left j rfl)
      (clusterSlot_room hj)
    rw [Option.map_some, Nat.mul_div_cancel j (by decide)] at hfirst
    refine ⟨0, storeInCluster fs d a (j * 32) e (CharPtr.at e.filename 0), rfl,
      Or.inr ⟨rfl, (a, j), hfirst, fun s k hne => ?_⟩, iff_of_false (by decide) fun hno => ?_⟩
    · rw [hstore] at hne
      exact writeSlot_updatedByte hne
    · exact hno (a, j) (List.mem_of_find?_eq_some hfirst) hm

/-- A slot of zeros has the empty name. -/
theorem emptyDisk_update : ∃ d',
    updateDirectoryEntry smallVolume emptyDisk 2 entryA [] [] = some (0, d') ∧
      ∀ s k, d' s k ≠ emptyDisk s k → UpdatedByte ⟨4, 0⟩ s k := by
  have hc : AcyclicChain smallVolume emptyDisk 2 [2] :=
    ⟨by decide, by simp, by decide, by simp, 0xffff, by decide, rfl,
      show getSuccessorCluster smallVolume emptyDisk 2 = 0xffff by decide +kernel⟩
  obtain ⟨-, r, d', hr, hcases, -⟩ := update_first_match (by decide) hc entryA [] []
  have hfind : (walkedSlots smallVolume emptyDisk 2).find?
      (matchesSlot smallVolume emptyDisk [] []) = some (2, 0) := by decide +kernel
  have hzero : (updateDirectoryEntry smallVolume emptyDisk 2 entryA [] []).map Prod.fst = some 0 := by
    decide +kernel
  rw [hr, Option.map_some, Option.some.injEq] at hzero
  cases hcases with
  | inl hfail => exact absurd (hfail.1.symm.trans hzero) (by decide)
  | inr hdone =>
    obtain ⟨rfl, q, hq, hframe⟩ := hdone
    obtain rfl := Option.some.inj (hfind.symm.trans hq)
    exact ⟨d', hr, hframe⟩

end Update
end MalapropOS.Fat
