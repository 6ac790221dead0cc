import Mathlib.Data.List.TakeWhile
import MalapropOS.Fat.Search

/-! The loops that walk a directory, side by side. `get_dir` and `get_root_dir` list it;
`add_directory_entry`, `update_directory_entry` and their variants for the root directory search
it for a slot. Each has its own end test and its own sector numbers. -/
namespace MalapropOS.Fat
open LinkedChain

section Chains
variable {fs : Fat16} {d : Disk} {c e : Nat} {l : List Nat}

/-- An acyclic chain of data clusters. -/
structure DataChain (fs : Fat16) (d : Disk) (c : Nat) (l : List Nat) : Prop where
  nonempty : l ≠ []
  nodup : l.Nodup
  data : ∀ a ∈ l, 2 ≤ a ∧ a ≤ 0xffef
  ends : ∃ e, ¬ InChain e ∧ Path (getSuccessorCluster fs d) c l e

/-- The clusters that `search_directory` loads until it concludes that the chain has ended. -/
def searchedClusters (fs : Fat16) (d : Disk) : Nat → Nat → List Nat
  | 0, _ => []
  | fuel + 1, c =>
    let next := getSuccessorCluster fs d c
    if next < 0x0002 ∨ next > 0x0fef then [c] else c :: searchedClusters fs d fuel next

/-- The clusters that `get_dir` lists until it concludes that the chain has ended. -/
def listedClusters (fs : Fat16) (d : Disk) : Nat → Nat → List Nat
  | 0, _ => []
  | fuel + 1, c =>
    if InChain c then c :: listedClusters fs d fuel (getSuccessorCluster fs d c) else []

/-- What is in a searched cluster is found, there or before. -/
theorem searchDirectory_found {find : Buffer → Option Nat} {fuel a i : Nat}
    (ha : a ∈ searchedClusters fs d fuel c) (hi : find (loadCluster fs d a) = some i) :
    ∃ b j, searchDirectory fs d find fuel c = some (b, some j) := by
  induction fuel generalizing c with
  | zero => cases ha
  | succ fuel ih =>
    rw [searchDirectory]
    cases hc : find (loadCluster fs d c) with
    | some j => exact ⟨c, j, rfl⟩
    | none =>
      have hac : a ≠ c := by
        rintro rfl
        rw [hi] at hc
        cases hc
      simp only [searchedClusters] at ha ⊢
      split_ifs at ha ⊢ with hn
      · exact absurd (List.mem_singleton.mp ha) hac
      · exact ih ((List.mem_cons.mp ha).resolve_left hac)

/-- A search finds the first slot in the order of the searched clusters. -/
theorem searchDirectory_first {find : Buffer → Option Nat} {fuel : Nat} {r : Nat × Option Nat}
    (h : searchDirectory fs d find fuel c = some r) :
    ((searchedClusters fs d fuel c).findSome? fun a =>
      (find (loadCluster fs d a)).map fun i => (a, i)) = r.2.map fun i => (r.1, i) := by
  induction fuel generalizing c with
  | zero => cases h
  | succ fuel ih =>
    rw [searchDirectory] at h
    cases hc : find (loadCluster fs d c) with
    | some j =>
      simp only [hc, Option.some.injEq, searchedClusters] at h ⊢
      subst h
      split_ifs <;> simp [hc]
    | none =>
      simp only [hc, searchedClusters] at h ⊢
      split_ifs at h ⊢ with hn
      · simp [hc, ← Option.some.inj h]
      · rw [List.findSome?_cons, hc]
        exact ih h

/-- A search that finds nothing stops at the last searched cluster. -/
theorem searchDirectory_last {find : Buffer → Option Nat} {fuel z : Nat}
    (h : searchDirectory fs d find fuel c = some (z, none)) :
    (searchedClusters fs d fuel c).getLast? = some z := by
  induction fuel generalizing c with
  | zero => cases h
  | succ fuel ih =>
    rw [searchDirectory] at h
    cases hc : find (loadCluster fs d c) with
    | some j => simp [hc] at h
    | none =>
      simp only [hc, searchedClusters] at h ⊢
      split_ifs at h ⊢ with hn
      · simp only [Option.some.injEq, Prod.mk.injEq] at h
        simp [h.1]
      · have hz := ih h
        rw [List.getLast?_cons, hz]
        rfl

/-- Without an entry that ends it, a listing is that of the listed clusters. -/
theorem listChain_listed {fuel : Nat} {es : List ListEntry}
    (hn : ∀ a ∈ listedClusters fs d fuel c, ¬ (listCluster fs d a).2)
    (h : listChain fs d fuel c = some es) :
    es = (listedClusters fs d fuel c).flatMap fun a => (listCluster fs d a).1 := by
  induction fuel generalizing c es with
  | zero => cases h
  | succ fuel ih =>
    simp only [listChain, listedClusters] at h hn ⊢
    split_ifs at h hn ⊢ with hc ht
    · exact absurd ht (hn c (by simp))
    · obtain ⟨es', he, rfl⟩ := Option.map_eq_some_iff.mp h
      rw [ih (fun a ha => hn a (by simp [ha])) he, List.flatMap_cons]
    · exact (Option.some.inj h).symm

theorem listedClusters_path (hp : Path (getSuccessorCluster fs d) c l e) (he : ¬ InChain e)
    (hin : ∀ a ∈ l, InChain a) {fuel : Nat} (hf : l.length < fuel) :
    listedClusters fs d fuel c = l := by
  induction l generalizing c fuel with
  | nil =>
    obtain ⟨fuel, rfl⟩ : ∃ n, fuel = n + 1 := ⟨fuel - 1, by simp at hf; omega⟩
    obtain rfl : c = e := hp
    simp [listedClusters, he]
  | cons a l ih =>
    obtain ⟨fuel, rfl⟩ : ∃ n, fuel = n + 1 := ⟨fuel - 1, by simp at hf; omega⟩
    obtain ⟨rfl, hp⟩ := hp
    rw [listedClusters, if_pos (hin a (by simp)),
      ih hp (fun b hb => hin b (by simp [hb])) (by simpa using hf)]

/-- The search stops before the first cluster above 0x0fef. -/
theorem searchedClusters_path {a : Nat} (hp : Path (getSuccessorCluster fs d) c (a :: l) e)
    (he : ¬ InChain e) (hin : ∀ b ∈ l, 2 ≤ b) {fuel : Nat} (hf : l.length < fuel) :
    searchedClusters fs d fuel c = a :: l.takeWhile (· ≤ 0x0fef) := by
  induction l generalizing a c fuel with
  | nil =>
    obtain ⟨fuel, rfl⟩ : ∃ n, fuel = n + 1 := ⟨fuel - 1, by omega⟩
    obtain ⟨rfl, hp⟩ := hp
    obtain rfl : getSuccessorCluster fs d a = e := hp
    have hout : getSuccessorCluster fs d a < 0x0002 ∨ getSuccessorCluster fs d a > 0x0fef := by
      unfold InChain at he
      omega
    rw [searchedClusters]
    exact if_pos hout
  | cons b l ih =>
    obtain ⟨fuel, rfl⟩ : ∃ n, fuel = n + 1 := ⟨fuel - 1, by simp at hf; omega⟩
    obtain ⟨rfl, hp⟩ := hp
    have hb : b = getSuccessorCluster fs d a := hp.1
    have h2 := hin b (by simp)
    by_cases hle : b ≤ 0x0fef
    · have hn : ¬ (getSuccessorCluster fs d a < 0x0002 ∨ getSuccessorCluster fs d a > 0x0fef) := by
        omega
      rw [searchedClusters]
      simp only [if_neg hn]
      rw [ih hp (fun x hx => hin x (by simp [hx])) (by simpa using hf)]
      simp [hle]
    · have hn : getSuccessorCluster fs d a < 0x0002 ∨ getSuccessorCluster fs d a > 0x0fef := by
        omega
      rw [searchedClusters, List.takeWhile_cons_of_neg (by simpa using hle)]
      exact if_pos hn

/-- The walkers agree on the chain from `c` on: the same clusters in the same order, so that
`get_dir` lists the entries of the searched clusters, `update_directory_entry` finds every slot
that it lists, and `add_directory_entry` gives a new successor to the last cluster only. -/
structure WalkersAgree (fs : Fat16) (d : Disk) (c : Nat) : Prop where
  same : searchedClusters fs d walkFuel c = listedClusters fs d walkFuel c
  listing : ∀ es, listChain fs d walkFuel c = some es →
    (∀ a ∈ searchedClusters fs d walkFuel c, ¬ (listCluster fs d a).2) →
    es = (searchedClusters fs d walkFuel c).flatMap fun a => (listCluster fs d a).1
  found : ∀ e name ext i, ∀ a ∈ listedClusters fs d walkFuel c,
    findFileSlot (clusterEntries fs) name ext (loadCluster fs d a) = some i →
    ∃ d', updateDirectoryEntry fs d c e name ext = some (0, d')
  kept : ∀ z, searchDirectory fs d (findFirstFreeSpace (clusterEntries fs)) walkFuel c =
    some (z, none) → ¬ InChain (getSuccessorCluster fs d z)

theorem DataChain.length_lt (h : DataChain fs d c l) : l.length < 2 ^ 16 := by
  have hsub : l ⊆ List.range 0xfff0 := fun a ha =>
    List.mem_range.mpr (by have := (h.data a ha).2; omega)
  have hle := (h.nodup.subperm hsub).length_le
  rw [List.length_range] at hle
  omega

/-- The clusters that a search loads, up to the first that it takes for the end. -/
theorem DataChain.searched {a : Nat} (h : DataChain fs d c (a :: l)) :
    searchedClusters fs d walkFuel c = a :: l.takeWhile (· ≤ 0x0fef) := by
  obtain ⟨e, he, hp⟩ := h.ends
  have hlen := h.length_lt
  exact searchedClusters_path hp he (fun b hb => (h.data b (by simp [hb])).1)
    (by rw [walkFuel]; simp at hlen; omega)

/-- The walkers agree if and only if no cluster behind the first is above 0x0fef, the constant
of the searches. -/
theorem walkers_agree_iff (h : DataChain fs d c l) :
    WalkersAgree fs d c ↔ ∀ a ∈ l.tail, a ≤ 0x0fef := by
  obtain ⟨e, he, hp⟩ := h.ends
  have hlen := h.length_lt
  cases l with
  | nil => exact absurd rfl h.nonempty
  | cons a m =>
    have hin : ∀ b ∈ a :: m, InChain b := fun b hb => by
      have := h.data b hb
      exact ⟨by omega, by omega⟩
    have hlisted : listedClusters fs d walkFuel c = a :: m :=
      listedClusters_path hp he hin (by rw [walkFuel]; omega)
    have hsearched : searchedClusters fs d walkFuel c = a :: m.takeWhile (· ≤ 0x0fef) := h.searched
    constructor
    · intro hw b hb
      have hs := hw.same
      rw [hsearched, hlisted, List.cons_eq_cons] at hs
      exact of_decide_eq_true (List.takeWhile_eq_self_iff.mp hs.2 b hb)
    · intro hle
      have htake : m.takeWhile (· ≤ 0x0fef) = m :=
        List.takeWhile_eq_self_iff.mpr fun b hb => decide_eq_true (hle b hb)
      have hs : searchedClusters fs d walkFuel c = a :: m := by rw [hsearched, htake]
      refine ⟨hs.trans hlisted.symm, fun es hes hn => ?_, fun e name ext i b hb hi => ?_, ?_⟩
      · rw [hs] at hn ⊢
        rw [← hlisted] at hn ⊢
        exact listChain_listed hn hes
      · obtain ⟨b', j, hf⟩ := searchDirectory_found (by rw [hs, ← hlisted]; exact hb) hi
        exact ⟨_, by rw [updateDirectoryEntry, hf]; rfl⟩
      · intro z hz
        have hlast := searchDirectory_last hz
        rw [hs] at hlast
        obtain ⟨pre, hpre⟩ := List.getLast?_eq_some_iff.mp hlast
        rw [hpre, path_concat] at hp
        rw [hp.2]
        exact he

/-- A volume on which the directory at cluster 2 goes on at the cluster `next` and ends there. -/
def twoClusters (next : Nat) : Disk := fun s k =>
  if s = 1 ∧ k = 4 then UInt8.ofNat next
  else if s = 1 ∧ k = 5 then UInt8.ofNat (next / 256)
  else if s = 1 ∧ (k = 2 * next ∨ k = 2 * next + 1) then 0xff
  else 0

theorem twoClusters_low_agree : WalkersAgree wideVolume (twoClusters 0x0fef) 2 := by
  refine (walkers_agree_iff (l := [2, 0x0fef]) ⟨by simp, by decide, by decide, 0xffff, by decide,
    rfl, ?_⟩).mpr (by decide)
  exact ⟨show 0x0fef = getSuccessorCluster wideVolume (twoClusters 0x0fef) 2 by decide +kernel,
    show getSuccessorCluster wideVolume (twoClusters 0x0fef) 0x0fef = 0xffff by decide +kernel⟩

/-- The searches take cluster 0x1000 for the end of the chain. -/
theorem twoClusters_high_differ : DataChain wideVolume (twoClusters 0x1000) 2 [2, 0x1000] ∧
    listedClusters wideVolume (twoClusters 0x1000) walkFuel 2 = [2, 0x1000] ∧
    searchedClusters wideVolume (twoClusters 0x1000) walkFuel 2 = [2] := by
  refine ⟨⟨by simp, by decide, by decide, 0xffff, by decide, rfl, ?_⟩, by decide +kernel,
    by decide +kernel⟩
  exact ⟨show 0x1000 = getSuccessorCluster wideVolume (twoClusters 0x1000) 2 by decide +kernel,
    show getSuccessorCluster wideVolume (twoClusters 0x1000) 0x1000 = 0xffff by decide +kernel⟩

end Chains

section Root
variable {fs : Fat16}

/-- The sectors that `search_root` loads until it concludes that the directory has ended. -/
def searchedSectors (fs : Fat16) : Nat → Nat → List Nat
  | 0, _ => []
  | fuel + 1, s =>
    let next := (s + 1) % 2 ^ 16
    let regions := calculateRegions fs
    if next > regions.rootDirectoryRegionStart + regions.rootDirectoryRegionSize then [s]
    else s :: searchedSectors fs fuel next

/-- The sectors that the writers of the root directory search. -/
def rootSearchSectors (fs : Fat16) : List Nat :=
  searchedSectors fs walkFuel ((calculateRegions fs).rootDirectoryRegionStart % 2 ^ 16)

/-- What is in a searched sector is found, there or before. -/
theorem searchRoot_found {d : Disk} {find : Buffer → Option Nat} {fuel s a i : Nat}
    (ha : a ∈ searchedSectors fs fuel s)
    (hi : find (diskRd d a zeroBuffer 0 fs.bytesPerSector) = some i) :
    ∃ t j, searchRoot fs d find fuel s = some (t, some j) := by
  induction fuel generalizing s with
  | zero => cases ha
  | succ fuel ih =>
    rw [searchRoot]
    cases hs : find (diskRd d s zeroBuffer 0 fs.bytesPerSector) with
    | some j => exact ⟨s, j, rfl⟩
    | none =>
      have has : a ≠ s := by
        rintro rfl
        rw [hi] at hs
        cases hs
      simp only [searchedSectors] at ha ⊢
      split_ifs at ha ⊢ with hn
      · exact absurd (List.mem_singleton.mp ha) has
      · exact ih ((List.mem_cons.mp ha).resolve_left has)

/-- A search finds the first slot in the order of the searched sectors. -/
theorem searchRoot_first {d : Disk} {find : Buffer → Option Nat} {fuel s : Nat}
    {r : Nat × Option Nat} (h : searchRoot fs d find fuel s = some r) :
    ((searchedSectors fs fuel s).findSome? fun a =>
      (find (diskRd d a zeroBuffer 0 fs.bytesPerSector)).map fun i => (a, i)) =
        r.2.map fun i => (r.1, i) := by
  induction fuel generalizing s with
  | zero => cases h
  | succ fuel ih =>
    rw [searchRoot] at h
    cases hs : find (diskRd d s zeroBuffer 0 fs.bytesPerSector) with
    | some j =>
      simp only [hs, Option.some.injEq, searchedSectors] at h ⊢
      subst h
      split_ifs <;> simp [hs]
    | none =>
      simp only [hs, searchedSectors] at h ⊢
      split_ifs at h ⊢ with hn
      · simp [hs, ← Option.some.inj h]
      · rw [List.findSome?_cons, hs]
        exact ih h

theorem searchedSectors_getElem? {s fuel i : Nat} (hf : i < fuel)
    (hs : s + i ≤ (calculateRegions fs).dataRegionStart)
    (hfit : (calculateRegions fs).dataRegionStart < 2 ^ 16) :
    (searchedSectors fs fuel s)[i]? = some (s + i) := by
  induction i generalizing s fuel with
  | zero =>
    obtain ⟨fuel, rfl⟩ : ∃ n, fuel = n + 1 := ⟨fuel - 1, by omega⟩
    simp only [searchedSectors]
    split_ifs <;> rfl
  | succ i ih =>
    obtain ⟨fuel, rfl⟩ : ∃ n, fuel = n + 1 := ⟨fuel - 1, by omega⟩
    have hmod : (s + 1) % 2 ^ 16 = s + 1 := Nat.mod_eq_of_lt (by omega)
    have hd : (calculateRegions fs).rootDirectoryRegionStart +
        (calculateRegions fs).rootDirectoryRegionSize = (calculateRegions fs).dataRegionStart := rfl
    simp only [searchedSectors, hmod, hd]
    rw [if_neg (by omega), List.getElem?_cons_succ, ih (by omega) (by omega)]
    congr 1
    omega

/-- The reader and the writers of the root directory agree: its i-th sector is the i-th that each
scans, so that the writers find every slot that matches in it, and all its slots lie in front of
the data region. -/
structure RootAgrees (fs : Fat16) : Prop where
  same : ∀ i, i * sectorEntries fs < fs.numRootDirectoryEntries →
    (rootSectors fs)[i]? = (rootSearchSectors fs)[i]?
  found : ∀ d e name ext, ∀ s ∈ rootSectors fs, ∀ j,
    findFileSlot (sectorEntries fs) name ext (diskRd d s zeroBuffer 0 fs.bytesPerSector) = some j →
    ∃ d', updateRootDirectoryEntry fs d e name ext = some (0, d')
  before : ∀ j < fs.numRootDirectoryEntries, (calculateRegions fs).rootDirectoryRegionStart +
    j / sectorEntries fs < (calculateRegions fs).dataRegionStart

theorem sectorEntries_mul (h : 32 ∣ fs.bytesPerSector) :
    fs.bytesPerSector = 32 * sectorEntries fs ∧ 0 < sectorEntries fs := by
  have := fs.bytesPerSector_pos
  unfold sectorEntries
  omega

theorem rootDirectoryRegionSize_eq (h : 32 ∣ fs.bytesPerSector) :
    (calculateRegions fs).rootDirectoryRegionSize =
      fs.numRootDirectoryEntries / sectorEntries fs := by
  have hb := (sectorEntries_mul h).1
  show fs.numRootDirectoryEntries * 32 / fs.bytesPerSector = _
  rw [hb, Nat.mul_comm, Nat.mul_div_mul_left _ _ (by decide)]

theorem rootSectors_getElem? {i : Nat} (hi : i < numRootSectors fs) : (rootSectors fs)[i]? =
    some (1 + fs.numSectorsPerFileAllocationTable * fs.numFileAllocationTables + i) := by
  rw [rootSectors, List.getElem?_map, List.getElem?_range hi, Option.map_some]

/-- The reader and the writers agree if and only if the root directory is empty, or exactly one
sector is reserved and the entries fill their sectors, whose number fits in an `int16_t`. -/
theorem root_agrees_iff (h32 : 32 ∣ fs.bytesPerSector)
    (hfit : (calculateRegions fs).dataRegionStart ≤ 65535) :
    RootAgrees fs ↔ fs.numRootDirectoryEntries = 0 ∨ fs.numReservedSectors = 1 ∧
      sectorEntries fs ∣ fs.numRootDirectoryEntries ∧
      fs.numRootDirectoryEntries / sectorEntries fs < 2 ^ 15 := by
  have hq := (sectorEntries_mul h32).2
  have hsize := rootDirectoryRegionSize_eq h32
  have hstart : (calculateRegions fs).rootDirectoryRegionStart = fs.numReservedSectors +
      fs.numFileAllocationTables * fs.numSectorsPerFileAllocationTable := rfl
  have hdata : (calculateRegions fs).dataRegionStart =
      (calculateRegions fs).rootDirectoryRegionStart +
        (calculateRegions fs).rootDirectoryRegionSize := rfl
  have hsearch : ∀ i ≤ fs.numRootDirectoryEntries / sectorEntries fs, (rootSearchSectors fs)[i]? =
      some ((calculateRegions fs).rootDirectoryRegionStart + i) := by
    intro i hi
    rw [rootSearchSectors, Nat.mod_eq_of_lt (by omega)]
    exact searchedSectors_getElem? (by rw [walkFuel]; omega) (by omega) (by omega)
  constructor
  · intro h
    cases Nat.eq_zero_or_pos fs.numRootDirectoryEntries with
    | inl h0 => exact Or.inl h0
    | inr hpos =>
      right
      -- the first sector of the reader, which exists since the writers have one
      have hfirst := h.same 0 (by omega)
      rw [hsearch 0 (Nat.zero_le _)] at hfirst
      have hlen := (List.getElem?_eq_some_iff.mp hfirst).1
      rw [rootSectors, List.length_map, List.length_range] at hlen
      rw [rootSectors_getElem? hlen, Option.some.injEq, hstart, Nat.mul_comm] at hfirst
      refine ⟨by omega, ?_, ?_⟩
      · have hlast := h.before (fs.numRootDirectoryEntries - 1) (by omega)
        have hsucc := Nat.succ_div (a := fs.numRootDirectoryEntries - 1) (b := sectorEntries fs)
        rw [Nat.sub_add_cancel hpos] at hsucc
        by_contra hdvd
        rw [if_neg hdvd] at hsucc
        omega
      · unfold numRootSectors at hlen
        split_ifs at hlen with hlt
        · exact hlt
        · omega
  · rintro (h0 | ⟨hres, ⟨m, hm⟩, hlt⟩)
    · have hnone : rootSectors fs = [] := by simp [rootSectors, numRootSectors, h0]
      exact ⟨fun i hi => by omega, fun d e name ext s hs => by simp [hnone] at hs,
        fun j hj => by omega⟩
    · have hdiv : fs.numRootDirectoryEntries / sectorEntries fs = m := by
        rw [hm, Nat.mul_div_cancel_left _ hq]
      have hnum : numRootSectors fs = m := by rw [numRootSectors, if_pos hlt, hdiv]
      have hread : ∀ i < m, (rootSectors fs)[i]? =
          some ((calculateRegions fs).rootDirectoryRegionStart + i) := by
        intro i hi
        rw [rootSectors_getElem? (by omega), hstart, hres, Nat.mul_comm]
      refine ⟨fun i hi => ?_, fun d e name ext s hs j hj => ?_, fun j hj => ?_⟩
      · have him : i < m := Nat.lt_of_mul_lt_mul_left (by rw [Nat.mul_comm, ← hm]; exact hi)
        rw [hread i him, hsearch i (by omega)]
      · obtain ⟨i, hi⟩ := List.getElem?_of_mem hs
        have him : i < m := by
          have := (List.getElem?_eq_some_iff.mp hi).1
          rwa [rootSectors, List.length_map, List.length_range, hnum] at this
        rw [hread i him, ← hsearch i (by omega)] at hi
        obtain ⟨t, k, hf⟩ := searchRoot_found (List.mem_of_getElem? hi) hj
        exact ⟨_, by rw [updateRootDirectoryEntry, searchRootDirectory, hf]; rfl⟩
      · have : j / sectorEntries fs < m := Nat.div_lt_of_lt_mul (hm ▸ hj)
        omega

theorem wideVolume_agrees : RootAgrees wideVolume :=
  (root_agrees_iff (by decide) (by decide)).mpr (by decide)

/-- The listing starts in front of the root directory. -/
theorem reservedVolume_differs :
    (32 ∣ reservedVolume.bytesPerSector ∧
      (calculateRegions reservedVolume).dataRegionStart ≤ 65535) ∧
    (rootSectors reservedVolume)[0]? = some 2 ∧ (rootSearchSectors reservedVolume)[0]? = some 3 := by
  refine ⟨⟨by decide, by decide⟩, by decide +kernel, by decide +kernel⟩

end Root

end MalapropOS.Fat
