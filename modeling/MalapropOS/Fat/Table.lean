import Mathlib.Order.Bounds.Basic
import MalapropOS.Fat.Splice
import MalapropOS.Fat.WellFormed

/-! The file allocation table as an array of 16-bit numbers. Reader and writer find the same two
bytes of it, each by its own arithmetic, and the search for a free cluster goes through it from the
first entry to the last. -/
namespace MalapropOS.Fat

section Array
variable (fs : Fat16)

/-- Byte `n` of the table, counted from the start of its region, is byte `k` of sector `s`. -/
def TableByte (n s k : Nat) : Prop :=
  k < fs.bytesPerSector ∧
    s * fs.bytesPerSector + k = (calculateRegions fs).fatRegionStart * fs.bytesPerSector + n

theorem tableByte_iff {n s k : Nat} : TableByte fs n s k ↔
    s = fs.numReservedSectors + n / fs.bytesPerSector ∧ k = n % fs.bytesPerSector := by
  have hpos := fs.bytesPerSector_pos
  constructor
  · intro ⟨hk, h⟩
    rw [Nat.mul_comm, Nat.mul_comm (calculateRegions fs).fatRegionStart] at h
    have hdiv := congrArg (· / fs.bytesPerSector) h
    have hmod := congrArg (· % fs.bytesPerSector) h
    simp only [Nat.mul_add_div hpos, Nat.mul_add_mod, Nat.div_eq_of_lt hk,
      Nat.mod_eq_of_lt hk] at hdiv hmod
    exact ⟨hdiv, hmod⟩
  · intro ⟨hs, hk⟩
    have hn := Nat.div_add_mod' n fs.bytesPerSector
    refine ⟨hk ▸ Nat.mod_lt n hpos, ?_⟩
    rw [hs, hk, Nat.add_mul, Nat.add_assoc, hn]
    rfl

variable {fs} (he : 2 ∣ fs.bytesPerSector)
include he

theorem fatByte_iff {a s k : Nat} :
    FatByte fs a s k ↔ TableByte fs (2 * a) s k ∨ TableByte fs (2 * a + 1) s k := by
  have hroom := entry_room he a
  have hsplit : a * 2 + 1 = fs.bytesPerSector * (a * 2 / fs.bytesPerSector) +
      (a * 2 % fs.bytesPerSector + 1) := by
    rw [← Nat.add_assoc, Nat.div_add_mod]
  have hdiv : (a * 2 + 1) / fs.bytesPerSector = a * 2 / fs.bytesPerSector := by
    rw [hsplit, Nat.mul_add_div fs.bytesPerSector_pos, Nat.div_eq_of_lt hroom, Nat.add_zero]
  have hmod : (a * 2 + 1) % fs.bytesPerSector = a * 2 % fs.bytesPerSector + 1 := by
    rw [hsplit, Nat.mul_add_mod, Nat.mod_eq_of_lt hroom]
  rw [tableByte_iff, tableByte_iff, Nat.mul_comm 2 a, hdiv, hmod, FatByte, and_or_left]

/-- Both bytes of an entry depend on the number that is written. -/
theorem setSuccessorCluster_differs_iff (d : Disk) {a s k : Nat} :
    (∃ v : UInt16, setSuccessorCluster fs d a v.toNat s k ≠ d s k) ↔ FatByte fs a s k := by
  have hne (b : UInt8) : ∃ v : UInt8, v ≠ b := ⟨b + 1, by simp⟩
  constructor
  · intro ⟨v, hv⟩
    by_contra hn
    rw [setSuccessorCluster_eq d he, if_neg fun h => hn ⟨h.1, Or.inl h.2⟩,
      if_neg fun h => hn ⟨h.1, Or.inr h.2⟩] at hv
    exact hv rfl
  · intro ⟨hs, hk⟩
    obtain ⟨v, hv⟩ := hne (d s k)
    cases hk with
    | inl hk =>
      refine ⟨v.toUInt16, ?_⟩
      rw [setSuccessorCluster_eq d he, if_pos ⟨hs, hk⟩]
      simpa using hv
    | inr hk =>
      have hlow : ¬ (s = fs.numReservedSectors + a * 2 / fs.bytesPerSector ∧
          k = a * 2 % fs.bytesPerSector) := by omega
      have hlt : v.toNat * 256 < 2 ^ 16 := by have := v.toNat_lt; omega
      refine ⟨UInt16.ofNat (v.toNat * 256), ?_⟩
      rw [setSuccessorCluster_eq d he, if_neg hlow, if_pos ⟨hs, hk⟩, UInt16.toNat_ofNat_of_lt' hlt,
        Nat.mul_div_cancel _ (by decide)]
      simpa using hv

/-- The entry that was set is the one that changes, and it is two bytes of the disk. -/
theorem fatEntry_array (d : Disk) (a v : UInt16) :
    getSuccessorCluster fs (setSuccessorCluster fs d a.toNat v.toNat) a.toNat = v.toNat ∧
    (∀ b : UInt16, b ≠ a → getSuccessorCluster fs (setSuccessorCluster fs d a.toNat v.toNat)
      b.toNat = getSuccessorCluster fs d b.toNat) ∧
    ∀ s k, (∃ w : UInt16, setSuccessorCluster fs d a.toNat w.toNat s k ≠ d s k) ↔
      TableByte fs (2 * a.toNat) s k ∨ TableByte fs (2 * a.toNat + 1) s k := by
  refine ⟨?_, fun b hb => ?_, fun s k => ?_⟩
  · rw [getSuccessorCluster_set d he _ _ v.toNat_lt, if_pos rfl]
  · rw [getSuccessorCluster_set d he _ _ v.toNat_lt,
      if_neg fun h => hb (UInt16.toNat_inj.mp h)]
  · rw [setSuccessorCluster_differs_iff he, fatByte_iff he]

end Array

/-- Entry 3 is bytes 6 and 7 of the table. -/
theorem fatEntry_array_empty :
    getSuccessorCluster smallVolume (setSuccessorCluster smallVolume emptyDisk
      (UInt16.toNat 3) (UInt16.toNat 0x1234)) (UInt16.toNat 3) = UInt16.toNat 0x1234 ∧
    (∀ b : UInt16, b ≠ 3 → getSuccessorCluster smallVolume (setSuccessorCluster smallVolume
      emptyDisk (UInt16.toNat 3) (UInt16.toNat 0x1234)) b.toNat =
        getSuccessorCluster smallVolume emptyDisk b.toNat) ∧
    ∀ s k, (∃ w : UInt16, setSuccessorCluster smallVolume emptyDisk (UInt16.toNat 3) w.toNat s k ≠
        emptyDisk s k) ↔
      TableByte smallVolume (2 * UInt16.toNat 3) s k ∨
        TableByte smallVolume (2 * UInt16.toNat 3 + 1) s k :=
  fatEntry_array (by decide) emptyDisk 3 0x1234

section Search
variable (fs : Fat16)

/-- `find_first_free_cluster` again and again, each time marking what it has found, until it
finds 0. -/
def claimFree : Nat → Disk → Option (List Nat)
  | 0, _ => none
  | fuel + 1, d =>
    let c := findFirstFreeCluster fs d
    if c = 0 then some []
    else (claimFree fuel (setSuccessorCluster fs d c 0xFFFF)).map (c :: ·)

variable {fs} {d : Disk}

theorem freeClusters_sorted : (freeClusters fs d).Pairwise (· < ·) :=
  List.pairwise_lt_range.filter _

theorem not_free_zero (h0 : getSuccessorCluster fs d 0 ≠ 0) {c : Nat}
    (hc : c ∈ freeClusters fs d) : c ≠ 0 := by
  intro hz
  exact h0 (hz ▸ (mem_freeClusters.mp hc).2)

variable (he : 2 ∣ fs.bytesPerSector)
include he

/-- Marking the first free cluster takes it off the list. -/
theorem freeClusters_mark {c : Nat} {rest : List Nat} (h : freeClusters fs d = c :: rest) :
    freeClusters fs (setSuccessorCluster fs d c 0xFFFF) = rest := by
  apply freeClusters_marked h
  intro a
  rw [getSuccessorCluster_set d he c a (by decide)]
  by_cases ha : a = c <;> simp [ha]

variable (hsize : numEntries fs ≤ 65536)
include hsize

theorem findFirstFreeCluster_head :
    findFirstFreeCluster fs d = (freeClusters fs d).head?.getD 0 :=
  findFirstFreeCluster_eq_head he fun _ hc => (mem_freeClusters.mp hc).1.trans_le hsize

theorem findFirstFreeCluster_eq_iff {c : Nat} (hc : c ≠ 0) : findFirstFreeCluster fs d = c ↔
    IsLeast {a | a < numEntries fs ∧ getSuccessorCluster fs d a = 0} c := by
  have hset : {a | a < numEntries fs ∧ getSuccessorCluster fs d a = 0} =
      {a | a ∈ freeClusters fs d} := by
    ext a
    exact mem_freeClusters.symm
  rw [findFirstFreeCluster_head he hsize, hset]
  have hsorted : (freeClusters fs d).Pairwise (· < ·) := freeClusters_sorted
  cases hf : freeClusters fs d with
  | nil => simp [IsLeast, hc.symm]
  | cons b rest =>
    rw [hf, List.pairwise_cons] at hsorted
    have hleast : IsLeast {a | a ∈ b :: rest} b := by
      refine ⟨by simp, fun a ha => ?_⟩
      cases List.mem_cons.mp ha with
      | inl heq => exact heq.ge
      | inr hmem => exact (hsorted.1 a hmem).le
    constructor
    · intro h
      exact (show b = c by simpa using h) ▸ hleast
    · intro h
      simpa using hleast.unique h

variable (h0 : getSuccessorCluster fs d 0 ≠ 0)
include h0

theorem claimFree_eq {fuel : Nat} (hfuel : (freeClusters fs d).length < fuel) :
    claimFree fs fuel d = some (freeClusters fs d) := by
  induction fuel generalizing d with
  | zero => omega
  | succ fuel ih =>
    cases hf : freeClusters fs d with
    | nil => simp [claimFree, findFirstFreeCluster_head he hsize, hf]
    | cons c rest =>
      have hc : c ≠ 0 := not_free_zero h0 (by simp [hf])
      have hrest := freeClusters_mark he hf
      have hzero : getSuccessorCluster fs (setSuccessorCluster fs d c 0xFFFF) 0 ≠ 0 := by
        rw [getSuccessorCluster_set d he c 0 (by decide), if_neg hc.symm]
        exact h0
      have hlen : rest.length < fuel := by simpa [hf] using hfuel
      have hnext := ih hzero (by rwa [hrest])
      simp [claimFree, findFirstFreeCluster_head he hsize, hf, hc, hnext, hrest]

theorem findFirstFreeCluster_eq_zero_iff :
    findFirstFreeCluster fs d = 0 ↔ ∀ c < numEntries fs, getSuccessorCluster fs d c ≠ 0 := by
  rw [findFirstFreeCluster_head he hsize]
  cases hf : freeClusters fs d with
  | nil =>
    have hnone (c : Nat) (hc : c < numEntries fs) (hz : getSuccessorCluster fs d c = 0) : False :=
      by simpa [hf] using mem_freeClusters.mpr ⟨hc, hz⟩
    simpa using hnone
  | cons c rest =>
    have hm : c ∈ freeClusters fs d := by simp [hf]
    have hfree := mem_freeClusters.mp hm
    constructor
    · intro hz
      exact absurd hz (not_free_zero h0 hm)
    · intro hall
      exact absurd hfree.2 (hall c hfree.1)

/-- The first free cluster is the least, and taking one after the other takes each of them once,
in ascending order. -/
theorem findFirstFreeCluster_enumerates :
    (∀ c ≠ 0, findFirstFreeCluster fs d = c ↔
      IsLeast {a | a < numEntries fs ∧ getSuccessorCluster fs d a = 0} c) ∧
    (findFirstFreeCluster fs d = 0 ↔
      ∀ c < numEntries fs, getSuccessorCluster fs d c ≠ 0) ∧
    ∃ l : List Nat, (∀ fuel, l.length < fuel → claimFree fs fuel d = some l) ∧
      l.Pairwise (· < ·) ∧
      ∀ c, c ∈ l ↔ c < numEntries fs ∧ getSuccessorCluster fs d c = 0 :=
  ⟨fun _ hc => findFirstFreeCluster_eq_iff he hsize hc,
    findFirstFreeCluster_eq_zero_iff he hsize h0,
    freeClusters fs d, fun _ hfuel => claimFree_eq he hsize h0 hfuel, freeClusters_sorted,
    fun _ => mem_freeClusters⟩

end Search

/-- Thirteen of the sixteen entries are free. -/
theorem findFirstFreeCluster_enumerates_empty :
    (∀ c ≠ 0, findFirstFreeCluster smallVolume emptyDisk = c ↔
      IsLeast {a | a < numEntries smallVolume ∧
        getSuccessorCluster smallVolume emptyDisk a = 0} c) ∧
    (findFirstFreeCluster smallVolume emptyDisk = 0 ↔
      ∀ c < numEntries smallVolume, getSuccessorCluster smallVolume emptyDisk c ≠ 0) ∧
    ∃ l : List Nat, (∀ fuel, l.length < fuel → claimFree smallVolume fuel emptyDisk = some l) ∧
      l.Pairwise (· < ·) ∧ ∀ c, c ∈ l ↔ c < numEntries smallVolume ∧
        getSuccessorCluster smallVolume emptyDisk c = 0 :=
  findFirstFreeCluster_enumerates (by decide) (by decide) (by decide)

end MalapropOS.Fat
