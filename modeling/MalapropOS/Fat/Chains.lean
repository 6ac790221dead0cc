import Mathlib.Data.List.GetD
import Mathlib.Data.List.Perm.Subperm
import MalapropOS.Lib.Chains
import MalapropOS.Fat.Regions

/-! The cluster chains of files and what they hold. -/
namespace MalapropOS.Fat
open LinkedChain

/-- The chain from the cluster `c` on is `l`: it does not meet itself, stays inside the table
and ends at an end mark. -/
structure FileChain (fs : Fat16) (d : Disk) (c : Nat) (l : List Nat) : Prop where
  nonempty : l ≠ []
  nodup : l.Nodup
  inTable : ∀ a ∈ l, 2 ≤ a ∧ a < numEntries fs
  ends : ∃ e, 0xfff8 ≤ e ∧ Path (getSuccessorCluster fs d) c l e

/-- A walk along the table from `c` on goes through the clusters `l` and stops at `e`. -/
structure Walk (fs : Fat16) (d : Disk) (c : Nat) (l : List Nat) (e : Nat) : Prop where
  inside : ∀ a ∈ l, InChain a
  stop : ¬ InChain e
  path : Path (getSuccessorCluster fs d) c l e

/-- The clusters have their entries in the table. -/
structure Chain (fs : Fat16) (d : Disk) (c : Nat) (l : List Nat) (e : Nat) : Prop extends
    Walk fs d c l e where
  inTable : ∀ a ∈ l, a < numEntries fs

/-- Byte `x` of the data in the clusters `l`. -/
def chainByte (fs : Fat16) (d : Disk) (l : List Nat) (x : Nat) : UInt8 :=
  loadCluster fs d (l.getD (x / bytesPerCluster fs) 0) (x % bytesPerCluster fs)

/-- A byte of the entry of `c` in the table. -/
def FatByte (fs : Fat16) (c s k : Nat) : Prop :=
  s = fs.numReservedSectors + c * 2 / fs.bytesPerSector ∧
    (k = c * 2 % fs.bytesPerSector ∨ k = c * 2 % fs.bytesPerSector + 1)

/-- A byte of the data of the cluster `c`. -/
def DataByte (fs : Fat16) (c s k : Nat) : Prop :=
  firstSector fs c ≤ s ∧ s < firstSector fs c + fs.sectorsPerCluster ∧ k < fs.bytesPerSector

section Frames
variable {fs : Fat16} (hg : Geometry fs) (d : Disk)

theorem writeCluster_frame {c s k : Nat} (hc : 2 ≤ c) (hc' : c < 2 ^ 16) {buf : Buffer}
    (h : writeCluster fs d c buf s k ≠ d s k) : DataByte fs c s k := by
  rw [writeCluster_eq fs d hc hc'] at h
  by_contra hn
  exact h (if_neg hn)

include hg

theorem setSuccessorCluster_frame {c v s k : Nat} (h : setSuccessorCluster fs d c v s k ≠ d s k) :
    FatByte fs c s k := by
  rw [setSuccessorCluster_eq d hg.even] at h
  by_contra hn
  simp only [FatByte] at hn
  exact h (by rw [if_neg (by tauto), if_neg (by tauto)])

theorem FatByte.not_data {a c s k : Nat} (ha : a < numEntries fs) (h : FatByte fs a s k) :
    ¬ DataByte fs c s k := by
  have hb := hg.table_below_data ha
  have hf : (calculateRegions fs).dataRegionStart ≤ firstSector fs c := Nat.le_add_right _ _
  rintro ⟨h₁, -, -⟩
  rw [h.1] at h₁
  omega

theorem FatByte.unique {a b s k : Nat} (ha : FatByte fs a s k) (hb : FatByte fs b s k) : a = b := by
  obtain ⟨rfl, ha⟩ := ha
  obtain ⟨hs, hb⟩ := hb
  refine entry_injective hg.even (by omega) ?_
  omega

end Frames

theorem DataByte.unique {fs : Fat16} {a b s k : Nat} (h2a : 2 ≤ a) (h2b : 2 ≤ b)
    (ha : DataByte fs a s k) (hb : DataByte fs b s k) : a = b := by
  obtain ⟨h₁, h₂, -⟩ := ha
  obtain ⟨h₃, h₄, -⟩ := hb
  have hs : firstSector fs a + (s - firstSector fs a) = firstSector fs b + (s - firstSector fs b) :=
    by omega
  exact (firstSector_disjoint fs h2a h2b (by omega) (by omega) hs).1

/-- The table read on two disks that agree on an entry's bytes. -/
theorem getSuccessorCluster_congr {fs : Fat16} (hg : Geometry fs) {d d' : Disk} {c : Nat}
    (h : ∀ s k, FatByte fs c s k → d' s k = d s k) :
    getSuccessorCluster fs d' c = getSuccessorCluster fs d c := by
  rw [getSuccessorCluster_eq _ hg.even, getSuccessorCluster_eq _ hg.even,
    h _ _ ⟨rfl, Or.inl rfl⟩, h _ _ ⟨rfl, Or.inr rfl⟩]

theorem loadCluster_congr {fs : Fat16} {d d' : Disk} {c : Nat} (hc : 2 ≤ c) (hc' : c < 2 ^ 16)
    (h : ∀ s k, DataByte fs c s k → d' s k = d s k) : loadCluster fs d' c = loadCluster fs d c :=
  loadCluster_sectors hc hc' fun s k hs hs' hk => h s k ⟨hs, hs', hk⟩

theorem FileChain.chain {fs : Fat16} (hl : Layout fs) {d : Disk} {c : Nat} {l : List Nat}
    (hc : FileChain fs d c l) : ∃ e, 0xfff8 ≤ e ∧ Chain fs d c l e := by
  obtain ⟨e, he, hp⟩ := hc.ends
  refine ⟨e, he, ⟨fun a ha => ?_, fun h => ?_, hp⟩, fun a ha => (hc.inTable a ha).2⟩
  · have := hc.inTable a ha
    have := hl.entries
    exact ⟨by omega, by omega⟩
  · have := h.2
    omega

theorem getD_mem {l : List Nat} {j : Nat} (hj : j < l.length) : l.getD j 0 ∈ l :=
  List.getD_eq_getElem l 0 hj ▸ List.getElem_mem hj

section Walks
variable {fs : Fat16} {d : Disk} {c₀ e : Nat} {l : List Nat} (h : Walk fs d c₀ l e)
include h

theorem Walk.nodup : l.Nodup := h.path.nodup InChain h.inside h.stop

theorem Walk.start {a : Nat} {m : List Nat} (hl : l = a :: m) : InChain c₀ := by
  subst hl
  exact h.path.1 ▸ h.inside a List.mem_cons_self

/-- Each cluster has the next one, or what ends the walk, as its entry. -/
theorem Walk.next {j : Nat} (hj : j < l.length) :
    (j + 1 < l.length → getSuccessorCluster fs d (l.getD j 0) = l.getD (j + 1) 0) ∧
    (j + 1 = l.length → getSuccessorCluster fs d (l.getD j 0) = e) := by
  have hn := h.path.next_getElem j hj
  rw [List.getD_eq_getElem _ _ hj, hn]
  constructor
  · intro hlt
    rw [List.getD_append _ _ _ _ hlt, List.getD_eq_getElem _ _ hlt, List.getD_eq_getElem _ _ hlt]
  · intro heq
    rw [List.getD_append_right _ _ _ _ (by omega), heq, Nat.sub_self, List.getD_cons_zero]

/-- The walk goes on behind a cluster unless it is the last one. -/
theorem Walk.inChain_next {j : Nat} (hj : j < l.length) :
    InChain (getSuccessorCluster fs d (l.getD j 0)) ↔ j + 1 < l.length := by
  obtain ⟨hnext, hlast⟩ := h.next hj
  constructor
  · intro hin
    by_contra hn
    exact h.stop (hlast (by omega) ▸ hin)
  · intro hlt
    rw [hnext hlt]
    exact h.inside _ (getD_mem hlt)

theorem Walk.walkChain_eq {j : Nat} (hj : j < l.length) : walkChain fs d j c₀ = l.getD j 0 := by
  have hp := h.path
  have hin := h.inside
  clear h
  induction j generalizing c₀ l with
  | zero =>
    cases l with
    | nil => simp at hj
    | cons a l => exact hp.1.symm
  | succ j ih =>
    cases l with
    | nil => simp at hj
    | cons a l =>
      obtain ⟨rfl, hp⟩ := hp
      rw [walkChain, if_pos (hin a (by simp)), List.getD_cons_succ]
      exact ih (by simpa using hj) hp fun b hb => hin b (by simp [hb])

theorem Walk.length_lt : l.length < 2 ^ 16 := by
  have hsub : l ⊆ List.range 0xfff0 := fun a ha => List.mem_range.mpr (h.inside a ha).2
  have hle := (h.nodup.subperm hsub).length_le
  rw [List.length_range] at hle
  omega

/-- Inside a chain the number of the cluster is not narrowed. -/
theorem Walk.dataStartsInCluster_eq {o : Nat} (ho : o < l.length * bytesPerCluster fs) :
    o / bytesPerCluster fs < l.length ∧ dataStartsInCluster fs o = o / bytesPerCluster fs := by
  have hj : o / bytesPerCluster fs < l.length :=
    (Nat.div_lt_iff_lt_mul (bytesPerCluster_pos fs)).mpr ho
  have hlen := h.length_lt
  exact ⟨hj, Nat.mod_eq_of_lt (by omega)⟩

end Walks

theorem dataOffsetInCluster_eq (fs : Fat16) (o : Nat) :
    dataOffsetInCluster fs o = o % bytesPerCluster fs % 2 ^ 16 := by
  have hq := Nat.div_add_mod (o / bytesPerCluster fs) (2 ^ 16)
  have ho := Nat.div_add_mod o (bytesPerCluster fs)
  -- the cluster number loses a multiple of 2^16
  have hsplit : o - dataStartsInCluster fs o * bytesPerCluster fs = o % bytesPerCluster fs +
      2 ^ 16 * (o / bytesPerCluster fs / 2 ^ 16 * bytesPerCluster fs) := by
    rw [dataStartsInCluster, ← Nat.mul_assoc]
    rw [← hq, Nat.mul_add, Nat.mul_comm (bytesPerCluster fs), Nat.mul_comm (bytesPerCluster fs)]
      at ho
    omega
  rw [dataOffsetInCluster, hsplit, Nat.add_mul_mod_self_left]

theorem dataOffsetInCluster_lt (fs : Fat16) (o : Nat) :
    dataOffsetInCluster fs o < bytesPerCluster fs := by
  rw [dataOffsetInCluster_eq]
  exact (Nat.mod_le _ _).trans_lt (Nat.mod_lt o (bytesPerCluster_pos fs))

/-- What is left of the first cluster behind the offset. -/
theorem numBytesInFirstCluster_eq (fs : Fat16) (o num : Nat) : numBytesInFirstCluster fs o num =
    min num (bytesPerCluster fs - dataOffsetInCluster fs o) := by
  have h₁ : bytesPerCluster fs ≤ 2 ^ 16 * 2 ^ 8 :=
    Nat.mul_le_mul fs.bytesPerSector_lt.le fs.sectorsPerCluster_lt.le
  have h₂ := dataOffsetInCluster_lt fs o
  rw [numBytesInFirstCluster]
  omega

end MalapropOS.Fat
