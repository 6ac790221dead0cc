import MalapropOS.Fat.Chains

/-! `read_from_file` on a file whose chain reaches the offset: it reads to the end of the
chain at most, and the bytes are those of the chain. -/
namespace MalapropOS.Fat
open LinkedChain

/-- The buffer after the first `k` bytes of the chain from `o` on were copied into it. -/
def readBuffer (fs : Fat16) (d : Disk) (l : List Nat) (o k : Nat) (buf : Buffer) : Buffer :=
  fun i => if i < k then chainByte fs d l (o + i) else buf i

/-- The offset that `data_starts_in_cluster` and `data_offset_in_cluster` stand for. -/
def narrowOffset (fs : Fat16) (o : Nat) : Nat :=
  dataStartsInCluster fs o * bytesPerCluster fs + dataOffsetInCluster fs o

section Reading
variable {fs : Fat16} (d : Disk) {c₀ e : Nat} (l : List Nat) {o k : Nat} (buf : Buffer)

/-- Copying from cluster `j` of the chain goes on with the bytes of the chain. -/
theorem readBuffer_copy {j i n : Nat} (ho : o + k = j * bytesPerCluster fs + i)
    (hn : i + n ≤ bytesPerCluster fs) :
    stdmemCopy (readBuffer fs d l o k buf) k (loadCluster fs d (l.getD j 0)) i n =
      readBuffer fs d l o (k + n) buf := by
  funext x
  have hb := bytesPerCluster_pos fs
  simp only [stdmemCopy, readBuffer]
  by_cases hx : k ≤ x ∧ x < k + n
  · have hpos : o + x = bytesPerCluster fs * j + (i + (x - k)) := by
      rw [Nat.mul_comm]
      omega
    rw [if_pos hx, if_pos hx.2, chainByte, hpos, Nat.mul_add_div hb, Nat.mul_add_mod,
      Nat.div_eq_of_lt (by omega), Nat.mod_eq_of_lt (by omega), Nat.add_zero]
  · rw [if_neg hx]
    exact if_congr (by omega) rfl rfl

variable {d l buf}

theorem readClusters_eq (hc : Walk fs d c₀ l e) (num fuel c j : Nat) (hj : j < l.length)
    (hcur : c = getSuccessorCluster fs d (l.getD j 0)) (hk : k ≤ num)
    (hle : o + k ≤ l.length * bytesPerCluster fs)
    (hpos : k < num → o + k = (j + 1) * bytesPerCluster fs) (hfuel : num - k ≤ fuel) :
    readClusters fs d num fuel c (readBuffer fs d l o k buf) k =
      (readBuffer fs d l o (min num (l.length * bytesPerCluster fs - o)) buf,
        min num (l.length * bytesPerCluster fs - o)) := by
  induction fuel generalizing c j k with
  | zero =>
    rw [readClusters, show min num (l.length * bytesPerCluster fs - o) = k by omega]
  | succ fuel ih =>
    have hgoes := hc.inChain_next hj
    have hnext := (hc.next hj).1
    rw [← hcur] at hgoes hnext
    rw [readClusters]
    by_cases hgo : InChain c ∧ k < num
    · have hj' : j + 1 < l.length := hgoes.mp hgo.1
      have hb := bytesPerCluster_pos fs
      have hm : (j + 1 + 1) * bytesPerCluster fs ≤ l.length * bytesPerCluster fs :=
        Nat.mul_le_mul_right _ hj'
      have hp := hpos hgo.2
      rw [if_pos hgo]
      simp only [hnext hj']
      have hn : numBytesInCluster fs num k ≤ bytesPerCluster fs := Nat.min_le_right _ _
      rw [readBuffer_copy d l buf hp (by omega)]
      refine ih _ (j + 1) hj' rfl ?_ ?_ ?_ ?_
      · simp only [numBytesInCluster]
        omega
      · rw [Nat.add_mul _ 1] at hm
        omega
      · simp only [numBytesInCluster]
        intro hlt
        rw [Nat.add_mul _ 1]
        omega
      · simp only [numBytesInCluster]
        omega
    · rw [if_neg hgo]
      have hstop : k = min num (l.length * bytesPerCluster fs - o) := by
        by_cases hlt : k < num
        · have hend : j + 1 = l.length := by
            by_contra hn
            exact hgo ⟨hgoes.mpr (by omega), hlt⟩
          have hp := hpos hlt
          rw [hend] at hp
          omega
        · omega
      rw [← hstop]

/-- `read_from_file` at an offset inside the chain reads from the offset that its 16-bit variables
make of it. -/
theorem readFromFile_narrowed (hc : Walk fs d c₀ l e) (ho : o < l.length * bytesPerCluster fs)
    (buf : Buffer) (num : Nat) : readFromFile fs d c₀ o buf num =
      (readBuffer fs d l (narrowOffset fs o)
        (min num (l.length * bytesPerCluster fs - narrowOffset fs o)) buf,
        min num (l.length * bytesPerCluster fs - narrowOffset fs o)) := by
  obtain ⟨hj, hstarts⟩ := hc.dataStartsInCluster_eq ho
  have hoff := dataOffsetInCluster_lt fs o
  have hfirst := numBytesInFirstCluster_eq fs o num
  have hm : (o / bytesPerCluster fs + 1) * bytesPerCluster fs ≤ l.length * bytesPerCluster fs :=
    Nat.mul_le_mul_right _ hj
  rw [Nat.add_mul] at hm
  have hz : readBuffer fs d l (narrowOffset fs o) 0 buf = buf := by
    funext i
    exact if_neg (by omega)
  have hstart : narrowOffset fs o =
      o / bytesPerCluster fs * bytesPerCluster fs + dataOffsetInCluster fs o := by
    rw [narrowOffset, hstarts]
  have hcopy := readBuffer_copy d l buf ((Nat.add_zero _).trans hstart)
    (show dataOffsetInCluster fs o + min num (bytesPerCluster fs - dataOffsetInCluster fs o) ≤
      bytesPerCluster fs by omega)
  rw [hz, Nat.zero_add] at hcopy
  simp only [readFromFile, hstarts, hfirst, hc.walkChain_eq hj, hcopy]
  exact readClusters_eq hc num num _ _ hj rfl (by omega) (by omega)
    (fun h => by rw [Nat.add_mul]; omega) (Nat.sub_le _ _)

theorem narrowOffset_eq (hc : Walk fs d c₀ l e) (ho : o < l.length * bytesPerCluster fs)
    (hsize : bytesPerCluster fs ≤ 2 ^ 16) : narrowOffset fs o = o := by
  have hlt := Nat.mod_lt o (bytesPerCluster_pos fs)
  rw [narrowOffset, (hc.dataStartsInCluster_eq ho).2, dataOffsetInCluster_eq,
    Nat.mod_eq_of_lt (by omega), Nat.mul_comm]
  exact Nat.div_add_mod _ _

/-- `read_from_file` at an offset inside the chain. -/
theorem readFromFile_eq (hsize : bytesPerCluster fs ≤ 2 ^ 16) (hc : Walk fs d c₀ l e)
    (ho : o < l.length * bytesPerCluster fs) (buf : Buffer) (num : Nat) :
    readFromFile fs d c₀ o buf num =
      (readBuffer fs d l o (min num (l.length * bytesPerCluster fs - o)) buf,
        min num (l.length * bytesPerCluster fs - o)) := by
  rw [readFromFile_narrowed hc ho, narrowOffset_eq hc ho hsize]

/-- Without bytes to read `read_from_file` leaves the buffer, wherever the offset is. -/
theorem readFromFile_nothing (fs : Fat16) (d : Disk) (c₀ o : Nat) (buf : Buffer) :
    readFromFile fs d c₀ o buf 0 = (buf, 0) := by
  have hcopy (x : Buffer) (i : Nat) : stdmemCopy buf 0 x i 0 = buf := by
    funext k
    exact if_neg (by omega)
  simp only [readFromFile, numBytesInFirstCluster, Nat.zero_min, hcopy, readClusters]

theorem readClusters_ge (fs : Fat16) (d : Disk) (num fuel c : Nat) (buf : Buffer) (k : Nat) :
    k ≤ (readClusters fs d num fuel c buf k).2 := by
  induction fuel generalizing c buf k with
  | zero => exact Nat.le_refl k
  | succ fuel ih =>
    rw [readClusters]
    split_ifs
    · exact (Nat.le_add_right _ _).trans (ih _ _ _)
    · exact Nat.le_refl k

/-- `read_from_file` reads a byte at least, even where there is no cluster. -/
theorem readFromFile_pos (fs : Fat16) (d : Disk) (c₀ o : Nat) (buf : Buffer) {num : Nat}
    (hnum : 1 ≤ num) : 1 ≤ (readFromFile fs d c₀ o buf num).2 := by
  have hfirst := numBytesInFirstCluster_eq fs o num
  have hoff := dataOffsetInCluster_lt fs o
  refine Nat.le_trans ?_ (readClusters_ge _ _ _ _ _ _ _)
  rw [hfirst]
  omega

end Reading
end MalapropOS.Fat
