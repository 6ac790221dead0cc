import MalapropOS.Fat.Syscalls

/-! Calls that fail. Every exit with -1 lies before the first write to the disk and before the
first change of the table of open files; `sys_open` apart, which may find in the end that it
cannot open what it has made. -/
namespace MalapropOS.Fat
variable {fs : Fat16} {s t : State}

/-- The return value and the caller's buffer. The path is resolved as it stands. -/
def sysStat (fs : Fat16) (s : State) (path : CharPtr) (buf : DirEntry) :
    Option (Int × DirEntry) := do
  match ← findFile fs s.disk path (getRootDir fs s.disk) with
  | some file => return (0, file.entry)
  | none => return (-1, buf)

section Creation
variable {d d' : Disk} {e : DirEntry} {r : Int}

/-- The result of adding an entry: 0, or -1 and the disk as it was. -/
def AddResult (d : Disk) (r : Int) (d' : Disk) : Prop := r = 0 ∨ r = -1 ∧ d' = d

theorem addRootDirectoryEntry_result (h : addRootDirectoryEntry fs d e = some (r, d')) :
    AddResult d r d' := by
  obtain ⟨⟨s, found⟩, -, h⟩ := Option.bind_eq_some_iff.mp h
  cases found with
  | some i =>
    obtain ⟨rfl, -⟩ := Prod.mk.inj (Option.some.inj h)
    exact Or.inl rfl
  | none =>
    obtain ⟨rfl, rfl⟩ := Prod.mk.inj (Option.some.inj h)
    exact Or.inr ⟨rfl, rfl⟩

/-- With no free slot and no free cluster the directory cannot grow. -/
theorem addDirectoryEntry_result {dirCluster : Nat}
    (h : addDirectoryEntry fs d dirCluster e = some (r, d')) : AddResult d r d' := by
  obtain ⟨⟨c, found⟩, -, h⟩ := Option.bind_eq_some_iff.mp h
  cases found with
  | some i =>
    obtain ⟨rfl, -⟩ := Prod.mk.inj (Option.some.inj h)
    exact Or.inl rfl
  | none =>
    dsimp only at h
    split_ifs at h
    · obtain ⟨rfl, rfl⟩ := Prod.mk.inj (Option.some.inj h)
      exact Or.inr ⟨rfl, rfl⟩
    · obtain ⟨rfl, -⟩ := Prod.mk.inj (Option.some.inj h)
      exact Or.inl rfl

theorem addToDirectory_result {dirPath : CharPtr}
    (h : addToDirectory fs d dirPath e = some (r, d')) : AddResult d r d' := by
  unfold addToDirectory at h
  dsimp only at h
  split_ifs at h
  · exact addRootDirectoryEntry_result h
  · obtain ⟨found, -, h⟩ := Option.bind_eq_some_iff.mp h
    cases found with
    | none =>
      obtain ⟨rfl, rfl⟩ := Prod.mk.inj (Option.some.inj h)
      exact Or.inr ⟨rfl, rfl⟩
    | some dir => exact addDirectoryEntry_result h

theorem createNewFile_result {pathname : CharPtr} {attributes : UInt8}
    (h : createNewFile fs d pathname attributes = some (r, d')) : AddResult d r d' := by
  obtain ⟨⟨result, d₁⟩, ha, h⟩ := Option.bind_eq_some_iff.mp h
  rcases addToDirectory_result ha with rfl | ⟨rfl, rfl⟩
  · obtain ⟨rfl, -⟩ := Prod.mk.inj (Option.some.inj h)
    exact Or.inl rfl
  · obtain ⟨rfl, rfl⟩ := Prod.mk.inj (Option.some.inj h)
    exact Or.inr ⟨rfl, rfl⟩

end Creation

section Counts
variable {buf : Buffer} {num : Nat}

theorem writeClusters_count (fuel : Nat) {w : WriteState} (h : w.numBytesWritten ≤ num) :
    (writeClusters fs buf num fuel w).numBytesWritten ≤ num := by
  induction fuel generalizing w with
  | zero => exact h
  | succ fuel ih =>
    rw [writeClusters]
    split
    · have hn : numBytesInCluster fs num w.numBytesWritten ≤ num - w.numBytesWritten :=
        Nat.min_le_left _ _
      exact ih (by dsimp only; omega)
    · exact h

theorem growClusters_count (fuel : Nat) {w : WriteState} (h : w.numBytesWritten ≤ num) :
    (growClusters fs buf num fuel w).numBytesWritten ≤ num := by
  induction fuel generalizing w with
  | zero => exact h
  | succ fuel ih =>
    rw [growClusters]
    split
    · dsimp only
      split
      · exact h
      · have hn : numBytesInCluster fs num w.numBytesWritten ≤ num - w.numBytesWritten :=
          Nat.min_le_left _ _
        exact ih (by dsimp only; omega)
    · exact h

/-- No more bytes are written than asked for. -/
theorem writeToFile_count (fs : Fat16) (d : Disk) (c o : Nat) (buf : Buffer) (num : Nat) :
    (writeToFile fs d c o buf num).2 ≤ num :=
  growClusters_count _ (writeClusters_count _ (Nat.min_le_left _ _))

end Counts

theorem sysMkdir_failed {path : CharPtr} (h : sysMkdir fs s path = some (-1, t)) : t = s := by
  rcases sysMkdir_cases h with rfl | ⟨-, -, -, d, hd, rfl⟩
  · rfl
  · rcases createNewFile_result hd with h0 | ⟨-, rfl⟩
    · exact absurd h0 (by decide)
    · rfl

theorem sysUnlink_failed {pathname : CharPtr} (h : sysUnlink fs s pathname = some (-1, t)) :
    t = s := by
  unfold sysUnlink at h
  cases hf : findOpenFile s pathname with
  | some f =>
    rw [hf] at h
    exact (Prod.mk.inj (Option.some.inj h)).2.symm
  | none =>
    rw [hf] at h
    dsimp only at h
    split_ifs at h
    · exact (Prod.mk.inj (Option.some.inj h)).2.symm
    · obtain ⟨found, -, h⟩ := Option.bind_eq_some_iff.mp h
      cases found with
      | none => exact (Prod.mk.inj (Option.some.inj h)).2.symm
      | some file =>
        -- the result of `update_file_details` is not looked at
        obtain ⟨⟨r, d⟩, -, h⟩ := Option.bind_eq_some_iff.mp h
        exact absurd (Prod.mk.inj (Option.some.inj h)).1 (by decide)

theorem sysClose_failed {fd : Int} (h : (sysClose s fd).1 = -1) : (sysClose s fd).2 = s := by
  unfold sysClose at h ⊢
  cases hf : findOpenFileByFd s fd with
  | none => rfl
  | some f => simp [hf] at h

theorem sysLseek_failed {fd : Int} {offset : Nat} {whence : Int}
    (h : (sysLseek s fd offset whence).1 = -1) : (sysLseek s fd offset whence).2 = s := by
  unfold sysLseek at h ⊢
  cases hf : findOpenFileByFd s fd with
  | none => rfl
  | some f =>
    cases ho : seekOffset f offset whence with
    | none => simp [ho]
    | some o => simp [hf, ho] at h

/-- A read of 2^32 - 1 bytes from the standard input also returns -1. -/
theorem sysRead_failed {fd : Int} {buf : Buffer} {nbytes : Nat}
    (h : (sysRead fs s fd buf nbytes).1 = -1) :
    (sysRead fs s fd buf nbytes).2.2.disk = s.disk ∧
      (sysRead fs s fd buf nbytes).2.2.openFiles = s.openFiles ∧
      (sysRead fs s fd buf nbytes).2.2.nextFd = s.nextFd := by
  unfold sysRead at h ⊢
  split_ifs at h ⊢
  · exact ⟨rfl, rfl, rfl⟩
  · cases hf : findOpenFileByFd s fd with
    | none => exact ⟨rfl, rfl, rfl⟩
    | some f =>
      rw [hf] at h
      dsimp only at h ⊢
      split_ifs at h ⊢
      · exact ⟨rfl, rfl, rfl⟩
      · exact ⟨rfl, rfl, rfl⟩

theorem sysWrite_failed {fd : Int} {buf : Buffer} {nbytes : Nat} (hn : nbytes < 2 ^ 31)
    (h : sysWrite fs s fd buf nbytes = some (-1, t)) : t = s := by
  unfold sysWrite at h
  split_ifs at h
  · exact (Prod.mk.inj (Option.some.inj h)).2.symm
  · cases hf : findOpenFileByFd s fd with
    | none =>
      rw [hf] at h
      exact (Prod.mk.inj (Option.some.inj h)).2.symm
    | some f =>
      rw [hf] at h
      dsimp only at h
      split_ifs at h
      · exact (Prod.mk.inj (Option.some.inj h)).2.symm
      · -- what has been written is a count below 2^31
        have hcount := writeToFile_count fs s.disk (settleOffset f).directoryEntry.firstCluster
          (settleOffset f).offset buf nbytes
        have hpos := toInt32_nonneg (Nat.lt_of_le_of_lt hcount hn)
        unfold writeAtOffset at h
        dsimp only at h
        rw [if_neg (by omega)] at h
        split_ifs at h
        · obtain ⟨⟨r, d⟩, -, h⟩ := Option.bind_eq_some_iff.mp h
          have := (Prod.mk.inj (Option.some.inj h)).1
          omega
        · have := (Prod.mk.inj (Option.some.inj h)).1
          omega

theorem sysStat_failed {path : CharPtr} {buf buf' : DirEntry}
    (h : sysStat fs s path buf = some (-1, buf')) : buf' = buf := by
  obtain ⟨found, -, h⟩ := Option.bind_eq_some_iff.mp h
  cases found with
  | none => exact (Prod.mk.inj (Option.some.inj h)).2.symm
  | some file => exact absurd (Prod.mk.inj (Option.some.inj h)).1 (by decide)

theorem sysFstat_failed {fd : Int} {buf : DirEntry} (h : (sysFstat s fd buf).1 = -1) :
    (sysFstat s fd buf).2 = buf := by
  unfold sysFstat at h ⊢
  cases hf : findOpenFileByFd s fd with
  | none => rfl
  | some f => simp [hf] at h

/-- The disk, the table of open files and the next descriptor are as they were. -/
def Untouched (s t : State) : Prop :=
  t.disk = s.disk ∧ t.openFiles = s.openFiles ∧ t.nextFd = s.nextFd

/-- Whenever one of these calls returns -1, the disk, the open files, the next descriptor and the
caller's stat buffer are as they were before. -/
theorem failed_calls_change_nothing (fs : Fat16) (s : State) :
    (∀ path t, sysMkdir fs s path = some (-1, t) → Untouched s t) ∧
    (∀ pathname t, sysUnlink fs s pathname = some (-1, t) → Untouched s t) ∧
    (∀ fd, (sysClose s fd).1 = -1 → Untouched s (sysClose s fd).2) ∧
    (∀ fd offset whence, (sysLseek s fd offset whence).1 = -1 →
      Untouched s (sysLseek s fd offset whence).2) ∧
    (∀ fd buf nbytes, (sysRead fs s fd buf nbytes).1 = -1 →
      Untouched s (sysRead fs s fd buf nbytes).2.2) ∧
    (∀ fd buf nbytes t, nbytes < 2 ^ 31 → sysWrite fs s fd buf nbytes = some (-1, t) →
      Untouched s t) ∧
    (∀ path buf buf', sysStat fs s path buf = some (-1, buf') → buf' = buf) ∧
    ∀ fd buf, (sysFstat s fd buf).1 = -1 → (sysFstat s fd buf).2 = buf := by
  have same : ∀ {t : State}, t = s → Untouched s t := by
    rintro t rfl
    exact ⟨rfl, rfl, rfl⟩
  exact ⟨fun _ _ h => same (sysMkdir_failed h), fun _ _ h => same (sysUnlink_failed h),
    fun _ h => same (sysClose_failed h), fun _ _ _ h => same (sysLseek_failed h),
    fun _ _ _ h => sysRead_failed h, fun _ _ _ _ hn h => same (sysWrite_failed hn h),
    fun _ _ _ h => sysStat_failed h, fun _ _ h => sysFstat_failed h⟩

/-- A relative path cannot be unlinked, nor a descriptor closed that is not open. -/
theorem nothing_failed : (sysUnlink smallVolume (fileInitialise fun _ => zeroBuffer) [dot]).map
      Prod.fst = some (-1) ∧
    Untouched (fileInitialise fun _ => zeroBuffer)
      (sysClose (fileInitialise fun _ => zeroBuffer) 3).2 :=
  ⟨rfl, (failed_calls_change_nothing smallVolume (fileInitialise fun _ => zeroBuffer)).2.2.1 3 rfl⟩

end MalapropOS.Fat
