import MalapropOS.Fat.Volume

/-! The system calls keep a volume sound, as long as each meets a guard on the state it is made
in. The guard leaves out the calls at which the code damages the volume. -/
namespace MalapropOS.Fat
open LinkedChain PartialMachine

/-- The first clusters of the regular files that are open. -/
def heldBy (files : List OpenFile) (c : Nat) : Prop :=
  ∃ f ∈ files, ¬ isSubdirectory f.directoryEntry.attributes ∧ f.directoryEntry.firstCluster = c

/-- The volume is sound, with the open files. -/
def Integral (fs : Fat16) (s : State) : Prop := Sound fs s.disk (heldBy s.openFiles)

/-- No slot of the cluster is in use. -/
def BlankCluster (fs : Fat16) (d : Disk) (c : Nat) : Prop :=
  ∀ q ∈ slotsOf fs (clusterSectors fs c), firstByte d q = 0x00 ∨ firstByte d q = 0xe5

/-- Making a file: no cluster is free if its subdirectory is full, a cluster is free if there
is a slot for it, and that cluster has no old slots in it if the file is a directory. -/
structure CreateGuard (fs : Fat16) (d : Disk) (pathname : CharPtr) (attributes : UInt8) : Prop where
  full : FullSubdirectory fs d pathname → findFirstFreeCluster fs d < 2
  free : ∀ p, newSlot fs d pathname = some (some p) → 2 ≤ findFirstFreeCluster fs d
  blank : ∀ p, newSlot fs d pathname = some (some p) → isSubdirectory attributes →
    BlankCluster fs d (findFirstFreeCluster fs d)

/-- Writing: the offset is inside the clusters of the file, and the slot that gets the new size,
if it belongs to a file of the tree, belongs to this one. -/
structure WriteGuard (fs : Fat16) (d : Disk) (f : OpenFile) (nbytes : Nat) : Prop where
  inside : nbytes = 0 ∨ ∃ l, FileChain fs d f.directoryEntry.firstCluster l ∧
    f.offset < l.length * bytesPerCluster fs
  own : f.directoryEntry.fileSizeBytes < f.offset + nbytes →
    ∀ q, updateSlot fs d f.path f.directoryEntry.filename f.directoryEntry.extension =
      some (some q) → Reach (used fs) d q →
      (slotEntry d q).firstCluster = f.directoryEntry.firstCluster

/-- The guard of a call. Calls that do not reach the file system code need none. -/
def Guard (fs : Fat16) (s : State) : Call → Prop
  | .openCall pathname flags => findOpenFile s pathname = none →
      openFile fs s pathname = some (none, s) → flags.toNat &&& oCreat ≠ 0 →
      CreateGuard fs s.disk pathname 0x0
  | .mkdir path => CharPtr.at path 0 = slash → CharPtr.at path 1 ≠ 0 →
      findFile fs s.disk (path.drop 1) (getRootDir fs s.disk) = some none →
      CreateGuard fs s.disk path 0x10
  | .write fd _ nbytes => fd ≠ stdoutFiledesc → ∀ f, findOpenFileByFd s fd = some f →
      ¬ isSubdirectory f.directoryEntry.attributes →
      WriteGuard fs s.disk (settleOffset f) nbytes.toNat
  | _ => True

/-- The record of a file that `k` bytes made longer. -/
def grown (f : OpenFile) (k : Nat) : OpenFile := { f with
  directoryEntry := { f.directoryEntry with fileSizeBytes := (f.offset + k) % 2 ^ 32 }
  offset := (f.offset + k) % 2 ^ 32 }

/-- What `sys_write` does once the `k` bytes are on the disk `d`: its return value, the record of
the file and the disk. -/
inductive WriteOutcome (fs : Fat16) (d : Disk) (f : OpenFile) (k : Nat) :
    Int → OpenFile → Disk → Prop
  | failed (wrapped : toInt32 k < 0) : WriteOutcome fs d f k (-1) f d
  | inside (size : (f.offset + k) % 2 ^ 32 ≤ f.directoryEntry.fileSizeBytes) :
      WriteOutcome fs d f k k { f with offset := (f.offset + k) % 2 ^ 32 } d
  | unstored (size : f.directoryEntry.fileSizeBytes < (f.offset + k) % 2 ^ 32)
      (slot : updateSlot fs d f.path f.directoryEntry.filename f.directoryEntry.extension =
        some none) : WriteOutcome fs d f k k (grown f k) d
  | stored {q : Slot} (size : f.directoryEntry.fileSizeBytes < (f.offset + k) % 2 ^ 32)
      (slot : updateSlot fs d f.path f.directoryEntry.filename f.directoryEntry.extension =
        some (some q)) (isSlot : IsSlot fs q)
      (found : SlotMatch f.directoryEntry.filename f.directoryEntry.extension fun k =>
        d q.sector (q.index + k)) :
      WriteOutcome fs d f k k (grown f k) (writeSlot d q (grown f k).directoryEntry
        (CharPtr.at f.directoryEntry.filename 0))

section Create
variable {fs : Fat16} (hl : DirLayout fs) {d : Disk} {held : Nat → Prop}
include hl

theorem setSuccessorCluster_writeSlot {p : Slot} (hp : IsSlot fs p) {c v : Nat}
    (hc : c < numEntries fs) (e : DirEntry) (first : UInt8) :
    setSuccessorCluster fs (writeSlot d p e first) c v =
      writeSlot (setSuccessorCluster fs d c v) p e first := by
  funext s k
  simp only [setSuccessorCluster_eq _ hl.even, writeSlot]
  by_cases hs : s = p.sector
  · have hb := hp.behind
    have hlt := hl.geometry.entrySector_lt hc
    have hne : ¬ s = fs.numReservedSectors + c * 2 / fs.bytesPerSector := by omega
    simp only [hne, false_and, if_false]
  · simp [hs]

/-- Setting an entry of the table leaves the slots as they are. -/
theorem slotByte_mark {p : Slot} (hp : IsSlot fs p) {c v : Nat} (hc : c < numEntries fs) (k : Nat) :
    setSuccessorCluster fs d c v p.sector k = d p.sector k := by
  by_contra hne
  have hs := (setSuccessorCluster_frame hl.geometry d hne).1
  have hlt := hl.geometry.entrySector_lt hc
  have hb := hp.behind
  omega

theorem firstByte_mark {p : Slot} (hp : IsSlot fs p) {c v : Nat} (hc : c < numEntries fs) :
    firstByte (setSuccessorCluster fs d c v) p = firstByte d p :=
  slotByte_mark hl hp hc p.index

theorem chainSector_isSlot {l : List Nat} {q : Slot} (hq : q ∈ slotsOf fs (chainSectors fs l)) :
    IsSlot fs q := by
  obtain ⟨hs, ha⟩ := mem_slotsOf.mp hq
  exact ⟨(data_behind_table hl.toLayout).trans (chainSector_behind hs), ha⟩

/-- A new entry, whose cluster is marked. -/
theorem Sound.create (h : Sound fs d held) {p : Slot} (hp : IsSlot fs p)
    (e : DirEntry) (first : UInt8) {c : Nat}
    (hc : findFirstFreeCluster fs d = c) (h2 : 2 ≤ c) (he : e.firstCluster = c)
    (hb : isSubdirectory e.attributes → BlankCluster fs d c) :
    Sound fs (setSuccessorCluster fs (writeSlot d p e first) c 0xFFFF) held := by
  obtain ⟨hlt, hzero, -⟩ := findFirstFreeCluster_spec hl.toLayout d hc h2
  obtain ⟨hm, hnot⟩ := h.mark hl h2 hlt hzero
  have hnheld : ¬ held c := fun hh => h.head_not_free (Or.inl hh) hzero
  rw [setSuccessorCluster_writeSlot hl hp hlt]
  refine hm.store hl hp (by rw [he]; exact hl.lt_of_entry hlt) (fun _ => Or.inl) ?_
  intro _
  rw [he]
  refine ⟨Or.inl (Or.inr rfl), fun q _ hq => (hnot q hq).2, fun hs => ⟨hnheld, ?_⟩⟩
  intro m hmc q hq
  obtain rfl := hmc.unique hl.toLayout (fileChain_mark hl h2 hlt)
  obtain ⟨hq, hu⟩ := mem_used.mp hq
  have hqs := chainSector_isSlot hl hq
  by_contra hne
  rw [firstByte_writeSlot_other hp hqs hne, firstByte_mark hl hqs hlt] at hu
  have hcs : chainSectors fs [c] = clusterSectors fs c := by simp [chainSectors]
  rw [hcs] at hq
  cases hb hs q hq with
  | inl hb => exact hu.1 hb
  | inr hb => exact hu.2 hb

theorem createNewFile_sound (h : Sound fs d held) {pathname : CharPtr} {attributes : UInt8}
    (hg : CreateGuard fs d pathname attributes) :
    ∃ r d', createNewFile fs d pathname attributes = some (r, d') ∧ Sound fs d' held := by
  rw [createNewFile_eq hl h.dirs.to_listed pathname attributes hg.full]
  obtain ⟨r, hr, hp⟩ := newSlot_ends hl h.dirs.to_listed pathname
  rw [hr]
  cases r with
  | none => exact ⟨-1, d, rfl, h⟩
  | some p =>
    have hs := h.create hl (hp p rfl).1 (newFile fs d pathname attributes)
      (newFirstByte (newFile fs d pathname attributes)) rfl (hg.free p hr) rfl (hg.blank p hr)
    exact ⟨0, _, rfl, hs⟩

end Create

section Write
variable {fs : Fat16} (hl : DirLayout fs)
include hl

theorem writeToFile_guarded {d : Disk} {c o : Nat} {l : List Nat} (hc : FileChain fs d c l)
    (buf : Buffer) {nbytes : Nat} (hg : nbytes = 0 ∨ o < l.length * bytesPerCluster fs) :
    ∃ d' k new o', writeToFile fs d c o buf nbytes = (d', k) ∧ Written fs d c l o' buf k d' new ∧
      k ≤ nbytes ∧ (nbytes ≠ 0 → o' = o) := by
  obtain rfl | ho := hg
  · exact ⟨d, 0, [], 0, writeToFile_nothing d c o buf, .start hc (Nat.zero_le _), Nat.le_refl _,
      fun h => absurd rfl h⟩
  · obtain ⟨d', k, new, hw, hwr, hk, -⟩ := writeToFile_written hl.toLayout hc ho buf nbytes
    exact ⟨d', k, new, o, hw, hwr, hk, fun _ => rfl⟩

omit hl in
theorem grows_by_more {size o k nbytes : Nat} (h : size < (o + k) % 2 ^ 32) (hk : k ≤ nbytes) :
    size < o + nbytes := by
  have := Nat.mod_le (o + k) (2 ^ 32)
  omega

theorem writeAtOffset_eq {s : State} {f : OpenFile} {buf : Buffer} {nbytes k : Nat} {d : Disk}
    (hw : writeToFile fs s.disk f.directoryEntry.firstCluster f.offset buf nbytes = (d, k))
    (hv : DirsValid (listed fs) d) :
    ∃ r g d', writeAtOffset fs s f buf nbytes = some (r, { s with
        disk := d'
        openFiles := updateOpenFile f.fd (fun _ => g) s.openFiles }) ∧
      WriteOutcome fs d f k r g d' := by
  rw [writeAtOffset, hw]
  by_cases hn : toInt32 k < 0
  · exact ⟨-1, f, d, by simp [hn], .failed hn⟩
  · by_cases hgr : (f.offset + k) % 2 ^ 32 > f.directoryEntry.fileSizeBytes
    · obtain ⟨r, hr, hq⟩ := updateSlot_ends hl hv f.path f.directoryEntry.filename
        f.directoryEntry.extension
      simp only [if_neg hn, if_pos hgr]
      rw [updateFileDetails_eq hl hv, hr]
      cases r with
      | none => exact ⟨k, _, d, rfl, .unstored hgr hr⟩
      | some q => exact ⟨k, _, _, rfl, .stored hgr hr (hq q rfl).1 (hq q rfl).2⟩
    · simp only [if_neg hn, if_neg hgr]
      exact ⟨k, _, d, rfl, .inside (Nat.le_of_not_lt hgr)⟩

omit hl in
theorem WriteOutcome.firstCluster {d d' : Disk} {f g : OpenFile} {k : Nat} {r : Int}
    (h : WriteOutcome fs d f k r g d') :
    g.directoryEntry.firstCluster = f.directoryEntry.firstCluster := by
  cases h <;> rfl

/-- The entry of an open file may be stored in a slot of its own, and in slots outside the tree. -/
theorem Sound.update {d : Disk} {held : Nat → Prop} (h : Sound fs d held) {q : Slot}
    (hq : IsSlot fs q) {e : DirEntry} (hs : ¬ isSubdirectory e.attributes) (hc : held e.firstCluster)
    (hb : firstByte d q = CharPtr.at e.filename 0 ∨
      firstByte d q = 0x20 ∧ CharPtr.at e.filename 0 = 0)
    (hown : Reach (used fs) d q → (slotEntry d q).firstCluster = e.firstCluster) :
    Sound fs (writeSlot d q e (CharPtr.at e.filename 0)) held := by
  obtain ⟨l, hch⟩ := h.chain _ (Or.inl hc)
  refine h.store hl hq (hl.lt_of_entry (hch.inTable _ hch.start_mem).2) (fun _ => id) ?_
  intro ⟨ss, hss, hu⟩
  obtain ⟨hm, h₀, h₅⟩ := mem_used.mp hu
  rw [firstByte_writeSlot_self] at h₀ h₅
  -- the slot was in use before, so it was in the tree
  have hb := hb.resolve_right fun h => h₀ h.2
  have hr : Reach (used fs) d q := ⟨ss, hss, mem_used.mpr ⟨hm, hb ▸ h₀, hb ▸ h₅⟩⟩
  refine ⟨Or.inl hc, fun p hne hp he => hne (h.slots p q hp hr (he.trans (hown hr).symm)), ?_⟩
  exact fun hsub => absurd hsub hs

end Write

/-- What a write does: nothing, or it changes the data of a regular file and then goes on as
`WriteOutcome` says. -/
inductive WriteEffect (fs : Fat16) (s : State) (fd : Int) (buf : Buffer) (nbytes : Nat) :
    Int → State → Prop
  | refused {r : Int} (reason : fd = stdoutFiledesc ∨ ∀ f, findOpenFileByFd s fd = some f →
      isSubdirectory f.directoryEntry.attributes) : WriteEffect fs s fd buf nbytes r s
  | written {f g : OpenFile} {l new : List Nat} {o k : Nat} {d d' : Disk} {r : Int}
      (terminal : fd ≠ stdoutFiledesc) (found : findOpenFileByFd s fd = some f)
      (regular : ¬ isSubdirectory f.directoryEntry.attributes)
      (chain : FileChain fs s.disk f.directoryEntry.firstCluster l)
      (data : Written fs s.disk f.directoryEntry.firstCluster l o buf k d new)
      (count : k ≤ nbytes) (start : nbytes ≠ 0 → o = (settleOffset f).offset)
      (outcome : WriteOutcome fs d (settleOffset f) k r g d') :
      WriteEffect fs s fd buf nbytes r
        { s with disk := d', openFiles := updateOpenFile fd (fun _ => g) s.openFiles }

/-- The entry of a file that was removed. -/
def deleted (e : DirEntry) : DirEntry := { e with filename := e.filename.set 0 0xe5 }

/-- What removing a file does: nothing, or it stores the deleted entry in a slot. It returns 0 also
where no slot is found. -/
inductive UnlinkEffect (fs : Fat16) (s : State) (pathname : CharPtr) : Int → State → Prop
  | refused : UnlinkEffect fs s pathname (-1) s
  | unstored {file : ListEntry} (closed : findOpenFile s pathname = none)
      (absolute : CharPtr.at pathname 0 = slash)
      (found : findFile fs s.disk (pathname.drop 1) (getRootDir fs s.disk) = some (some file))
      (slot : updateSlot fs s.disk pathname file.entry.filename file.entry.extension = some none) :
      UnlinkEffect fs s pathname 0 s
  | removed {file : ListEntry} {q : Slot} (closed : findOpenFile s pathname = none)
      (absolute : CharPtr.at pathname 0 = slash)
      (found : findFile fs s.disk (pathname.drop 1) (getRootDir fs s.disk) = some (some file))
      (slot : updateSlot fs s.disk pathname file.entry.filename file.entry.extension =
        some (some q)) (isSlot : IsSlot fs q) :
      UnlinkEffect fs s pathname 0 { s with disk := writeSlot s.disk q (deleted file.entry) 0xe5 }

section Files

theorem mem_updateOpenFile {fd : Int} {g : OpenFile → OpenFile} {files : List OpenFile}
    {f : OpenFile} (h : f ∈ updateOpenFile fd g files) : f ∈ files ∨ ∃ f₀ ∈ files, f = g f₀ := by
  induction files with
  | nil => cases h
  | cons a files ih =>
    rw [updateOpenFile] at h
    split_ifs at h with ha
    · obtain rfl | h := List.mem_cons.mp h
      · exact Or.inr ⟨a, by simp, rfl⟩
      · exact Or.inl (by simp [h])
    · obtain rfl | h := List.mem_cons.mp h
      · exact Or.inl (by simp)
      · obtain h | ⟨f₀, hf, he⟩ := ih h
        · exact Or.inl (by simp [h])
        · exact Or.inr ⟨f₀, by simp [hf], he⟩

theorem heldBy_updateOpenFile {fd : Int} {g : OpenFile → OpenFile} {files : List OpenFile}
    (hg : ∀ f ∈ files, ¬ isSubdirectory (g f).directoryEntry.attributes →
      heldBy files (g f).directoryEntry.firstCluster) {c : Nat}
    (h : heldBy (updateOpenFile fd g files) c) : heldBy files c := by
  obtain ⟨f, hf, hs, rfl⟩ := h
  obtain hf | ⟨f₀, hf₀, rfl⟩ := mem_updateOpenFile hf
  · exact ⟨f, hf, hs, rfl⟩
  · exact hg f₀ hf₀ hs

/-- A change that leaves the entries of the open files alone. -/
theorem heldBy_updateOffset {fd : Int} {g : OpenFile → OpenFile} {files : List OpenFile}
    {c : Nat} (h : heldBy (updateOpenFile fd g files) c)
    (hg : ∀ f, (g f).directoryEntry = f.directoryEntry) : heldBy files c :=
  heldBy_updateOpenFile (fun f hf hs => ⟨f, hf, by rwa [hg f] at hs, by rw [hg f]⟩) h

@[simp] theorem settleOffset_directoryEntry (f : OpenFile) :
    (settleOffset f).directoryEntry = f.directoryEntry := by
  rw [settleOffset]
  split_ifs <;> rfl

@[simp] theorem settleOffset_path (f : OpenFile) : (settleOffset f).path = f.path := by
  rw [settleOffset]
  split_ifs <;> rfl

@[simp] theorem settleOffset_fd (f : OpenFile) : (settleOffset f).fd = f.fd := by
  rw [settleOffset]
  split_ifs <;> rfl

theorem heldBy_insert {s : State} {e : DirEntry} {pathname : CharPtr} {c : Nat}
    (h : heldBy (insertOpenFile s e pathname).2.openFiles c) :
    heldBy s.openFiles c ∨ ¬ isSubdirectory e.attributes ∧ c = e.firstCluster := by
  obtain ⟨f, hf, hs, rfl⟩ := h
  cases List.mem_append.mp hf with
  | inl hf => exact Or.inl ⟨f, hf, hs, rfl⟩
  | inr hf =>
    rw [List.mem_singleton.mp hf] at hs ⊢
    exact Or.inr ⟨hs, rfl⟩

theorem OffsetEffect.integral {fs : Fat16} {s t : State} {fd : Int} (h : Integral fs s)
    (he : OffsetEffect s fd t) : Integral fs t := by
  cases he with
  | kept disk files => rwa [Integral, disk, files]
  | moved => exact h.mono fun _ hc => heldBy_updateOffset hc fun _ => rfl

theorem sysClose_integral {fs : Fat16} {s : State} (h : Integral fs s) (fd : Int) :
    Integral fs (sysClose s fd).2 := by
  rw [sysClose]
  cases findOpenFileByFd s fd with
  | none => exact h
  | some f =>
    refine h.mono ?_
    intro c ⟨f, hf, hs⟩
    exact ⟨f, List.mem_of_mem_eraseP hf, hs⟩

theorem slotEntry_firstCluster_lt {d : Disk} {p : Slot} : (slotEntry d p).firstCluster < 2 ^ 16 := by
  have h := fun x : UInt8 => x.toNat_lt
  have h₀ := h (d p.sector (p.index + 0x1a))
  have h₁ := h (d p.sector (p.index + 0x1b))
  simp only [slotEntry, decodeEntry]
  omega

theorem deleted_firstByte {d : Disk} {p : Slot} :
    CharPtr.at ((slotEntry d p).filename.set 0 0xe5) 0 = 0xe5 := by
  simp only [CharPtr.at, slotEntry, decodeEntry, decodeChars]
  split_ifs <;> simp [List.range_succ]

end Files

section Steps
variable {fs : Fat16} (hl : DirLayout fs) {s : State}
include hl

/-- The slot that gets the new size of a file, if it is in the tree, is the file's own. -/
theorem Sound.update_own {d d' : Disk} {held : Nat → Prop} (h : Sound fs d held) {f : OpenFile}
    {nbytes o k : Nat} {l new : List Nat} {buf : Buffer}
    (hc : held f.directoryEntry.firstCluster)
    (hch : FileChain fs d f.directoryEntry.firstCluster l)
    (hw : Written fs d f.directoryEntry.firstCluster l o buf k d' new)
    (hg : WriteGuard fs d f nbytes) (hlt : f.directoryEntry.fileSizeBytes < f.offset + nbytes)
    {q : Slot} (hu : updateSlot fs d' f.path f.directoryEntry.filename
      f.directoryEntry.extension = some (some q)) (hr : Reach (used fs) d' q) :
    (slotEntry d' q).firstCluster = f.directoryEntry.firstCluster := by
  have hsame := h.sameDirs hl hc hch hw
  obtain hu | ⟨a, ha, hd⟩ := updateSlot_written hl h.dirs.to_listed hsame.to_listed hch hw hu
  · obtain ⟨hr, he⟩ := hsame.reach hl.toLayout h.dirs hr
    rw [he]
    exact hg.own hlt q hu hr
  · -- the slot is in the clusters of the file, which are not those of a directory
    have h' := h.written hl hc hch hw
    have hin := hw.inTable hch a ha
    obtain ⟨ss, hss, hq⟩ := hr
    have hs := (mem_slotsOf.mp ((used fs).subset _ _ hq)).1
    obtain ⟨p, m, hp, hsub, hm, ham⟩ :=
      hss.dataByte hl hs hin.1 (hd 0 fs.bytesPerSector_pos)
    exact absurd ha (h'.dir_apart hc (hw.fileChain hch) p m hp hsub hm ham)

/-- A write is a change of the data of the file, and then perhaps of one slot. -/
theorem writeAtOffset_effect (h : Integral fs s) {f : OpenFile} (buf : Buffer) {nbytes : Nat}
    (hc : heldBy s.openFiles f.directoryEntry.firstCluster) (hg : WriteGuard fs s.disk f nbytes) :
    ∃ r g d d' l new o k, writeAtOffset fs s f buf nbytes = some (r, { s with
        disk := d'
        openFiles := updateOpenFile f.fd (fun _ => g) s.openFiles }) ∧
      FileChain fs s.disk f.directoryEntry.firstCluster l ∧
      Written fs s.disk f.directoryEntry.firstCluster l o buf k d new ∧
      k ≤ nbytes ∧ (nbytes ≠ 0 → o = f.offset) ∧ WriteOutcome fs d f k r g d' := by
  obtain ⟨l, hch⟩ := h.chain _ (Or.inl hc)
  have hin : nbytes = 0 ∨ f.offset < l.length * bytesPerCluster fs := by
    refine hg.inside.imp_right ?_
    intro ⟨m, hm, ho⟩
    rwa [hch.unique hl.toLayout hm]
  obtain ⟨d, k, new, o, hw, hwr, hk, ho⟩ := writeToFile_guarded hl hch buf hin
  obtain ⟨r, g, d', he, hout⟩ := writeAtOffset_eq hl hw (h.written hl hc hch hwr).dirs.to_listed
  exact ⟨r, g, d, d', l, new, o, k, he, hch, hwr, hk, ho, hout⟩

theorem sysWrite_ends (h : Integral fs s) {fd : Int} {buf : Buffer} {nbytes : UInt32}
    (hg : Guard fs s (.write fd buf nbytes)) :
    ∃ r t, sysWrite fs s fd buf nbytes.toNat = some (r, t) ∧
      WriteEffect fs s fd buf nbytes.toNat r t := by
  rw [sysWrite]
  by_cases h₁ : fd = stdoutFiledesc
  · exact ⟨_, s, by rw [if_pos h₁], .refused (Or.inl h₁)⟩
  · rw [if_neg h₁]
    cases hf : findOpenFileByFd s fd with
    | none => exact ⟨-1, s, rfl, .refused (Or.inr fun f hf' => nomatch hf.symm.trans hf')⟩
    | some f =>
      by_cases hs : isSubdirectory f.directoryEntry.attributes
      · refine ⟨-1, s, by simp [hs], .refused (Or.inr fun g hg => ?_)⟩
        rwa [← Option.some.inj (hf.symm.trans hg)]
      · obtain ⟨hm, rfl⟩ := findOpenFileByFd_mem hf
        obtain ⟨r, g, d, d', l, new, o, k, he, hch, hwr, hk, ho, hout⟩ :=
          writeAtOffset_effect hl h (f := settleOffset f) buf (by simpa using ⟨f, hm, hs, rfl⟩)
            (hg h₁ f hf hs)
        rw [settleOffset_directoryEntry] at hch hwr
        rw [settleOffset_fd] at he
        exact ⟨r, _, by simpa only [if_neg hs] using he, .written h₁ hf hs hch hwr hk ho hout⟩

theorem sysWrite_effect (h : Integral fs s) {fd : Int} {buf : Buffer} {nbytes : UInt32}
    (hg : Guard fs s (.write fd buf nbytes)) {r : Int} {t : State}
    (hw : sysWrite fs s fd buf nbytes.toNat = some (r, t)) :
    WriteEffect fs s fd buf nbytes.toNat r t := by
  obtain ⟨r', t', he, heff⟩ := sysWrite_ends hl h hg
  obtain ⟨rfl, rfl⟩ := Prod.mk.inj (Option.some.inj (hw.symm.trans he))
  exact heff

theorem WriteEffect.integral (h : Integral fs s) {fd : Int} {buf : Buffer} {nbytes : UInt32}
    (hg : Guard fs s (.write fd buf nbytes)) {r : Int} {t : State}
    (he : WriteEffect fs s fd buf nbytes.toNat r t) : Integral fs t := by
  cases he with
  | refused => exact h
  | @written f g l new o k d d' r h₁ hf hs hch hwr hk _ hout =>
    have hown := hg h₁ f hf hs
    have hs' : ¬ isSubdirectory (settleOffset f).directoryEntry.attributes := by simpa using hs
    have hc : heldBy s.openFiles (settleOffset f).directoryEntry.firstCluster := by
      simpa using ⟨f, (findOpenFileByFd_mem hf).1, hs, rfl⟩
    rw [← settleOffset_directoryEntry] at hch hwr
    have hd := h.written hl hc hch hwr
    refine Sound.mono ?_ fun c => heldBy_updateOpenFile fun _ _ _ => hout.firstCluster ▸ hc
    cases hout with
    | failed => exact hd
    | inside => exact hd
    | unstored => exact hd
    | stored size slot isSlot found =>
      refine hd.update hl isSlot (e := (grown (settleOffset f) k).directoryEntry) hs' hc
        found.first fun hr => ?_
      exact h.update_own hl hc hch hwr hown (grows_by_more size hk) slot hr

theorem openFile_integral (h : Integral fs s) (pathname : CharPtr) :
    ∃ o s', openFile fs s pathname = some (o, s') ∧ Integral fs s' ∧ (o = none → s' = s) := by
  rw [openFile]
  by_cases h₀ : CharPtr.at pathname 0 = slash
  · rw [if_neg (by simp [h₀])]
    by_cases h₁ : CharPtr.at pathname 1 = 0
    · rw [if_pos h₁]
      refine ⟨_, _, rfl, h.mono fun c hc => (heldBy_insert hc).resolve_right ?_, by simp⟩
      exact fun hs => hs.1 (show isSubdirectory 0x10 = true by decide)
    · obtain ⟨r, hr, hf⟩ := findFile_ends hl.toLayout h.dirs.to_listed (pathname.drop 1)
      rw [if_neg h₁, hr]
      cases r with
      | none => exact ⟨none, s, rfl, h, fun _ => rfl⟩
      | some file =>
        refine ⟨_, _, rfl, ?_, by simp⟩
        obtain ⟨hreach, he⟩ := hf file rfl
        by_cases hs : isSubdirectory file.entry.attributes
        · exact h.mono fun c hc => (heldBy_insert hc).resolve_right fun hs' => hs'.1 hs
        · refine (h.hold hreach.to_used (he ▸ hs)).mono fun c hc => (heldBy_insert hc).imp_right ?_
          exact fun hs' => he ▸ hs'.2
  · exact ⟨none, s, by rw [if_pos h₀]; rfl, h, fun _ => rfl⟩

omit hl in
theorem finishOpen_integral (h : Integral fs s) (f : OpenFile) (flags : Nat) :
    Integral fs (finishOpen s f flags).2 :=
  h.mono fun _ hc => heldBy_updateOffset hc fun _ => rfl

theorem sysOpen_integral (h : Integral fs s) {pathname : CharPtr} {flags : UInt32}
    (hg : Guard fs s (.openCall pathname flags)) :
    ∃ r s', sysOpen fs s pathname flags.toNat = some (r, s') ∧ Integral fs s' := by
  rw [sysOpen]
  cases hf : findOpenFile s pathname with
  | some f => exact ⟨_, _, rfl, finishOpen_integral h f _⟩
  | none =>
    obtain ⟨o, s₁, ho, h₁, hn⟩ := openFile_integral hl h pathname
    simp only [ho, Option.bind_eq_bind, Option.bind_some]
    cases o with
    | some f => exact ⟨_, _, rfl, finishOpen_integral h₁ f _⟩
    | none =>
      obtain rfl := hn rfl
      by_cases hc : flags.toNat &&& oCreat = 0
      · exact ⟨-1, s₁, by simp [hc], h⟩
      · obtain ⟨r, d, hr, hd⟩ := createNewFile_sound hl h (hg hf ho hc)
        have h₂ : Integral fs { s₁ with disk := d } := hd
        simp only [hc, if_false, hr, Option.bind_some]
        by_cases hr₁ : r = -1
        · exact ⟨-1, _, by rw [if_pos hr₁]; rfl, h₂⟩
        · obtain ⟨o, s₃, ho, h₃, -⟩ := openFile_integral hl h₂ pathname
          simp only [if_neg hr₁, ho, Option.bind_some]
          cases o with
          | some f => exact ⟨_, _, rfl, finishOpen_integral h₃ f _⟩
          | none => exact ⟨-1, s₃, rfl, h₃⟩

theorem sysMkdir_integral (h : Integral fs s) {path : CharPtr} (hg : Guard fs s (.mkdir path)) :
    ∃ r s', sysMkdir fs s path = some (r, s') ∧ Integral fs s' := by
  rw [sysMkdir]
  by_cases h₀ : CharPtr.at path 0 = slash
  · rw [if_neg (by simp [h₀])]
    by_cases h₁ : CharPtr.at path 1 = 0
    · exact ⟨-1, s, by rw [if_pos h₁]; rfl, h⟩
    · obtain ⟨r, hr, -⟩ := findFile_ends hl.toLayout h.dirs.to_listed (path.drop 1)
      rw [if_neg h₁]
      cases r with
      | some f => exact ⟨-1, s, by rw [hr]; rfl, h⟩
      | none =>
        obtain ⟨r, d, hc, hd⟩ := createNewFile_sound hl h (hg h₀ h₁ hr)
        exact ⟨r, { s with disk := d }, by
          rw [hr]
          simp only [Option.bind_eq_bind, Option.bind_some, hc]
          rfl, hd⟩
  · exact ⟨-1, s, by rw [if_pos h₀]; rfl, h⟩

theorem sysUnlink_ends (hv : DirsValid (listed fs) s.disk) (pathname : CharPtr) :
    ∃ r t, sysUnlink fs s pathname = some (r, t) ∧ UnlinkEffect fs s pathname r t := by
  rw [sysUnlink]
  cases hf : findOpenFile s pathname with
  | some f => exact ⟨-1, s, rfl, .refused⟩
  | none =>
    by_cases h₀ : CharPtr.at pathname 0 = slash
    · obtain ⟨r, hr, hlist⟩ := findFile_ends hl.toLayout hv (pathname.drop 1)
      simp only [h₀, ne_eq, not_true_eq_false, if_false, hr, Option.bind_eq_bind, Option.bind_some]
      cases r with
      | none => exact ⟨-1, s, rfl, .refused⟩
      | some file =>
        obtain ⟨r, hu, hq⟩ := updateSlot_ends hl hv pathname file.entry.filename
          file.entry.extension
        have hfirst : CharPtr.at (file.entry.filename.set 0 0xe5) 0 = 0xe5 := by
          rw [(hlist file rfl).2]
          exact deleted_firstByte
        simp only [updateFileDetails_eq hl hv, hu]
        cases r with
        | none => exact ⟨0, s, rfl, .unstored hf h₀ hr hu⟩
        | some q => exact ⟨0, _, by rw [hfirst]; rfl, .removed hf h₀ hr hu (hq q rfl).1⟩
    · exact ⟨-1, s, by rw [if_pos h₀]; rfl, .refused⟩

theorem sysUnlink_effect (hv : DirsValid (listed fs) s.disk) {pathname : CharPtr} {r : Int}
    {t : State} (hu : sysUnlink fs s pathname = some (r, t)) : UnlinkEffect fs s pathname r t := by
  obtain ⟨r', t', he, heff⟩ := sysUnlink_ends hl hv pathname
  obtain ⟨rfl, rfl⟩ := Prod.mk.inj (Option.some.inj (hu.symm.trans he))
  exact heff

/-- Unlinking leaves a deleted slot behind, whichever slot it is. -/
theorem UnlinkEffect.integral (h : Integral fs s) {pathname : CharPtr} {r : Int} {t : State}
    (he : UnlinkEffect fs s pathname r t) : Integral fs t := by
  cases he with
  | refused => exact h
  | unstored => exact h
  | @removed file q _ _ found _ isSlot =>
    obtain ⟨o, ho, hlist⟩ := findFile_ends hl.toLayout h.dirs.to_listed (pathname.drop 1)
    obtain rfl := Option.some.inj (found.symm.trans ho)
    refine h.store hl isSlot ?_ (fun _ => id) ?_
    · rw [deleted, (hlist file rfl).2]
      exact slotEntry_firstCluster_lt
    · rintro ⟨ss, -, hm⟩
      have h₅ := (mem_used.mp hm).2.2
      rw [firstByte_writeSlot_self] at h₅
      exact absurd rfl h₅

/-- Every call that meets its guard returns and keeps the volume sound. -/
theorem call_integral (h : Integral fs s) {c : Call} (hg : Guard fs s c) :
    ∃ r s', call fs s c = some (r, s') ∧ Integral fs s' := by
  cases c with
  | openCall pathname flags => exact sysOpen_integral hl h hg
  | mkdir path => exact sysMkdir_integral hl h hg
  | write fd buf nbytes =>
    obtain ⟨r, t, hw, he⟩ := sysWrite_ends hl h hg
    exact ⟨r, t, hw, he.integral hl h hg⟩
  | read fd buf nbytes => exact ⟨_, _, rfl, (sysRead_effect fs s fd buf nbytes.toNat).integral h⟩
  | lseek fd offset whence => exact ⟨_, _, rfl, (sysLseek_effect s fd offset whence).integral h⟩
  | close fd => exact ⟨_, _, rfl, sysClose_integral h fd⟩
  | unlink pathname =>
    obtain ⟨r, t, hu, he⟩ := sysUnlink_ends hl h.dirs.to_listed pathname
    exact ⟨r, t, hu, he.integral hl h⟩

end Steps
end MalapropOS.Fat
