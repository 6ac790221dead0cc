import MalapropOS.Fat.Kept

/-! The records of open files and the entries they were made from. -/
namespace MalapropOS.Fat
open LinkedChain PartialMachine

/-- A record of a directory, or made from an entry of a listing. -/
def MadeFrom (fs : Fat16) (d : Disk) (e : DirEntry) : Prop :=
  isSubdirectory e.attributes ∨ ∃ g, Listed fs d g ∧ e = g.entry

/-- Where the records after a call come from that does not write: from the records before it, or
from the listings. -/
def RecordsFrom (fs : Fat16) (s t : State) : Prop :=
  ∀ f ∈ t.openFiles,
    (∃ f₀ ∈ s.openFiles, f.directoryEntry = f₀.directoryEntry ∧
      (f₀.offset < 2 ^ 32 → f.offset < 2 ^ 32)) ∨
    f.offset < 2 ^ 32 ∧ MadeFrom fs t.disk f.directoryEntry

section Records
variable {fs : Fat16} {s t : State}

theorem RecordsFrom.of_subset (h : ∀ f ∈ t.openFiles, f ∈ s.openFiles) : RecordsFrom fs s t :=
  fun f hf => Or.inl ⟨f, h f hf, rfl, id⟩

theorem RecordsFrom.of_update {fd : Int} {g : OpenFile → OpenFile}
    (hf : t.openFiles = updateOpenFile fd g s.openFiles)
    (he : ∀ f, (g f).directoryEntry = f.directoryEntry)
    (ho : ∀ f, f.offset < 2 ^ 32 → (g f).offset < 2 ^ 32) : RecordsFrom fs s t := by
  intro f hm
  rw [hf] at hm
  obtain hm | ⟨f₀, hf₀, rfl⟩ := mem_updateOpenFile hm
  · exact Or.inl ⟨f, hm, rfl, id⟩
  · exact Or.inl ⟨f₀, hf₀, he f₀, ho f₀⟩

theorem OffsetEffect.records {fd : Int} (h : OffsetEffect s fd t) : RecordsFrom fs s t := by
  cases h with
  | kept _ files => exact .of_subset fun _ hf => files ▸ hf
  | moved _ bound => exact .of_update rfl (fun _ => rfl) fun f _ => bound f

variable (fs s) in
theorem sysClose_records (fd : Int) :
    (sysClose s fd).2.disk = s.disk ∧ RecordsFrom fs s (sysClose s fd).2 := by
  unfold sysClose
  cases findOpenFileByFd s fd with
  | none => exact ⟨rfl, .of_subset fun _ => id⟩
  | some f => exact ⟨rfl, .of_subset fun _ => List.mem_of_mem_eraseP⟩

theorem finishOpen_records (f : OpenFile) (flags : Nat) :
    (finishOpen s f flags).2.disk = s.disk ∧ RecordsFrom fs s (finishOpen s f flags).2 :=
  ⟨rfl, .of_update rfl (fun _ => rfl) fun _ => id⟩

/-- Two calls one after the other, of which the second leaves the disk alone. -/
theorem RecordsFrom.trans {u : State} (h : RecordsFrom fs s t) (h' : RecordsFrom fs t u)
    (hd : u.disk = t.disk) : RecordsFrom fs s u := by
  intro f hf
  obtain ⟨f₁, hf₁, he, ho⟩ | hnew := h' f hf
  · obtain ⟨f₀, hf₀, he₀, ho₀⟩ | ⟨hz, hm⟩ := h f₁ hf₁
    · exact Or.inl ⟨f₀, hf₀, he.trans he₀, fun h => ho (ho₀ h)⟩
    · exact Or.inr ⟨ho hz, by rw [hd, he]; exact hm⟩
  · exact Or.inr hnew

end Records

section Calls
variable {fs : Fat16} (hl : DirLayout fs) {s t : State}
include hl

theorem openFile_records (h : Integral fs s) {pathname : CharPtr} {o : Option OpenFile}
    (ho : openFile fs s pathname = some (o, t)) : t.disk = s.disk ∧ RecordsFrom fs s t := by
  obtain ⟨-, rfl⟩ | ⟨e, -, rfl, he⟩ := openFile_cases ho
  · exact ⟨rfl, .of_subset fun _ => id⟩
  · refine ⟨rfl, fun f hf => ?_⟩
    cases List.mem_append.mp hf with
    | inl hf => exact Or.inl ⟨f, hf, rfl, id⟩
    | inr hf =>
      rw [List.mem_singleton.mp hf]
      refine Or.inr ⟨show 0 < 2 ^ 32 by decide, he.imp_right ?_⟩
      rintro ⟨file, rfl, hfound⟩
      obtain ⟨r, hr, hlist⟩ := findFile_ends hl.toLayout h.dirs.to_listed (pathname.drop 1)
      exact ⟨file, hlist file (Option.some.inj (hr.symm.trans hfound)), rfl⟩

theorem sysOpen_records (h : Integral fs s) {pathname : CharPtr} {flags : UInt32}
    (hg : Guard fs s (.openCall pathname flags)) {r : Int}
    (ho : sysOpen fs s pathname flags.toNat = some (r, t)) :
    (t.disk = s.disk ∨ findOpenFile s pathname = none ∧ openFile fs s pathname = some (none, s) ∧
      flags.toNat &&& oCreat ≠ 0 ∧ ∃ r', Created fs s.disk pathname 0x0 r' t.disk) ∧
      RecordsFrom fs s t := by
  cases sysOpen_effect ho with
  | known => exact ⟨Or.inl rfl, (finishOpen_records _ _).2⟩
  | opened unknown found =>
    obtain ⟨hd, hr⟩ := openFile_records hl h found
    exact ⟨Or.inl hd, hr.trans (finishOpen_records _ _).2 rfl⟩
  | missing => exact ⟨Or.inl rfl, .of_subset fun _ => id⟩
  | failed unknown missing flag made =>
    have hmade := createNewFile_created hl h (hg unknown missing flag) made
    exact ⟨Or.inr ⟨unknown, missing, flag, _, hmade⟩, .of_subset fun _ => id⟩
  | @made result d f t unknown missing flag made found =>
    have hguard := hg unknown missing flag
    have hmade := createNewFile_created hl h hguard made
    obtain ⟨r', d', hcr, hsound⟩ := createNewFile_sound hl h hguard
    obtain ⟨-, rfl⟩ := Prod.mk.inj (Option.some.inj (made.symm.trans hcr))
    have hi : Integral fs { s with disk := d } := hsound
    obtain ⟨hd, hr⟩ := openFile_records hl hi found
    have hd : (finishOpen t f flags.toNat).2.disk = d := hd
    have hr : RecordsFrom fs s t := hr
    refine ⟨Or.inr ⟨unknown, missing, flag, result, ?_⟩, hr.trans (finishOpen_records f _).2 rfl⟩
    rwa [hd]

theorem sysMkdir_records (h : Integral fs s) {path : CharPtr} (hg : Guard fs s (.mkdir path))
    {r : Int} (hm : sysMkdir fs s path = some (r, t)) :
    (t.disk = s.disk ∨ CharPtr.at path 0 = slash ∧ CharPtr.at path 1 ≠ 0 ∧
      findFile fs s.disk (path.drop 1) (getRootDir fs s.disk) = some none ∧
      ∃ r', Created fs s.disk path 0x10 r' t.disk) ∧ t.openFiles = s.openFiles := by
  obtain rfl | ⟨h₀, h₁, hf, d, hcr, rfl⟩ := sysMkdir_cases hm
  · exact ⟨Or.inl rfl, rfl⟩
  · exact ⟨Or.inr ⟨h₀, h₁, hf, _, createNewFile_created hl h (hg h₀ h₁ hf) hcr⟩, rfl⟩

end Calls

/-- A slot of the listings of `d` after a write that turned the record `f` into `g`. It has the
entry it had, or it is the slot of the file, with the new size. -/
structure SlotKept (fs : Fat16) (d d' : Disk) (f g : OpenFile) (p : Slot) : Prop where
  reach : Reach (listed fs) d' p
  firstCluster : (slotEntry d' p).firstCluster = (slotEntry d p).firstCluster
  entry : (slotEntry d' p = slotEntry d p ∧
      (g.directoryEntry.fileSizeBytes = f.directoryEntry.fileSizeBytes ∨
        updateSlot fs d f.path f.directoryEntry.filename f.directoryEntry.extension ≠
          some (some p))) ∨
    (slotEntry d p).firstCluster = f.directoryEntry.firstCluster ∧
    (slotEntry d' p).extension = (slotEntry d p).extension ∧
    (slotEntry d' p).attributes = f.directoryEntry.attributes ∧
    f.directoryEntry.fileSizeBytes < g.directoryEntry.fileSizeBytes ∧
    (slotEntry d' p).fileSizeBytes = g.directoryEntry.fileSizeBytes

/-- A slot that is found for the new size of a file is not the slot of a file with a blank name:
the blank would be stored as the end of the directory. -/
def NameGuard (fs : Fat16) (d : Disk) (f : OpenFile) (nbytes : Nat) : Prop :=
  f.directoryEntry.fileSizeBytes < f.offset + nbytes → ∀ q, updateSlot fs d f.path
    f.directoryEntry.filename f.directoryEntry.extension = some (some q) →
    CharPtr.at f.directoryEntry.filename 0 ≠ 0

theorem SlotKept.extension {fs : Fat16} {d d' : Disk} {f g : OpenFile} {p : Slot}
    (h : SlotKept fs d d' f g p) : (slotEntry d' p).extension = (slotEntry d p).extension := by
  obtain ⟨he, -⟩ | ⟨-, he, -⟩ := h.entry
  · rw [he]
  · exact he

section Outcomes
variable {fs : Fat16} {d d' : Disk} {f g : OpenFile} {k : Nat} {r : Int}

theorem WriteOutcome.entry (h : WriteOutcome fs d f k r g d') : g.directoryEntry =
      { f.directoryEntry with fileSizeBytes := g.directoryEntry.fileSizeBytes } := by
  cases h <;> rfl

/-- A write that changes the size makes the file longer, by at most what was to be written. -/
theorem WriteOutcome.longer {nbytes : Nat} (h : WriteOutcome fs d f k r g d') (hk : k ≤ nbytes)
    (hne : g.directoryEntry.fileSizeBytes ≠ f.directoryEntry.fileSizeBytes) :
    f.directoryEntry.fileSizeBytes < f.offset + nbytes := by
  cases h with
  | failed => exact absurd rfl hne
  | inside => exact absurd rfl hne
  | unstored size => exact grows_by_more size hk
  | stored size => exact grows_by_more size hk

theorem WriteOutcome.reaches (h : WriteOutcome fs d f k r g d') (hlt : f.offset + k < 2 ^ 32) (hr : 0 ≤ r) :
    r = k ∧ f.offset + k ≤ g.directoryEntry.fileSizeBytes := by
  have hmod := Nat.mod_eq_of_lt hlt
  cases h with
  | failed => exact absurd hr (by decide)
  | inside size => exact ⟨rfl, hmod ▸ size⟩
  | unstored => exact ⟨rfl, hmod.ge⟩
  | stored => exact ⟨rfl, hmod.ge⟩

theorem WriteOutcome.starts (h : WriteOutcome fs d f k r g d') (hlt : f.offset + k < 2 ^ 32)
    (hne : g.directoryEntry.fileSizeBytes ≠ f.directoryEntry.fileSizeBytes) :
    f.offset ≤ g.directoryEntry.fileSizeBytes := by
  have hmod := Nat.mod_eq_of_lt hlt
  have hle : f.offset ≤ (f.offset + k) % 2 ^ 32 := by omega
  cases h with
  | failed => exact absurd rfl hne
  | inside => exact absurd rfl hne
  | unstored => exact hle
  | stored => exact hle

theorem WriteOutcome.bounded (h : WriteOutcome fs d f k r g d') (ho : f.offset < 2 ^ 32)
    (hs : f.directoryEntry.fileSizeBytes < 2 ^ 32) :
    g.offset < 2 ^ 32 ∧ g.directoryEntry.fileSizeBytes < 2 ^ 32 := by
  have hmod : (f.offset + k) % 2 ^ 32 < 2 ^ 32 := Nat.mod_lt _ (by decide)
  cases h with
  | failed => exact ⟨ho, hs⟩
  | inside => exact ⟨hmod, hs⟩
  | unstored => exact ⟨hmod, hmod⟩
  | stored => exact ⟨hmod, hmod⟩

end Outcomes

/-- What a write does to the records and to the listings. -/
structure FileWritten (fs : Fat16) (s : State) (f : OpenFile) (nbytes : Nat) (r : Int)
    (g : OpenFile) (t : State) : Prop where
  files : t.openFiles = updateOpenFile f.fd (fun _ => g) s.openFiles
  entry : g.directoryEntry =
    { f.directoryEntry with fileSizeBytes := g.directoryEntry.fileSizeBytes }
  slots : ∀ p, Reach (listed fs) s.disk p → SlotKept fs s.disk t.disk f g p
  longer : g.directoryEntry.fileSizeBytes ≠ f.directoryEntry.fileSizeBytes →
    f.directoryEntry.fileSizeBytes < (settleOffset f).offset + nbytes
  reached : (settleOffset f).offset < 2 ^ 32 → 0 ≤ r →
    ((settleOffset f).offset : Int) + r ≤ g.directoryEntry.fileSizeBytes
  starts : (settleOffset f).offset < 2 ^ 32 →
    g.directoryEntry.fileSizeBytes ≠ f.directoryEntry.fileSizeBytes →
    (settleOffset f).offset ≤ g.directoryEntry.fileSizeBytes
  bounded : (settleOffset f).offset < 2 ^ 32 → f.directoryEntry.fileSizeBytes < 2 ^ 32 →
    g.offset < 2 ^ 32 ∧ g.directoryEntry.fileSizeBytes < 2 ^ 32

section Writes
variable {fs : Fat16} (hl : DirLayout fs) {s : State}
include hl

theorem WriteOutcome.slotKept (h : Integral fs s) {f g : OpenFile} {l new : List Nat}
    {o k nbytes : Nat} {buf : Buffer} {d d' : Disk} {r : Int}
    (hc : heldBy s.openFiles f.directoryEntry.firstCluster) (hg : WriteGuard fs s.disk f nbytes)
    (hname : NameGuard fs s.disk f nbytes)
    (hch : FileChain fs s.disk f.directoryEntry.firstCluster l)
    (hw : Written fs s.disk f.directoryEntry.firstCluster l o buf k d new) (hk : k ≤ nbytes)
    (hout : WriteOutcome fs d f k r g d') {p : Slot} (hp : Reach (listed fs) s.disk p) :
    SlotKept fs s.disk d' f g p := by
  have hsame := h.sameDirs hl hc hch hw
  have h₁ := h.written hl hc hch hw
  obtain ⟨hp₁, he⟩ := hsame.to_listed.keeps p hp
  -- a slot of the listings that was found before the data was written is found afterwards
  have hfound : ∀ {u}, updateSlot fs d f.path f.directoryEntry.filename f.directoryEntry.extension =
      some u → u ≠ some p → updateSlot fs s.disk f.path f.directoryEntry.filename
        f.directoryEntry.extension ≠ some (some p) := fun hu hne hs =>
    hne (Option.some.inj (hu.symm.trans
      (updateSlot_kept hl h.dirs.to_listed hsame.to_listed hch hw hs hp)))
  cases hout with
  | failed => exact ⟨hp₁, by rw [he], Or.inl ⟨he, Or.inl rfl⟩⟩
  | inside => exact ⟨hp₁, by rw [he], Or.inl ⟨he, Or.inl rfl⟩⟩
  | unstored _ slot => exact ⟨hp₁, by rw [he], Or.inl ⟨he, Or.inr (hfound slot (by simp))⟩⟩
  | @stored q size slot isSlot found =>
    have hlt := grows_by_more size hk
    have hown : Reach (listed fs) d q →
        (slotEntry d q).firstCluster = f.directoryEntry.firstCluster :=
      fun hr => h.update_own hl hc hch hw hg hlt slot hr.to_used
    have hreach : Reach (listed fs) (writeSlot d q (grown f k).directoryEntry
        (CharPtr.at f.directoryEntry.filename 0)) p := by
      refine hp₁.kept_writeSlot hl isSlot (fun ss hss hq => .of_eq ?_) fun hr => ?_
      · obtain hu | ⟨a, ha, hd⟩ := updateSlot_written hl h.dirs.to_listed hsame.to_listed hch hw slot
        · exact found.first.resolve_right fun hb => hname hlt q hu hb.2
        · -- the slot is in the clusters of the file, which are not those of a directory
          have hin := hw.inTable hch a ha
          obtain ⟨p', m, hp', hsub, hm, ham⟩ := hss.to_used.dataByte hl (mem_slotsOf.mp hq).1 hin.1
            (hd 0 fs.bytesPerSector_pos)
          exact absurd ha (h₁.dir_apart hc (hw.fileChain hch) p' m hp' hsub hm ham)
      · exact h₁.regular q hr.to_used (hown hr ▸ hc)
    by_cases hpq : p = q
    · subst hpq
      have hcl : f.directoryEntry.firstCluster < 2 ^ 16 :=
        hl.lt_of_entry (hch.inTable _ hch.start_mem).2
      have hsize : (grown f k).directoryEntry.fileSizeBytes < 2 ^ 32 := Nat.mod_lt _ (by decide)
      refine ⟨hreach, ?_, Or.inr ⟨?_, ?_, slotEntry_writeSlot_attributes, size,
        slotEntry_writeSlot_fileSizeBytes hsize⟩⟩
      · rw [← he, hown hp₁]
        exact slotEntry_writeSlot_firstCluster (e := (grown f k).directoryEntry) hcl
      · rw [← he, hown hp₁]
      · rw [← he]
        exact slotEntry_writeSlot_extension found.extension
    · have heq : slotEntry (writeSlot d q (grown f k).directoryEntry
          (CharPtr.at f.directoryEntry.filename 0)) p = slotEntry d p :=
        slotEntry_writeSlot_other isSlot (hp₁.isSlot hl) hpq
      have hne : some q ≠ some p := fun h => hpq (Option.some.inj h).symm
      exact ⟨hreach, by rw [heq, he], Or.inl ⟨by rw [heq, he], Or.inr (hfound slot hne)⟩⟩

theorem sysWrite_cases (h : Integral fs s) {fd : Int} {buf : Buffer} {nbytes : UInt32}
    (hg : Guard fs s (.write fd buf nbytes))
    (hname : fd ≠ stdoutFiledesc → ∀ f, findOpenFileByFd s fd = some f →
      ¬ isSubdirectory f.directoryEntry.attributes →
      NameGuard fs s.disk (settleOffset f) nbytes.toNat) {r : Int} {t : State}
    (hw : sysWrite fs s fd buf nbytes.toNat = some (r, t)) :
    (t = s ∧ (fd = stdoutFiledesc ∨ ∀ f, findOpenFileByFd s fd = some f →
      isSubdirectory f.directoryEntry.attributes)) ∨
    ∃ f g, fd ≠ stdoutFiledesc ∧ findOpenFileByFd s fd = some f ∧
      ¬ isSubdirectory f.directoryEntry.attributes ∧
      FileWritten fs s f nbytes.toNat r g t := by
  cases sysWrite_effect hl h hg hw with
  | refused reason => exact Or.inl ⟨rfl, reason⟩
  | @written f g l new o k d d' _ hfd hf hs hch hwr hk ho hout =>
    obtain ⟨hm, rfl⟩ := findOpenFileByFd_mem hf
    have hlt : (settleOffset f).offset < 2 ^ 32 → (settleOffset f).offset + k < 2 ^ 32 := by
      intro hoff
      by_cases hn : nbytes.toNat = 0
      · omega
      · have hwithin := hwr.within
        have hlen := (hwr.fileChain hch).length_lt hl.toLayout
        have hmul := Nat.mul_le_mul (Nat.le_of_lt_succ hlen) hl.clusterSize
        rw [ho hn] at hwithin
        omega
    have he := settleOffset_directoryEntry f
    refine Or.inr ⟨f, g, hfd, hf, hs, rfl, he ▸ hout.entry, fun p hp => ?_,
      fun hne => he ▸ hout.longer hk (he ▸ hne), fun hoff hr => ?_,
      fun hoff hne => hout.starts (hlt hoff) (he ▸ hne),
      fun hoff hsize => hout.bounded hoff (he ▸ hsize)⟩
    · have hkept := hout.slotKept hl h (he ▸ ⟨f, hm, hs, rfl⟩) (hg hfd f hf hs)
        (hname hfd f hf hs) (he ▸ hch) (he ▸ hwr) hk hp
      exact ⟨hkept.reach, hkept.firstCluster, by simpa using hkept.entry⟩
    · obtain ⟨rfl, hle⟩ := hout.reaches (hlt hoff) hr
      exact_mod_cast hle

end Writes

/-- Each open regular file has an entry in the listings, which `P` relates to that of the record. -/
def Anchored (fs : Fat16) (P : DirEntry → DirEntry → Prop) (s : State) : Prop :=
  ∀ f ∈ s.openFiles, ¬ isSubdirectory f.directoryEntry.attributes →
    ∃ p, Reach (listed fs) s.disk p ∧
      (slotEntry s.disk p).firstCluster = f.directoryEntry.firstCluster ∧
      P (slotEntry s.disk p) f.directoryEntry

/-- The calls that neither write to a file nor remove one. -/
def Harmless : Call → Prop
  | .write .. => False
  | .unlink _ => False
  | _ => True

section Anchors
variable {fs : Fat16} {P : DirEntry → DirEntry → Prop} {s t : State}

theorem Anchored.of_keeps (h : Anchored fs P s) (hP : ∀ d p, P (slotEntry d p) (slotEntry d p))
    (hk : Keeps fs s.disk t.disk) (hr : RecordsFrom fs s t) : Anchored fs P t := by
  intro f hf hs
  obtain ⟨f₀, hf₀, he, -⟩ | ⟨-, hdir | ⟨g, hg, he⟩⟩ := hr f hf
  · obtain ⟨p, hp, hc, hPp⟩ := h f₀ hf₀ (he ▸ hs)
    obtain ⟨hp', hep⟩ := hk p hp
    exact ⟨p, hp', by rw [hep, he, hc], by rwa [hep, he]⟩
  · exact absurd hdir hs
  · exact ⟨g.slot, hg.1, by rw [he, hg.2], by rw [he, hg.2]; exact hP _ _⟩

theorem Anchored.initial (d : Disk) : Anchored fs P (fileInitialise d) :=
  fun _ hf => absurd hf List.not_mem_nil

variable (hl : DirLayout fs)
include hl

theorem call_harmless (h : Integral fs s) {c : Call} (hc : Harmless c) (hg : Guard fs s c)
    {r : Int} (ht : call fs s c = some (r, t)) : Keeps fs s.disk t.disk ∧ RecordsFrom fs s t := by
  have hsame : t.disk = s.disk → Keeps fs s.disk t.disk := fun hd p hp => ⟨hd ▸ hp, by rw [hd]⟩
  cases c with
  | openCall pathname flags =>
    obtain ⟨hd, hr⟩ := sysOpen_records hl h hg ht
    exact ⟨hd.elim hsame fun ⟨_, _, _, _, hcr⟩ => hcr.keeps hl, hr⟩
  | mkdir path =>
    obtain ⟨hd, hf⟩ := sysMkdir_records hl h hg ht
    exact ⟨hd.elim hsame fun ⟨_, _, _, _, hcr⟩ => hcr.keeps hl, .of_subset fun f hm => hf ▸ hm⟩
  | read fd buf nbytes =>
    obtain ⟨-, rfl⟩ := Prod.mk.inj (Option.some.inj ht)
    have he := sysRead_effect fs s fd buf nbytes.toNat
    exact ⟨hsame he.disk_eq, he.records⟩
  | lseek fd offset whence =>
    obtain ⟨-, rfl⟩ := Prod.ext_iff.mp (Option.some.inj ht)
    have he := sysLseek_effect s fd offset whence
    exact ⟨hsame he.disk_eq, he.records⟩
  | close fd =>
    obtain ⟨-, rfl⟩ := Prod.ext_iff.mp (Option.some.inj ht)
    obtain ⟨hd, hr⟩ := sysClose_records fs s fd
    exact ⟨hsame hd, hr⟩
  | write fd buf nbytes => exact hc.elim
  | unlink pathname => exact hc.elim

end Anchors
end MalapropOS.Fat
