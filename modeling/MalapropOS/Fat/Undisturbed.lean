import MalapropOS.Fat.Append
import MalapropOS.Fat.Records

/-! A file that is held open, under calls that are about other files. Its chain and its data stay as
they are, if the entries that the calls store go to slots of directories. -/
namespace MalapropOS.Fat
open LinkedChain

/-- The file in the clusters `l` is on `d'` as it is on `d`. -/
structure Undisturbed (fs : Fat16) (d d' : Disk) (c : Nat) (l : List Nat) : Prop where
  chain : FileChain fs d' c l
  data : ∀ x < l.length * bytesPerCluster fs, chainByte fs d' l x = chainByte fs d l x

/-- A slot of a directory. -/
def InTree (fs : Fat16) (d : Disk) (p : Slot) : Prop :=
  ∃ ss, Dir (used fs) d ss ∧ p ∈ slotsOf fs ss

/-- The entry of the file that is to grow is where its record says. -/
def StillListed (fs : Fat16) (d : Disk) (f : OpenFile) : Prop :=
  ∃ q, updateSlot fs d f.path f.directoryEntry.filename f.directoryEntry.extension = some (some q) ∧
    Reach (listed fs) d q

/-- The call stores entries in slots of directories only. -/
def StoresInTree (fs : Fat16) (s : State) : Call → Prop
  | .openCall pathname flags => findOpenFile s pathname = none →
      openFile fs s pathname = some (none, s) → flags.toNat &&& oCreat ≠ 0 →
      ∀ p, newSlot fs s.disk pathname = some (some p) → InTree fs s.disk p
  | .mkdir path => CharPtr.at path 0 = slash → CharPtr.at path 1 ≠ 0 →
      findFile fs s.disk (path.drop 1) (getRootDir fs s.disk) = some none →
      ∀ p, newSlot fs s.disk path = some (some p) → InTree fs s.disk p
  | .write fd _ nbytes => fd ≠ stdoutFiledesc → ∀ f, findOpenFileByFd s fd = some f →
      ¬ isSubdirectory f.directoryEntry.attributes →
      f.directoryEntry.fileSizeBytes < (settleOffset f).offset + nbytes.toNat →
      StillListed fs s.disk f
  | .unlink pathname => ∀ file, findFile fs s.disk (pathname.drop 1) (getRootDir fs s.disk) =
      some (some file) → ∀ q, updateSlot fs s.disk pathname file.entry.filename
        file.entry.extension = some (some q) → InTree fs s.disk q
  | _ => True

/-- The call does not write to the file whose first cluster is `c`. -/
def WritesElsewhere (s : State) (c : Nat) : Call → Prop
  | .write fd _ _ => ∀ f, findOpenFileByFd s fd = some f →
      ¬ isSubdirectory f.directoryEntry.attributes → f.directoryEntry.firstCluster ≠ c
  | _ => True

section Data
variable {fs : Fat16} {d d' d'' : Disk} {c : Nat} {l : List Nat}

theorem Undisturbed.refl (h : FileChain fs d c l) : Undisturbed fs d d c l := ⟨h, fun _ _ => rfl⟩

theorem Undisturbed.trans (h : Undisturbed fs d d' c l) (h' : Undisturbed fs d' d'' c l) :
    Undisturbed fs d d'' c l :=
  ⟨h'.chain, fun x hx => (h'.data x hx).trans (h.data x hx)⟩

variable (hl : DirLayout fs)
include hl

/-- The data depends on the sectors of the clusters only. -/
theorem chainByte_congr (hin : ∀ a ∈ l, 2 ≤ a ∧ a < numEntries fs)
    (h : ∀ a ∈ l, ∀ s k, DataByte fs a s k → d' s k = d s k) {x : Nat}
    (hx : x < l.length * bytesPerCluster fs) : chainByte fs d' l x = chainByte fs d l x := by
  have hm := chainByte_mem hx
  obtain ⟨h2, hlt⟩ := hin _ hm
  rw [chainByte, chainByte, loadCluster_congr h2 (hl.lt_of_entry hlt) (h _ hm)]

theorem Undisturbed.store (h : FileChain fs d c l) {q : Slot} (hq : IsSlot fs q)
    (hout : q.sector ∉ chainSectors fs l) (e : DirEntry) (first : UInt8) :
    Undisturbed fs d (writeSlot d q e first) c l :=
  ⟨(FileChain.writeSlot_iff hl.toLayout hq).mpr h,
    fun _ hx => chainByte_writeSlot hl.toLayout h.inTable hout hx⟩

/-- Marking a free cluster. -/
theorem Undisturbed.mark (h : FileChain fs d c l) {a : Nat} (ha : a < numEntries fs)
    (hfree : getSuccessorCluster fs d a = 0) :
    Undisturbed fs d (setSuccessorCluster fs d a 0xFFFF) c l := by
  refine ⟨(h.mark hl hfree).2, fun x hx => ?_⟩
  apply chainByte_congr hl h.inTable _ hx
  intro b _ s k hb
  by_contra hne
  exact (setSuccessorCluster_frame hl.geometry d hne).not_data hl.geometry ha hb

/-- Writing to another file. -/
theorem Undisturbed.written {held : Nat → Prop} (h : Sound fs d held) (hc : held c)
    (hch : FileChain fs d c l) {a o k : Nat} {m new : List Nat} {buf : Buffer} (ha : held a)
    (hm : FileChain fs d a m) (hne : c ≠ a) (hw : Written fs d a m o buf k d' new) :
    Undisturbed fs d d' c l := by
  obtain ⟨hout, hch'⟩ := h.other_chain hl ha hm hw (Or.inl hc) hne hch
  refine ⟨hch', fun x hx => ?_⟩
  apply chainByte_congr hl hch.inTable _ hx
  intro b hb s j hdata
  by_contra hchd
  obtain ⟨b', hb', hd | ⟨hf, -⟩⟩ := hw.frame s j hchd
  · have he := DataByte.unique (hch.inTable b hb).1 (hw.inTable hm b' hb').1 hdata hd
    exact hout hb (he ▸ hb')
  · exact hf.not_data hl.geometry (hw.inTable hm b' hb').2 hdata

omit hl in
/-- A directory has no slot in the clusters of a file that is held open. -/
theorem InTree.apart (hl : DirLayout fs) {held : Nat → Prop} (h : Sound fs d held) (hc : held c)
    (hch : FileChain fs d c l) {p : Slot} (hp : InTree fs d p) : p.sector ∉ chainSectors fs l := by
  intro hm
  obtain ⟨a, ha, hle, hlt⟩ := mem_chainSectors.mp hm
  obtain ⟨ss, hss, hs⟩ := hp
  obtain ⟨p', m, hp', hsub, hm', ham⟩ := hss.dataByte hl (mem_slotsOf.mp hs).1
    (hch.inTable a ha).1 ⟨hle, hlt, fs.bytesPerSector_pos⟩
  exact h.dir_apart hc hch p' m hp' hsub hm' ham ha

omit hl in
theorem Reach.inTree {p : Slot} (h : Reach (listed fs) d p) : InTree fs d p := by
  obtain ⟨ss, hss, hp⟩ := h.to_used
  exact ⟨ss, hss, (used fs).subset _ _ hp⟩

end Data

section Calls
variable {fs : Fat16} (hl : DirLayout fs) {s t : State} {c : Nat} {l : List Nat}
include hl

theorem Created.undisturbed {held : Nat → Prop} {d d' : Disk} (h : Sound fs d held) (hc : held c)
    (hch : FileChain fs d c l) {pathname : CharPtr} {attributes : UInt8} {r : Int}
    (hin : ∀ p, newSlot fs d pathname = some (some p) → InTree fs d p)
    (hcr : Created fs d pathname attributes r d') : Undisturbed fs d d' c l := by
  cases hcr with
  | refused => exact .refl hch
  | stored slot isSlot free enough inTable unused =>
    have hmark := Undisturbed.mark hl hch inTable unused
    exact hmark.trans (.store hl hmark.chain isSlot ((hin _ slot).apart hl h hc hch) _ _)

/-- The slot that gets the new size of a file was found before the data was written. -/
theorem StillListed.found {d d' : Disk} {held : Nat → Prop} (h : Sound fs d held) {f : OpenFile}
    {a o k : Nat} {m new : List Nat} {buf : Buffer} (ha : held a) (hm : FileChain fs d a m)
    (hw : Written fs d a m o buf k d' new) (hlist : StillListed fs d f) {q : Slot}
    (hq : updateSlot fs d' f.path f.directoryEntry.filename f.directoryEntry.extension =
      some (some q)) : InTree fs d q ∧ InTree fs d' q := by
  obtain ⟨p, hp, hr⟩ := hlist
  have hsame := (h.sameDirs hl ha hm hw).to_listed
  have hkept := updateSlot_kept hl h.dirs.to_listed hsame hm hw hp hr
  obtain rfl := Option.some.inj (Option.some.inj (hkept.symm.trans hq))
  exact ⟨hr.inTree, (hsame.keeps p hr).1.inTree⟩

theorem sysWrite_undisturbed (h : Integral fs s) (hc : heldBy s.openFiles c)
    (hch : FileChain fs s.disk c l) {fd : Int} {buf : Buffer} {nbytes : UInt32}
    (hg : Guard fs s (.write fd buf nbytes)) (htree : StoresInTree fs s (.write fd buf nbytes))
    (hother : WritesElsewhere s c (.write fd buf nbytes)) {r : Int}
    (hw : sysWrite fs s fd buf nbytes.toNat = some (r, t)) : Undisturbed fs s.disk t.disk c l := by
  cases sysWrite_effect hl h hg hw with
  | refused => exact .refl hch
  | @written f g m new o k d d' r hfd hf hs hm hwr hk _ hout =>
    have ha : heldBy s.openFiles f.directoryEntry.firstCluster :=
      ⟨f, (findOpenFileByFd_mem hf).1, hs, rfl⟩
    have hne : c ≠ f.directoryEntry.firstCluster := (hother f hf hs).symm
    have hdata := Undisturbed.written hl h hc hch ha hm hne hwr
    cases hout with
    | failed => exact hdata
    | inside => exact hdata
    | unstored => exact hdata
    | stored size slot isSlot =>
      have hgrows := grows_by_more size hk
      rw [settleOffset_path, settleOffset_directoryEntry] at slot
      rw [settleOffset_directoryEntry] at hgrows
      have hlist := htree hfd f hf hs hgrows
      have hout := (hlist.found hl h ha hm hwr slot).2.apart hl (h.written hl ha hm hwr) hc hdata.chain
      exact hdata.trans (.store hl hdata.chain isSlot hout _ _)

theorem UnlinkEffect.undisturbed (h : Integral fs s) (hc : heldBy s.openFiles c)
    (hch : FileChain fs s.disk c l) {pathname : CharPtr} {r : Int}
    (htree : StoresInTree fs s (.unlink pathname)) (he : UnlinkEffect fs s pathname r t) :
    Undisturbed fs s.disk t.disk c l := by
  cases he with
  | refused => exact .refl hch
  | unstored => exact .refl hch
  | removed _ _ found slot isSlot =>
    exact .store hl hch isSlot ((htree _ found _ slot).apart hl h hc hch) _ _

/-- Calls that do not write to an open file leave its chain and its data alone. -/
theorem call_undisturbed (h : Integral fs s) (hc : heldBy s.openFiles c)
    (hch : FileChain fs s.disk c l) {k : Call} (hg : Guard fs s k) (htree : StoresInTree fs s k)
    (hother : WritesElsewhere s c k) {r : Int} (ht : call fs s k = some (r, t)) :
    Undisturbed fs s.disk t.disk c l := by
  have hsame : t.disk = s.disk → Undisturbed fs s.disk t.disk c l := by
    intro hd
    rw [hd]
    exact .refl hch
  cases k with
  | openCall pathname flags =>
    obtain ⟨hd | ⟨hclosed, hmissing, hflag, r', hcr⟩, -⟩ := sysOpen_records hl h hg ht
    · exact hsame hd
    · exact hcr.undisturbed hl h hc hch (htree hclosed hmissing hflag)
  | mkdir path =>
    obtain ⟨hd | ⟨h₀, h₁, hmissing, r', hcr⟩, -⟩ := sysMkdir_records hl h hg ht
    · exact hsame hd
    · exact hcr.undisturbed hl h hc hch (htree h₀ h₁ hmissing)
  | write fd buf nbytes => exact sysWrite_undisturbed hl h hc hch hg htree hother ht
  | read fd buf nbytes =>
    obtain ⟨-, rfl⟩ := Prod.mk.inj (Option.some.inj ht)
    exact hsame (sysRead_effect fs s fd buf nbytes.toNat).disk_eq
  | lseek fd offset whence =>
    obtain ⟨-, rfl⟩ := Prod.ext_iff.mp (Option.some.inj ht)
    exact hsame (sysLseek_effect s fd offset whence).disk_eq
  | close fd =>
    obtain ⟨-, rfl⟩ := Prod.ext_iff.mp (Option.some.inj ht)
    exact hsame (sysClose_records fs s fd).1
  | unlink pathname =>
    exact (sysUnlink_effect hl h.dirs.to_listed ht).undisturbed hl h hc hch htree

end Calls
end MalapropOS.Fat
