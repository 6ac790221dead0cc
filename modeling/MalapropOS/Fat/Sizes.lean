import MalapropOS.Fat.Records

/-! The two copies of the size of a file: that in the record of an open file, which `sys_fstat`
reports, and that in the slot of the file on the disk. -/
namespace MalapropOS.Fat
open LinkedChain PartialMachine

/-- The calls that open, close, read and write files. -/
def FileCall : Call → Prop
  | .mkdir _ => False
  | .unlink _ => False
  | _ => True

theorem FileCall.write_of {c : Call} (hc : FileCall c) (hw : ¬ Harmless c) :
    ∃ fd buf nbytes, c = .write fd buf nbytes := by
  cases c with
  | write fd buf nbytes => exact ⟨fd, buf, nbytes, rfl⟩
  | mkdir => exact hc.elim
  | unlink => exact hc.elim
  | openCall => exact absurd trivial hw
  | read => exact absurd trivial hw
  | lseek => exact absurd trivial hw
  | close => exact absurd trivial hw

/-- A regular file is open under one path only. -/
def OnePath (s : State) : Prop :=
  ∀ f ∈ s.openFiles, ∀ g ∈ s.openFiles, ¬ isSubdirectory f.directoryEntry.attributes →
    ¬ isSubdirectory g.directoryEntry.attributes →
    f.directoryEntry.firstCluster = g.directoryEntry.firstCluster → cstr f.path = cstr g.path

/-- A write that makes a file longer finds the slot of the file, whose name is not blank. -/
def SlotFound (fs : Fat16) (s : State) : Call → Prop
  | .write fd _ nbytes => fd ≠ stdoutFiledesc → ∀ f, findOpenFileByFd s fd = some f →
      ¬ isSubdirectory f.directoryEntry.attributes →
      f.directoryEntry.fileSizeBytes < (settleOffset f).offset + nbytes.toNat →
      CharPtr.at f.directoryEntry.filename 0 ≠ 0 ∧ ∃ g, LiveEntry fs s.disk g ∧
        g.entry.firstCluster = f.directoryEntry.firstCluster ∧
        updateSlot fs s.disk f.path f.directoryEntry.filename f.directoryEntry.extension =
          some (some g.slot)
  | _ => True

/-- The size in the record of an open file is the one in the slot of the file, which is what
`find_file` decodes. -/
structure SizeAgrees (fs : Fat16) (d : Disk) (f : OpenFile) : Prop where
  present : ∃ g, LiveEntry fs d g ∧ g.entry.firstCluster = f.directoryEntry.firstCluster
  live : ∀ g, LiveEntry fs d g → g.entry.firstCluster = f.directoryEntry.firstCluster →
    g.entry.fileSizeBytes = f.directoryEntry.fileSizeBytes
  found : ∀ pathname g, findFile fs d pathname (getRootDir fs d) = some (some g) →
    g.entry.firstCluster = f.directoryEntry.firstCluster →
    g.entry.fileSizeBytes = f.directoryEntry.fileSizeBytes

def SameSize (e e' : DirEntry) : Prop := e.fileSizeBytes = e'.fileSizeBytes

section Agreement
variable {fs : Fat16} (hl : DirLayout fs) {s t : State}
include hl

theorem Integral.live_unique (h : Integral fs s) {p : Slot} (hp : Reach (listed fs) s.disk p)
    {g : ListEntry} (hg : LiveEntry fs s.disk g)
    (he : g.entry.firstCluster = (slotEntry s.disk p).firstCluster) :
    g.entry = slotEntry s.disk p := by
  obtain ⟨hr, heg⟩ := hg.listed hl.toLayout h.dirs.to_listed
  rw [heg] at he ⊢
  rw [h.slots _ _ hr.to_used hp.to_used he]

theorem Anchored.sizeAgrees (h : Integral fs s) (ha : Anchored fs SameSize s) {f : OpenFile}
    (hf : f ∈ s.openFiles) (hs : ¬ isSubdirectory f.directoryEntry.attributes) :
    SizeAgrees fs s.disk f := by
  obtain ⟨p, hp, hc, hsize⟩ := ha f hf hs
  have hlive : ∀ g, LiveEntry fs s.disk g →
      g.entry.firstCluster = f.directoryEntry.firstCluster →
      g.entry.fileSizeBytes = f.directoryEntry.fileSizeBytes := by
    intro g hg he
    rw [h.live_unique hl hp hg (he.trans hc.symm)]
    exact hsize
  refine ⟨⟨_, hp.live hl.toLayout, hc⟩, hlive, fun pathname g hg => hlive g ?_⟩
  obtain ⟨r, hr, hlist⟩ := findFile_ends hl.toLayout h.dirs.to_listed pathname
  exact (hlist g (Option.some.inj (hr.symm.trans hg))).live hl.toLayout

/-- One call keeps the two sizes of each open file the same. -/
theorem step_sizes (h : Integral fs s) (hi : TableInv s) (ha : Anchored fs SameSize s) {c : Call}
    (hc : FileCall c) (hg : Guard fs s c) (hone : OnePath s) (hslot : SlotFound fs s c)
    (ht : step fs s c = some t) : Anchored fs SameSize t := by
  obtain ⟨⟨r, t⟩, hcall, rfl⟩ := Option.map_eq_some_iff.mp ht
  by_cases hw : Harmless c
  · obtain ⟨hk, hr⟩ := call_harmless hl h hw hg hcall
    exact ha.of_keeps (fun _ _ => rfl) hk hr
  obtain ⟨fd, buf, nbytes, rfl⟩ := hc.write_of hw
  have hname : fd ≠ stdoutFiledesc → ∀ f, findOpenFileByFd s fd = some f →
      ¬ isSubdirectory f.directoryEntry.attributes →
      NameGuard fs s.disk (settleOffset f) nbytes.toNat := by
    intro h₁ f hf hs hlt q _
    simpa using (hslot h₁ f hf hs (by simpa using hlt)).1
  obtain ⟨rfl, -⟩ | ⟨f, g, h₁, hf, hs, hwr⟩ := sysWrite_cases hl h hg hname hcall
  · exact ha
  · obtain ⟨hm, rfl⟩ := findOpenFileByFd_mem hf
    intro x hx hxs
    rw [hwr.files] at hx
    obtain rfl | ⟨hxm, hne⟩ := hi.mem_update hf hx
    · -- the record that was written: its slot is the one that was found
      obtain ⟨p, hp, hpc, hsize⟩ := ha f hm hs
      have hkept := hwr.slots p hp
      refine ⟨p, hkept.reach, by rw [hkept.firstCluster, hpc, hwr.entry], ?_⟩
      obtain ⟨he, hsame | hother⟩ | ⟨-, -, -, -, hnew⟩ := hkept.entry
      · exact (congrArg _ he).trans (hsize.trans hsame.symm)
      · by_cases hgrow : x.directoryEntry.fileSizeBytes = f.directoryEntry.fileSizeBytes
        · exact (congrArg _ he).trans (hsize.trans hgrow.symm)
        · obtain ⟨-, g, hg, hgc, hu⟩ := hslot h₁ f hf hs (hwr.longer hgrow)
          obtain ⟨hgr, hge⟩ := hg.listed hl.toLayout h.dirs.to_listed
          have hgp : g.slot = p :=
            h.slots _ _ hgr.to_used hp.to_used (by rw [← hge, hgc, hpc])
          exact absurd (hgp ▸ hu) hother
      · exact hnew
    · -- another record is of another file, whose slot stays
      obtain ⟨p, hp, hpc, hsize⟩ := ha x hxm hxs
      have hkept := hwr.slots p hp
      refine ⟨p, hkept.reach, by rw [hkept.firstCluster, hpc], ?_⟩
      obtain ⟨he, -⟩ | ⟨hown, -⟩ := hkept.entry
      · exact (congrArg _ he).trans hsize
      · have hpath := hone x hxm f hm hxs hs (hpc.symm.trans hown)
        have hxf := List.inj_on_of_nodup_map hi.paths hxm hm hpath
        exact absurd (congrArg OpenFile.fd hxf) hne

/-- In a run in which each file is open under one path only, whose calls meet their guards and
whose writes find the slot of their file, the record of every open regular file has the size that
is on the disk. -/
theorem sizes_agree_along {d : Disk} (hd : Sound fs d fun _ => False) {calls : List Call}
    (hc : ∀ c ∈ calls, FileCall c)
    (hg : Along (step fs) (fun s c => Guard fs s c ∧ OnePath s ∧ SlotFound fs s c) calls
      (fileInitialise d)) :
    ∀ before, before <+: calls → ∃ s, run (step fs) before (fileInitialise d) = some s ∧
      ∀ f ∈ s.openFiles, ¬ isSubdirectory f.directoryEntry.attributes →
        SizeAgrees fs s.disk f := by
  rintro before ⟨after, rfl⟩
  have hg' : Along (step fs) (fun s c => (Guard fs s c ∧ OnePath s ∧ SlotFound fs s c) ∧ FileCall c)
      before (fileInitialise d) :=
    (along_left hg).and (along_of_inputs (fun c hm _ => hc c (List.mem_append_left _ hm)) _)
  obtain ⟨s, hs, hi, -, ha⟩ := along_reaches
    (fun s => Integral fs s ∧ TableInv s ∧ Anchored fs SameSize s)
    (fun s c ⟨⟨hg, hone, hslot⟩, hc⟩ ⟨hi, ht, ha⟩ => by
      obtain ⟨t, hst, hit⟩ := step_integral hl hg hi
      obtain ⟨r, htt⟩ := step_table ht hst
      exact ⟨t, hst, hit, ht.step htt, step_sizes hl hi ht ha hc hg hone hslot hst⟩)
    hg' ⟨integral_initial hd, fileInitialise_table d, .initial d⟩
  exact ⟨s, hs, fun f hf hr => ha.sizeAgrees hl hi hf hr⟩

end Agreement

/-- The extension fills its field. -/
def ThreeChars (e : DirEntry) : Prop := ∀ j < 3, CharPtr.at e.extension j ≠ 0

/-- A write that makes a file longer. If a slot is found for it, the name is not blank. If the file
has an extension of three characters, its slot is found, and the record has at least the size that
is there, or the write starts at or behind that size. -/
def FreshCopy (fs : Fat16) (s : State) : Call → Prop
  | .write fd _ nbytes => fd ≠ stdoutFiledesc → ∀ f, findOpenFileByFd s fd = some f →
      ¬ isSubdirectory f.directoryEntry.attributes →
      f.directoryEntry.fileSizeBytes < (settleOffset f).offset + nbytes.toNat →
      (∀ q, updateSlot fs s.disk f.path f.directoryEntry.filename f.directoryEntry.extension =
        some (some q) → CharPtr.at f.directoryEntry.filename 0 ≠ 0) ∧
      ∀ g, LiveEntry fs s.disk g → g.entry.firstCluster = f.directoryEntry.firstCluster →
        ThreeChars g.entry →
        updateSlot fs s.disk f.path f.directoryEntry.filename f.directoryEntry.extension =
          some (some g.slot) ∧
        (g.entry.fileSizeBytes ≤ f.directoryEntry.fileSizeBytes ∨
          g.entry.fileSizeBytes ≤ (settleOffset f).offset)
  | _ => True

/-- What a call does to the size in the slot of a file: it does not get less, and it covers what
a write to the file has written. -/
structure SizeGrows (s : State) (c : Call) (r : Int) (e e' : DirEntry) : Prop where
  regular : ¬ isSubdirectory e.attributes → ¬ isSubdirectory e'.attributes
  extension : e'.extension = e.extension
  firstCluster : e'.firstCluster = e.firstCluster
  size : e.fileSizeBytes ≤ e'.fileSizeBytes
  covers : ∀ fd buf nbytes, c = .write fd buf nbytes → fd ≠ stdoutFiledesc →
    ∀ f, findOpenFileByFd s fd = some f → ¬ isSubdirectory f.directoryEntry.attributes →
    f.directoryEntry.firstCluster = e.firstCluster → 0 ≤ r →
    ((settleOffset f).offset : Int) + r ≤ e'.fileSizeBytes

/-- A record has no more than the size in the slot. -/
def CopyBelow (e e' : DirEntry) : Prop :=
  e'.fileSizeBytes < 2 ^ 32 ∧ (ThreeChars e → e'.fileSizeBytes ≤ e.fileSizeBytes)

def OffsetsBounded (s : State) : Prop := ∀ f ∈ s.openFiles, f.offset < 2 ^ 32

section Growth
variable {fs : Fat16} {s t : State}

theorem slotEntry_fileSizeBytes_lt (d : Disk) (p : Slot) :
    (slotEntry d p).fileSizeBytes < 2 ^ 32 := by
  have h := fun x : UInt8 => x.toNat_lt
  have h₀ := h (d p.sector (p.index + 0x1c))
  have h₁ := h (d p.sector (p.index + 0x1d))
  have h₂ := h (d p.sector (p.index + 0x1e))
  have h₃ := h (d p.sector (p.index + 0x1f))
  simp only [slotEntry, decodeEntry]
  omega

theorem settleOffset_lt {f : OpenFile} (ho : f.offset < 2 ^ 32)
    (hs : f.directoryEntry.fileSizeBytes < 2 ^ 32) : (settleOffset f).offset < 2 ^ 32 := by
  rw [settleOffset]
  split_ifs
  · exact hs
  · exact ho

theorem RecordsFrom.offsets (h : RecordsFrom fs s t) (hs : OffsetsBounded s) : OffsetsBounded t := by
  intro f hf
  obtain ⟨f₀, hf₀, -, ho⟩ | ⟨ho, -⟩ := h f hf
  · exact ho (hs f₀ hf₀)
  · exact ho

variable (hl : DirLayout fs)
include hl

/-- The size in the slot of a file after a write. -/
theorem FileWritten.slot_size {f g : OpenFile} {nbytes : UInt32} {r fd : Int} {buf : Buffer}
    (hwr : FileWritten fs s f nbytes.toNat r g t)
    (hoff : (settleOffset f).offset < 2 ^ 32) (hfresh : FreshCopy fs s (.write fd buf nbytes))
    (h₁ : fd ≠ stdoutFiledesc) (hf : findOpenFileByFd s fd = some f)
    (hs : ¬ isSubdirectory f.directoryEntry.attributes) {p : Slot}
    (hp : Reach (listed fs) s.disk p) (hthree : ThreeChars (slotEntry s.disk p)) :
    (slotEntry s.disk p).fileSizeBytes ≤ (slotEntry t.disk p).fileSizeBytes ∧
    ((slotEntry s.disk p).firstCluster = f.directoryEntry.firstCluster →
      f.directoryEntry.fileSizeBytes ≤ (slotEntry s.disk p).fileSizeBytes →
      g.directoryEntry.fileSizeBytes ≤ (slotEntry t.disk p).fileSizeBytes) := by
  obtain ⟨he, hother⟩ | ⟨hpc, -, -, hgrow, hsize⟩ := (hwr.slots p hp).entry
  · refine ⟨by rw [he], fun hpc hle => ?_⟩
    rw [he]
    by_cases hgrow : g.directoryEntry.fileSizeBytes = f.directoryEntry.fileSizeBytes
    · rwa [hgrow]
    · have hu := ((hfresh h₁ f hf hs (hwr.longer hgrow)).2 _ (hp.live hl.toLayout) hpc hthree).1
      exact absurd hu (hother.resolve_left hgrow)
  · have hne : g.directoryEntry.fileSizeBytes ≠ f.directoryEntry.fileSizeBytes := by omega
    have hle := ((hfresh h₁ f hf hs (hwr.longer hne)).2 _ (hp.live hl.toLayout) hpc hthree).2
    have hstart := hwr.starts hoff hne
    dsimp only at hle
    exact ⟨by omega, fun _ _ => hsize.ge⟩

omit hl in
theorem ThreeChars.congr {e e' : DirEntry} (he : e'.extension = e.extension) (h : ThreeChars e') :
    ThreeChars e := by
  rwa [ThreeChars, he] at h

omit hl in
theorem FreshCopy.nameGuard {fd : Int} {buf : Buffer} {nbytes : UInt32}
    (h : FreshCopy fs s (.write fd buf nbytes)) : fd ≠ stdoutFiledesc →
      ∀ f, findOpenFileByFd s fd = some f → ¬ isSubdirectory f.directoryEntry.attributes →
      NameGuard fs s.disk (settleOffset f) nbytes.toNat := by
  intro h₁ f hf hs hlt q hq
  rw [settleOffset_directoryEntry, settleOffset_path] at hq
  rw [settleOffset_directoryEntry] at hlt ⊢
  exact (h h₁ f hf hs hlt).1 q hq

/-- No record gets more than the size on the disk. -/
theorem call_copies (h : Integral fs s) (hi : TableInv s) (ha : Anchored fs CopyBelow s)
    (hb : OffsetsBounded s) {c : Call} (hc : FileCall c) (hg : Guard fs s c)
    (hfresh : FreshCopy fs s c) {r : Int} (hcall : call fs s c = some (r, t)) :
    Anchored fs CopyBelow t ∧ OffsetsBounded t := by
  by_cases hw : Harmless c
  · obtain ⟨hk, hr⟩ := call_harmless hl h hw hg hcall
    have hP : ∀ d p, CopyBelow (slotEntry d p) (slotEntry d p) :=
      fun d p => ⟨slotEntry_fileSizeBytes_lt d p, fun _ => Nat.le_refl _⟩
    exact ⟨ha.of_keeps hP hk hr, hr.offsets hb⟩
  obtain ⟨fd, buf, nbytes, rfl⟩ := hc.write_of hw
  obtain ⟨rfl, -⟩ | ⟨f, g, h₁, hf, hs, hwr⟩ := sysWrite_cases hl h hg hfresh.nameGuard hcall
  · exact ⟨ha, hb⟩
  · obtain ⟨hm, rfl⟩ := findOpenFileByFd_mem hf
    obtain ⟨p, hp, hpc, hsz, hle⟩ := ha f hm hs
    have hoff := settleOffset_lt (hb f hm) hsz
    obtain ⟨hgo, hgs⟩ := hwr.bounded hoff hsz
    constructor
    · intro x hx hxs
      rw [hwr.files] at hx
      obtain rfl | ⟨hxm, -⟩ := hi.mem_update hf hx
      · have hkept := hwr.slots p hp
        refine ⟨p, hkept.reach, by rw [hkept.firstCluster, hpc, hwr.entry], hgs, fun hthree => ?_⟩
        have hthree := hthree.congr hkept.extension
        exact (hwr.slot_size hl hoff hfresh h₁ hf hs hp hthree).2 hpc (hle hthree)
      · obtain ⟨q, hq, hqc, hqs, hqle⟩ := ha x hxm hxs
        have hkept := hwr.slots q hq
        refine ⟨q, hkept.reach, by rw [hkept.firstCluster, hqc], hqs, fun hthree => ?_⟩
        have hthree := hthree.congr hkept.extension
        exact (hqle hthree).trans (hwr.slot_size hl hoff hfresh h₁ hf hs hq hthree).1
    · intro x hx
      rw [hwr.files] at hx
      obtain rfl | ⟨hxm, -⟩ := hi.mem_update hf hx
      · exact hgo
      · exact hb x hxm

/-- What one call does to the size of a file with an extension of three characters. -/
theorem call_grows (h : Integral fs s) (ha : Anchored fs CopyBelow s)
    (hb : OffsetsBounded s) {c : Call} (hc : FileCall c) (hg : Guard fs s c)
    (hfresh : FreshCopy fs s c) {r : Int} (hcall : call fs s c = some (r, t)) {p : Slot}
    (hp : Reach (listed fs) s.disk p) (hthree : ThreeChars (slotEntry s.disk p)) :
    Reach (listed fs) t.disk p ∧ SizeGrows s c r (slotEntry s.disk p) (slotEntry t.disk p) := by
  by_cases hw : Harmless c
  · obtain ⟨hk, -⟩ := call_harmless hl h hw hg hcall
    obtain ⟨hp', he⟩ := hk p hp
    refine ⟨hp', by rw [he]; exact id, by rw [he], by rw [he], by rw [he], ?_⟩
    rintro fd buf nbytes rfl
    exact hw.elim
  obtain ⟨fd, buf, nbytes, rfl⟩ := hc.write_of hw
  obtain ⟨rfl, hno⟩ | ⟨f, g, h₁, hf, hs, hwr⟩ := sysWrite_cases hl h hg hfresh.nameGuard hcall
  · refine ⟨hp, id, rfl, rfl, Nat.le_refl _, ?_⟩
    rintro _ _ _ ⟨⟩ h₁ f hf hs
    exact absurd (hno.resolve_left h₁ f hf) hs
  · obtain ⟨hm, rfl⟩ := findOpenFileByFd_mem hf
    obtain ⟨q, hq, hqc, hsz, hle⟩ := ha f hm hs
    have hoff := settleOffset_lt (hb f hm) hsz
    have hkept := hwr.slots p hp
    obtain ⟨hsize, hcopy⟩ := hwr.slot_size hl hoff hfresh h₁ hf hs hp hthree
    have hregular : ¬ isSubdirectory (slotEntry s.disk p).attributes →
        ¬ isSubdirectory (slotEntry t.disk p).attributes := by
      obtain ⟨he, -⟩ | ⟨-, -, he, -⟩ := hkept.entry
      · rw [he]
        exact id
      · rw [he]
        exact fun _ => hs
    refine ⟨hkept.reach, hregular, hkept.extension, hkept.firstCluster, hsize, ?_⟩
    rintro _ _ _ ⟨⟩ - x hx - hxc hr
    obtain rfl : f = x := Option.some.inj (hf.symm.trans hx)
    obtain rfl : q = p := h.slots _ _ hq.to_used hp.to_used (hqc.trans hxc)
    have := hwr.reached hoff hr
    have := hcopy hqc (hle hthree)
    omega

/-- In a run whose calls meet their guards, and whose writes are made with the current size of the
file, no call makes the size of a regular file with an extension of three characters less, and
every write is covered by it. -/
theorem sizes_grow_along {d : Disk} (hd : Sound fs d fun _ => False) {before after : List Call}
    {c : Call} (hc : ∀ a ∈ before ++ c :: after, FileCall a)
    (hg : Along (step fs) (fun s c => Guard fs s c ∧ FreshCopy fs s c) (before ++ c :: after)
      (fileInitialise d)) :
    ∃ s r t, run (step fs) before (fileInitialise d) = some s ∧ call fs s c = some (r, t) ∧
      ∀ g, LiveEntry fs s.disk g → ¬ isSubdirectory g.entry.attributes → ThreeChars g.entry →
        ∃ g', LiveEntry fs t.disk g' ∧ g'.slot = g.slot ∧ SizeGrows s c r g.entry g'.entry := by
  have hfile : Along (step fs) (fun s c => (Guard fs s c ∧ FreshCopy fs s c) ∧ FileCall c)
      before (fileInitialise d) :=
    (along_left hg).and (along_of_inputs (fun a hm _ => hc a (List.mem_append_left _ hm)) _)
  obtain ⟨s, hs, hi, -, ha, hb⟩ := along_reaches
    (fun s => Integral fs s ∧ TableInv s ∧ Anchored fs CopyBelow s ∧ OffsetsBounded s)
    (fun s c ⟨⟨hg, hfresh⟩, hc⟩ ⟨hi, ht, ha, hb⟩ => by
      obtain ⟨r, t, hcall, hit⟩ := call_integral hl hi hg
      exact ⟨t, by rw [step, hcall]; rfl, hit, ht.step (call_table ht hcall),
        call_copies hl hi ht ha hb hc hg hfresh hcall⟩)
    hfile ⟨integral_initial hd, fileInitialise_table d, .initial d,
      fun f hf => absurd hf List.not_mem_nil⟩
  obtain ⟨hnow, hfresh⟩ := (along_append hg hs).2.1
  obtain ⟨r, t, hcall, -⟩ := call_integral hl hi hnow
  refine ⟨s, r, t, hs, hcall, fun g hlive _ hthree => ?_⟩
  obtain ⟨hreach, he⟩ := hlive.listed hl.toLayout hi.dirs.to_listed
  obtain ⟨hreach', hgrows⟩ := call_grows hl hi ha hb (hc c (by simp)) hnow hfresh hcall hreach
    (he ▸ hthree)
  exact ⟨⟨_, g.slot⟩, hreach'.live hl.toLayout, rfl, he ▸ hgrows⟩

end Growth

section Examples

theorem onePath_of_single {s : State} {f : OpenFile} (h : s.openFiles = [f]) : OnePath s := by
  intro a ha b hb _ _ _
  rw [h] at ha hb
  rw [List.mem_singleton.mp ha, List.mem_singleton.mp hb]

theorem makeAndWrite_sizes_agree : Sound smallVolume emptyDisk (fun _ => False) ∧
    ∀ before, before <+: makeAndWrite zeroBuffer →
      ∃ s, run (step smallVolume) before (fileInitialise emptyDisk) = some s ∧
        ∀ f ∈ s.openFiles, ¬ isSubdirectory f.directoryEntry.attributes →
          SizeAgrees smallVolume s.disk f := by
  have hg := makeAndWrite_guarded zeroBuffer
  refine ⟨emptyDisk_sound, sizes_agree_along smallVolume_layout emptyDisk_sound
    (by simp [makeAndWrite, FileCall])
    ⟨⟨hg.1, ?_, trivial⟩, fun t ht => ⟨⟨(hg.2 t ht).1, ?_, ?_⟩, fun _ _ => trivial⟩⟩⟩
  · exact fun f hf => absurd hf List.not_mem_nil
  · exact onePath_of_single (rootPath_made ht).files
  · have hmade := rootPath_made ht
    intro _ f hf _ _
    obtain rfl := hmade.record hf
    exact ⟨by decide, ⟨madeRecord.directoryEntry, ⟨2, 0⟩⟩,
      .root (hmade.root ▸ List.mem_singleton_self _), rfl, hmade.slot⟩

/-- The path `/BB`. -/
def shortPath : CharPtr := [0x2f, 0x42, 0x42]

/-- The record and the entry of `/BB`, to which 40 bytes were written. The extension is blank on
the disk and NULs in the record, so that the slot is not found. -/
def shortRecord : OpenFile :=
  ⟨3, ⟨[0x42, 0x42, 0, 0, 0, 0, 0, 0, 0], [0, 0, 0, 0], 0x00, 3, 40⟩, shortPath, 40, false⟩

def shortEntry : ListEntry :=
  ⟨⟨[0x42, 0x42, 0, 0, 0, 0, 0, 0, 0], [0, 0, 0, 0], 0x00, 3, 0⟩, ⟨2, 0⟩⟩

theorem short_extension_not_updated : Sound smallVolume emptyDisk (fun _ => False) ∧
    ∃ s, run (step smallVolume) [.openCall shortPath 1, .write 3 zeroBuffer 40]
      (fileInitialise emptyDisk) = some s ∧ OnePath s ∧ shortRecord ∈ s.openFiles ∧
      findFile smallVolume s.disk (shortPath.drop 1) (getRootDir smallVolume s.disk) =
        some (some shortEntry) ∧ ¬ SizeAgrees smallVolume s.disk shortRecord := by
  obtain ⟨s, hs⟩ : ∃ s, run (step smallVolume) [.openCall shortPath 1, .write 3 zeroBuffer 40]
    (fileInitialise emptyDisk) = some s := Option.isSome_iff_exists.mp (by decide +kernel)
  have hafter : (run (step smallVolume) [.openCall shortPath 1, .write 3 zeroBuffer 40]
      (fileInitialise emptyDisk)).map (fun s => (s.openFiles,
        findFile smallVolume s.disk (shortPath.drop 1) (getRootDir smallVolume s.disk))) =
      some ([shortRecord], some (some shortEntry)) := by decide +kernel
  rw [hs] at hafter
  simp only [Option.map_some, Option.some.injEq, Prod.mk.injEq] at hafter
  refine ⟨emptyDisk_sound, s, hs, onePath_of_single hafter.1, by simp [hafter.1], hafter.2,
    fun h => ?_⟩
  exact absurd (h.found _ _ hafter.2 rfl) (by decide)

theorem makeAndWrite_sizes_grow :
    ∃ s r t, run (step smallVolume) [.openCall rootPath 1] (fileInitialise emptyDisk) = some s ∧
      call smallVolume s (.write 3 zeroBuffer 40) = some (r, t) ∧
      ∀ g, LiveEntry smallVolume s.disk g → ¬ isSubdirectory g.entry.attributes →
        ThreeChars g.entry → ∃ g', LiveEntry smallVolume t.disk g' ∧ g'.slot = g.slot ∧
          SizeGrows s (.write 3 zeroBuffer 40) r g.entry g'.entry := by
  have hg := makeAndWrite_guarded zeroBuffer
  have hc : ∀ a ∈ [.openCall rootPath 1] ++ [.write 3 zeroBuffer 40], FileCall a := by
    simp [FileCall]
  suffices h : Along (step smallVolume) (fun s c => Guard smallVolume s c ∧
      FreshCopy smallVolume s c) ([.openCall rootPath 1] ++ [.write 3 zeroBuffer 40])
      (fileInitialise emptyDisk) from sizes_grow_along smallVolume_layout emptyDisk_sound hc h
  refine ⟨⟨hg.1, trivial⟩, fun t ht => ⟨⟨(hg.2 t ht).1, ?_⟩, fun _ _ => trivial⟩⟩
  have hmade := rootPath_made ht
  intro _ f hf _ _
  obtain rfl := hmade.record hf
  refine ⟨fun _ _ => by decide, fun g hg _ _ => ?_⟩
  rw [live_single hmade.root (by decide) hg]
  exact ⟨hmade.slot, Or.inl (Nat.le_refl _)⟩

/-- The path `//BB.TXT`, another spelling of `/BB.TXT`. -/
def doublePath : CharPtr := slash :: rootPath

/-- The entry of `/BB.TXT` with a size. -/
def sizedFile (size : Nat) : ListEntry :=
  ⟨{ madeRecord.directoryEntry with fileSizeBytes := size }, ⟨2, 0⟩⟩

/-- Two records of `/BB.TXT`, 40 bytes through one, then 10 through the other: the size on the
disk goes from 40 to 10. -/
theorem second_record_shrinks : Sound smallVolume emptyDisk (fun _ => False) ∧
    ∃ s t, run (step smallVolume) [.openCall rootPath 1, .openCall doublePath 0,
        .write 3 zeroBuffer 40] (fileInitialise emptyDisk) = some s ∧
      call smallVolume s (.write 4 zeroBuffer 10) = some (10, t) ∧
      ThreeChars (sizedFile 40).entry ∧ ¬ isSubdirectory (sizedFile 40).entry.attributes ∧
      LiveEntry smallVolume s.disk (sizedFile 40) ∧
      ∀ g', LiveEntry smallVolume t.disk g' → g'.entry.fileSizeBytes = 10 := by
  obtain ⟨s, hs⟩ : ∃ s, run (step smallVolume) [.openCall rootPath 1, .openCall doublePath 0,
    .write 3 zeroBuffer 40] (fileInitialise emptyDisk) = some s :=
    Option.isSome_iff_exists.mp (by decide +kernel)
  have hbefore : (run (step smallVolume) [.openCall rootPath 1, .openCall doublePath 0,
      .write 3 zeroBuffer 40] (fileInitialise emptyDisk)).map
      (fun s => getRootDir smallVolume s.disk) = some [sizedFile 40] := by decide +kernel
  have hafter : ((run (step smallVolume) [.openCall rootPath 1, .openCall doublePath 0,
      .write 3 zeroBuffer 40] (fileInitialise emptyDisk)).bind
      fun s => call smallVolume s (.write 4 zeroBuffer 10)).map
      (fun r => (r.1, getRootDir smallVolume r.2.disk)) = some (10, [sizedFile 10]) := by
    decide +kernel
  rw [hs] at hbefore hafter
  simp only [Option.map_some, Option.some.injEq, Option.bind_some] at hbefore hafter
  obtain ⟨⟨r, t⟩, hcall, he⟩ := Option.map_eq_some_iff.mp hafter
  obtain ⟨rfl, hroot⟩ := Prod.mk.inj he
  refine ⟨emptyDisk_sound, s, t, hs, hcall, by unfold ThreeChars; decide, by decide,
    .root (hbefore ▸ List.mem_singleton_self _), fun g' hg' => ?_⟩
  rw [live_single hroot (by decide) hg']
  rfl

end Examples
end MalapropOS.Fat
