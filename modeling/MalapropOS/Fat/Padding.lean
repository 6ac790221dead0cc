import MalapropOS.Fat.Names

/-! What a write that makes a file longer leaves of the slot of the file. The slot is stored again from
the entry as it was read, without its padding, and only a slot without padding would stay as it is:
but a file without padding cannot be opened. -/
namespace MalapropOS.Fat
open PartialMachine

/-- A name that a part of a path can have. -/
def Nameable (e : DirEntry) : Prop := ∃ part, entryNamed (splitFilename part) e

/-- Each record is that of a directory, or was found by its name. -/
def Openable (s : State) : Prop :=
  ∀ f ∈ s.openFiles, isSubdirectory f.directoryEntry.attributes ∨ Nameable f.directoryEntry

/-- Of the slot only the size is another one, and it is as given. -/
structure SizeOnly (d d' : Disk) (p : Slot) (size : Nat) : Prop where
  kept : ∀ k < 0x1c, d' p.sector (p.index + k) = d p.sector (p.index + k)
  size : (slotEntry d' p).fileSizeBytes = size

/-- A write of `n` bytes that makes the file in the slot `p` longer. No byte of its name is a NUL, and
the data goes to no directory. -/
structure GrowingWrite (fs : Fat16) (s t : State) (fd : Int) (buf : Buffer) (nbytes n : Nat)
    (f : OpenFile) (p : Slot) : Prop where
  result : sysWrite fs s fd buf nbytes = some ((n : Int), t)
  notStdout : fd ≠ stdoutFiledesc
  opened : findOpenFileByFd s fd = some f
  regular : ¬ isSubdirectory f.directoryEntry.attributes
  reached : Reach (listed fs) s.disk p
  filename : f.directoryEntry.filename = (slotEntry s.disk p).filename
  extension : f.directoryEntry.extension = (slotEntry s.disk p).extension
  plain : ∀ k < 0x0b, s.disk p.sector (p.index + k) ≠ 0x00
  grows : (slotEntry s.disk p).fileSizeBytes < (settleOffset f).offset + n
  data : SameDirs (listed fs) s.disk (writeToFile fs s.disk f.directoryEntry.firstCluster
    (settleOffset f).offset buf nbytes).1

section Openable
variable {fs : Fat16} {s t : State}

/-- What a loop returns was returned by a round, unless it is what the loop started with. -/
theorem foldlM_source {α β : Type} {F : β → α → Option β} {P : β → Prop} {l : List α} {b r : β}
    (hb : P b) (hF : ∀ a ∈ l, ∀ b r, P b → F b a = some r → P r) (h : l.foldlM F b = some r) : P r := by
  induction l generalizing b with
  | nil => exact Option.some.inj h ▸ hb
  | cons a l ih =>
    rw [List.foldlM_cons] at h
    obtain ⟨c, hc, h⟩ := Option.bind_eq_some_iff.mp h
    exact ih (hF a (by simp) b c hb hc) (fun x hx => hF x (by simp [hx])) h

/-- What is found passes the test of the last part. -/
theorem resolveFuel_last {d : Disk} {last inner : CharPtr → DirEntry → Bool} {fuel : Nat}
    {pathname : CharPtr} {dir : List ListEntry} {r : Option ListEntry}
    (h : resolveFuel fs d last inner fuel pathname dir = some r) :
    ∀ f ∈ r, ∃ part, last part f.entry := by
  induction fuel generalizing pathname dir r with
  | zero =>
    obtain rfl := Option.some.inj h
    simp
  | succ fuel ih =>
    rw [resolveFuel] at h
    rcases hparts : splitPath pathname with _ | ⟨part, _ | ⟨next, rest⟩⟩
    · rw [hparts] at h
      obtain rfl := Option.some.inj h
      simp
    · rw [hparts] at h
      intro f hf
      have hfind : dir.find? (fun f => last part f.entry) = some f := (Option.some.inj h).trans hf
      have hlast := List.find?_some hfind
      exact ⟨part, hlast⟩
    · rw [hparts] at h
      refine foldlM_source (P := fun r => ∀ f ∈ r, ∃ part, last part f.entry) (by simp)
        (fun f _ b r hb hr => ?_) h
      by_cases hi : inner part f.entry
      · rw [if_pos hi] at hr
        obtain ⟨next, hd, hr⟩ := Option.bind_eq_some_iff.mp hr
        cases next with
        | none => exact Option.some.inj hr ▸ hb
        | some dir => exact ih hr
      · rw [if_neg hi] at hr
        exact Option.some.inj hr ▸ hb

theorem findFile_nameable {d : Disk} {pathname : CharPtr} {dir : List ListEntry} {f : ListEntry}
    (h : findFile fs d pathname dir = some (some f)) : Nameable f.entry :=
  resolveFuel_last h f rfl

theorem Openable.of_subset (h : Openable s) (hsub : ∀ f ∈ t.openFiles, f ∈ s.openFiles) : Openable t :=
  fun f hf => h f (hsub f hf)

/-- A change of one record that keeps its name and its attributes. -/
theorem Openable.of_update (h : Openable s) {fd : Int} {g : OpenFile → OpenFile}
    (hf : t.openFiles = updateOpenFile fd g s.openFiles)
    (hg : ∀ f ∈ s.openFiles, isSubdirectory (g f).directoryEntry.attributes ∨
      Nameable (g f).directoryEntry) : Openable t := by
  intro f hm
  rw [hf] at hm
  cases mem_updateOpenFile hm with
  | inl hm => exact h f hm
  | inr hm =>
    obtain ⟨f₀, hf₀, rfl⟩ := hm
    exact hg f₀ hf₀

theorem openFile_openable (h : Openable s) {pathname : CharPtr} {o : Option OpenFile}
    (ho : openFile fs s pathname = some (o, t)) : Openable t := by
  cases openFile_cases ho with
  | inl hnone => exact hnone.2 ▸ h
  | inr hsome =>
    obtain ⟨e, -, rfl, he⟩ := hsome
    intro f hf
    cases List.mem_append.mp hf with
    | inl hf => exact h f hf
    | inr hf =>
      rw [List.mem_singleton.mp hf]
      refine he.imp_right fun hfile => ?_
      obtain ⟨file, rfl, hfound⟩ := hfile
      exact findFile_nameable hfound

theorem OffsetEffect.openable {fd : Int} (he : OffsetEffect s fd t) (h : Openable s) :
    Openable t := by
  cases he with
  | kept _ files => exact h.of_subset fun _ hf => files ▸ hf
  | moved => exact h.of_update rfl fun f hf => h f hf

theorem finishOpen_openable (h : Openable s) (f : OpenFile) (flags : Nat) :
    Openable (finishOpen s f flags).2 :=
  h.of_update rfl fun f hf => h f hf

theorem writeAtOffset_openable (h : Openable s) {f : OpenFile} {buf : Buffer} {nbytes : Nat} {r : Int}
    (hf : isSubdirectory f.directoryEntry.attributes ∨ Nameable f.directoryEntry)
    (hw : writeAtOffset fs s f buf nbytes = some (r, t)) : Openable t := by
  unfold writeAtOffset at hw
  dsimp only at hw
  split_ifs at hw
  · obtain ⟨rfl, rfl⟩ := Prod.mk.inj (Option.some.inj hw)
    exact h.of_update rfl fun _ _ => hf
  · obtain ⟨⟨u, d⟩, -, hw⟩ := Option.bind_eq_some_iff.mp hw
    obtain ⟨rfl, rfl⟩ := Prod.mk.inj (Option.some.inj hw)
    exact h.of_update rfl fun _ _ => hf
  · obtain ⟨rfl, rfl⟩ := Prod.mk.inj (Option.some.inj hw)
    exact h.of_update rfl fun _ _ => hf

variable (s) in
theorem sysClose_subset (fd : Int) : ∀ f ∈ (sysClose s fd).2.openFiles, f ∈ s.openFiles := by
  unfold sysClose
  cases findOpenFileByFd s fd with
  | none => exact fun _ => id
  | some f => exact fun _ => List.mem_of_mem_eraseP

theorem call_openable (h : Openable s) {c : Call} {r : Int} (hc : call fs s c = some (r, t)) :
    Openable t := by
  cases c with
  | openCall pathname flags =>
    have hc : sysOpen fs s pathname flags.toNat = some (r, t) := hc
    cases sysOpen_effect hc with
    | known => exact finishOpen_openable h _ _
    | opened _ found => exact finishOpen_openable (openFile_openable h found) _ _
    | missing => exact h
    | failed => exact h
    | @made result d _ _ _ _ _ _ found =>
      have hd : Openable { s with disk := d } := h
      exact finishOpen_openable (openFile_openable hd found) _ _
  | mkdir path =>
    have hc : sysMkdir fs s path = some (r, t) := hc
    cases sysMkdir_cases hc with
    | inl hsame => exact hsame ▸ h
    | inr hmade =>
      obtain ⟨-, -, -, d, -, rfl⟩ := hmade
      exact h
  | write fd buf nbytes =>
    have hc : sysWrite fs s fd buf nbytes.toNat = some (r, t) := hc
    unfold sysWrite at hc
    split_ifs at hc
    · obtain ⟨rfl, rfl⟩ := Prod.mk.inj (Option.some.inj hc)
      exact h
    · cases hf : findOpenFileByFd s fd with
      | none =>
        rw [hf] at hc
        obtain ⟨rfl, rfl⟩ := Prod.mk.inj (Option.some.inj hc)
        exact h
      | some f =>
        simp only [hf] at hc
        split_ifs at hc
        · obtain ⟨rfl, rfl⟩ := Prod.mk.inj (Option.some.inj hc)
          exact h
        · have hmem := h f (findOpenFileByFd_mem hf).1
          exact writeAtOffset_openable h (by rwa [settleOffset_directoryEntry]) hc
  | read fd buf nbytes =>
    obtain ⟨rfl, rfl⟩ := Prod.mk.inj (Option.some.inj hc)
    exact (sysRead_effect fs s fd buf nbytes.toNat).openable h
  | lseek fd offset whence =>
    obtain ⟨rfl, rfl⟩ := Prod.mk.inj (Option.some.inj hc)
    exact (sysLseek_effect s fd offset whence).openable h
  | close fd =>
    obtain ⟨rfl, rfl⟩ := Prod.mk.inj (Option.some.inj hc)
    exact h.of_subset (sysClose_subset s fd)
  | unlink pathname =>
    have hc : sysUnlink fs s pathname = some (r, t) := hc
    exact h.of_subset fun _ hf => (sysUnlink_files hc).1 ▸ hf

/-- Every record of a run has a name, unless it is that of a directory. -/
theorem run_openable {d : Disk} {calls : List Call}
    (h : run (step fs) calls (fileInitialise d) = some t) : Openable t := by
  refine run_invariant Openable (fun s c t hs hc => ?_) ?_ h
  · obtain ⟨⟨r, u⟩, hcall, rfl⟩ := Option.map_eq_some_iff.mp hc
    exact call_openable hs hcall
  · exact fun f hf => absurd hf List.not_mem_nil

end Openable

section Padding
variable {fs : Fat16} {s t : State} {fd : Int} {buf : Buffer} {nbytes n : Nat} {f : OpenFile}
  {p : Slot}

/-- A slot whose name and extension fill their arrays has no name that a part of a path can have. -/
theorem not_nameable {e : DirEntry} (hname : (cstr e.filename).length = 8)
    (hext : (cstr e.extension).length = 3) : ¬ Nameable e := by
  intro h
  obtain ⟨part, hpart⟩ := h
  obtain ⟨hn, he⟩ := entryNamed_iff.mp hpart
  have hlen := congrArg List.length hn
  rw [← he, cstr_of_no_nul extension_no_nul] at hext
  rw [cstr_name, List.length_append, hname] at hlen
  split_ifs at hlen with hshort
  · rw [List.length_nil] at hlen
    omega
  · omega

theorem at_decodeChars (x : Buffer) (i : Nat) {n k : Nat} (hk : k < n) :
    CharPtr.at (decodeChars x i n ++ [0]) k = decodeChar (x (i + k)) := by
  rw [CharPtr.at, List.getD_append _ _ _ _ (by simpa [decodeChars] using hk)]
  simp [decodeChars, decodeChar, hk]

theorem at_filename {d : Disk} (h₅ : d p.sector p.index ≠ 0x05) {k : Nat} (hk : k < 8) :
    CharPtr.at (slotEntry d p).filename k = decodeChar (d p.sector (p.index + k)) := by
  rw [slotEntry, decodeEntry, if_neg h₅, at_decodeChars _ _ hk]

theorem entryByte_filename {e : DirEntry} {k : Nat} (hk : k < 8) :
    entryByte e (CharPtr.at e.filename 0) k = some (CharPtr.at e.filename k) := by
  rw [entryByte]
  split_ifs with h₀
  · rw [h₀]
  · rfl

theorem cstr_decodeChars {x : Buffer} {i n : Nat}
    (h : ∀ k < n, x (i + k) ≠ 0x00 ∧ x (i + k) ≠ 0x20) :
    (cstr (decodeChars x i n ++ [0])).length = n := by
  have hno : (0 : UInt8) ∉ decodeChars x i n := by
    intro hm
    obtain ⟨k, hk, he⟩ := List.mem_map.mp hm
    obtain ⟨h₀, hb⟩ := h k (List.mem_range.mp hk)
    rw [if_neg hb] at he
    exact h₀ he
  rw [cstr_append hno, List.length_append, decodeChars, List.length_map, List.length_range]
  rfl

/-- Where the raw search finds a slot by the entry that was read from it, the first byte is not 0x05,
and the extension has no padding. -/
theorem match_of_read {d : Disk}
    (h : SlotMatch (slotEntry d p).filename (slotEntry d p).extension
      fun k => d p.sector (p.index + k)) :
    d p.sector p.index ≠ 0x05 ∧ ∀ j < 3, d p.sector (p.index + (0x08 + j)) ≠ 0x20 := by
  constructor
  · intro h₅
    have hfirst : CharPtr.at (slotEntry d p).filename 0 = 0xe5 := by
      rw [slotEntry, decodeEntry, if_pos h₅]
      rfl
    cases h.first with
    | inl heq => exact absurd (h₅.symm.trans (heq.trans hfirst)) (by decide)
    | inr hblank => exact absurd (h₅.symm.trans hblank.1) (by decide)
  · intro j hj hb
    have heq := h.extension j hj
    rw [slotEntry, decodeEntry, at_decodeChars _ _ hj, Nat.add_assoc, decodeChar, if_pos hb, hb]
      at heq
    exact absurd heq (by decide)

/-- After its data, a write stores the entry in the slot that is found, or nothing. -/
theorem GrowingWrite.disk (hl : DirLayout fs) (hv : DirsValid (listed fs) s.disk)
    (h : GrowingWrite fs s t fd buf nbytes n f p) :
    let d := (writeToFile fs s.disk f.directoryEntry.firstCluster (settleOffset f).offset buf
      nbytes).1
    t.disk = d ∨ ∃ q e, updateSlot fs d f.path f.directoryEntry.filename f.directoryEntry.extension =
        some (some q) ∧ e.filename = f.directoryEntry.filename ∧
        t.disk = writeSlot d q e (CharPtr.at e.filename 0) := by
  have hw := h.result
  rw [sysWrite, if_neg h.notStdout, h.opened] at hw
  dsimp only at hw
  rw [if_neg h.regular, writeAtOffset, settleOffset_directoryEntry, settleOffset_path] at hw
  dsimp only at hw ⊢
  split_ifs at hw
  · exact absurd (Prod.mk.inj (Option.some.inj hw)).1 (by omega)
  · obtain ⟨⟨u, d'⟩, hu, hw⟩ := Option.bind_eq_some_iff.mp hw
    obtain rfl := (Prod.mk.inj (Option.some.inj hw)).2
    rw [updateFileDetails_eq hl (h.data.valid hl.toLayout hv)] at hu
    obtain ⟨o, hslot, ho⟩ := Option.map_eq_some_iff.mp hu
    cases o with
    | none => exact Or.inl (Prod.mk.inj ho).2.symm
    | some q =>
      refine Or.inr ⟨q, _, hslot, ?_, (Prod.mk.inj ho).2.symm⟩
      rfl
  · obtain rfl := (Prod.mk.inj (Option.some.inj hw)).2
    exact Or.inl rfl

/-- No write that makes a file longer leaves the rest of its slot as it is. -/
theorem growing_write_changes_name (hl : DirLayout fs) {d : Disk} {calls : List Call}
    (hrun : run (step fs) calls (fileInitialise d) = some s) (hv : DirsValid (listed fs) s.disk)
    (h : GrowingWrite fs s t fd buf nbytes n f p) :
    ¬ SizeOnly s.disk t.disk p ((settleOffset f).offset + n) := by
  intro hsize
  obtain ⟨ss, hss, hp⟩ := h.reached
  have hps : p ∈ slotsOf fs ss := (listed fs).subset _ _ hp
  have hisSlot : IsSlot fs p := hss.isSlot hl hps
  have hkept := fun k (hk : k < 32) => h.data.slot hss hps hk
  -- a slot that is not written keeps its size
  have hsame : (∀ k < 32, t.disk p.sector (p.index + k) = s.disk p.sector (p.index + k)) → False := by
    intro hbytes
    have he : slotEntry t.disk p = slotEntry s.disk p := decodeEntry_congr hbytes
    have hgrown := hsize.size
    rw [he] at hgrown
    exact h.grows.ne hgrown
  cases h.disk hl hv with
  | inl hdisk => exact hsame fun k hk => by rw [hdisk, hkept k hk]
  | inr hstored =>
    obtain ⟨q, e, hslot, hname, hdisk⟩ := hstored
    obtain ⟨o, ho, hfound⟩ := updateSlot_ends hl (h.data.valid hl.toLayout hv) f.path
      f.directoryEntry.filename f.directoryEntry.extension
    obtain rfl := Option.some.inj (hslot.symm.trans ho)
    obtain ⟨hq, hmatch⟩ := hfound q rfl
    by_cases hpq : p = q
    · subst hpq
      have he : slotEntry _ p = slotEntry s.disk p := h.data.entry_eq hss hps
      rw [h.filename, h.extension, ← he] at hmatch
      obtain ⟨h₅, hext⟩ := match_of_read hmatch
      have hfirst := hkept 0 (by decide)
      rw [Nat.add_zero] at hfirst
      rw [hfirst] at h₅
      -- a byte of the name that is stored as it was is not a blank
      have hblank : ∀ k < 8, s.disk p.sector (p.index + k) ≠ 0x20 := by
        intro k hk hb
        have hbyte := hsize.kept k (by omega)
        rw [hdisk, writeSlot_byte (entryByte_filename hk), hname, h.filename,
          at_filename h₅ hk, decodeChar, if_pos hb, hb] at hbyte
        exact absurd hbyte (by decide)
      have hopen := (run_openable hrun f (findOpenFileByFd_mem h.opened).1).resolve_left h.regular
      refine not_nameable ?_ ?_ hopen
      · rw [h.filename, slotEntry, decodeEntry, if_neg h₅]
        exact cstr_decodeChars fun k hk => ⟨h.plain k (by omega), hblank k hk⟩
      · rw [h.extension, slotEntry, decodeEntry]
        refine cstr_decodeChars fun j hj => ?_
        rw [Nat.add_assoc]
        exact ⟨h.plain _ (by omega), hkept (0x08 + j) (by omega) ▸ hext j hj⟩
    · exact hsame fun k hk => by rw [hdisk, writeSlot_other hq hisSlot hpq hk, hkept k hk]

end Padding

section Examples

/-- What the file `/BB.TXT` is like once it was made. -/
structure MadeRoot (s : State) : Prop where
  slots : liveSlots smallVolume s.disk (rootSectors smallVolume) = [⟨2, 0⟩]
  plain : ∀ k < 0x0b, s.disk 2 (0 + k) ≠ 0x00
  data : ∀ a ∈ rootSectors smallVolume, ∀ k < 32,
    (writeToFile smallVolume s.disk 3 0 zeroBuffer 1).1 a k = s.disk a k

theorem rootPath_madeRoot {s : State}
    (hs : step smallVolume (fileInitialise emptyDisk) (.openCall rootPath 1) = some s) :
    MadeRoot s := by
  have hslots : (step smallVolume (fileInitialise emptyDisk) (.openCall rootPath 1)).map
      (fun s => liveSlots smallVolume s.disk (rootSectors smallVolume)) = some [⟨2, 0⟩] := by
    decide +kernel
  have hplain : (step smallVolume (fileInitialise emptyDisk) (.openCall rootPath 1)).map
      (fun s => (List.range 0x0b).all fun k => s.disk 2 (0 + k) ≠ 0x00) = some true := by
    decide +kernel
  have hdata : (step smallVolume (fileInitialise emptyDisk) (.openCall rootPath 1)).map
      (fun s => (rootSectors smallVolume).all fun a => (List.range 32).all fun k =>
        (writeToFile smallVolume s.disk 3 0 zeroBuffer 1).1 a k = s.disk a k) = some true := by
    decide +kernel
  rw [hs, Option.map_some, Option.some.injEq] at hslots hplain hdata
  exact ⟨hslots, by simpa using hplain, by simpa using hdata⟩

/-- There is no directory but the root directory. -/
theorem MadeRoot.dir {s : State} (h : MadeRoot s) (hr : RootPathMade s) {ss : List Nat}
    (hss : Dir (listed smallVolume) s.disk ss) : ss = rootSectors smallVolume := by
  induction hss with
  | root => rfl
  | @sub ss l p _ hp hsub _ ih =>
    have hp : p ∈ liveSlots smallVolume s.disk ss := hp
    rw [ih, h.slots, List.mem_singleton] at hp
    rw [hp, hr.entry] at hsub
    exact absurd hsub (by decide)

/-- Nothing but the file is listed. -/
theorem MadeRoot.regular {s : State} (h : MadeRoot s) (hr : RootPathMade s) {ss : List Nat}
    (hss : Dir (listed smallVolume) s.disk ss) {p : Slot}
    (hp : p ∈ (listed smallVolume).slots s.disk ss) :
    ¬ isSubdirectory (slotEntry s.disk p).attributes := by
  have hp : p ∈ liveSlots smallVolume s.disk ss := hp
  rw [h.dir hr hss, h.slots, List.mem_singleton] at hp
  rw [hp, hr.entry]
  decide

/-- A byte is written to the file. -/
theorem madeFile_grows {s t : State}
    (hs : step smallVolume (fileInitialise emptyDisk) (.openCall rootPath 1) = some s)
    (ht : sysWrite smallVolume s 3 zeroBuffer 1 = some (1, t)) :
    GrowingWrite smallVolume s t 3 zeroBuffer 1 1 madeRecord ⟨2, 0⟩ := by
  have hr := rootPath_made hs
  have hm := rootPath_madeRoot hs
  have hslot : ⟨2, 0⟩ ∈ liveSlots smallVolume s.disk (rootSectors smallVolume) := by simp [hm.slots]
  refine ⟨ht, by decide, ?_, by decide, ⟨_, .root, hslot⟩, ?_, ?_, hm.plain, ?_, ?_, ?_⟩
  · rw [findOpenFileByFd, hr.files]
    rfl
  · rw [hr.entry]
  · rw [hr.entry]
  · rw [hr.entry]
    decide
  · intro ss hss a ha
    rw [hm.dir hr hss] at ha
    exact hm.data a ha
  · intro p l hp hsub
    obtain ⟨ss, hss, hp⟩ := hp
    exact absurd hsub (hm.regular hr hss hp)

theorem madeFile_loses_padding : ∃ s t,
    run (step smallVolume) [.openCall rootPath 1] (fileInitialise emptyDisk) = some s ∧
      sysWrite smallVolume s 3 zeroBuffer 1 = some (1, t) ∧
      ¬ SizeOnly s.disk t.disk ⟨2, 0⟩ ((settleOffset madeRecord).offset + 1) := by
  have hres : ((run (step smallVolume) [.openCall rootPath 1] (fileInitialise emptyDisk)).bind
      fun s => (sysWrite smallVolume s 3 zeroBuffer 1).map Prod.fst) = some 1 := by decide +kernel
  obtain ⟨s, hs, hres⟩ := Option.bind_eq_some_iff.mp hres
  obtain ⟨⟨r, t⟩, ht, hr⟩ := Option.map_eq_some_iff.mp hres
  obtain rfl : r = 1 := hr
  obtain ⟨u, hstep, hu⟩ := run_cons hs
  obtain rfl : u = s := Option.some.inj hu
  have hv : DirsValid (listed smallVolume) u.disk := by
    intro p hp hsub
    obtain ⟨ss, hss, hp⟩ := hp
    exact absurd hsub ((rootPath_madeRoot hstep).regular (rootPath_made hstep) hss hp)
  exact ⟨u, t, hs, ht, growing_write_changes_name smallVolume_layout hs hv
    (madeFile_grows hstep ht)⟩

/-- The third byte of the name, a blank, is a NUL afterwards. -/
theorem blank_becomes_nul : ∃ s t,
    run (step smallVolume) [.openCall rootPath 1] (fileInitialise emptyDisk) = some s ∧
      sysWrite smallVolume s 3 zeroBuffer 1 = some (1, t) ∧ s.disk 2 2 = 0x20 ∧ t.disk 2 2 = 0x00 ∧
      ¬ SizeOnly s.disk t.disk ⟨2, 0⟩ 1 := by
  have hres : ((run (step smallVolume) [.openCall rootPath 1] (fileInitialise emptyDisk)).bind
      fun s => (sysWrite smallVolume s 3 zeroBuffer 1).map fun r =>
        (r.1, s.disk 2 2, r.2.disk 2 2)) = some (1, 0x20, 0x00) := by decide +kernel
  obtain ⟨s, hs, hres⟩ := Option.bind_eq_some_iff.mp hres
  obtain ⟨⟨r, t⟩, ht, hres⟩ := Option.map_eq_some_iff.mp hres
  simp only [Prod.mk.injEq] at hres
  obtain ⟨rfl, hbefore, hafter⟩ := hres
  refine ⟨s, t, hs, ht, hbefore, hafter, fun h => ?_⟩
  have hkept := h.kept 2 (by decide)
  rw [show (2 : Nat) = 0 + 2 from rfl] at hbefore hafter
  exact absurd (hafter.symm.trans (hkept.trans hbefore)) (by decide)

end Examples
end MalapropOS.Fat
