import MalapropOS.Fat.Integrity

/-! Well-formed volumes, in terms of the listings that the code makes, along runs of system
calls. -/
namespace MalapropOS.Fat
open LinkedChain PartialMachine

/-- The entries that the listings show, from the root directory on. -/
inductive LiveEntry (fs : Fat16) (d : Disk) : ListEntry → Prop
  | root {f : ListEntry} (hf : f ∈ getRootDir fs d) : LiveEntry fs d f
  | child {f g : ListEntry} {dir : List ListEntry} (hf : LiveEntry fs d f)
      (hd : getDir fs d f.entry = some (some dir)) (hg : g ∈ dir) : LiveEntry fs d g

/-- The chain of `c` is `l`: it starts at 2 or above, does not repeat a cluster, and an end mark
follows. -/
structure ChainOf (fs : Fat16) (d : Disk) (c : Nat) (l : List Nat) : Prop where
  start : 2 ≤ c
  nonempty : l ≠ []
  nodup : l.Nodup
  inner : ∀ a ∈ l, a < 0xfff8
  ends : ∃ e, 0xfff8 ≤ e ∧ Path (getSuccessorCluster fs d) c l e

structure WellFormed (fs : Fat16) (d : Disk) : Prop where
  chain : ∀ f, LiveEntry fs d f → ∃ l, ChainOf fs d f.entry.firstCluster l
  apart : ∀ f g l m, LiveEntry fs d f → LiveEntry fs d g → f.slot ≠ g.slot →
    ChainOf fs d f.entry.firstCluster l → ChainOf fs d g.entry.firstCluster m → l.Disjoint m

section Runs
variable {fs : Fat16} {d : Disk} {held : Nat → Prop}

theorem ChainOf.unique {c : Nat} {l l' : List Nat} (h : ChainOf fs d c l)
    (h' : ChainOf fs d c l') : l = l' := by
  obtain ⟨e, he, hp⟩ := h.ends
  obtain ⟨e', he', hp'⟩ := h'.ends
  exact Path.unique (· < 0xfff8) hp hp' h.inner h'.inner (by omega) (by omega)

theorem FileChain.chainOf (hl : Layout fs) {c : Nat} {l : List Nat} (h : FileChain fs d c l) :
    ChainOf fs d c l where
  start := (h.inTable c h.start_mem).1
  nonempty := h.nonempty
  nodup := h.nodup
  inner a ha := by
    have := (h.inTable a ha).2
    have := hl.entries
    omega
  ends := h.ends

theorem LiveEntry.listed (hl : Layout fs) (hv : DirsValid (listed fs) d) {f : ListEntry}
    (h : LiveEntry fs d f) : Listed fs d f := by
  induction h with
  | root hf =>
    rw [getRootDir_eq] at hf
    exact listed_of_mem .root hf
  | @child f g dir _ hd hg ih =>
    obtain he | ⟨l, -, hdir, he⟩ := ih.getDir hl hv
    · rw [hd] at he
      cases he
    · rw [hd] at he
      obtain rfl := Option.some.inj (Option.some.inj he)
      exact listed_of_mem hdir hg

/-- A sound volume is well-formed. -/
theorem Sound.wellFormed (hl : DirLayout fs) (h : Sound fs d held) : WellFormed fs d := by
  have hlive : ∀ f, LiveEntry fs d f → Reach (used fs) d f.slot ∧ f.entry = slotEntry d f.slot :=
    fun f hf => ⟨(hf.listed hl.toLayout h.dirs.to_listed).1.to_used,
      (hf.listed hl.toLayout h.dirs.to_listed).2⟩
  constructor
  · intro f hf
    obtain ⟨hr, he⟩ := hlive f hf
    obtain ⟨l, hc⟩ := h.chain _ (.of_reach hr)
    exact ⟨l, he ▸ hc.chainOf hl.toLayout⟩
  · intro f g l m hf hg hne hlc hmc
    obtain ⟨hr, he⟩ := hlive f hf
    obtain ⟨hr', he'⟩ := hlive g hg
    obtain ⟨l', hl'⟩ := h.chain _ (.of_reach hr)
    obtain ⟨m', hm'⟩ := h.chain _ (.of_reach hr')
    obtain rfl := hlc.unique (he ▸ hl'.chainOf hl.toLayout)
    obtain rfl := hmc.unique (he' ▸ hm'.chainOf hl.toLayout)
    exact h.apart _ _ l m (.of_reach hr) (.of_reach hr') (fun heq => hne (h.slots _ _ hr hr' heq))
      hl' hm'

/-- Every guarded step has a result, which keeps the volume sound. -/
theorem step_integral (hl : DirLayout fs) {s : State} {c : Call} (hg : Guard fs s c)
    (h : Integral fs s) : ∃ t, step fs s c = some t ∧ Integral fs t := by
  obtain ⟨r, t, ht, hi⟩ := call_integral hl h hg
  exact ⟨t, by rw [step, ht]; rfl, hi⟩

theorem integral_initial (h : Sound fs d fun _ => False) : Integral fs (fileInitialise d) := by
  refine h.mono ?_
  rintro c ⟨f, hf, -⟩
  cases hf

/-- From a sound volume, a run whose calls all meet their guards keeps the volume well-formed
after each call. -/
theorem runs_keep_wellFormed (hl : DirLayout fs) (hd : Sound fs d fun _ => False)
    {calls : List Call} (hg : Along (step fs) (Guard fs) calls (fileInitialise d)) :
    ∀ before, before <+: calls →
      ∃ s, run (step fs) before (fileInitialise d) = some s ∧ WellFormed fs s.disk := by
  rintro before ⟨after, rfl⟩
  obtain ⟨s, hs, hi⟩ := along_reaches (Integral fs) (fun s c hg h => step_integral hl hg h)
    (along_left hg) (integral_initial hd)
  exact ⟨s, hs, hi.wellFormed hl⟩

end Runs

section Examples

theorem smallVolume_layout : DirLayout smallVolume where
  even := by decide
  tables := by decide
  entries := by decide
  clusterSize := by decide
  slots := by decide
  reserved := by decide
  rootBehindTable := by decide
  rootFits := by decide

/-- A disk, from the bytes of its first sectors. -/
def diskOf (sectors : List (List UInt8)) : Disk := fun s k => (sectors.getD s []).getD k 0

/-- A slot: two characters of the name, the extension, the attributes and the first cluster. -/
def slotOf (a b x y z attributes cluster size : UInt8) : List UInt8 :=
  [a, b, 0x20, 0x20, 0x20, 0x20, 0x20, 0x20, x, y, z, attributes] ++ List.replicate 14 0 ++
    [cluster, 0, size, 0, 0, 0]

/-- The directory `DD`, in cluster 2, holds the file `AA.TXT`, in cluster 3, and is full. -/
def fullDisk : Disk := diskOf
  [[], [0xf8, 0xff, 0xff, 0xff, 0xff, 0xff, 0xff, 0xff],
    slotOf 0x44 0x44 0x20 0x20 0x20 0x10 2 0, [], slotOf 0x41 0x41 0x54 0x58 0x54 0x00 3 0]

/-- The path `/DD/BB`. -/
def newPath : CharPtr := [0x2f, 0x44, 0x44, 0x2f, 0x42, 0x42]

def fullDirectory : ListEntry :=
  ⟨⟨[0x44, 0x44, 0, 0, 0, 0, 0, 0, 0], [0, 0, 0, 0], 0x10, 2, 0⟩, ⟨2, 0⟩⟩

def oldFile : ListEntry :=
  ⟨⟨[0x41, 0x41, 0, 0, 0, 0, 0, 0, 0], [0x54, 0x58, 0x54, 0], 0x00, 3, 0⟩, ⟨4, 0⟩⟩

def madeFile : ListEntry :=
  ⟨⟨[0x42, 0x42, 0, 0, 0, 0, 0, 0, 0], [0, 0, 0, 0], 0x00, 4, 0⟩, ⟨6, 0⟩⟩

theorem fullDisk_wellFormed : WellFormed smallVolume fullDisk := by
  have hlive : ∀ f, LiveEntry smallVolume fullDisk f → f = fullDirectory ∨ f = oldFile := by
    intro f hf
    induction hf with
    | root hf =>
      rw [show getRootDir smallVolume fullDisk = [fullDirectory] by decide +kernel] at hf
      exact Or.inl (List.mem_singleton.mp hf)
    | child _ hd hg ih =>
      obtain rfl | rfl := ih
      · rw [show getDir smallVolume fullDisk fullDirectory.entry = some (some [oldFile]) by
          decide +kernel] at hd
        obtain rfl := Option.some.inj (Option.some.inj hd)
        exact Or.inr (List.mem_singleton.mp hg)
      · rw [show getDir smallVolume fullDisk oldFile.entry = some none by decide +kernel] at hd
        cases hd
  have h2 : ChainOf smallVolume fullDisk 2 [2] :=
    ⟨by decide, by decide, by decide, by decide, 0xffff, by decide, rfl,
      show getSuccessorCluster smallVolume fullDisk 2 = 0xffff by decide +kernel⟩
  have h3 : ChainOf smallVolume fullDisk 3 [3] :=
    ⟨by decide, by decide, by decide, by decide, 0xffff, by decide, rfl,
      show getSuccessorCluster smallVolume fullDisk 3 = 0xffff by decide +kernel⟩
  constructor
  · intro f hf
    obtain rfl | rfl := hlive f hf
    · exact ⟨[2], h2⟩
    · exact ⟨[3], h3⟩
  · intro f g l m hf hg hne hl hm
    obtain rfl | rfl := hlive f hf
    · obtain rfl | rfl := hlive g hg
      · exact absurd rfl hne
      · rw [hl.unique h2, hm.unique h3]
        simp
    · obtain rfl | rfl := hlive g hg
      · rw [hl.unique h3, hm.unique h2]
        simp
      · exact absurd rfl hne

/-- Making `/DD/BB`: the directory takes cluster 4 as its second, which is also the cluster of the
new file. -/
theorem newFile_crossLinks : WellFormed smallVolume fullDisk ∧
    ∃ s, run (step smallVolume) [.openCall newPath 1] (fileInitialise fullDisk) = some s ∧
      ¬ WellFormed smallVolume s.disk := by
  obtain ⟨s, hs⟩ : ∃ s, run (step smallVolume) [.openCall newPath 1] (fileInitialise fullDisk) =
    some s := Option.isSome_iff_exists.mp (by decide +kernel)
  have hroot : (run (step smallVolume) [.openCall newPath 1] (fileInitialise fullDisk)).map
      (fun s => getRootDir smallVolume s.disk) = some [fullDirectory] := by decide +kernel
  have hdir : (run (step smallVolume) [.openCall newPath 1] (fileInitialise fullDisk)).map
      (fun s => getDir smallVolume s.disk fullDirectory.entry) =
        some (some (some [oldFile, madeFile])) := by decide +kernel
  have hnext : (run (step smallVolume) [.openCall newPath 1] (fileInitialise fullDisk)).map
      (fun s => (getSuccessorCluster smallVolume s.disk 2, getSuccessorCluster smallVolume s.disk 4)) =
        some (4, 0xffff) := by decide +kernel
  rw [hs] at hroot hdir hnext
  simp only [Option.map_some, Option.some.injEq, Prod.mk.injEq] at hroot hdir hnext
  have hd : LiveEntry smallVolume s.disk fullDirectory := .root (by simp [hroot])
  have hf : LiveEntry smallVolume s.disk madeFile := .child hd hdir (by simp)
  refine ⟨fullDisk_wellFormed, s, hs, fun hw => ?_⟩
  refine hw.apart fullDirectory madeFile [2, 4] [4] hd hf (by decide) ?_ ?_ (a := 4) (by simp)
    (by simp)
  · exact ⟨by decide, by decide, by decide, by decide, 0xffff, by decide, rfl, hnext.1.symm,
      hnext.2⟩
  · exact ⟨by decide, by decide, by decide, by decide, 0xffff, by decide, rfl, hnext.2⟩

/-- A volume without files: three entries of the table are taken, as cluster 2 is. -/
def emptyDisk : Disk := diskOf [[], [0xf8, 0xff, 0xff, 0xff, 0xff, 0xff]]

/-- The path `/BB.TXT`. -/
def rootPath : CharPtr := [0x2f, 0x42, 0x42, 0x2e, 0x54, 0x58, 0x54]

/-- A volume whose root directory is empty. -/
theorem sound_of_empty {d : Disk}
    (h : (used smallVolume).slots d (rootSectors smallVolume) = []) :
    Sound smallVolume d fun _ => False := by
  have hdir : ∀ ss, Dir (used smallVolume) d ss → (used smallVolume).slots d ss = [] := by
    intro ss hss
    induction hss with
    | root => exact h
    | sub _ hp _ _ ih =>
      rw [ih] at hp
      cases hp
  have hno : ∀ p, ¬ Reach (used smallVolume) d p := by
    intro p ⟨ss, hss, hp⟩
    rw [hdir ss hss] at hp
    cases hp
  have hhead : ∀ c, ¬ Head smallVolume d (fun _ => False) c := by
    rintro c (hc | ⟨p, hp, -⟩)
    · exact hc
    · exact hno p hp
  exact ⟨fun c hc => absurd hc (hhead c), fun c _ _ _ hc => absurd hc (hhead c),
    fun p _ hp => absurd hp (hno p), fun p hp => absurd hp (hno p)⟩

theorem emptyDisk_sound : Sound smallVolume emptyDisk fun _ => False :=
  sound_of_empty (by decide +kernel)

/-- The only entry of a root directory with one regular file. -/
theorem live_single {d : Disk} {f : ListEntry} (hroot : getRootDir smallVolume d = [f])
    (hs : ¬ isSubdirectory f.entry.attributes) {g : ListEntry} (hg : LiveEntry smallVolume d g) :
    g = f := by
  induction hg with
  | root hf => exact List.mem_singleton.mp (hroot ▸ hf)
  | child _ hd _ ih =>
    rw [ih, getDir, if_neg hs] at hd
    cases hd

/-- A volume with one regular file, in the root directory. -/
structure OneFile (d : Disk) (f : ListEntry) (l : List Nat) : Prop where
  root : getRootDir smallVolume d = [f]
  regular : ¬ isSubdirectory f.entry.attributes
  chain : ChainOf smallVolume d f.entry.firstCluster l

theorem OneFile.wellFormed {d : Disk} {f : ListEntry} {l : List Nat} (h : OneFile d f l) :
    WellFormed smallVolume d := by
  constructor
  · intro g hg
    rw [live_single h.root h.regular hg]
    exact ⟨l, h.chain⟩
  · intro g g' _ _ hg hg' hne
    rw [live_single h.root h.regular hg, live_single h.root h.regular hg'] at hne
    exact absurd rfl hne

/-- Making `/BB.TXT` and writing 40 bytes to it. -/
def makeAndWrite (buf : Buffer) : List Call := [.openCall rootPath 1, .write 3 buf 40]

/-- The record of `/BB.TXT`, once it was made. -/
def madeRecord : OpenFile :=
  ⟨3, ⟨[0x42, 0x42, 0, 0, 0, 0, 0, 0, 0], [0x54, 0x58, 0x54, 0], 0x00, 3, 0⟩, rootPath, 0, false⟩

/-- The state after the first call. -/
structure RootPathMade (t : State) : Prop where
  files : t.openFiles = [madeRecord]
  next : getSuccessorCluster smallVolume t.disk 3 = 0xffff
  root : getRootDir smallVolume t.disk = [⟨madeRecord.directoryEntry, ⟨2, 0⟩⟩]
  entry : slotEntry t.disk ⟨2, 0⟩ = madeRecord.directoryEntry
  slot : updateSlot smallVolume t.disk madeRecord.path madeRecord.directoryEntry.filename
    madeRecord.directoryEntry.extension = some (some ⟨2, 0⟩)

theorem rootPath_made {t : State}
    (ht : step smallVolume (fileInitialise emptyDisk) (.openCall rootPath 1) = some t) :
    RootPathMade t := by
  have hopen : (step smallVolume (fileInitialise emptyDisk) (.openCall rootPath 1)).map
      (fun t => (t.openFiles, getSuccessorCluster smallVolume t.disk 3)) =
      some ([madeRecord], 0xffff) := by decide +kernel
  have hroot : (step smallVolume (fileInitialise emptyDisk) (.openCall rootPath 1)).map
      (fun t => (getRootDir smallVolume t.disk, slotEntry t.disk ⟨2, 0⟩)) =
      some ([⟨madeRecord.directoryEntry, ⟨2, 0⟩⟩], madeRecord.directoryEntry) := by
    decide +kernel
  have hslot : (step smallVolume (fileInitialise emptyDisk) (.openCall rootPath 1)).map
      (fun t => updateSlot smallVolume t.disk madeRecord.path madeRecord.directoryEntry.filename
        madeRecord.directoryEntry.extension) = some (some (some ⟨2, 0⟩)) := by decide +kernel
  rw [ht] at hopen hroot hslot
  simp only [Option.map_some, Option.some.injEq, Prod.mk.injEq] at hopen hroot hslot
  exact ⟨hopen.1, hopen.2, hroot.1, hroot.2, hslot⟩

theorem RootPathMade.record {t : State} (h : RootPathMade t) {f : OpenFile}
    (hf : findOpenFileByFd t 3 = some f) : f = madeRecord :=
  List.mem_singleton.mp (h.files ▸ (findOpenFileByFd_mem hf).1)

theorem rootPath_createGuard : CreateGuard smallVolume emptyDisk rootPath 0x0 where
  full h := absurd (show CharPtr.at (toDirectory rootPath) 0 = 0 by decide) h.1
  free _ _ := by decide +kernel
  blank _ _ h := absurd h (by decide)

theorem makeAndWrite_guarded (buf : Buffer) : Along (step smallVolume) (Guard smallVolume)
    (makeAndWrite buf) (fileInitialise emptyDisk) := by
  refine ⟨fun _ _ _ => rootPath_createGuard, fun t ht => ⟨?_, fun _ _ => trivial⟩⟩
  have hmade := rootPath_made ht
  intro _ f hf _
  obtain rfl := hmade.record hf
  refine ⟨Or.inr ⟨[3], ⟨by decide, by decide, by decide, 0xffff, by decide, rfl, hmade.next⟩,
    by decide⟩, fun _ q hq _ => ?_⟩
  obtain rfl := Option.some.inj (Option.some.inj (hmade.slot.symm.trans hq))
  rw [hmade.entry]
  rfl

theorem makeAndWrite_keeps_wellFormed : Sound smallVolume emptyDisk (fun _ => False) ∧
    ∀ before, before <+: makeAndWrite zeroBuffer →
      ∃ s, run (step smallVolume) before (fileInitialise emptyDisk) = some s ∧
        WellFormed smallVolume s.disk :=
  ⟨emptyDisk_sound,
    runs_keep_wellFormed smallVolume_layout emptyDisk_sound (makeAndWrite_guarded zeroBuffer)⟩

end Examples
end MalapropOS.Fat
