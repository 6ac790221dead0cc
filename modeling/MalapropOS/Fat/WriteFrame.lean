import MalapropOS.Fat.WellFormed

/-! What `sys_write` leaves alone. -/
namespace MalapropOS.Fat
open LinkedChain PartialMachine

/-- The cluster `a` is in the chain of `c`, whatever this chain ends in. -/
def Belongs (fs : Fat16) (d : Disk) (c a : Nat) : Prop :=
  ∃ l e, Path (getSuccessorCluster fs d) c l e ∧ (∀ b ∈ l, InChain b) ∧ a ∈ l

/-- A byte of the slot of the file whose first cluster is `c`. -/
def OwnSlot (fs : Fat16) (d : Disk) (c s k : Nat) : Prop :=
  ∃ g, LiveEntry fs d g ∧ g.entry.firstCluster = c ∧ s = g.slot.sector ∧ g.slot.index ≤ k ∧
    k < g.slot.index + 32

/-- The disks before and after a write to the file whose first cluster is `c`. What changes is
in a cluster of the file, or one that was free and now is the file's, in the table entries of
these clusters, or in the slot of the file. Other files, the reserved sectors and the root
directory are as they were. -/
structure WriteFrame (fs : Fat16) (d d' : Disk) (c : Nat) : Prop where
  own : ∀ s k, d' s k ≠ d s k →
    (∃ a, (Belongs fs d c a ∨ getSuccessorCluster fs d a = 0 ∧ Belongs fs d' c a) ∧
      (DataByte fs a s k ∨ FatByte fs a s k)) ∨ OwnSlot fs d c s k
  other : ∀ g, LiveEntry fs d g → g.entry.firstCluster ≠ c →
    (∀ a, Belongs fs d g.entry.firstCluster a → ∀ s k, DataByte fs a s k ∨ FatByte fs a s k →
      ¬ OwnSlot fs d c s k → d' s k = d s k) ∧
    ∀ k < 32, d' g.slot.sector (g.slot.index + k) = d g.slot.sector (g.slot.index + k)
  fixed : ∀ s k, s < (calculateRegions fs).dataRegionStart →
    s < fs.numReservedSectors ∨
      fs.numReservedSectors + fs.numSectorsPerFileAllocationTable ≤ s →
    ¬ OwnSlot fs d c s k → d' s k = d s k

/-- The slot that gets the new size of the file is the file's own. -/
def OwnSlotGuard (fs : Fat16) (s : State) : Call → Prop
  | .write fd _ nbytes => fd ≠ stdoutFiledesc → ∀ f, findOpenFileByFd s fd = some f →
      ¬ isSubdirectory f.directoryEntry.attributes →
      f.directoryEntry.fileSizeBytes < (settleOffset f).offset + nbytes.toNat →
      ∀ q, updateSlot fs s.disk f.path f.directoryEntry.filename f.directoryEntry.extension =
        some (some q) →
      ∃ g, LiveEntry fs s.disk g ∧ g.slot = q ∧
        g.entry.firstCluster = f.directoryEntry.firstCluster
  | _ => True

section Frame
variable {fs : Fat16} (hl : DirLayout fs)
include hl

theorem FileChain.belongs_iff {d : Disk} {c a : Nat} {l : List Nat} (hc : FileChain fs d c l) :
    Belongs fs d c a ↔ a ∈ l := by
  obtain ⟨e, he, hp⟩ := hc.ends
  constructor
  · intro ⟨m, e', hm, hin, ha⟩
    exact (Path.isPrefix InChain hm hp hin (fun h => by have := h.2; omega)).subset ha
  · exact fun ha => ⟨l, e, hp, fun b hb => hc.inChain hl.toLayout hb, ha⟩

section Changes
variable {d d' : Disk} {held : Nat → Prop} {c : Nat} {l l' : List Nat} (h : Sound fs d held)
  (hc : held c) (hch : FileChain fs d c l) (hch' : FileChain fs d' c l')
  (hnew : ∀ a ∈ l', a ∈ l ∨ getSuccessorCluster fs d a = 0)
  (hchg : ∀ s k, d' s k ≠ d s k → (∃ a ∈ l', DataByte fs a s k ∨ FatByte fs a s k) ∨
    OwnSlot fs d c s k)
include h hc hch hnew

omit hl in
/-- The chains of other files have no cluster of the file. -/
theorem Sound.disjoint_written {a : Nat} {m : List Nat} (ha : Head fs d held a) (hne : a ≠ c)
    (hm : FileChain fs d a m) : m.Disjoint l' := by
  intro b hb hb'
  cases hnew b hb' with
  | inl hb' => exact h.apart a c m l ha (Or.inl hc) hne hm hch hb hb'
  | inr hb' => exact hm.successor_ne_zero b hb hb'

include hch' hchg

theorem WriteFrame.cluster_kept {g : ListEntry} (hg : LiveEntry fs d g)
    (hne : g.entry.firstCluster ≠ c) {a : Nat} (ha : Belongs fs d g.entry.firstCluster a)
    {s k : Nat} (hb : DataByte fs a s k ∨ FatByte fs a s k) (hns : ¬ OwnSlot fs d c s k) :
    d' s k = d s k := by
  obtain ⟨hr, he⟩ := hg.listed hl.toLayout h.dirs.to_listed
  have hhead : Head fs d held g.entry.firstCluster := he ▸ .of_reach hr.to_used
  obtain ⟨m, hm⟩ := h.chain _ hhead
  have hdis := h.disjoint_written hc hch hnew hhead hne hm
  rw [hm.belongs_iff hl] at ha
  by_contra hchd
  obtain ⟨b, hb', hbb⟩ := (hchg s k hchd).resolve_right hns
  have ha2 := hm.inTable a ha
  have hb2 := hch'.inTable b hb'
  cases hb with
  | inl hb =>
    cases hbb with
    | inl hbb => exact hdis ha (DataByte.unique ha2.1 hb2.1 hb hbb ▸ hb')
    | inr hbb => exact hbb.not_data hl.geometry hb2.2 hb
  | inr hb =>
    cases hbb with
    | inl hbb => exact hb.not_data hl.geometry ha2.2 hbb
    | inr hbb => exact hdis ha (hb.unique hl.geometry hbb ▸ hb')

theorem WriteFrame.slot_kept {g : ListEntry} (hg : LiveEntry fs d g)
    (hne : g.entry.firstCluster ≠ c) {k : Nat} (hk : k < 32) :
    d' g.slot.sector (g.slot.index + k) = d g.slot.sector (g.slot.index + k) := by
  obtain ⟨hr, he⟩ := hg.listed hl.toLayout h.dirs.to_listed
  by_contra hchd
  obtain ⟨ss, hss, hp⟩ := hr.to_used
  have hp := (used fs).subset _ _ hp
  have hs := (mem_slotsOf.mp hp).1
  obtain ⟨b, hb', hbb | hbb⟩ | ⟨g', hg', hc', hs', hle, hlt⟩ := hchg _ _ hchd
  · obtain ⟨p, m', hp', hsub, hm', hbm⟩ := hss.dataByte hl hs (hch'.inTable b hb').1 hbb
    have hpc : (slotEntry d p).firstCluster ≠ c := fun hpc => h.regular p hp' (hpc ▸ hc) hsub
    exact h.disjoint_written hc hch hnew (.of_reach hp') hpc hm' hbm hb'
  · exact hss.not_fatByte hl hs (hch'.inTable b hb').2 hbb
  · obtain ⟨hr', he'⟩ := hg'.listed hl.toLayout h.dirs.to_listed
    obtain ⟨ss', hss', hp''⟩ := hr'.to_used
    obtain ⟨i, -, hi⟩ := (hss.isSlot hl hp).aligned
    obtain ⟨j, -, hj⟩ := (hss'.isSlot hl ((used fs).subset _ _ hp'')).aligned
    have hsl : g.slot = g'.slot := by
      rw [show g.slot = ⟨g.slot.sector, g.slot.index⟩ from rfl, hs',
        show g.slot.index = g'.slot.index by omega]
    exact hne (by rw [he, hsl, ← he', hc'])

/-- The changes of a write are in its own clusters or its own slot. -/
theorem WriteFrame.of_changes : WriteFrame fs d d' c where
  own s k hne := by
    refine (hchg s k hne).imp_left ?_
    intro ⟨a, ha, hb⟩
    refine ⟨a, ?_, hb⟩
    cases hnew a ha with
    | inl hal => exact Or.inl ((hch.belongs_iff hl).mpr hal)
    | inr haf => exact Or.inr ⟨haf, (hch'.belongs_iff hl).mpr ha⟩
  other _ hg hne := ⟨fun _ ha _ _ => cluster_kept hl h hc hch hch' hnew hchg hg hne ha,
    fun _ => slot_kept hl h hc hch hch' hnew hchg hg hne⟩
  fixed s k hlt hout hns := by
    by_contra hchd
    obtain ⟨b, hb', hbb | hbb⟩ := (hchg s k hchd).resolve_right hns
    · have := hbb.1
      have hf : (calculateRegions fs).dataRegionStart ≤ firstSector fs b := Nat.le_add_right _ _
      omega
    · have := hl.geometry.entrySector_lt (hch'.inTable b hb').2
      have hle : fs.numReservedSectors ≤ s := hbb.1 ▸ Nat.le_add_right _ _
      have := hbb.1
      omega

end Changes

theorem sysWrite_frame {s t : State} (h : Integral fs s) {fd : Int} {buf : Buffer}
    {nbytes : UInt32} (hg : Guard fs s (.write fd buf nbytes))
    (hown : OwnSlotGuard fs s (.write fd buf nbytes)) {f : OpenFile}
    (h₁ : fd ≠ stdoutFiledesc) (hf : findOpenFileByFd s fd = some f)
    (hs : ¬ isSubdirectory f.directoryEntry.attributes)
    (ht : step fs s (.write fd buf nbytes) = some t) :
    WriteFrame fs s.disk t.disk f.directoryEntry.firstCluster := by
  obtain ⟨⟨r, s'⟩, hw, rfl⟩ := Option.map_eq_some_iff.mp ht
  cases sysWrite_effect hl h hg hw with
  | refused reason => exact (reason.elim h₁ fun hsub => hs (hsub f hf)).elim
  | @written f' g l new o k d d' r _ hf' _ hch hwr hk _ hout =>
    obtain rfl := Option.some.inj (hf.symm.trans hf')
    have hc : heldBy s.openFiles f.directoryEntry.firstCluster :=
      ⟨f, (findOpenFileByFd_mem hf).1, hs, rfl⟩
    have hnew : ∀ a ∈ l ++ new, a ∈ l ∨ getSuccessorCluster fs s.disk a = 0 := by
      intro a ha
      exact (List.mem_append.mp ha).imp_right fun ha => (hwr.new_inTable a ha).2.2
    have hdata : ∀ t b, d t b ≠ s.disk t b →
        ∃ a ∈ l ++ new, DataByte fs a t b ∨ FatByte fs a t b := by
      intro t b hne
      obtain ⟨a, ha, hb⟩ := hwr.frame t b hne
      exact ⟨a, ha, hb.imp_right And.left⟩
    have hframe : WriteFrame fs s.disk d f.directoryEntry.firstCluster :=
      .of_changes hl h hc hch (hwr.fileChain hch) hnew fun t b hne => Or.inl (hdata t b hne)
    cases hout with
    | failed => exact hframe
    | inside => exact hframe
    | unstored => exact hframe
    | @stored q size hu hslot _ =>
      refine .of_changes hl h hc hch ((FileChain.writeSlot_iff hl.toLayout hslot).mpr
        (hwr.fileChain hch)) hnew fun t b hne => ?_
      by_cases heq : writeSlot d q (grown (settleOffset f) k).directoryEntry
          (CharPtr.at (settleOffset f).directoryEntry.filename 0) t b = d t b
      · exact Or.inl (hdata t b (heq ▸ hne))
      · obtain ⟨rfl, hle, hlt'⟩ := writeSlot_frame heq
        have hsame := (h.sameDirs hl hc hch hwr).to_listed
        have hgrows := grows_by_more size hk
        rw [settleOffset_path, settleOffset_directoryEntry] at hu
        rw [settleOffset_directoryEntry] at hgrows
        obtain hu | ⟨a, ha, hb⟩ := updateSlot_written hl h.dirs.to_listed hsame hch hwr hu
        · obtain ⟨g', hg', rfl, hfc⟩ := hown h₁ f hf hs hgrows q hu
          exact Or.inr ⟨g', hg', hfc, rfl, hle, hlt'⟩
        · exact Or.inl ⟨a, ha, Or.inl (hb b (by have := hslot.room; omega))⟩

/-- In a run whose calls meet their guards, and whose writes update the slot of their file, every
write to a regular file changes this file only. -/
theorem guarded_writes_stay_in_file {d : Disk} (hd : Sound fs d fun _ => False)
    {before after : List Call} {fd : Int} {buf : Buffer} {nbytes : UInt32}
    (hg : Along (step fs) (fun s c => Guard fs s c ∧ OwnSlotGuard fs s c)
      (before ++ .write fd buf nbytes :: after) (fileInitialise d)) :
    ∃ s t, run (step fs) before (fileInitialise d) = some s ∧
      step fs s (.write fd buf nbytes) = some t ∧
      ∀ f, fd ≠ stdoutFiledesc → findOpenFileByFd s fd = some f →
        ¬ isSubdirectory f.directoryEntry.attributes →
        WriteFrame fs s.disk t.disk f.directoryEntry.firstCluster := by
  have hg' : Along (step fs) (Guard fs) before (fileInitialise d) :=
    along_left (hg.mono fun _ _ h => h.1)
  obtain ⟨s, hs, hi⟩ := along_reaches (Integral fs) (fun s c hg h => step_integral hl hg h)
    hg' (integral_initial hd)
  have hnow := (along_append hg hs).2.1
  obtain ⟨t, ht, -⟩ := step_integral hl hnow.1 hi
  exact ⟨s, t, hs, ht, fun f h₁ hf hsub => sysWrite_frame hl hi hnow.1 hnow.2 h₁ hf hsub ht⟩

end Frame

section Examples

theorem makeAndWrite_stays_in_file :
    ∃ s t, run (step smallVolume) [.openCall rootPath 1] (fileInitialise emptyDisk) = some s ∧
      step smallVolume s (.write 3 zeroBuffer 40) = some t ∧
      ∀ f, (3 : Int) ≠ stdoutFiledesc → findOpenFileByFd s 3 = some f →
        ¬ isSubdirectory f.directoryEntry.attributes →
        WriteFrame smallVolume s.disk t.disk f.directoryEntry.firstCluster := by
  have hg := makeAndWrite_guarded zeroBuffer
  suffices h : Along (step smallVolume) (fun s c => Guard smallVolume s c ∧
      OwnSlotGuard smallVolume s c) ([.openCall rootPath 1] ++ [.write 3 zeroBuffer 40])
      (fileInitialise emptyDisk) from
    guarded_writes_stay_in_file smallVolume_layout emptyDisk_sound h
  refine ⟨⟨hg.1, trivial⟩, fun t ht => ⟨⟨(hg.2 t ht).1, ?_⟩, fun _ _ => trivial⟩⟩
  have hmade := rootPath_made ht
  intro _ f hf _ _ q hq
  obtain rfl := hmade.record hf
  obtain rfl := Option.some.inj (Option.some.inj (hmade.slot.symm.trans hq))
  exact ⟨_, .root (hmade.root ▸ List.mem_singleton_self _), rfl, rfl⟩

/-- The file `AA.TXT` fills its only cluster. -/
def filledDisk : Disk := diskOf
  [[], [0xf8, 0xff, 0xff, 0xff, 0xff, 0xff, 0xff, 0xff],
    slotOf 0x41 0x41 0x54 0x58 0x54 0x00 3 32]

/-- The path `/AA.TXT`. -/
def filledPath : CharPtr := [0x2f, 0x41, 0x41, 0x2e, 0x54, 0x58, 0x54]

def filledFile : ListEntry :=
  ⟨⟨[0x41, 0x41, 0, 0, 0, 0, 0, 0, 0], [0x54, 0x58, 0x54, 0], 0x00, 3, 32⟩, ⟨2, 0⟩⟩

theorem fileChain_three {d : Disk} (h : getSuccessorCluster smallVolume d 3 = 0xffff) :
    FileChain smallVolume d 3 [3] :=
  ⟨by decide, by decide, by decide, 0xffff, by decide, rfl, h⟩

theorem filledDisk_oneFile : OneFile filledDisk filledFile [3] where
  root := by decide +kernel
  regular := by decide
  chain := (fileChain_three (by decide +kernel)).chainOf smallVolume_layout.toLayout

/-- Appending a byte at the end of the chain: the end mark 0xFFFF is taken for a cluster, and
the byte goes to sector 65537. -/
theorem append_leaves_file : ∃ s f t,
    run (step smallVolume) [.openCall filledPath 2] (fileInitialise filledDisk) = some s ∧
    findOpenFileByFd s 3 = some f ∧ ¬ isSubdirectory f.directoryEntry.attributes ∧
    step smallVolume s (.write 3 (fun _ => 0x58) 1) = some t ∧
    ¬ WriteFrame smallVolume s.disk t.disk f.directoryEntry.firstCluster := by
  obtain ⟨s, hs⟩ : ∃ s, run (step smallVolume) [.openCall filledPath 2]
    (fileInitialise filledDisk) = some s := Option.isSome_iff_exists.mp (by decide +kernel)
  have hopen : (run (step smallVolume) [.openCall filledPath 2] (fileInitialise filledDisk)).map
      (fun s => (findOpenFileByFd s 3, getSuccessorCluster smallVolume s.disk 3,
        getRootDir smallVolume s.disk, s.disk 65537 0)) =
      some (some ⟨3, filledFile.entry, filledPath, 0, true⟩, 0xffff, [filledFile], 0) := by
    decide +kernel
  have hwrite : ((run (step smallVolume) [.openCall filledPath 2]
      (fileInitialise filledDisk)).bind fun s => step smallVolume s (.write 3 (fun _ => 0x58) 1)).map
      (fun t => (getSuccessorCluster smallVolume t.disk 3, t.disk 65537 0)) =
      some (0xffff, 0x58) := by decide +kernel
  rw [hs] at hopen hwrite
  simp only [Option.map_some, Option.some.injEq, Prod.mk.injEq, Option.bind_some] at hopen hwrite
  obtain ⟨t, ht, hnext, hbyte⟩ : ∃ t, step smallVolume s (.write 3 (fun _ => 0x58) 1) = some t ∧
      getSuccessorCluster smallVolume t.disk 3 = 0xffff ∧ t.disk 65537 0 = 0x58 := by
    obtain ⟨t, ht, he⟩ := Option.map_eq_some_iff.mp hwrite
    exact ⟨t, ht, (Prod.mk.inj he).1, (Prod.mk.inj he).2⟩
  obtain ⟨hf, hnext', hroot, hzero⟩ := hopen
  refine ⟨s, _, t, hs, hf, by decide, ht, fun hw => ?_⟩
  obtain ⟨a, ha, hb⟩ | ⟨g, hg, -, hsec, -⟩ := hw.own 65537 0 (by rw [hbyte, hzero]; decide)
  · have h3 : a = 3 := by
      obtain ha | ⟨-, ha⟩ := ha
      · exact List.mem_singleton.mp
          (((fileChain_three hnext').belongs_iff smallVolume_layout).mp ha)
      · exact List.mem_singleton.mp
          (((fileChain_three hnext).belongs_iff smallVolume_layout).mp ha)
    subst h3
    cases hb with
    | inl hb => exact absurd hb.2.1 (by decide)
    | inr hb => exact absurd hb.1 (by decide)
  · rw [live_single hroot (by decide) hg] at hsec
    exact absurd hsec (by decide)

end Examples
end MalapropOS.Fat
