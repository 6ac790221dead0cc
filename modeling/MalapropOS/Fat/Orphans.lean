import MalapropOS.Fat.Records

/-! Which clusters are taken. A cluster whose table entry is not zero should be in the chain of an
entry of the listings. -/
namespace MalapropOS.Fat
open LinkedChain PartialMachine

def NoOrphans (fs : Fat16) (d : Disk) : Prop :=
  ∀ a, 2 ≤ a → a < numEntries fs → getSuccessorCluster fs d a ≠ 0 →
    ∃ g l, LiveEntry fs d g ∧ ChainOf fs d g.entry.firstCluster l ∧ a ∈ l

/-- The slot is in a listing, or is the one at which a listing ends. -/
def Listable (fs : Fat16) (d : Disk) (p : Slot) : Prop :=
  ∃ ss pre post, Dir (listed fs) d ss ∧ slotsOf fs ss = pre ++ p :: post ∧
    ∀ q ∈ pre, firstByte d q ≠ 0x00

/-- What keeps every taken cluster in use: a new entry goes to a place where listings show it, a
blank name is not stored in a slot, and no entry is removed. -/
def OrphanGuard (fs : Fat16) (s : State) : Call → Prop
  | .openCall pathname flags => findOpenFile s pathname = none →
      openFile fs s pathname = some (none, s) → flags.toNat &&& oCreat ≠ 0 →
      ∀ p, newSlot fs s.disk pathname = some (some p) → Listable fs s.disk p
  | .mkdir path => CharPtr.at path 0 = slash → CharPtr.at path 1 ≠ 0 →
      findFile fs s.disk (path.drop 1) (getRootDir fs s.disk) = some none →
      ∀ p, newSlot fs s.disk path = some (some p) → Listable fs s.disk p
  | .write fd _ nbytes => fd ≠ stdoutFiledesc → ∀ f, findOpenFileByFd s fd = some f →
      ¬ isSubdirectory f.directoryEntry.attributes →
      NameGuard fs s.disk (settleOffset f) nbytes.toNat
  | .unlink pathname => findOpenFile s pathname = none → CharPtr.at pathname 0 = slash →
      ∀ file q, findFile fs s.disk (pathname.drop 1) (getRootDir fs s.disk) = some (some file) →
      updateSlot fs s.disk pathname file.entry.filename file.entry.extension = some (some q) →
      ∀ g, LiveEntry fs s.disk g → g.slot ≠ q
  | _ => True

/-- The cluster is in the chain of a slot of the listings. -/
def Owned (fs : Fat16) (d : Disk) (a : Nat) : Prop :=
  ∃ p l, Reach (listed fs) d p ∧ FileChain fs d (slotEntry d p).firstCluster l ∧ a ∈ l

def AllOwned (fs : Fat16) (d : Disk) : Prop :=
  ∀ a, 2 ≤ a → a < numEntries fs → getSuccessorCluster fs d a ≠ 0 → Owned fs d a

section Ownership
variable {fs : Fat16} (hl : DirLayout fs) {d d' : Disk} {held : Nat → Prop}
include hl

theorem Sound.noOrphans_iff (h : Sound fs d held) : NoOrphans fs d ↔ AllOwned fs d := by
  constructor
  · intro hn a h2 hlt hne
    obtain ⟨g, l, hg, hc, ha⟩ := hn a h2 hlt hne
    obtain ⟨hr, he⟩ := hg.listed hl.toLayout h.dirs.to_listed
    obtain ⟨l', hl'⟩ := h.chain _ (.of_reach hr.to_used)
    rw [he] at hc
    obtain rfl := hc.unique (hl'.chainOf hl.toLayout)
    exact ⟨g.slot, l, hr, hl', ha⟩
  · intro ho a h2 hlt hne
    obtain ⟨p, l, hp, hc, ha⟩ := ho a h2 hlt hne
    exact ⟨_, l, hp.live hl.toLayout, hc.chainOf hl.toLayout, ha⟩

omit hl in
theorem AllOwned.of_keeps (ho : AllOwned fs d) (hk : Keeps fs d d')
    (hs : ∀ a < numEntries fs, getSuccessorCluster fs d' a = getSuccessorCluster fs d a) :
    AllOwned fs d' := by
  intro a h2 hlt hne
  rw [hs a hlt] at hne
  obtain ⟨p, l, hp, hc, ha⟩ := ho a h2 hlt hne
  obtain ⟨hp', he⟩ := hk p hp
  refine ⟨p, l, hp', ?_, ha⟩
  rw [he]
  exact hc.congr fun b hb => hs b (hc.inTable b hb).2

/-- A slot where a listing ends is shown once it is in use. -/
theorem Listable.reach {p : Slot} {e : DirEntry} {first : UInt8} (hp : Listable fs d p)
    (hs : IsSlot fs p) (hfree : firstByte d p = 0x00 ∨ firstByte d p = 0xe5)
    (h₀ : first ≠ 0x00) (h₅ : first ≠ 0xe5) : Reach (listed fs) (writeSlot d p e first) p := by
  obtain ⟨ss, pre, post, hss, hsplit, hpre⟩ := hp
  have hnot : ¬ Reach (listed fs) d p := fun hr => hfree.elim hr.used_byte.1 hr.used_byte.2
  refine ⟨ss, hss.kept_writeSlot hl hs (fun _ _ _ => ⟨fun _ => h₀, fun _ => h₅⟩)
    fun hr => absurd hr hnot, ?_⟩
  have hself : firstByte (writeSlot d p e first) p = first := firstByte_writeSlot_self
  have hall : ∀ q ∈ pre, firstByte (writeSlot d p e first) q ≠ 0x00 := by
    intro q hq
    by_cases hqp : q = p
    · rwa [hqp, hself]
    · have hqs : IsSlot fs q := hss.isSlot hl (by rw [hsplit]; simp [hq])
      rw [firstByte_writeSlot_other hs hqs hqp]
      exact hpre q hq
  show p ∈ liveSlots fs (writeSlot d p e first) ss
  rw [liveSlots, hsplit, List.takeWhile_append_of_pos (by simpa using hall)]
  simp [hself, h₀, h₅]

theorem Listable.mark {p : Slot} {c : Nat} (hp : Listable fs d p) (hc : c < numEntries fs)
    (hfree : getSuccessorCluster fs d c = 0) :
    Listable fs (setSuccessorCluster fs d c 0xFFFF) p := by
  obtain ⟨ss, pre, post, hss, hsplit, hpre⟩ := hp
  have hsame : SameDirs (listed fs) d (setSuccessorCluster fs d c 0xFFFF) :=
    .of_mark hl hc hfree (by decide)
  refine ⟨ss, pre, post, hsame.dir_kept hss, hsplit, fun q hq => ?_⟩
  rw [firstByte_mark hl (hss.isSlot hl (by rw [hsplit]; simp [hq])) hc]
  exact hpre q hq

/-- A new entry that is shown owns the cluster that was marked for it. -/
theorem AllOwned.create {p : Slot} {e : DirEntry} {first : UInt8} (ho : AllOwned fs d)
    (hs : IsSlot fs p) (h2 : 2 ≤ e.firstCluster) (hlt : e.firstCluster < numEntries fs)
    (hzero : getSuccessorCluster fs d e.firstCluster = 0)
    (hk : Keeps fs d (writeSlot (setSuccessorCluster fs d e.firstCluster 0xFFFF) p e first))
    (hnew : Reach (listed fs)
      (writeSlot (setSuccessorCluster fs d e.firstCluster 0xFFFF) p e first) p) :
    AllOwned fs (writeSlot (setSuccessorCluster fs d e.firstCluster 0xFFFF) p e first) := by
  have hsucc : ∀ b < numEntries fs, b ≠ e.firstCluster → getSuccessorCluster fs
      (writeSlot (setSuccessorCluster fs d e.firstCluster 0xFFFF) p e first) b =
      getSuccessorCluster fs d b := by
    intro b hb hne
    rw [getSuccessorCluster_writeSlot hl.toLayout hs hb,
      getSuccessorCluster_set d hl.even _ _ (by decide), if_neg hne]
  intro a ha2 halt hne
  by_cases hac : a = e.firstCluster
  · refine ⟨p, [e.firstCluster], hnew, ?_, by simp [hac]⟩
    rw [slotEntry_writeSlot_firstCluster (hl.lt_of_entry hlt),
      FileChain.writeSlot_iff hl.toLayout hs]
    exact fileChain_mark hl h2 hlt
  · rw [hsucc a halt hac] at hne
    obtain ⟨q, l, hq, hl', ha⟩ := ho a ha2 halt hne
    obtain ⟨hq', he⟩ := hk q hq
    refine ⟨q, l, hq', ?_, ha⟩
    rw [he]
    refine hl'.congr fun b hb => hsucc b (hl'.inTable b hb).2 ?_
    rintro rfl
    exact hl'.successor_ne_zero _ hb hzero

theorem Created.allOwned {pathname : CharPtr} {attributes : UInt8} {r : Int}
    (hc : Created fs d pathname attributes r d') (ho : AllOwned fs d)
    (hlist : ∀ p, newSlot fs d pathname = some (some p) → Listable fs d p) : AllOwned fs d' := by
  have hk := hc.keeps hl
  cases hc with
  | refused => exact ho
  | @stored p slot hs hfree h2 hlt hzero =>
    obtain ⟨h₀, h₅⟩ := newFirstByte_used fs d pathname attributes
    refine ho.create hl (e := newFile fs d pathname attributes) hs h2 hlt hzero hk ?_
    exact ((hlist p slot).mark hl hlt hzero).reach hl hs (by rwa [firstByte_mark hl hs hlt]) h₀ h₅

/-- A write gives the clusters it takes to the file, whose slot stays in the listings. -/
theorem AllOwned.written {s : State} (h : Integral fs s) (ho : AllOwned fs s.disk) {f g : OpenFile}
    {l new : List Nat} {o k nbytes : Nat} {buf : Buffer} {d d' : Disk} {r : Int}
    (hc : heldBy s.openFiles f.directoryEntry.firstCluster) (hg : WriteGuard fs s.disk f nbytes)
    (hname : NameGuard fs s.disk f nbytes)
    (hch : FileChain fs s.disk f.directoryEntry.firstCluster l)
    (hw : Written fs s.disk f.directoryEntry.firstCluster l o buf k d new) (hk : k ≤ nbytes)
    (hout : WriteOutcome fs d f k r g d')
    (hanchor : ∃ p, Reach (listed fs) s.disk p ∧
      (slotEntry s.disk p).firstCluster = f.directoryEntry.firstCluster) : AllOwned fs d' := by
  have hkept : ∀ p, Reach (listed fs) s.disk p → SlotKept fs s.disk d' f g p :=
    fun p hp => hout.slotKept hl h hc hg hname hch hw hk hp
  have hsucc : ∀ b < numEntries fs, getSuccessorCluster fs d' b = getSuccessorCluster fs d b := by
    intro b hb
    cases hout with
    | failed => rfl
    | inside => rfl
    | unstored => rfl
    | stored _ _ isSlot => exact getSuccessorCluster_writeSlot hl.toLayout isSlot hb
  have hmove : ∀ {c m}, FileChain fs d c m → FileChain fs d' c m :=
    fun hm => hm.congr fun b hb => hsucc b (hm.inTable b hb).2
  intro a h2 hlt hne
  by_cases ha : a ∈ l ++ new
  · obtain ⟨p, hp, hpc⟩ := hanchor
    refine ⟨p, l ++ new, (hkept p hp).reach, ?_, ha⟩
    rw [(hkept p hp).firstCluster, hpc]
    exact hmove (hw.fileChain hch)
  · rw [hsucc a hlt, hw.successor_eq hl.toLayout hlt ha] at hne
    obtain ⟨q, m, hq, hm, ham⟩ := ho a h2 hlt hne
    have hqc : (slotEntry s.disk q).firstCluster ≠ f.directoryEntry.firstCluster := by
      intro he
      rw [he] at hm
      rw [hm.unique hl.toLayout hch] at ham
      exact ha (List.mem_append_left _ ham)
    refine ⟨q, m, (hkept q hq).reach, ?_, ham⟩
    rw [(hkept q hq).firstCluster]
    exact hmove (h.other_chain hl hc hch hw (.of_reach hq.to_used) hqc hm).2

end Ownership

/-- Every open regular file is in the listings. -/
def Present (fs : Fat16) (s : State) : Prop := Anchored fs (fun _ _ => True) s

section Calls
variable {fs : Fat16} (hl : DirLayout fs) {s t : State}
include hl

/-- A removal that finds no slot of the listings changes none of them. -/
theorem sysUnlink_keeps (h : Integral fs s) {pathname : CharPtr}
    (hg : OrphanGuard fs s (.unlink pathname)) {r : Int}
    (hu : sysUnlink fs s pathname = some (r, t)) :
    t.openFiles = s.openFiles ∧ Keeps fs s.disk t.disk ∧
      ∀ a < numEntries fs, getSuccessorCluster fs t.disk a = getSuccessorCluster fs s.disk a := by
  cases sysUnlink_effect hl h.dirs.to_listed hu with
  | refused => exact ⟨rfl, fun p hp => ⟨hp, rfl⟩, fun _ _ => rfl⟩
  | unstored => exact ⟨rfl, fun p hp => ⟨hp, rfl⟩, fun _ _ => rfl⟩
  | @removed file q closed absolute found slot isSlot =>
    have hq : ¬ Reach (listed fs) s.disk q :=
      fun hr => hg closed absolute file q found slot _ (hr.live hl.toLayout) rfl
    refine ⟨rfl, fun p hp => ?_, fun a ha => getSuccessorCluster_writeSlot hl.toLayout isSlot ha⟩
    refine ⟨hp.kept_writeSlot hl isSlot (fun ss hss _ => ⟨fun _ => by decide, fun hm => ?_⟩)
      fun hr => absurd hr hq, ?_⟩
    · exact absurd ⟨ss, hss, hm⟩ hq
    · exact slotEntry_writeSlot_other isSlot (hp.isSlot hl) fun hpq => hq (hpq ▸ hp)

theorem call_present (h : Integral fs s) (hi : TableInv s) (hp : Present fs s) {c : Call}
    (hg : Guard fs s c) (ho : OrphanGuard fs s c) {r : Int} (ht : call fs s c = some (r, t)) :
    Present fs t := by
  by_cases hc : Harmless c
  · obtain ⟨hk, hr⟩ := call_harmless hl h hc hg ht
    exact hp.of_keeps (fun _ _ => trivial) hk hr
  cases c with
  | openCall => exact absurd trivial hc
  | mkdir => exact absurd trivial hc
  | read => exact absurd trivial hc
  | lseek => exact absurd trivial hc
  | close => exact absurd trivial hc
  | unlink pathname =>
    obtain ⟨hf, hk, -⟩ := sysUnlink_keeps hl h ho ht
    exact hp.of_keeps (fun _ _ => trivial) hk (.of_subset fun f hm => hf ▸ hm)
  | write fd buf nbytes =>
    obtain ⟨rfl, -⟩ | ⟨f, g, h₁, hf, hs, hwr⟩ := sysWrite_cases hl h hg ho ht
    · exact hp
    · obtain ⟨hm, rfl⟩ := findOpenFileByFd_mem hf
      intro x hx hxs
      rw [hwr.files] at hx
      obtain rfl | ⟨hxm, -⟩ := hi.mem_update hf hx
      · obtain ⟨p, hp, hpc, -⟩ := hp f hm hs
        have hkept := hwr.slots p hp
        exact ⟨p, hkept.reach, by rw [hkept.firstCluster, hpc, hwr.entry], trivial⟩
      · obtain ⟨p, hp, hpc, -⟩ := hp x hxm hxs
        have hkept := hwr.slots p hp
        exact ⟨p, hkept.reach, by rw [hkept.firstCluster, hpc], trivial⟩

/-- One call leaves no cluster without an owner. -/
theorem call_allOwned (h : Integral fs s) (hp : Present fs s) (ho : AllOwned fs s.disk) {c : Call}
    (hg : Guard fs s c) (hog : OrphanGuard fs s c) {r : Int} (ht : call fs s c = some (r, t)) :
    AllOwned fs t.disk := by
  cases c with
  | openCall pathname flags =>
    obtain hd | ⟨hf, hn, hc, r', hcr⟩ := (sysOpen_records hl h hg ht).1
    · rwa [hd]
    · exact hcr.allOwned hl ho (hog hf hn hc)
  | mkdir path =>
    obtain hd | ⟨h₀, h₁, hf, r', hcr⟩ := (sysMkdir_records hl h hg ht).1
    · rwa [hd]
    · exact hcr.allOwned hl ho (hog h₀ h₁ hf)
  | read fd buf nbytes =>
    obtain ⟨-, rfl⟩ := Prod.mk.inj (Option.some.inj ht)
    exact (sysRead_effect fs s fd buf nbytes.toNat).disk_eq ▸ ho
  | lseek fd offset whence =>
    obtain ⟨-, rfl⟩ := Prod.ext_iff.mp (Option.some.inj ht)
    exact (sysLseek_effect s fd offset whence).disk_eq ▸ ho
  | close fd =>
    obtain ⟨-, rfl⟩ := Prod.ext_iff.mp (Option.some.inj ht)
    exact (sysClose_records fs s fd).1 ▸ ho
  | unlink pathname =>
    obtain ⟨-, hk, hs⟩ := sysUnlink_keeps hl h hog ht
    exact ho.of_keeps hk hs
  | write fd buf nbytes =>
    cases sysWrite_effect hl h hg ht with
    | refused => exact ho
    | @written f g l new o k d d' _ h₁ hf hs hch hwr hk _ hout =>
      have he := settleOffset_directoryEntry f
      have hm := (findOpenFileByFd_mem hf).1
      obtain ⟨p, hpr, hpc, -⟩ := hp f hm hs
      exact ho.written hl h (he ▸ ⟨f, hm, hs, rfl⟩) (hg h₁ f hf hs) (hog h₁ f hf hs) (he ▸ hch)
        (he ▸ hwr) hk hout ⟨p, hpr, he ▸ hpc⟩

/-- From a sound volume without orphans, in a run whose calls meet their guards and which removes
no entry, there are no orphans after any call. -/
theorem no_orphans_along {d : Disk} (hd : Sound fs d fun _ => False) (hn : NoOrphans fs d)
    {calls : List Call} (hg : Along (step fs) (fun s c => Guard fs s c ∧ OrphanGuard fs s c) calls
      (fileInitialise d)) :
    ∀ before, before <+: calls →
      ∃ s, run (step fs) before (fileInitialise d) = some s ∧ NoOrphans fs s.disk := by
  rintro before ⟨after, rfl⟩
  obtain ⟨s, hs, hi, -, -, ho⟩ := along_reaches
    (fun s => Integral fs s ∧ TableInv s ∧ Present fs s ∧ AllOwned fs s.disk)
    (fun s c ⟨hg, hog⟩ ⟨hi, ht, hp, ho⟩ => by
      obtain ⟨r, t, hcall, hit⟩ := call_integral hl hi hg
      exact ⟨t, by rw [step, hcall]; rfl, hit, ht.step (call_table ht hcall),
        call_present hl hi ht hp hg hog hcall, call_allOwned hl hi hp ho hg hog hcall⟩)
    (along_left hg) ⟨integral_initial hd, fileInitialise_table d, .initial d,
      (hd.noOrphans_iff hl).mp hn⟩
  exact ⟨s, hs, (hi.noOrphans_iff hl).mpr ho⟩

end Calls

section Examples

/-- A volume without files, whose clusters are all free. -/
def freshDisk : Disk := diskOf [[], [0xf8, 0xff, 0xff, 0xff]]

theorem freshDisk_sound : Sound smallVolume freshDisk fun _ => False :=
  sound_of_empty (by decide +kernel)

theorem freshDisk_noOrphans : NoOrphans smallVolume freshDisk := by
  have hzero : ∀ a < numEntries smallVolume, 2 ≤ a →
      getSuccessorCluster smallVolume freshDisk a = 0 := by decide +kernel
  exact fun a h2 hlt hne => absurd (hzero a hlt h2) hne

theorem rootPath_made_no_orphans : NoOrphans smallVolume freshDisk ∧
    ∀ before, before <+: [.openCall rootPath 1, .close 3] →
      ∃ s, run (step smallVolume) before (fileInitialise freshDisk) = some s ∧
        NoOrphans smallVolume s.disk := by
  refine ⟨freshDisk_noOrphans, no_orphans_along smallVolume_layout freshDisk_sound
    freshDisk_noOrphans ⟨⟨fun _ _ _ => ⟨?_, ?_, ?_⟩, fun _ _ _ p hp => ?_⟩,
      fun _ _ => ⟨⟨trivial, trivial⟩, fun _ _ => trivial⟩⟩⟩
  · exact fun h => absurd (show CharPtr.at (toDirectory rootPath) 0 = 0 by decide) h.1
  · exact fun _ _ => by decide +kernel
  · exact fun _ _ h => absurd h (by decide)
  · have hslot : newSlot smallVolume freshDisk rootPath = some (some ⟨2, 0⟩) := by decide +kernel
    obtain rfl := Option.some.inj (Option.some.inj (hslot.symm.trans hp))
    exact ⟨rootSectors smallVolume, [], [⟨3, 0⟩], .root, by decide +kernel, by simp⟩

/-- Making and removing `/BB.TXT`: its cluster stays marked. -/
theorem removed_file_keeps_cluster : NoOrphans smallVolume freshDisk ∧
    ∃ s, run (step smallVolume) [.openCall rootPath 1, .close 3, .unlink rootPath]
      (fileInitialise freshDisk) = some s ∧
      findFile smallVolume s.disk (rootPath.drop 1) (getRootDir smallVolume s.disk) = some none ∧
      getSuccessorCluster smallVolume s.disk 2 = 0xffff ∧ ¬ NoOrphans smallVolume s.disk := by
  obtain ⟨s, hs⟩ : ∃ s, run (step smallVolume) [.openCall rootPath 1, .close 3, .unlink rootPath]
    (fileInitialise freshDisk) = some s := Option.isSome_iff_exists.mp (by decide +kernel)
  have hafter : (run (step smallVolume) [.openCall rootPath 1, .close 3, .unlink rootPath]
      (fileInitialise freshDisk)).map (fun s => (getRootDir smallVolume s.disk,
        getSuccessorCluster smallVolume s.disk 2)) = some ([], 0xffff) := by decide +kernel
  rw [hs] at hafter
  simp only [Option.map_some, Option.some.injEq, Prod.mk.injEq] at hafter
  refine ⟨freshDisk_noOrphans, s, hs, by rw [hafter.1]; rfl, hafter.2, fun hn => ?_⟩
  obtain ⟨g, l, hg, -⟩ := hn 2 (by decide) (by decide) (by rw [hafter.2]; decide)
  -- nothing is listed
  induction hg with
  | root hf =>
    rw [hafter.1] at hf
    cases hf
  | child _ _ _ ih => exact ih

end Examples
end MalapropOS.Fat
