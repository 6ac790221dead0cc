import MalapropOS.Fat.Descent
import MalapropOS.Fat.Failures
import MalapropOS.Fat.Growth

/-! Opening a file that has to be made. `sys_open` makes it and looks for it once more. The file is
put where `find_dir` leads, and looked for where `find_file` leads, by its name as stored. -/
namespace MalapropOS.Fat
open LinkedChain

/-- The slots that a listing of the sectors `ss` shows once the free slot `p` is taken. -/
def shownWith (fs : Fat16) (d : Disk) (p : Slot) (ss : List Nat) : List Slot :=
  ((slotsOf fs ss).takeWhile fun q => q = p ∨ firstByte d q ≠ 0x00).filter fun q =>
    q = p ∨ firstByte d q ≠ 0xe5

/-- Once the file is made, the directory in the sectors `ts` lists an entry of its name: that of the
file, if its name is kept, or one that its slot, as the end of the directory, hid. -/
inductive GetsName (fs : Fat16) (d : Disk) (pathname : CharPtr) (ts : List Nat) : Prop
  | made {p : Slot} (slot : newSlot fs d pathname = some (some p)) (shown : p ∈ shownWith fs d p ts)
      (kept : NameKept (toFilename pathname)) : GetsName fs d pathname ts
  | uncovered {p q : Slot} (slot : newSlot fs d pathname = some (some p))
      (shown : q ∈ shownWith fs d p ts) (other : q ≠ p) (hidden : q ∉ liveSlots fs d ts)
      (named : entryNamed (splitFilename (toFilename pathname)) (slotEntry d q)) :
      GetsName fs d pathname ts
  | grown {dir : ListEntry} {l : List Nat} (full : FullSubdirectory fs d pathname)
      (found : findDir fs d (toDirectory pathname) (getRootDir fs d) = some (some dir))
      (chain : FileChain fs d dir.entry.firstCluster l) (sectors : ts = chainSectors fs l)
      (kept : NameKept (toFilename pathname)) : GetsName fs d pathname ts

/-- The directory has a slot for a new file, or a cluster is free for it to grow. -/
def HasRoom (fs : Fat16) (d : Disk) (pathname : CharPtr) : Prop :=
  (∃ p, newSlot fs d pathname = some (some p)) ∨
    FullSubdirectory fs d pathname ∧ 2 ≤ findFirstFreeCluster fs d

/-- The call makes a file: the path is not open and not found, the flag is set, and there is room. -/
structure MakesFile (fs : Fat16) (s : State) (pathname : CharPtr) (flags : Nat) : Prop where
  closed : findOpenFile s pathname = none
  absent : CharPtr.at pathname 0 = slash → CharPtr.at pathname 1 ≠ 0 ∧
    findFile fs s.disk (pathname.drop 1) (getRootDir fs s.disk) = some none
  flag : flags &&& oCreat ≠ 0
  room : HasRoom fs s.disk pathname

/-- The file can be opened once it is made: the path is absolute, and the walk along it ends in a
directory that gets an entry of the name. -/
structure Reopens (fs : Fat16) (d : Disk) (pathname : CharPtr) : Prop where
  absolute : CharPtr.at pathname 0 = slash
  named : ∃ ts, EndsIn fs d (pathname.drop 1) (rootSectors fs) ts ∧ GetsName fs d pathname ts

section Depth
variable {fs : Fat16} {pathname : CharPtr}

theorem lastSlashPos_of_parts (h : splitPath (toDirectory pathname) ≠ []) :
    lastSlashPos pathname ≠ 0 := by
  intro h0
  rw [toDirectory, h0, List.take_zero] at h
  exact h rfl

/-- `find_file` goes at most as far down as `find_dir`, which is given the leading slash. -/
theorem parts_le_directory (h₀ : CharPtr.at pathname 0 = slash)
    (hd : splitPath (toDirectory pathname) ≠ []) :
    (splitPath (pathname.drop 1)).length ≤ (splitPath (toDirectory pathname)).length + 1 := by
  by_cases hne : splitPath (pathname.drop 1) = []
  · rw [hne]
    exact Nat.zero_le _
  · obtain ⟨tail, htail, he⟩ := stripSlash_split (lastSlashPos_of_parts hd)
    rw [stripSlash, if_pos h₀] at he
    have hlen : ((cstr (pathname.drop 1)).splitOn slash).length =
        (splitPath (toDirectory pathname)).length + 1 := by
      rw [he, splitPath_eq hd, List.splitOn_append_cons_self, List.splitOn_eq_singleton htail]
      simp
    rw [splitPath_eq hne, ← hlen, stripSlash]
    split_ifs with hs
    · -- a second slash in front gives `find_dir` one part more
      rw [cstr_of_absolute hs]
      have hsplit : (slash :: cstr ((pathname.drop 1).drop 1)).splitOn slash =
          [].splitOn slash ++ (cstr ((pathname.drop 1).drop 1)).splitOn slash :=
        List.splitOn_append_cons_self [] _
      rw [hsplit]
      simp
    · exact Nat.le_refl _

theorem parts_le_root (h : lastSlashPos pathname = 0) (h₀ : CharPtr.at pathname 0 = slash) :
    (splitPath (pathname.drop 1)).length ≤ 1 := by
  by_cases hne : splitPath (pathname.drop 1) = []
  · rw [hne]
    exact Nat.zero_le _
  · refine (length_root ?_ hne).le
    have hlen := congrArg List.length (cstr_of_absolute h₀)
    rw [List.length_cons] at hlen
    obtain ⟨-, hall⟩ | ⟨hpos, -⟩ := lastSlashPos_spec pathname
    · obtain ⟨h0, -⟩ | ⟨hpos, hlt, he, -⟩ := lastSlashPos_spec (pathname.drop 1)
      · exact h0
      · refine absurd ?_ (hall (lastSlashPos (pathname.drop 1) + 1) (by omega) (by omega))
        cases pathname with
        | nil => simp [CharPtr.at, slash] at h₀
        | cons c s => exact he
    · omega

end Depth

/-- The disk after the file was made in the slot `p`. -/
def madeDisk (fs : Fat16) (d : Disk) (pathname : CharPtr) (p : Slot) : Disk :=
  writeSlot (setSuccessorCluster fs d (findFirstFreeCluster fs d) 0xFFFF) p
    (newFile fs d pathname 0x0) (newFirstByte (newFile fs d pathname 0x0))

section Slot
variable {fs : Fat16} (hl : DirLayout fs) {d : Disk} {pathname : CharPtr} {p : Slot}

/-- The slot was free, and is not any more. -/
theorem madeDisk_ne (hfree : firstByte d p = 0x00 ∨ firstByte d p = 0xe5) :
    madeDisk fs d pathname p ≠ d := by
  intro h
  obtain ⟨h₀, h₅⟩ := newFirstByte_used fs d pathname 0x0
  have hb : firstByte (madeDisk fs d pathname p) p =
    newFirstByte (newFile fs d pathname 0x0) := firstByte_writeSlot_self
  rw [h] at hb
  rw [← hb] at h₀ h₅
  exact hfree.elim h₀ h₅

include hl

/-- A file whose entry finds a free slot. -/
theorem createNewFile_at (hv : DirsValid (listed fs) d)
    (hslot : newSlot fs d pathname = some (some p)) (attributes : UInt8) :
    createNewFile fs d pathname attributes = some (0, setSuccessorCluster fs
      (writeSlot d p (newFile fs d pathname attributes)
        (newFirstByte (newFile fs d pathname attributes))) (findFirstFreeCluster fs d) 0xFFFF) ∧
      IsSlot fs p ∧ (firstByte d p = 0x00 ∨ firstByte d p = 0xe5) := by
  obtain ⟨o, ho, hp⟩ := newSlot_ends hl hv pathname
  obtain rfl := Option.some.inj (ho.symm.trans hslot)
  have hfull : FullSubdirectory fs d pathname → findFirstFreeCluster fs d < 2 := fun h =>
    absurd (Option.some.inj (hslot.symm.trans h.2.1)) (by simp)
  refine ⟨?_, hp p rfl⟩
  rw [createNewFile_eq hl hv pathname attributes hfull, hslot]
  rfl

theorem createNewFile_slot (hpos : 0 < numEntries fs) (hv : DirsValid (listed fs) d)
    (hslot : newSlot fs d pathname = some (some p)) :
    createNewFile fs d pathname 0x0 = some (0, madeDisk fs d pathname p) ∧ IsSlot fs p ∧
      (firstByte d p = 0x00 ∨ firstByte d p = 0xe5) := by
  obtain ⟨hmade, hs, hfree⟩ := createNewFile_at hl hv hslot 0x0
  refine ⟨?_, hs, hfree⟩
  rw [hmade, madeDisk,
    ← setSuccessorCluster_writeSlot hl hs (findFirstFreeCluster_lt hl.toLayout hpos d)]

/-- The cluster of the new file is in no directory: it is free, or not a cluster at all. -/
theorem sameDirs_marked (hpos : 0 < numEntries fs) : SameDirs (listed fs) d
    (setSuccessorCluster fs d (findFirstFreeCluster fs d) 0xFFFF) := by
  refine .of_set hl (findFirstFreeCluster_lt hl.toLayout hpos d) (by decide) fun q m _ hm hc => ?_
  have h2 := (hm.inTable _ hc).1
  exact hm.successor_ne_zero _ hc (findFirstFreeCluster_spec hl.toLayout d rfl h2).2.1

theorem listingsAfter_slot (hpos : 0 < numEntries fs) (hs : IsSlot fs p) {depth : Nat}
    (hdeep : ∀ n ss, DirAt fs d n ss → p ∈ slotsOf fs ss → depth ≤ n) :
    ListingsAfter fs d (madeDisk fs d pathname p) depth
      (entriesOf fs (madeDisk fs d pathname p)) where
  root := getRootDir_eq fs _
  sub q l hq hsub hc := by
    have hm := (sameDirs_marked hl hpos).links q l hq hsub hc
    exact getDir_eq hl.toLayout hsub ((FileChain.writeSlot_iff hl.toLayout hs).mpr (hc.congr hm))
  above n ss hss hn := by
    have hsame := sameDirs_marked (d := d) hl hpos
    have hout : p ∉ slotsOf fs ss := fun hp => absurd (hdeep n ss hss hp) (by omega)
    rw [madeDisk, (hsame.dir_kept hss.dir).entriesOf_other hl hs hout, hsame.entriesOf_eq hss.dir]

/-- No directory on the way of `find_file` has the slot. -/
theorem newSlot_deep (hv : DirsValid (listed fs) d) (hw : WellFormed fs d)
    (h₀ : CharPtr.at pathname 0 = slash) (hslot : newSlot fs d pathname = some (some p)) :
    ∃ depth, (splitPath (pathname.drop 1)).length ≤ depth + 1 ∧
      ∀ n ss, DirAt fs d n ss → p ∈ slotsOf fs ss → depth ≤ n := by
  by_cases hr : CharPtr.at (toDirectory pathname) 0 = 0
  · exact ⟨0, parts_le_root (lastSlashPos_of_root hr) h₀, fun n _ _ _ => Nat.zero_le n⟩
  · obtain ⟨hne, ss', hss', hp'⟩ := directorySlot_depth hl hv hr (fun n x i h =>
      let ⟨j, hj, hi, _⟩ := findFirstFreeSpace_some h
      ⟨j, hj, hi⟩) hslot
    refine ⟨_, parts_le_directory h₀ hne, fun n ss hss hp => ?_⟩
    exact (hss'.depth_unique hl hw hss hp' (mem_slotsOf.mp hp).1).le

theorem firstByte_marked (hpos : 0 < numEntries fs) {q : Slot} (hq : IsSlot fs q) :
    firstByte (setSuccessorCluster fs d (findFirstFreeCluster fs d) 0xFFFF) q = firstByte d q :=
  firstByte_mark hl hq (findFirstFreeCluster_lt hl.toLayout hpos d)

theorem liveSlots_made (hpos : 0 < numEntries fs) (hs : IsSlot fs p) {ts : List Nat}
    (hts : Dir (listed fs) d ts) :
    liveSlots fs (madeDisk fs d pathname p) ts = shownWith fs d p ts := by
  obtain ⟨h₀, h₅⟩ := newFirstByte_used fs d pathname 0x0
  have hself : firstByte (madeDisk fs d pathname p) p =
    newFirstByte (newFile fs d pathname 0x0) := firstByte_writeSlot_self
  have hother : ∀ q ∈ slotsOf fs ts, q ≠ p →
      firstByte (madeDisk fs d pathname p) q = firstByte d q := by
    intro q hq hne
    have hqs := hts.isSlot hl hq
    rw [madeDisk, firstByte_writeSlot_other hs hqs hne, firstByte_marked hl hpos hqs]
  refine takeWhile_filter_congr (fun q hq => ?_) fun q hq => ?_
  · by_cases hqp : q = p
    · simp [hqp, hself, h₀]
    · simp [hqp, hother q hq hqp]
  · by_cases hqp : q = p
    · simp [hqp, hself, h₅]
    · simp [hqp, hother q hq hqp]

omit hl in
/-- The slot has the name if the name is kept. -/
theorem madeDisk_named_iff : entryNamed (splitFilename (toFilename pathname))
    (slotEntry (madeDisk fs d pathname p) p) ↔ NameKept (toFilename pathname) := by
  have hstored : entryNamed (splitFilename (toFilename pathname))
      (slotEntry (madeDisk fs d pathname p) p) = entryNamed (splitFilename (toFilename pathname))
        (storedEntry (newFile fs d pathname 0x0) (newFirstByte (newFile fs d pathname 0x0))) := by
    refine entryNamed_stored (x := zeroBuffer) _ fun k hk => ?_
    obtain ⟨b, hb⟩ := entryByte_name (newFile fs d pathname 0x0)
      (newFirstByte (newFile fs d pathname 0x0)) hk
    rw [madeDisk, writeSlot_byte hb, storeEntry, if_pos (Nat.zero_le _), Nat.sub_zero, hb]
    rfl
  rw [hstored, newFile_named_iff]

theorem slotEntry_madeDisk (hpos : 0 < numEntries fs) (hs : IsSlot fs p) {ts : List Nat}
    (hts : Dir (listed fs) d ts) {q : Slot} (hq : q ∈ slotsOf fs ts) (hne : q ≠ p) :
    slotEntry (madeDisk fs d pathname p) q = slotEntry d q := by
  rw [madeDisk, slotEntry_writeSlot_other hs (hts.isSlot hl hq) hne,
    (sameDirs_marked hl hpos).entry_eq hts hq]

omit hl in
theorem shownWith_subset {ts : List Nat} : shownWith fs d p ts ⊆ slotsOf fs ts := fun _ hq =>
  (List.takeWhile_sublist _).subset (List.mem_filter.mp hq).1

/-- Whether the listing of the directory gets an entry of the name. -/
theorem named_made_iff (hpos : 0 < numEntries fs) (hs : IsSlot fs p)
    (hslot : newSlot fs d pathname = some (some p)) {ts : List Nat} (hts : Dir (listed fs) d ts)
    (hold : ∀ f ∈ entriesOf fs d ts,
      ¬ entryNamed (splitFilename (toFilename pathname)) f.entry) :
    (∃ f ∈ entriesOf fs (madeDisk fs d pathname p) ts,
      entryNamed (splitFilename (toFilename pathname)) f.entry) ↔ GetsName fs d pathname ts := by
  rw [entriesOf, liveSlots_made hl hpos hs hts]
  constructor
  · rintro ⟨f, hf, hn⟩
    obtain ⟨q, hq, rfl⟩ := List.mem_map.mp hf
    by_cases hqp : q = p
    · subst hqp
      exact .made hslot hq (madeDisk_named_iff.mp hn)
    · dsimp only at hn
      rw [slotEntry_madeDisk hl hpos hs hts (shownWith_subset hq) hqp] at hn
      refine .uncovered hslot hq hqp (fun hlive => ?_) hn
      exact hold ⟨slotEntry d q, q⟩ (List.mem_map.mpr ⟨q, hlive, rfl⟩) hn
  · intro hgets
    cases hgets with
    | made slot shown kept =>
      obtain rfl := Option.some.inj (Option.some.inj (hslot.symm.trans slot))
      exact ⟨⟨slotEntry (madeDisk fs d pathname p) p, p⟩, List.mem_map.mpr ⟨p, shown, rfl⟩,
        madeDisk_named_iff.mpr kept⟩
    | @uncovered p' q slot shown other _ named =>
      obtain rfl := Option.some.inj (Option.some.inj (hslot.symm.trans slot))
      refine ⟨⟨slotEntry (madeDisk fs d pathname p) q, q⟩, List.mem_map.mpr ⟨q, shown, rfl⟩, ?_⟩
      rwa [slotEntry_madeDisk hl hpos hs hts (shownWith_subset shown) other]
    | grown full =>
      have h := full.2.1
      rw [hslot] at h
      cases h

end Slot

/-- The listings once the directory with the clusters `before`, `z` and `after` has grown. -/
def grownListing (fs : Fat16) (d : Disk) (pathname : CharPtr) (before : List Nat) (z : Nat)
    (after : List Nat) (ss : List Nat) : List ListEntry :=
  let c := findFirstFreeCluster fs d
  let e := newFile fs d pathname 0x0
  let d' := grownDisk fs d z c e (newFirstByte e)
  if ss = chainSectors fs (before ++ [z] ++ after) then
    entriesOf fs d' (chainSectors fs (before ++ [z] ++ [c]))
  else entriesOf fs d' ss

/-- The subdirectory of the path is full, and it grows. -/
structure Grows (fs : Fat16) (d : Disk) (pathname : CharPtr) (dir : ListEntry) (before : List Nat)
    (z : Nat) (after : List Nat) : Prop where
  found : findDir fs d (toDirectory pathname) (getRootDir fs d) = some (some dir)
  parts : splitPath (toDirectory pathname) ≠ []
  reached : Listed fs d dir
  subdirectory : isSubdirectory dir.entry.attributes
  full : Full fs d dir.entry.firstCluster before z after (findFirstFreeCluster fs d)
  dirAt : DirAt fs d (splitPath (toDirectory pathname)).length
    (chainSectors fs (before ++ [z] ++ after))

section Growth
variable {fs : Fat16} (hl : DirLayout fs) {d : Disk} {pathname : CharPtr} {dir : ListEntry}
  {before after : List Nat} {z : Nat}
include hl

theorem createNewFile_grown (hv : DirsValid (listed fs) d) (hfull : FullSubdirectory fs d pathname)
    (h2 : 2 ≤ findFirstFreeCluster fs d) (attributes : UInt8) : ∃ dir before z after,
      Grows fs d pathname dir before z after ∧ createNewFile fs d pathname attributes =
        some (0, grownDisk fs d z (findFirstFreeCluster fs d) (newFile fs d pathname attributes)
          (newFirstByte (newFile fs d pathname attributes))) := by
  obtain ⟨h₀, hnone, dir, hr⟩ := hfull
  obtain ⟨hparts, hlisted, hsub, l, hc, hdir⟩ := findDir_dirAt hl hv hr
  obtain ⟨e, he, hp⟩ := hc.ends
  obtain ⟨z, o, hs, -, -⟩ :=
    searchDirectory_chain hl.toLayout hc (findFirstFreeSpace (clusterEntries fs))
  rw [newSlot, directorySlot_sub h₀ hr, hs] at hnone
  cases o with
  | some i => simp at hnone
  | none =>
    obtain ⟨before, after, rfl, hall⟩ := searchDirectory_full hp he hc.nonempty hs
    obtain ⟨hlt, hzero, -⟩ := findFirstFreeCluster_spec hl.toLayout d rfl h2
    exact ⟨dir, before, z, after, ⟨hr, hparts, hlisted, hsub, ⟨hc, hall, h2, hlt, hzero⟩, hdir⟩,
      by rw [createNewFile_of_full attributes h₀ hr hs, if_neg (by omega)]⟩

namespace Grows

omit hl in
theorem mem_sectors (_h : Grows fs d pathname dir before z after) :
    firstSector fs z ∈ chainSectors fs (before ++ [z] ++ after) :=
  mem_chainSectors.mpr ⟨z, by simp, Nat.le_refl _, Nat.lt_add_of_pos_right fs.sectorsPerCluster_pos⟩

/-- The directory lies deeper than those on the way to it. -/
theorem listing_above (h : Grows fs d pathname dir before z after) (hw : WellFormed fs d) {n : Nat}
    {ss : List Nat} (hss : DirAt fs d n ss) (hn : n < (splitPath (toDirectory pathname)).length) :
    grownListing fs d pathname before z after ss = entriesOf fs d ss := by
  have hne : ss ≠ chainSectors fs (before ++ [z] ++ after) := by
    rintro rfl
    exact absurd (hss.depth_unique hl hw h.dirAt h.mem_sectors h.mem_sectors) hn.ne
  rw [grownListing, if_neg hne]
  exact entriesOf_congr fun s hs _ _ => h.full.byte_eq hl hss.dir hs

theorem listingsAfter (h : Grows fs d pathname dir before z after) (hw : WellFormed fs d) :
    ListingsAfter fs d (grownDisk fs d z (findFirstFreeCluster fs d) (newFile fs d pathname 0x0)
      (newFirstByte (newFile fs d pathname 0x0))) (splitPath (toDirectory pathname)).length
      (grownListing fs d pathname before z after) where
  root := by
    rw [h.listing_above hl hw .root (List.length_pos_iff.mpr h.parts), getRootDir_eq]
    have hroot : Dir (listed fs) d (rootSectors fs) := .root
    exact entriesOf_congr fun s hs _ _ => h.full.byte_eq hl hroot hs
  sub q m hq hsub hm := by
    by_cases hqd : q = dir.slot
    · subst hqd
      have he := h.reached.2
      rw [← he] at hm hsub ⊢
      obtain rfl := hm.unique hl.toLayout h.full.chain
      rw [grownListing, if_pos rfl]
      exact getDir_eq hl.toLayout hsub (h.full.chain_grown hl.toLayout)
    · -- another directory shares no cluster with the one that grows
      have hdisj := hw.apart ⟨slotEntry d q, q⟩ dir m _ (hq.live hl.toLayout)
        (h.reached.live hl.toLayout) hqd (hm.chainOf hl.toLayout) (h.full.chain.chainOf hl.toLayout)
      have hz : z ∉ m := fun hmem => hdisj hmem (by simp)
      have hne : chainSectors fs m ≠ chainSectors fs (before ++ [z] ++ after) := by
        intro he
        obtain ⟨a, ha, ha'⟩ := chainSectors_common hm h.full.chain (he ▸ h.mem_sectors) h.mem_sectors
        exact hdisj ha ha'
      rw [grownListing, if_neg hne]
      exact getDir_eq hl.toLayout hsub (h.full.chain_other hl.toLayout hm hz)
  above _ _ hss hn := h.listing_above hl hw hss hn

theorem named_iff (h : Grows fs d pathname dir before z after)
    (hfull : FullSubdirectory fs d pathname) {ts : List Nat} (hts : Dir (listed fs) d ts)
    (hold : ∀ f ∈ entriesOf fs d ts,
      ¬ entryNamed (splitFilename (toFilename pathname)) f.entry) :
    (∃ f ∈ grownListing fs d pathname before z after ts,
      entryNamed (splitFilename (toFilename pathname)) f.entry) ↔ GetsName fs d pathname ts := by
  obtain ⟨h₀, h₅⟩ := newFirstByte_used fs d pathname 0x0
  have hslot : ∀ p, newSlot fs d pathname ≠ some (some p) := by
    intro p hp
    rw [hfull.2.1] at hp
    cases hp
  rw [grownListing]
  split_ifs with he
  · subst he
    rw [h.full.named_iff hl hts h₀ h₅ hold, newFile_named_iff]
    constructor
    · exact .grown hfull h.found h.full.chain rfl
    · intro hgets
      cases hgets with
      | made slot => exact absurd slot (hslot _)
      | uncovered slot => exact absurd slot (hslot _)
      | grown _ _ _ _ kept => exact kept
  · rw [entriesOf_congr fun s hs _ _ => h.full.byte_eq hl hts hs]
    constructor
    · rintro ⟨f, hf, hn⟩
      exact absurd hn (hold f hf)
    · intro hgets
      cases hgets with
      | made slot => exact absurd slot (hslot _)
      | uncovered slot => exact absurd slot (hslot _)
      | grown _ found chain sectors =>
        obtain rfl := Option.some.inj (Option.some.inj (found.symm.trans h.found))
        exact absurd (chain.unique hl.toLayout h.full.chain ▸ sectors) he

end Grows
end Growth

section Open
variable {fs : Fat16} {s t : State} {pathname : CharPtr} {flags : Nat} {r : Int}

/-- `open_file` finds nothing under a relative path. -/
theorem openFile_missing : openFile fs s pathname = some (none, s) ↔
    (CharPtr.at pathname 0 = slash → CharPtr.at pathname 1 ≠ 0 ∧
      findFile fs s.disk (pathname.drop 1) (getRootDir fs s.disk) = some none) := by
  rw [openFile]
  by_cases h₀ : CharPtr.at pathname 0 = slash
  · by_cases h₁ : CharPtr.at pathname 1 = 0
    · simp [h₀, h₁, insertOpenFile]
    · rw [if_neg (not_not.mpr h₀), if_neg h₁]
      rcases findFile fs s.disk (pathname.drop 1) (getRootDir fs s.disk) with _ | _ | file
      · simp [h₀]
      · simp [h₀, h₁]
      · simp [h₀, h₁, insertOpenFile]
  · simp [h₀]

variable (hl : DirLayout fs) (hpos : 0 < numEntries fs)
include hl

/-- No directory that the walk ends in had the name before. -/
theorem not_named_before {d : Disk} (hv : DirsValid (listed fs) d)
    (h₀ : CharPtr.at pathname 0 = slash)
    (hnone : findFile fs d (pathname.drop 1) (getRootDir fs d) = some none) {ts : List Nat}
    (hend : EndsIn fs d (pathname.drop 1) (rootSectors fs) ts) :
    ∀ f ∈ entriesOf fs d ts, ¬ entryNamed (splitFilename (toFilename pathname)) f.entry := by
  intro f hf hn
  obtain ⟨r, hr, hiff⟩ := findFile_after hv (.refl hl.toLayout _) h₀ (Nat.le_succ _)
  obtain rfl := Option.some.inj (hnone.symm.trans hr)
  exact absurd (hiff.mpr ⟨ts, hend, f, hf, hn⟩) (by simp)

omit hl in
/-- The walk ends in a directory that lists the name afterwards. -/
theorem reopens_iff {d : Disk} (h₀ : CharPtr.at pathname 0 = slash)
    {listing : List Nat → List ListEntry}
    (hlist : ∀ ts, EndsIn fs d (pathname.drop 1) (rootSectors fs) ts → Dir (listed fs) d ts →
      ((∃ f ∈ listing ts, entryNamed (splitFilename (toFilename pathname)) f.entry) ↔
        GetsName fs d pathname ts)) :
    (∃ ts, EndsIn fs d (pathname.drop 1) (rootSectors fs) ts ∧
      ∃ f ∈ listing ts, entryNamed (splitFilename (toFilename pathname)) f.entry) ↔
      Reopens fs d pathname := by
  have hdir : ∀ ts, EndsIn fs d (pathname.drop 1) (rootSectors fs) ts → Dir (listed fs) d ts :=
    fun ts hend => (hend.dirAt .root).elim fun _ h => h.dir
  constructor
  · rintro ⟨ts, hend, hf⟩
    exact ⟨h₀, ts, hend, (hlist ts hend (hdir ts hend)).mp hf⟩
  · rintro ⟨-, ts, hend, hgets⟩
    exact ⟨ts, hend, (hlist ts hend (hdir ts hend)).mpr hgets⟩

theorem createNewFile_full {d : Disk} (hv : DirsValid (listed fs) d)
    (h : ¬ HasRoom fs d pathname) (attributes : UInt8) :
    createNewFile fs d pathname attributes = some (-1, d) := by
  rw [HasRoom, not_or] at h
  obtain ⟨o, ho, -⟩ := newSlot_ends hl hv pathname
  rw [createNewFile_eq hl hv pathname attributes fun hf => by
    by_contra hlt
    exact h.2 ⟨hf, by omega⟩, ho]
  cases o with
  | none => rfl
  | some p => exact absurd ⟨p, ho⟩ h.1

include hpos

/-- Making a file changes the disk, and says whether the file is found. -/
theorem findFile_made {d : Disk} (hv : DirsValid (listed fs) d) (hw : WellFormed fs d)
    (h : HasRoom fs d pathname) : ∃ d', createNewFile fs d pathname 0x0 = some (0, d') ∧ d' ≠ d ∧
      (CharPtr.at pathname 0 = slash →
        findFile fs d (pathname.drop 1) (getRootDir fs d) = some none →
        ∃ r, findFile fs d' (pathname.drop 1) (getRootDir fs d') = some r ∧
          (r.isSome ↔ Reopens fs d pathname)) := by
  obtain ⟨p, hslot⟩ | ⟨hfull, h2⟩ := h
  · obtain ⟨hc, hs, hfree⟩ := createNewFile_slot hl hpos hv hslot
    refine ⟨_, hc, madeDisk_ne hfree, fun h₀ hnone => ?_⟩
    obtain ⟨depth, hdepth, hdeep⟩ := newSlot_deep hl hv hw h₀ hslot
    obtain ⟨r, hr, hiff⟩ :=
      findFile_after hv (listingsAfter_slot hl hpos hs hdeep) h₀ hdepth
    refine ⟨r, hr, hiff.trans (reopens_iff h₀ fun ts hend hts => ?_)⟩
    exact named_made_iff hl hpos hs hslot hts (not_named_before hl hv h₀ hnone hend)
  · obtain ⟨dir, before, z, after, hg, hc⟩ := createNewFile_grown hl hv hfull h2 0x0
    refine ⟨_, hc, fun he => ?_, fun h₀ hnone => ?_⟩
    · have hsucc : getSuccessorCluster fs (grownDisk fs d z (findFirstFreeCluster fs d)
          (newFile fs d pathname 0x0) (newFirstByte (newFile fs d pathname 0x0)))
          (findFirstFreeCluster fs d) = 0xFFFF := by
        rw [hg.full.successor_eq hl.toLayout hg.full.inTable, if_pos rfl]
      rw [he, hg.full.free] at hsucc
      exact absurd hsucc (by decide)
    · obtain ⟨r, hr, hiff⟩ :=
        findFile_after hv (hg.listingsAfter hl hw) h₀ (parts_le_directory h₀ hg.parts)
      refine ⟨r, hr, hiff.trans (reopens_iff h₀ fun ts hend hts => ?_)⟩
      exact hg.named_iff hl hfull hts (not_named_before hl hv h₀ hnone hend)

/-- A call of `sys_open` that returns -1 leaves everything as it was, unless it makes a file that it
then cannot open. -/
theorem failed_open_untouched_iff (hv : DirsValid (listed fs) s.disk) (hw : WellFormed fs s.disk)
    (hi : TableInv s) (h : sysOpen fs s pathname flags = some (r, t)) :
    (r = -1 → Untouched s t) ↔ (MakesFile fs s pathname flags → Reopens fs s.disk pathname) := by
  cases sysOpen_effect h with
  | known known =>
    have hf := (hi.range _ (List.mem_of_find?_eq_some known)).1
    refine ⟨fun _ hm => ?_, fun _ hr => by omega⟩
    rw [hm.closed] at known
    cases known
  | @opened f t unknown found =>
    have hnext := hi.next
    obtain ⟨e, rfl, -⟩ := openFile_some found
    refine ⟨fun _ hm => ?_, fun _ hr => absurd hr (by dsimp only; omega)⟩
    have hmiss := openFile_missing.mpr hm.absent
    rw [found] at hmiss
    cases hmiss
  | missing _ flag => exact ⟨fun _ hm => absurd flag hm.flag, fun _ _ => ⟨rfl, rfl, rfl⟩⟩
  | @failed result d unknown missing flag made lost =>
    by_cases hroom : HasRoom fs s.disk pathname
    · obtain ⟨d', hc, hne, hfound⟩ := findFile_made hl hpos hv hw hroom
      obtain ⟨rfl, rfl⟩ := Prod.mk.inj (Option.some.inj (made.symm.trans hc))
      refine ⟨fun hu => absurd (hu rfl).1 hne, fun hr => ?_⟩
      have hre := hr ⟨unknown, openFile_missing.mp missing, flag, hroom⟩
      have hlost := openFile_missing.mp (lost.resolve_left (by decide)) hre.absolute
      obtain ⟨r, hr, hiff⟩ := hfound hre.absolute (openFile_missing.mp missing hre.absolute).2
      obtain rfl := Option.some.inj (hlost.2.symm.trans hr)
      exact absurd (hiff.mpr hre) (by simp)
    · have hc := createNewFile_full hl hv hroom 0x0
      obtain ⟨rfl, rfl⟩ := Prod.mk.inj (Option.some.inj (made.symm.trans hc))
      exact ⟨fun _ hm => absurd hm.room hroom, fun _ _ => ⟨rfl, rfl, rfl⟩⟩
  | @made result d f t unknown missing flag made found =>
    have hnext := hi.next
    obtain ⟨e, rfl, -⟩ := openFile_some found
    refine ⟨fun _ hm => ?_, fun _ hr => absurd hr (by dsimp only; omega)⟩
    obtain ⟨d', hc, -, hfound⟩ := findFile_made hl hpos hv hw hm.room
    obtain ⟨rfl, rfl⟩ := Prod.mk.inj (Option.some.inj (made.symm.trans hc))
    by_contra hno
    -- a file that is not found is not opened
    have hmiss : openFile fs { s with disk := d } pathname = some (none, { s with disk := d }) := by
      refine openFile_missing.mpr fun h₀ => ⟨(hm.absent h₀).1, ?_⟩
      obtain ⟨r, hr, hiff⟩ := hfound h₀ (hm.absent h₀).2
      cases r with
      | none => exact hr
      | some file => exact absurd (hiff.mp rfl) hno
    rw [found] at hmiss
    cases hmiss

end Open

section Examples

theorem rootPath_reopens : MakesFile smallVolume (fileInitialise emptyDisk) rootPath 1 ∧
    Reopens smallVolume emptyDisk rootPath := by
  have hres : (sysOpen smallVolume (fileInitialise emptyDisk) rootPath 1).map Prod.fst = some 3 := by
    decide +kernel
  obtain ⟨⟨r, t⟩, ht, hr⟩ := Option.map_eq_some_iff.mp hres
  obtain rfl : r = 3 := hr
  have hmakes : MakesFile smallVolume (fileInitialise emptyDisk) rootPath 1 :=
    ⟨rfl, fun _ => ⟨by decide, by decide +kernel⟩, by decide, Or.inl ⟨⟨2, 0⟩, by decide +kernel⟩⟩
  exact ⟨hmakes, (failed_open_untouched_iff smallVolume_layout (by decide)
    emptyDisk_sound.dirs.to_listed (emptyDisk_sound.wellFormed smallVolume_layout)
    (fileInitialise_table emptyDisk) ht).mp (fun h => absurd h (by decide)) hmakes⟩

/-- The path `BB.TXT`. -/
def relativePath : CharPtr := rootPath.drop 1

/-- A relative path is made, in the root directory, but not found. -/
theorem relative_open_leaves_entry : WellFormed smallVolume emptyDisk ∧
    getRootDir smallVolume emptyDisk = [] ∧
    ∃ t, sysOpen smallVolume (fileInitialise emptyDisk) relativePath 1 = some (-1, t) ∧
      (getRootDir smallVolume t.disk).length = 1 ∧ ¬ Untouched (fileInitialise emptyDisk) t := by
  have hempty : getRootDir smallVolume emptyDisk = [] := by decide +kernel
  have hres : (sysOpen smallVolume (fileInitialise emptyDisk) relativePath 1).map
      (fun r => (r.1, (getRootDir smallVolume r.2.disk).length)) = some (-1, 1) := by decide +kernel
  obtain ⟨⟨r, t⟩, ht, he⟩ := Option.map_eq_some_iff.mp hres
  obtain ⟨rfl, hlen⟩ := Prod.mk.inj he
  refine ⟨emptyDisk_sound.wellFormed smallVolume_layout, hempty, t, ht, hlen, fun hu => ?_⟩
  have hdisk : t.disk = emptyDisk := hu.1
  rw [hdisk, hempty] at hlen
  cases hlen

end Examples
end MalapropOS.Fat
