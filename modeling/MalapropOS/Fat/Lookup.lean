import MalapropOS.Fat.PathNames

/-! `find_file` against the lookup of each component of a path under its exact name. -/
namespace MalapropOS.Fat
open TreeWalk

/-- Each component is looked up under its name and extension. -/
def exactLookup : Lookup ShortName ListEntry where
  inner c dir := dir.find? fun f => c.Names f.entry
  last c dir := dir.find? fun f => c.Names f.entry

/-- The entry that the components lead to from the root directory. -/
def lookupPath (fs : Fat16) (d : Disk) (cs : List ShortName) : Option ListEntry :=
  walk (childrenOf fs d) exactLookup cs (getRootDir fs d)

/-- The directory that holds this entry, if there is one. -/
def lookupDirectory (fs : Fat16) (d : Disk) (cs : List ShortName) : Option (List ListEntry) :=
  walkDir (childrenOf fs d) exactLookup cs (getRootDir fs d)

/-- One of the calls that `find_file` makes of itself takes the first part of an empty split. -/
inductive ReadsEmptySplit (fs : Fat16) (d : Disk) : CharPtr → List ListEntry → Prop
  | here {path : CharPtr} {dir : List ListEntry} (parts : splitPath path = []) :
      ReadsEmptySplit fs d path dir
  | inside {path part next : CharPtr} {rest : List CharPtr} {dir nextDir : List ListEntry}
      {f : ListEntry} (parts : splitPath path = part :: next :: rest) (mem : f ∈ dir)
      (sub : isSubdirectory f.entry.attributes) (named : entryNamed (splitFilename part) f.entry)
      (listing : getDir fs d f.entry = some (some nextDir))
      (reads : ReadsEmptySplit fs d (descendPath path) nextDir) : ReadsEmptySplit fs d path dir

/-- The last component is a single character. -/
def EndsSingle (cs : List ShortName) : Prop := ∃ c ∈ cs.getLast?, c.text.length = 1

instance (cs : List ShortName) : Decidable (EndsSingle cs) :=
  decidable_of_iff (cs.getLast?.any fun c => c.text.length = 1)
    (by simp [EndsSingle, Option.any_eq_true])

/-- `find_file`, as it looks components up. -/
def fileLookup : Lookup ShortName ListEntry :=
  resolverLookup (fun part e => entryNamed (splitFilename part) e)
    (fun part e => isSubdirectory e.attributes ∧ entryNamed (splitFilename part) e)

section Entries
variable {fs : Fat16} {d : Disk} {dir : List ListEntry} {c : ShortName}

theorem cstr_append_nul (s : List UInt8) : (cstr (s ++ [0])).length ≤ s.length := by
  induction s with
  | nil => simp [cstr]
  | cons x s ih =>
    by_cases hx : x = 0
    · simp [cstr, hx]
    · rw [List.cons_append, cstr_cons_of_ne hx]
      exact Nat.succ_le_succ ih

theorem decodeEntry_filename_length (x : Buffer) (i : Nat) :
    (cstr (decodeEntry x i).filename).length ≤ 8 := by
  refine (cstr_append_nul _).trans ?_
  split_ifs <;> simp [decodeChars]

theorem mem_scanSlots {ps : List Slot} {f : ListEntry} (hf : f ∈ (scanSlots d ps).1) :
    f.entry = slotEntry d f.slot := by
  rw [scanSlots_fst] at hf
  obtain ⟨p, -, rfl⟩ := List.mem_map.mp hf
  rfl

theorem mem_listChain {fuel c : Nat} (h : listChain fs d fuel c = some dir) :
    ∀ f ∈ dir, f.entry = slotEntry d f.slot := by
  induction fuel generalizing c dir with
  | zero => cases h
  | succ fuel ih =>
    rw [listChain] at h
    split_ifs at h with hin hend
    · obtain rfl := Option.some.inj h
      rw [listCluster_eq fs d hin.1 (hin.2.trans (by decide))]
      exact fun f => mem_scanSlots
    · obtain ⟨rest, hr, rfl⟩ := Option.map_eq_some_iff.mp h
      intro f hf
      cases List.mem_append.mp hf with
      | inl hm =>
        rw [listCluster_eq fs d hin.1 (hin.2.trans (by decide))] at hm
        exact mem_scanSlots hm
      | inr hm => exact ih hr f hm
    · obtain rfl := Option.some.inj h
      exact fun f hf => absurd hf List.not_mem_nil

/-- The entries of a listing are what their slots hold. -/
theorem Listing.entry (h : Listing fs d dir) : ∀ f ∈ dir, f.entry = slotEntry d f.slot := by
  cases h with
  | inl hroot =>
    rw [hroot, getRootDir_eq]
    intro f hf
    obtain ⟨p, -, rfl⟩ := List.mem_map.mp hf
    rfl
  | inr hsub =>
    obtain ⟨g, -, hd⟩ := hsub
    rw [getDir] at hd
    split_ifs at hd
    · obtain ⟨l, hl, he⟩ := Option.map_eq_some_iff.mp hd
      obtain rfl := Option.some.inj he
      exact mem_listChain hl
    · cases hd

theorem Listing.entryNamed_iff (h : Listing fs d dir) {f : ListEntry} (hf : f ∈ dir) :
    entryNamed (splitFilename c.text) f.entry ↔ c.Fits ∧ c.Names f.entry := by
  refine entryNamed_text ?_
  rw [h.entry f hf]
  exact decodeEntry_filename_length _ _

theorem childrenOf_subdirectory {f : ListEntry} (h : childrenOf fs d f = some dir) :
    isSubdirectory f.entry.attributes := by
  by_contra hs
  have hd := childrenOf_eq_some.mp h
  rw [getDir, if_neg hs] at hd
  cases hd

/-- A search for what occurs once finds it from either end. -/
theorem find_only_iff {α : Type} {p : α → Bool} {l : List α}
    (hone : ∀ a ∈ l, ∀ b ∈ l, p a → p b → a = b) {a : α} :
    l.find? p = some a ↔ a ∈ l ∧ p a := by
  constructor
  · intro h
    exact ⟨List.mem_of_find?_eq_some h, List.find?_some h⟩
  · intro h
    cases hb : l.find? p with
    | none => exact absurd h.2 (List.find?_eq_none.mp hb a h.1)
    | some b =>
      rw [hone b (List.mem_of_find?_eq_some hb) a h.1 (List.find?_some hb) h.2]

variable (hu : DistinctNames fs d) (hdir : Listing fs d dir)
include hu hdir

theorem DistinctNames.one {f g : ListEntry} (hf : f ∈ dir) (hg : g ∈ dir) (hcf : c.Names f.entry)
    (hcg : c.Names g.entry) : f = g :=
  hu dir hdir f hf g hg (hcf.1.trans hcg.1.symm) (hcf.2.trans hcg.2.symm)

theorem exactLookup_inner {f : ListEntry} :
    exactLookup.inner c dir = some f ↔ f ∈ dir ∧ c.Names f.entry := by
  refine (find_only_iff fun a ha b hb hpa hpb => ?_).trans (and_congr_right fun _ => decide_eq_true_iff)
  exact hu.one hdir ha hb (of_decide_eq_true hpa) (of_decide_eq_true hpb)

theorem Listing.below {below : List ListEntry}
    (hd : (exactLookup.inner c dir).bind (childrenOf fs d) = some below) : Listing fs d below := by
  obtain ⟨f, hf, hc⟩ := Option.bind_eq_some_iff.mp hd
  exact hdir.down ((exactLookup_inner hu hdir).mp hf).1 hc

theorem fileLookup_inner {f : ListEntry} : fileLookup.inner c dir = some f ↔
    f ∈ dir ∧ isSubdirectory f.entry.attributes ∧ c.Fits ∧ c.Names f.entry := by
  have htest : ∀ a ∈ dir, (decide (isSubdirectory a.entry.attributes ∧
      entryNamed (splitFilename c.text) a.entry)) = true ↔
      isSubdirectory a.entry.attributes ∧ c.Fits ∧ c.Names a.entry := by
    intro a ha
    rw [decide_eq_true_iff, hdir.entryNamed_iff ha]
  refine (find_only_iff fun a ha b hb hpa hpb => ?_).trans ?_
  · have ha := List.mem_reverse.mp ha
    have hb := List.mem_reverse.mp hb
    exact hu.one hdir ha hb ((htest a ha).mp hpa).2.2 ((htest b hb).mp hpb).2.2
  · rw [List.mem_reverse]
    exact and_congr_right (htest f)

theorem fileLookup_last {f : ListEntry} : fileLookup.last c dir = some f ↔
    c.text.length ≠ 1 ∧ f ∈ dir ∧ c.Fits ∧ c.Names f.entry := by
  have hlast : fileLookup.last c dir = if c.text.length = 1 then none
    else dir.find? fun f => entryNamed (splitFilename c.text) f.entry := rfl
  rw [hlast]
  split_ifs with hsingle
  · exact iff_of_false (by simp) fun h => h.1 hsingle
  · refine (find_only_iff fun a ha b hb hpa hpb => ?_).trans ?_
    · exact hu.one hdir ha hb ((hdir.entryNamed_iff ha).mp hpa).2 ((hdir.entryNamed_iff hb).mp hpb).2
    · rw [and_iff_right hsingle]
      exact and_congr_right fun hf => hdir.entryNamed_iff hf

/-- Only a component that fits leads `find_file` down, and then where its exact name leads. -/
theorem fileLookup_down {below : List ListEntry} :
    (fileLookup.inner c dir).bind (childrenOf fs d) = some below ↔
      c.Fits ∧ (exactLookup.inner c dir).bind (childrenOf fs d) = some below := by
  rw [Option.bind_eq_some_iff, Option.bind_eq_some_iff]
  constructor
  · intro h
    obtain ⟨f, hf, hd⟩ := h
    obtain ⟨hm, -, hfits, hnames⟩ := (fileLookup_inner hu hdir).mp hf
    exact ⟨hfits, f, (exactLookup_inner hu hdir).mpr ⟨hm, hnames⟩, hd⟩
  · intro h
    obtain ⟨hfits, f, hf, hd⟩ := h
    obtain ⟨hm, hnames⟩ := (exactLookup_inner hu hdir).mp hf
    exact ⟨f, (fileLookup_inner hu hdir).mpr ⟨hm, childrenOf_subdirectory hd, hfits, hnames⟩, hd⟩

end Entries

section Files
variable {fs : Fat16} {d : Disk} {dir : List ListEntry} {c next : ShortName}
  {cs rest : List ShortName} {path : CharPtr}

theorem endsSingle_cons : EndsSingle (c :: next :: rest) ↔ EndsSingle (next :: rest) := by
  simp [EndsSingle]

theorem endsSingle_one : EndsSingle [c] ↔ c.text.length = 1 := by
  simp [EndsSingle]

theorem ShortName.fits_of_single (h : c.text.length = 1) : c.Fits := by
  have := ShortName.name_length_le (c := c)
  exact Or.inl (by omega)

/-- `find_file` finds what the exact names lead to, as long as it can find anything at all. -/
theorem walk_fileLookup (hu : DistinctNames fs d) (hdir : Listing fs d dir) (hne : cs ≠ [])
    (f : ListEntry) : walk (childrenOf fs d) fileLookup cs dir = some f ↔
      (∀ c ∈ cs, c.Fits) ∧ ¬ EndsSingle cs ∧
        walk (childrenOf fs d) exactLookup cs dir = some f := by
  induction cs generalizing dir with
  | nil => exact absurd rfl hne
  | cons c cs ih =>
    cases cs with
    | nil =>
      have hexact : walk (childrenOf fs d) exactLookup [c] dir = some f ↔ f ∈ dir ∧ c.Names f.entry :=
        exactLookup_inner hu hdir
      rw [walk, fileLookup_last hu hdir, hexact, endsSingle_one, List.forall_mem_singleton]
      tauto
    | cons next rest =>
      rw [walk, walk, Option.bind_eq_some_iff, Option.bind_eq_some_iff, endsSingle_cons,
        List.forall_mem_cons]
      constructor
      · intro h
        obtain ⟨below, hd, hw⟩ := h
        obtain ⟨hfits, hd⟩ := (fileLookup_down hu hdir).mp hd
        obtain ⟨hall, hsingle, hw⟩ := (ih (hdir.below hu hd) (List.cons_ne_nil _ _)).mp hw
        exact ⟨⟨hfits, hall⟩, hsingle, below, hd, hw⟩
      · intro h
        obtain ⟨⟨hfits, hall⟩, hsingle, below, hd, hw⟩ := h
        exact ⟨below, (fileLookup_down hu hdir).mpr ⟨hfits, hd⟩,
          (ih (hdir.below hu hd) (List.cons_ne_nil _ _)).mpr ⟨hall, hsingle, hw⟩⟩

theorem readsEmptySplit_one (h : Spells path [c]) :
    ReadsEmptySplit fs d path dir ↔ c.text.length = 1 := by
  have hparts := h.part
  constructor
  · intro hreads
    cases hreads with
    | here parts =>
      by_contra hlong
      rw [hparts, if_neg hlong] at parts
      cases parts
    | inside parts =>
      rw [hparts] at parts
      split_ifs at parts
      cases parts
  · intro hsingle
    exact .here (hparts.trans (if_pos hsingle))

/-- In front of the last component an empty split is read in the directory that `find_file` goes down
to. -/
theorem readsEmptySplit_cons (hu : DistinctNames fs d) (hdir : Listing fs d dir)
    (h : Spells path (c :: next :: rest)) : ReadsEmptySplit fs d path dir ↔
      ∃ below, (fileLookup.inner c dir).bind (childrenOf fs d) = some below ∧
        ReadsEmptySplit fs d (descendPath path) below := by
  constructor
  · intro hreads
    cases hreads with
    | here parts =>
      rw [h.parts] at parts
      cases parts
    | @inside _ part _ _ _ below f parts mem sub named listing reads =>
      rw [h.parts] at parts
      obtain rfl := (List.cons.inj parts).1
      have hpick : fileLookup.inner c dir = some f :=
        (fileLookup_inner hu hdir).mpr ⟨mem, sub, (hdir.entryNamed_iff mem).mp named⟩
      exact ⟨below, Option.bind_eq_some_iff.mpr ⟨f, hpick, childrenOf_eq_some.mpr listing⟩, reads⟩
  · intro hdown
    obtain ⟨below, hb, reads⟩ := hdown
    obtain ⟨f, hf, hd⟩ := Option.bind_eq_some_iff.mp hb
    obtain ⟨mem, sub, hnames⟩ := (fileLookup_inner hu hdir).mp hf
    exact .inside h.parts mem sub ((hdir.entryNamed_iff mem).mpr hnames)
      (childrenOf_eq_some.mp hd) reads

/-- An empty split is read where the walk comes to a last component of one character. -/
theorem readsEmptySplit_iff (hu : DistinctNames fs d) (hdir : Listing fs d dir) (hne : cs ≠ [])
    (h : Spells path cs) : ReadsEmptySplit fs d path dir ↔
      (∀ c ∈ cs, c.Fits) ∧ EndsSingle cs ∧
        (walkDir (childrenOf fs d) exactLookup cs dir).isSome := by
  induction cs generalizing path dir with
  | nil => exact absurd rfl hne
  | cons c cs ih =>
    cases cs with
    | nil =>
      rw [readsEmptySplit_one h, endsSingle_one, List.forall_mem_singleton]
      constructor
      · intro hsingle
        exact ⟨ShortName.fits_of_single hsingle, hsingle, rfl⟩
      · intro hends
        exact hends.2.1
    | cons next rest =>
      rw [readsEmptySplit_cons hu hdir h, endsSingle_cons, List.forall_mem_cons, walkDir,
        Option.isSome_bind, Option.any_eq_true]
      constructor
      · intro hdown
        obtain ⟨below, hb, reads⟩ := hdown
        obtain ⟨hfits, hb⟩ := (fileLookup_down hu hdir).mp hb
        obtain ⟨hall, hsingle, hend⟩ :=
          (ih (hdir.below hu hb) (List.cons_ne_nil _ _) h.descend).mp reads
        exact ⟨⟨hfits, hall⟩, hsingle, below, hb, hend⟩
      · intro hends
        obtain ⟨⟨hfits, hall⟩, hsingle, below, hb, hend⟩ := hends
        exact ⟨below, (fileLookup_down hu hdir).mpr ⟨hfits, hb⟩,
          (ih (hdir.below hu hb) (List.cons_ne_nil _ _) h.descend).mpr ⟨hall, hsingle, hend⟩⟩

theorem findFile_walk (hends : ListingsEnd fs d) (hne : cs ≠ []) (h : Spells path cs)
    (hdir : Listing fs d dir) :
    findFile fs d path dir = some (walk (childrenOf fs d) fileLookup cs dir) := by
  refine resolveFuel_walk hends (fun part e he => ?_) hne (h.length_le.trans (Nat.le_succ _)) h hdir
  exact (of_decide_eq_true he).1

/-- `find_file` finds what the exact names of an absolute path lead to, and reads no empty split,
unless its walk comes to a last component of a single character, or the names lead to an entry past a
component of 8 characters with an extension. -/
theorem findFile_exact_iff (hends : ListingsEnd fs d) (hu : DistinctNames fs d) {pathname : CharPtr}
    (hne : cs ≠ []) (hpath : cstr pathname = slash :: pathText cs) :
    (findFile fs d (pathname.drop 1) (getRootDir fs d) = some (lookupPath fs d cs) ∧
      ¬ ReadsEmptySplit fs d (pathname.drop 1) (getRootDir fs d)) ↔
    ¬ ((∀ c ∈ cs, c.Fits) ∧ EndsSingle cs ∧ (lookupDirectory fs d cs).isSome) ∧
      ¬ ((∃ c ∈ cs, ¬ c.Fits) ∧ (lookupPath fs d cs).isSome) := by
  have h := Spells.of_absolute hne hpath
  have hdir : Listing fs d (getRootDir fs d) := Or.inl rfl
  have hwalk := walk_fileLookup hu hdir hne
  have hreads := readsEmptySplit_iff hu hdir hne h
  rw [findFile_walk hends hne h hdir, Option.some.injEq, hreads]
  refine and_comm.trans (and_congr_right fun hempty => ?_)
  constructor
  · intro heq hlost
    obtain ⟨f, hf⟩ := Option.isSome_iff_exists.mp hlost.2
    have hall := ((hwalk f).mp (heq.trans hf)).1
    obtain ⟨c, hc, hfits⟩ := hlost.1
    exact hfits (hall c hc)
  · intro hlost
    refine Option.ext fun f => (hwalk f).trans ⟨fun h => h.2.2, fun hf => ?_⟩
    have hall : ∀ c ∈ cs, c.Fits := by
      by_contra hfits
      push Not at hfits
      exact hlost ⟨hfits, Option.isSome_iff_exists.mpr ⟨f, hf⟩⟩
    have hleads : Leads (childrenOf fs d) exactLookup cs (getRootDir fs d) f :=
      walk_eq_some_iff.mp hf
    exact ⟨hall, fun hsingle => hempty ⟨hall, hsingle, hleads.walkDir⟩, hf⟩

end Files

section Volumes
variable {fs : Fat16} {d : Disk}

theorem childrenOf_sectors (hl : Layout fs) (hv : DirsValid (listed fs) d) {f : ListEntry}
    (hf : LiveEntry fs d f) {dir : List ListEntry} (hd : childrenOf fs d f = some dir) :
    ∃ l, FileChain fs d f.entry.firstCluster l ∧ Dir (listed fs) d (chainSectors fs l) ∧
      dir = entriesOf fs d (chainSectors fs l) := by
  have hd := childrenOf_eq_some.mp hd
  obtain he | ⟨l, hc, hdir, he⟩ := (hf.listed hl hv).getDir hl hv
  · rw [hd] at he
    cases he
  · rw [hd] at he
    exact ⟨l, hc, hdir, Option.some.inj (Option.some.inj he)⟩

theorem DirsValid.listingsEnd (hl : Layout fs) (hv : DirsValid (listed fs) d) :
    ListingsEnd fs d := by
  intro f hf hnone
  obtain he | ⟨l, -, -, he⟩ := (hf.listed hl hv).getDir hl hv
  · rw [hnone] at he
    cases he
  · rw [hnone] at he
    cases he

theorem UniqueNames.distinctNames (hl : Layout fs) (hv : DirsValid (listed fs) d)
    (hu : UniqueNames fs d) : DistinctNames fs d := by
  intro dir hdir
  cases hdir with
  | inl hroot =>
    rw [hroot, getRootDir_eq]
    exact hu _ .root
  | inr hsub =>
    obtain ⟨f, hf, hd⟩ := hsub
    obtain ⟨l, -, hdir, rfl⟩ := childrenOf_sectors hl hv hf (childrenOf_eq_some.mpr hd)
    exact hu _ hdir

/-- Chains without a common cluster belong to directories without a common entry. -/
theorem WellFormed.oneParent (hl : DirLayout fs) (hv : DirsValid (listed fs) d)
    (hw : WellFormed fs d) : OneParent fs d := by
  intro f g dir dir' e hf hg hd hd' he he'
  obtain ⟨l, hc, -, rfl⟩ := childrenOf_sectors hl.toLayout hv hf hd
  obtain ⟨l', hc', -, rfl⟩ := childrenOf_sectors hl.toLayout hv hg hd'
  have hsector : ∀ {l : List Nat}, e ∈ entriesOf fs d (chainSectors fs l) →
      e.slot.sector ∈ chainSectors fs l := by
    intro l he
    obtain ⟨p, hp, rfl⟩ := List.mem_map.mp he
    exact (mem_slotsOf.mp ((listed fs).subset _ _ hp)).1
  obtain ⟨a, ha, ha'⟩ := chainSectors_common hc hc' (hsector he) (hsector he')
  have hslot : f.slot = g.slot := by
    by_contra hne
    exact hw.apart f g l l' hf hg hne (hc.chainOf hl.toLayout) (hc'.chainOf hl.toLayout) ha ha'
  have hentry := (hf.listed hl.toLayout hv).2
  have hentry' := (hg.listed hl.toLayout hv).2
  cases f
  cases g
  simp only at hslot hentry hentry'
  rw [hentry, hentry', hslot]

end Volumes

section Examples

/-- A listing in which no name occurs twice. -/
def NamesOnce (dir : List ListEntry) : Prop :=
  ∀ f ∈ dir, ∀ g ∈ dir, cstr f.entry.filename = cstr g.entry.filename →
    cstr f.entry.extension = cstr g.entry.extension → f = g

instance (dir : List ListEntry) : Decidable (NamesOnce dir) :=
  inferInstanceAs (Decidable (∀ f ∈ dir, _))

/-- The entries of a small tree, where what makes it one can be computed. -/
structure SmallTree (d : Disk) (all : List ListEntry) : Prop where
  root : ∀ f ∈ getRootDir smallVolume d, f ∈ all
  down : ∀ f ∈ all, ∀ dir ∈ childrenOf smallVolume d f, ∀ g ∈ dir, g ∈ all
  ends : ∀ f ∈ all, getDir smallVolume d f.entry ≠ none
  rootNames : NamesOnce (getRootDir smallVolume d)
  names : ∀ f ∈ all, ∀ dir ∈ childrenOf smallVolume d f, NamesOnce dir
  parent : ∀ f ∈ all, ∀ g ∈ all, ∀ dir ∈ childrenOf smallVolume d f,
    ∀ dir' ∈ childrenOf smallVolume d g, ∀ e ∈ dir, e ∈ dir' → f = g

variable {d : Disk} {all : List ListEntry}

theorem SmallTree.live (h : SmallTree d all) {f : ListEntry} (hf : LiveEntry smallVolume d f) :
    f ∈ all := by
  induction hf with
  | root hf => exact h.root _ hf
  | child _ hd hg ih => exact h.down _ ih _ (childrenOf_eq_some.mpr hd) _ hg

theorem SmallTree.listingsEnd (h : SmallTree d all) : ListingsEnd smallVolume d :=
  fun f hf => h.ends f (h.live hf)

theorem SmallTree.distinctNames (h : SmallTree d all) : DistinctNames smallVolume d := by
  intro dir hdir
  cases hdir with
  | inl hroot => exact hroot ▸ h.rootNames
  | inr hsub =>
    obtain ⟨f, hf, hd⟩ := hsub
    exact h.names f (h.live hf) dir (childrenOf_eq_some.mpr hd)

theorem SmallTree.oneParent (h : SmallTree d all) : OneParent smallVolume d :=
  fun f g dir dir' e hf hg hd hd' => h.parent f (h.live hf) g (h.live hg) dir hd dir' hd' e

theorem fullDisk_tree : SmallTree fullDisk [fullDirectory, oldFile] where
  root := by decide +kernel
  down := by decide +kernel
  ends := by decide +kernel
  rootNames := by decide +kernel
  names := by decide +kernel
  parent := by decide +kernel

/-- `DD`. -/
def nameDD : ShortName := ⟨[0x44, 0x44], [], by decide, by decide, by decide, by simp [slash, dot]⟩

/-- `AA.TXT`. -/
def nameAA : ShortName :=
  ⟨[0x41, 0x41], [0x54, 0x58, 0x54], by decide, by decide, by decide, by simp [slash, dot]⟩

/-- `/DD/AA.TXT`. -/
def oldPath : CharPtr := [0x2f, 0x44, 0x44, 0x2f, 0x41, 0x41, 0x2e, 0x54, 0x58, 0x54]

theorem oldFile_found :
    findFile smallVolume fullDisk (oldPath.drop 1) (getRootDir smallVolume fullDisk) =
      some (lookupPath smallVolume fullDisk [nameDD, nameAA]) ∧
    ¬ ReadsEmptySplit smallVolume fullDisk (oldPath.drop 1) (getRootDir smallVolume fullDisk) :=
  (findFile_exact_iff fullDisk_tree.listingsEnd fullDisk_tree.distinctNames (by decide)
    (by decide)).mpr ⟨fun h => absurd h.2.1 (by decide), fun h => absurd h.1 (by decide)⟩

/-- `A`. -/
def nameA : ShortName := ⟨[0x41], [], by decide, by decide, by decide, by simp [slash, dot]⟩

/-- `AB`. -/
def nameAB : ShortName := ⟨[0x41, 0x42], [], by decide, by decide, by decide, by simp [slash, dot]⟩

/-- `ABCDEFGH.TXT`. -/
def nameFull : ShortName :=
  ⟨[0x41, 0x42, 0x43, 0x44, 0x45, 0x46, 0x47, 0x48], [0x54, 0x58, 0x54], by decide, by decide,
    by decide, by simp [slash, dot]⟩

/-- The root directory has the regular files `A` and `ABCDEFGH.TXT`. -/
def edgeDisk : Disk := diskOf
  [[], [0xf8, 0xff, 0xff, 0xff, 0xff, 0xff, 0xff, 0xff],
    slotOf 0x41 0x20 0x20 0x20 0x20 0x00 2 0,
    [0x41, 0x42, 0x43, 0x44, 0x45, 0x46, 0x47, 0x48, 0x54, 0x58, 0x54, 0x00] ++
      List.replicate 14 0 ++ [3, 0, 0, 0, 0, 0]]

def fileA : ListEntry :=
  ⟨⟨[0x41, 0, 0, 0, 0, 0, 0, 0, 0], [0, 0, 0, 0], 0x00, 2, 0⟩, ⟨2, 0⟩⟩

def fileFull : ListEntry :=
  ⟨⟨[0x41, 0x42, 0x43, 0x44, 0x45, 0x46, 0x47, 0x48, 0], [0x54, 0x58, 0x54, 0], 0x00, 3, 0⟩,
    ⟨3, 0⟩⟩

theorem edgeDisk_tree : SmallTree edgeDisk [fileA, fileFull] where
  root := by decide +kernel
  down := by decide +kernel
  ends := by decide +kernel
  rootNames := by decide +kernel
  names := by decide +kernel
  parent := by decide +kernel

/-- Both files are there, and neither `/A` nor `/ABCDEFGH.TXT` is found. -/
theorem edge_names_not_found : ListingsEnd smallVolume edgeDisk ∧
    DistinctNames smallVolume edgeDisk ∧
    (lookupPath smallVolume edgeDisk [nameA] = some fileA ∧
      findFile smallVolume edgeDisk (pathText [nameA]) (getRootDir smallVolume edgeDisk) =
        some none ∧
      ReadsEmptySplit smallVolume edgeDisk (pathText [nameA])
        (getRootDir smallVolume edgeDisk)) ∧
    lookupPath smallVolume edgeDisk [nameFull] = some fileFull ∧
    findFile smallVolume edgeDisk (pathText [nameFull]) (getRootDir smallVolume edgeDisk) =
      some none :=
  ⟨edgeDisk_tree.listingsEnd, edgeDisk_tree.distinctNames,
    ⟨by decide +kernel, by decide +kernel, .here (by decide)⟩, by decide +kernel,
    by decide +kernel⟩

end Examples
end MalapropOS.Fat
