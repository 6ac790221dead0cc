import MalapropOS.Fat.Lookup

/-! The two resolvers side by side. `find_file` compares the extensions of components, and `find_dir`
does not. -/
namespace MalapropOS.Fat
open TreeWalk

/-- Each component is looked up among the subdirectories, under its name and extension. -/
def subdirectoryLookup : Lookup ShortName ListEntry where
  inner c dir := dir.find? fun f => isSubdirectory f.entry.attributes ∧ c.Names f.entry
  last c dir := dir.find? fun f => isSubdirectory f.entry.attributes ∧ c.Names f.entry

/-- Each component is looked up among the subdirectories without regard to extensions: in front of
the last one for the last subdirectory that has its whole text for a name, and the last one for the
first that has its name. -/
def nameLookup : Lookup ShortName ListEntry where
  inner c dir := dir.reverse.find? fun f =>
    isSubdirectory f.entry.attributes ∧ cstr f.entry.filename = c.text
  last c dir := dir.find? fun f =>
    isSubdirectory f.entry.attributes ∧ cstr f.entry.filename = c.name

/-- `find_dir` finds what `find_file` finds, if that is a subdirectory, and else nothing. -/
def ResolversAgree (fs : Fat16) (d : Disk) (path : CharPtr) : Prop :=
  ∃ file dir, findFile fs d path (getRootDir fs d) = some file ∧
    findDir fs d path (getRootDir fs d) = some dir ∧
    ∀ f, dir = some f ↔ file = some f ∧ isSubdirectory f.entry.attributes

/-- The components have two to seven characters of name. -/
def Moderate (cs : List ShortName) : Prop := ∀ c ∈ cs, 2 ≤ c.name.length ∧ c.name.length ≤ 7

instance (cs : List ShortName) : Decidable (Moderate cs) :=
  inferInstanceAs (Decidable (∀ c ∈ cs, _))

section Directories
variable {fs : Fat16} {d : Disk} {dir : List ListEntry} {c next : ShortName}
  {cs rest : List ShortName} {path : CharPtr}

theorem subdirectoryLookup_picks : Picks subdirectoryLookup where
  inner _ _ _ h := List.mem_of_find?_eq_some h
  last _ _ _ h := List.mem_of_find?_eq_some h

theorem nameLookup_picks : Picks nameLookup where
  inner _ _ _ h := List.mem_reverse.mp (List.mem_of_find?_eq_some h)
  last _ _ _ h := List.mem_of_find?_eq_some h

theorem OneParent.tree (h : OneParent fs d) : Tree (childrenOf fs d) (LiveEntry fs d) where
  child _ _ hf hd _ hg := .child hf (childrenOf_eq_some.mp hd) hg
  parent := h

theorem ShortName.moderate_fits (h : c.name.length ≤ 7) : c.Fits := Or.inl (Nat.lt_succ_of_le h)

theorem ShortName.moderate_long (h : 2 ≤ c.name.length) : c.text.length ≠ 1 := by
  have := ShortName.name_length_le (c := c)
  omega

theorem subdirectoryLookup_inner (hu : DistinctNames fs d) (hdir : Listing fs d dir)
    {f : ListEntry} : subdirectoryLookup.inner c dir = some f ↔
      f ∈ dir ∧ isSubdirectory f.entry.attributes ∧ c.Names f.entry := by
  refine (find_only_iff fun a ha b hb hpa hpb => ?_).trans (and_congr_right fun _ => decide_eq_true_iff)
  exact hu.one hdir ha hb (of_decide_eq_true hpa).2 (of_decide_eq_true hpb).2

/-- In front of the last component both go down to the same directory. -/
theorem subdirectoryLookup_same (hu : DistinctNames fs d) (hdir : Listing fs d dir)
    (hfits : c.Fits) : subdirectoryLookup.inner c dir = fileLookup.inner c dir := by
  refine Option.ext fun f => (subdirectoryLookup_inner hu hdir).trans ?_
  rw [fileLookup_inner hu hdir, and_iff_right hfits]

/-- The subdirectories that `find_file` finds are those with the exact names. -/
theorem walk_subdirectories (hu : DistinctNames fs d) (hdir : Listing fs d dir) (hne : cs ≠ [])
    (hm : Moderate cs) (f : ListEntry) :
    walk (childrenOf fs d) subdirectoryLookup cs dir = some f ↔
      walk (childrenOf fs d) fileLookup cs dir = some f ∧ isSubdirectory f.entry.attributes := by
  induction cs generalizing dir with
  | nil => exact absurd rfl hne
  | cons c cs ih =>
    obtain ⟨h₂, h₇⟩ := hm c List.mem_cons_self
    cases cs with
    | nil =>
      rw [walk, walk, fileLookup_last hu hdir]
      refine (subdirectoryLookup_inner hu hdir).trans ?_
      have hfits := ShortName.moderate_fits h₇
      have hlong := ShortName.moderate_long h₂
      tauto
    | cons next rest =>
      have hfits := ShortName.moderate_fits h₇
      have ih {below : List ListEntry} (hb : (fileLookup.inner c dir).bind (childrenOf fs d) =
          some below) := ih (hdir.below hu ((fileLookup_down hu hdir).mp hb).2)
        (List.cons_ne_nil _ _) fun x hx => hm x (List.mem_cons_of_mem _ hx)
      rw [walk, walk, subdirectoryLookup_same hu hdir hfits, Option.bind_eq_some_iff,
        Option.bind_eq_some_iff]
      constructor
      · intro h
        obtain ⟨below, hb, hw⟩ := h
        obtain ⟨hw, hs⟩ := (ih hb).mp hw
        exact ⟨⟨below, hb, hw⟩, hs⟩
      · intro h
        obtain ⟨⟨below, hb, hw⟩, hs⟩ := h
        exact ⟨below, hb, (ih hb).mpr ⟨hw, hs⟩⟩

theorem findDir_walk (hends : ListingsEnd fs d) (hne : cs ≠ []) (hm : Moderate cs)
    (h : Spells path cs) (hdir : Listing fs d dir) :
    findDir fs d path dir = some (walk (childrenOf fs d) nameLookup cs dir) := by
  refine (resolveFuel_walk hends (fun part e he => ?_) hne (h.length_le.trans (Nat.le_succ _)) h
    hdir).trans (congrArg some (walk_congr fun c hc dir => ?_))
  · exact (of_decide_eq_true he).1
  · have htext : ∀ e : DirEntry, stdstringCompare c.text e.filename = 0 ↔
        cstr e.filename = c.text := by
      intro e
      rw [stdstringCompare_eq_zero, cstr_of_no_nul ShortName.no_nul, eq_comm]
    have hname : ∀ e : DirEntry, stdstringCompare (splitFilename c.text).name e.filename = 0 ↔
        cstr e.filename = c.name := by
      intro e
      rw [stdstringCompare_eq_zero, cstr_name, nameChars_text,
        if_pos (Nat.lt_succ_of_le (hm c hc).2), List.append_nil, eq_comm]
    have hlong := ShortName.moderate_long (hm c hc).1
    constructor
    · simp only [resolverLookup, nameLookup, htext]
    · simp only [resolverLookup, nameLookup, hname, if_neg hlong]

/-- The resolvers agree on a path of moderate names if and only if the comparison without extensions
picks the same subdirectories along the path as the exact one, as far as either leads to its end. -/
theorem resolvers_agree_iff (hends : ListingsEnd fs d) (hu : DistinctNames fs d)
    (hparent : OneParent fs d) (hne : cs ≠ []) (hm : Moderate cs) (h : Spells path cs) :
    ResolversAgree fs d path ↔
      Agree (childrenOf fs d) nameLookup subdirectoryLookup cs (getRootDir fs d) := by
  have hdir : Listing fs d (getRootDir fs d) := Or.inl rfl
  have hwalks := walk_eq_iff nameLookup_picks subdirectoryLookup_picks hparent.tree hne hdir.live
  have hfile := walk_subdirectories hu hdir hne hm
  rw [← hwalks, ResolversAgree, findFile_walk hends hne h hdir, findDir_walk hends hne hm h hdir]
  constructor
  · intro hagree
    obtain ⟨file, dir, hf, hd, hiff⟩ := hagree
    obtain rfl := Option.some.inj hf
    obtain rfl := Option.some.inj hd
    exact Option.ext fun f => (hiff f).trans (hfile f).symm
  · intro heq
    exact ⟨_, _, rfl, rfl, fun f => heq ▸ hfile f⟩

end Directories

section Examples

theorem oldFile_agreed : ResolversAgree smallVolume fullDisk oldPath := by
  have hpath : Spells oldPath [nameDD, nameAA] := by
    rw [Spells]
    decide
  refine (resolvers_agree_iff fullDisk_tree.listingsEnd fullDisk_tree.distinctNames
    fullDisk_tree.oneParent (by decide) (by decide) hpath).mpr
    (.same (by decide +kernel) fun f hf b hb => .last ?_)
  have hpick : nameLookup.inner nameDD (getRootDir smallVolume fullDisk) = some fullDirectory := by
    decide +kernel
  have hdown : childrenOf smallVolume fullDisk fullDirectory = some [oldFile] := by decide +kernel
  obtain rfl := Option.some.inj (hf.symm.trans hpick)
  obtain rfl := Option.some.inj (hb.symm.trans hdown)
  decide

/-- The root directory has the subdirectories `AB.X` and `AB`. -/
def extensionDisk : Disk := diskOf
  [[], [0xf8, 0xff, 0xff, 0xff, 0xff, 0xff, 0xff, 0xff],
    slotOf 0x41 0x42 0x58 0x20 0x20 0x10 2 0, slotOf 0x41 0x42 0x20 0x20 0x20 0x10 3 0]

def directoryABX : ListEntry :=
  ⟨⟨[0x41, 0x42, 0, 0, 0, 0, 0, 0, 0], [0x58, 0, 0, 0], 0x10, 2, 0⟩, ⟨2, 0⟩⟩

def directoryAB : ListEntry :=
  ⟨⟨[0x41, 0x42, 0, 0, 0, 0, 0, 0, 0], [0, 0, 0, 0], 0x10, 3, 0⟩, ⟨3, 0⟩⟩

theorem extensionDisk_tree : SmallTree extensionDisk [directoryABX, directoryAB] where
  root := by decide +kernel
  down := by decide +kernel
  ends := by decide +kernel
  rootNames := by decide +kernel
  names := by decide +kernel
  parent := by decide +kernel

/-- For `AB` the one resolver finds `AB`, and the other `AB.X`. -/
theorem extension_ignored : ListingsEnd smallVolume extensionDisk ∧
    DistinctNames smallVolume extensionDisk ∧ OneParent smallVolume extensionDisk ∧
    findFile smallVolume extensionDisk (pathText [nameAB])
      (getRootDir smallVolume extensionDisk) = some (some directoryAB) ∧
    findDir smallVolume extensionDisk (pathText [nameAB])
      (getRootDir smallVolume extensionDisk) = some (some directoryABX) ∧
    ¬ ResolversAgree smallVolume extensionDisk (pathText [nameAB]) := by
  have hfile : findFile smallVolume extensionDisk (pathText [nameAB])
      (getRootDir smallVolume extensionDisk) = some (some directoryAB) := by decide +kernel
  have hdir : findDir smallVolume extensionDisk (pathText [nameAB])
      (getRootDir smallVolume extensionDisk) = some (some directoryABX) := by decide +kernel
  refine ⟨extensionDisk_tree.listingsEnd, extensionDisk_tree.distinctNames,
    extensionDisk_tree.oneParent, hfile, hdir, fun h => ?_⟩
  obtain ⟨file, dir, hf, hd, hiff⟩ := h
  obtain rfl := Option.some.inj (hfile.symm.trans hf)
  obtain rfl := Option.some.inj (hdir.symm.trans hd)
  exact absurd ((hiff directoryABX).mp rfl).1 (by decide)

end Examples
end MalapropOS.Fat
