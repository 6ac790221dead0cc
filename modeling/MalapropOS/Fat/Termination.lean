import MalapropOS.Fat.Descent
import MalapropOS.Fat.WellFormed
import MalapropOS.Lib.LinkWalk

/-! Where the walks along the clusters of a directory end. They go on as the table says, which may
lead them round for ever, and keep no record of the clusters they have been to. -/
namespace MalapropOS.Fat
open LinkWalk

section Walks
variable (fs : Fat16) (d : Disk)

/-- `get_dir` stops at the cluster: it is none of the directory's, or the entries end there. -/
def ListingStops (c : Nat) : Prop := ¬ InChain c ∨ (listCluster fs d c).2

/-- A search for a slot stops at the cluster: it has found one, or there is no next cluster. -/
def SearchStops (find : Buffer → Option Nat) (c : Nat) : Prop :=
  (find (loadCluster fs d c)).isSome ∨
    getSuccessorCluster fs d c < 0x0002 ∨ getSuccessorCluster fs d c > 0x0fef

/-- The listing of an entry ends: no listing is made of a file. -/
def DirEnds (e : DirEntry) : Prop := isSubdirectory e.attributes →
  Stops (ListingStops fs d) (getSuccessorCluster fs d) e.firstCluster

def SearchEnds (find : Buffer → Option Nat) (c : Nat) : Prop :=
  Stops (SearchStops fs d find) (getSuccessorCluster fs d) c

variable {fs d}

theorem getSuccessorCluster_mem_range (c : Nat) :
    getSuccessorCluster fs d c ∈ Finset.range (2 ^ 16) := by
  have hlt (x y : UInt8) : x.toNat + y.toNat * 256 < 2 ^ 16 := by
    have hx := x.toNat_lt
    have hy := y.toNat_lt
    omega
  rw [Finset.mem_range]
  exact hlt _ _

theorem card_lt_walkFuel : (Finset.range (2 ^ 16)).card < walkFuel := by
  rw [Finset.card_range, walkFuel]
  exact Nat.lt_succ_self _

theorem listChain_succ (fuel c : Nat) : (listChain fs d (fuel + 1) c).isSome ↔
    ListingStops fs d c ∨ (listChain fs d fuel (getSuccessorCluster fs d c)).isSome := by
  rw [listChain, ListingStops]
  by_cases hin : InChain c
  · by_cases hend : (listCluster fs d c).2
    · simp [hin, hend]
    · simp [hin, hend]
  · simp [hin]

theorem searchDirectory_succ (find : Buffer → Option Nat) (fuel c : Nat) :
    (searchDirectory fs d find (fuel + 1) c).isSome ↔ SearchStops fs d find c ∨
      (searchDirectory fs d find fuel (getSuccessorCluster fs d c)).isSome := by
  rw [searchDirectory, SearchStops]
  cases find (loadCluster fs d c) with
  | some i => simp
  | none =>
    by_cases hlast : getSuccessorCluster fs d c < 0x0002 ∨ getSuccessorCluster fs d c > 0x0fef
    · simp only [hlast, ↓reduceIte, Option.isSome_some, or_true, true_or]
    · simp only [hlast, ↓reduceIte, Option.isSome_none, Bool.false_eq_true, false_or]

/-- The rounds that the model allows are enough for every walk that ends. -/
theorem listChain_isSome_iff (c : Nat) : (listChain fs d walkFuel c).isSome ↔
    Stops (ListingStops fs d) (getSuccessorCluster fs d) c :=
  walk_isSome_iff_stops (fun _ => rfl) listChain_succ
    (fun c _ => getSuccessorCluster_mem_range c) card_lt_walkFuel

theorem searchDirectory_isSome_iff (find : Buffer → Option Nat) (c : Nat) :
    (searchDirectory fs d find walkFuel c).isSome ↔ SearchEnds fs d find c :=
  walk_isSome_iff_stops (fun _ => rfl) (searchDirectory_succ find)
    (fun c _ => getSuccessorCluster_mem_range c) card_lt_walkFuel

theorem getDir_isSome_iff (e : DirEntry) : (getDir fs d e).isSome ↔ DirEnds fs d e := by
  rw [getDir, DirEnds, ← listChain_isSome_iff]
  by_cases hs : isSubdirectory e.attributes
  · simp [hs]
  · simp [hs]

theorem addDirectoryEntry_isSome_iff (c : Nat) (e : DirEntry) :
    (addDirectoryEntry fs d c e).isSome ↔
      SearchEnds fs d (findFirstFreeSpace (clusterEntries fs)) c := by
  rw [← searchDirectory_isSome_iff, addDirectoryEntry]
  cases searchDirectory fs d (findFirstFreeSpace (clusterEntries fs)) walkFuel c with
  | none => rfl
  | some r =>
    obtain ⟨z, o⟩ := r
    cases o with
    | some i => simp
    | none => by_cases hnew : findFirstFreeCluster fs d < 2 <;> simp [hnew]

theorem updateDirectoryEntry_isSome_iff (c : Nat) (e : DirEntry) (name extension : CharPtr) :
    (updateDirectoryEntry fs d c e name extension).isSome ↔
      SearchEnds fs d (findFileSlot (clusterEntries fs) name extension) c := by
  rw [← searchDirectory_isSome_iff, updateDirectoryEntry]
  cases searchDirectory fs d (findFileSlot (clusterEntries fs) name extension) walkFuel c with
  | none => rfl
  | some r =>
    obtain ⟨z, o⟩ := r
    cases o <;> simp

end Walks

section Resolvers
variable (fs : Fat16) (d : Disk)

/-- The entries that a resolver gives to `get_dir`, as long as the calls return. -/
inductive Opens (inner : CharPtr → DirEntry → Bool) :
    CharPtr → List ListEntry → DirEntry → Prop
  | here {pathname part next : CharPtr} {rest : List CharPtr} {dir : List ListEntry} {f : ListEntry}
      (parts : splitPath pathname = part :: next :: rest) (mem : f ∈ dir)
      (test : inner part f.entry) : Opens inner pathname dir f.entry
  | further {pathname part next : CharPtr} {rest : List CharPtr} {dir nextDir : List ListEntry}
      {f : ListEntry} {e : DirEntry} (parts : splitPath pathname = part :: next :: rest)
      (mem : f ∈ dir) (test : inner part f.entry) (down : getDir fs d f.entry = some (some nextDir))
      (opens : Opens inner (descendPath pathname) nextDir e) : Opens inner pathname dir e

theorem foldlM_isSome_iff {α β : Type} {F : β → α → Option β} {P : α → Prop} {l : List α}
    (h : ∀ a ∈ l, ∀ b, (F b a).isSome ↔ P a) (b : β) :
    (l.foldlM F b).isSome ↔ ∀ a ∈ l, P a := by
  induction l generalizing b with
  | nil => simp
  | cons a l ih =>
    have hhead := h a (by simp) b
    have htail := ih fun x hx => h x (by simp [hx])
    rw [List.foldlM_cons]
    cases hb : F b a with
    | none =>
      rw [hb] at hhead
      simpa using fun ha => absurd (hhead.mpr ha) (by simp)
    | some c =>
      rw [hb] at hhead
      have ha : P a := hhead.mp rfl
      simpa [ha] using htail c

variable {fs d}

/-- A resolver returns just in case `get_dir` returns for every entry it is called with. -/
theorem resolveFuel_isSome_iff {last inner : CharPtr → DirEntry → Bool} {fuel : Nat}
    {pathname : CharPtr} {dir : List ListEntry} (hfuel : pathname.length < fuel) :
    (resolveFuel fs d last inner fuel pathname dir).isSome ↔
      ∀ e, Opens fs d inner pathname dir e → (getDir fs d e).isSome := by
  induction fuel generalizing pathname dir with
  | zero => omega
  | succ fuel ih =>
    have hstop (h : ∀ part next rest, splitPath pathname ≠ part :: next :: rest) (e : DirEntry) :
        ¬ Opens fs d inner pathname dir e := by
      intro ho
      cases ho with
      | here parts => exact h _ _ _ parts
      | further parts => exact h _ _ _ parts
    rw [resolveFuel]
    cases hparts : splitPath pathname with
    | nil => simpa using fun e ho => absurd ho (hstop (by simp [hparts]) e)
    | cons part tail =>
      cases tail with
      | nil => simpa using fun e ho => absurd ho (hstop (by simp [hparts]) e)
      | cons next rest =>
        have hlen := descendPath_length hparts
        refine (foldlM_isSome_iff (P := fun f => inner part f.entry →
          (getDir fs d f.entry).isSome ∧ ∀ nextDir, getDir fs d f.entry = some (some nextDir) →
            ∀ e, Opens fs d inner (descendPath pathname) nextDir e → (getDir fs d e).isSome)
          (fun f _ result => ?_) none).trans ?_
        · by_cases test : inner part f.entry
          · cases hd : getDir fs d f.entry with
            | none => simp [test]
            | some listing =>
              cases listing with
              | none => simp [test]
              | some nextDir =>
                have hshort : (descendPath pathname).length < fuel := by omega
                simpa [test] using @ih (descendPath pathname) nextDir hshort
          · simp [test]
        constructor
        · intro h e ho
          cases ho with
          | here parts mem test =>
            obtain ⟨rfl, -⟩ := List.cons.inj (hparts.symm.trans parts)
            exact (h _ mem test).1
          | further parts mem test down opens =>
            obtain ⟨rfl, -⟩ := List.cons.inj (hparts.symm.trans parts)
            exact (h _ mem test).2 _ down e opens
        · intro h f mem test
          exact ⟨h _ (.here hparts mem test),
            fun nextDir down e opens => h e (.further hparts mem test down opens)⟩

end Resolvers

section Results

/-- The test of `find_file` for a part in front of the last. -/
def findFileInner (part : CharPtr) (e : DirEntry) : Bool :=
  isSubdirectory e.attributes ∧ entryNamed (splitFilename part) e

/-- The test of `find_dir`, likewise. -/
def findDirInner (part : CharPtr) (e : DirEntry) : Bool :=
  isSubdirectory e.attributes ∧ stdstringCompare part e.filename = 0

theorem findFile_isSome_iff {fs : Fat16} {d : Disk} (pathname : CharPtr) (dir : List ListEntry) :
    (findFile fs d pathname dir).isSome ↔
      ∀ e, Opens fs d findFileInner pathname dir e → DirEnds fs d e := by
  have h : (findFile fs d pathname dir).isSome ↔
      ∀ e, Opens fs d findFileInner pathname dir e → (getDir fs d e).isSome :=
    resolveFuel_isSome_iff (Nat.lt_succ_self pathname.length)
  simpa only [getDir_isSome_iff] using h

theorem findDir_isSome_iff {fs : Fat16} {d : Disk} (pathname : CharPtr) (dir : List ListEntry) :
    (findDir fs d pathname dir).isSome ↔
      ∀ e, Opens fs d findDirInner pathname dir e → DirEnds fs d e := by
  have h : (findDir fs d pathname dir).isSome ↔
      ∀ e, Opens fs d findDirInner pathname dir e → (getDir fs d e).isSome :=
    resolveFuel_isSome_iff (Nat.lt_succ_self pathname.length)
  simpa only [getDir_isSome_iff] using h

/-- Which walks end. `listingRounds` and `searchRounds` say it of the loops with any number of
rounds, and `descends` that the resolvers call themselves for shorter paths only. -/
structure WalksEnd (fs : Fat16) (d : Disk) : Prop where
  getDir : ∀ e, (getDir fs d e).isSome ↔ DirEnds fs d e
  addDirectoryEntry : ∀ c e, (addDirectoryEntry fs d c e).isSome ↔
    SearchEnds fs d (findFirstFreeSpace (clusterEntries fs)) c
  updateDirectoryEntry : ∀ c e name extension,
    (updateDirectoryEntry fs d c e name extension).isSome ↔
      SearchEnds fs d (findFileSlot (clusterEntries fs) name extension) c
  findFile : ∀ pathname dir, (findFile fs d pathname dir).isSome ↔
    ∀ e, Opens fs d findFileInner pathname dir e → DirEnds fs d e
  findDir : ∀ pathname dir, (findDir fs d pathname dir).isSome ↔
    ∀ e, Opens fs d findDirInner pathname dir e → DirEnds fs d e
  listingRounds : ∀ c, (∃ rounds, (listChain fs d rounds c).isSome) ↔
    Stops (ListingStops fs d) (getSuccessorCluster fs d) c
  searchRounds : ∀ find c, (∃ rounds, (searchDirectory fs d find rounds c).isSome) ↔
    SearchEnds fs d find c
  descends : ∀ pathname part next rest, splitPath pathname = part :: next :: rest →
    (descendPath pathname).length < pathname.length

/-- A walk along the clusters of a directory ends just in case it comes to a cluster that stops it,
and a resolver does just in case the listings that it asks for end. -/
theorem walks_end (fs : Fat16) (d : Disk) : WalksEnd fs d where
  getDir := getDir_isSome_iff
  addDirectoryEntry := addDirectoryEntry_isSome_iff
  updateDirectoryEntry := updateDirectoryEntry_isSome_iff
  findFile := findFile_isSome_iff
  findDir := findDir_isSome_iff
  listingRounds _ := exists_walk_isSome_iff (fun _ => rfl) listChain_succ
  searchRounds find _ := exists_walk_isSome_iff (fun _ => rfl) (searchDirectory_succ find)
  descends _ _ _ _ := descendPath_length

/-- The directory `DD` is cluster 2, whose slot is taken and which is its own successor. -/
def loopDisk : Disk := diskOf
  [[], [0xf8, 0xff, 0xff, 0xff, 0x02, 0x00],
    slotOf 0x44 0x44 0x20 0x20 0x20 0x10 2 0, [],
    slotOf 0x41 0x41 0x54 0x58 0x54 0x00 3 5]

/-- The entry of `DD`. -/
def loopEntry : DirEntry :=
  ⟨[0x44, 0x44, 0, 0, 0, 0, 0, 0, 0], [0, 0, 0, 0], 0x10, 2, 0⟩

/-- The path `/DD/BB`. -/
def loopPath : CharPtr := [0x2f, 0x44, 0x44, 0x2f, 0x42, 0x42]

theorem loopDisk_listing : ¬ DirEnds smallVolume loopDisk loopEntry := by
  intro h
  refine not_stops_of_fixed ?_ ?_ (h (by decide))
  · decide
  · rw [ListingStops]
    decide

theorem loopDisk_search {find : Buffer → Option Nat}
    (h : find (loadCluster smallVolume loopDisk 2) = none) :
    ¬ SearchEnds smallVolume loopDisk find 2 := by
  apply not_stops_of_fixed
  · decide
  · rw [SearchStops, h]
    decide

/-- None of the walks ends there, and none of their loops after any number of rounds. -/
theorem loopDisk_endless :
    getDir smallVolume loopDisk loopEntry = none ∧
    addDirectoryEntry smallVolume loopDisk 2 loopEntry = none ∧
    updateDirectoryEntry smallVolume loopDisk 2 loopEntry loopEntry.filename loopEntry.extension =
      none ∧
    findFile smallVolume loopDisk loopPath (getRootDir smallVolume loopDisk) = none ∧
    findDir smallVolume loopDisk loopPath (getRootDir smallVolume loopDisk) = none ∧
    (∀ rounds, listChain smallVolume loopDisk rounds 2 = none) ∧
    ∀ rounds, searchDirectory smallVolume loopDisk
      (findFirstFreeSpace (clusterEntries smallVolume)) rounds 2 = none := by
  have hopens (inner : CharPtr → DirEntry → Bool)
      (test : inner [0x44, 0x44] loopEntry = true) :
      Opens smallVolume loopDisk inner loopPath (getRootDir smallVolume loopDisk) loopEntry := by
    have hmem : (⟨loopEntry, ⟨2, 0⟩⟩ : ListEntry) ∈ getRootDir smallVolume loopDisk := by decide
    have hparts : splitPath loopPath = [[0x44, 0x44], [0x42, 0x42]] := by decide
    exact .here hparts hmem test
  refine ⟨?_, ?_, ?_, ?_, ?_, fun rounds => ?_, fun rounds => ?_⟩
  · rw [← Option.not_isSome_iff_eq_none, getDir_isSome_iff]
    exact loopDisk_listing
  · rw [← Option.not_isSome_iff_eq_none, addDirectoryEntry_isSome_iff]
    exact loopDisk_search (by decide)
  · rw [← Option.not_isSome_iff_eq_none, updateDirectoryEntry_isSome_iff]
    exact loopDisk_search (by decide)
  · rw [← Option.not_isSome_iff_eq_none, findFile_isSome_iff]
    intro h
    exact loopDisk_listing (h loopEntry (hopens findFileInner (by decide)))
  · rw [← Option.not_isSome_iff_eq_none, findDir_isSome_iff]
    intro h
    exact loopDisk_listing (h loopEntry (hopens findDirInner (by decide)))
  · rw [← Option.not_isSome_iff_eq_none]
    intro h
    exact loopDisk_listing fun _ =>
      (exists_walk_isSome_iff (fun _ => rfl) listChain_succ).mp ⟨rounds, h⟩
  · rw [← Option.not_isSome_iff_eq_none]
    intro h
    exact loopDisk_search (by decide)
      ((exists_walk_isSome_iff (fun _ => rfl) (searchDirectory_succ _)).mp ⟨rounds, h⟩)

end Results
end MalapropOS.Fat
