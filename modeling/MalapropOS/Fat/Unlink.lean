import MalapropOS.Fat.Depth
import MalapropOS.Fat.Sizes
import MalapropOS.Fat.WriteFrame

/-! What `sys_unlink` removes. The file is found by its decoded name, and its slot by the raw one. -/
namespace MalapropOS.Fat
open LinkedChain

/-- No directory lists two entries with one name and extension. -/
def UniqueNames (fs : Fat16) (d : Disk) : Prop :=
  ∀ ss, Dir (listed fs) d ss → ∀ f ∈ entriesOf fs d ss, ∀ g ∈ entriesOf fs d ss,
    cstr f.entry.filename = cstr g.entry.filename →
    cstr f.entry.extension = cstr g.entry.extension → f = g

/-- Resolving the path in the directory comes to the entry in the slot `p`. -/
inductive PassesThrough (fs : Fat16) (d : Disk) (p : Slot) : CharPtr → List ListEntry → Prop
  | last {pathname part : CharPtr} {dir : List ListEntry} {f : ListEntry}
      (parts : splitPath pathname = [part])
      (found : dir.find? (fun f => entryNamed (splitFilename part) f.entry) = some f)
      (slot : f.slot = p) : PassesThrough fs d p pathname dir
  | here {pathname part next : CharPtr} {rest : List CharPtr} {dir : List ListEntry}
      {f : ListEntry} (parts : splitPath pathname = part :: next :: rest) (mem : f ∈ dir)
      (sub : isSubdirectory f.entry.attributes)
      (named : entryNamed (splitFilename part) f.entry) (slot : f.slot = p) :
      PassesThrough fs d p pathname dir
  | inside {pathname part next : CharPtr} {rest : List CharPtr} {dir dir' : List ListEntry}
      {f : ListEntry} (parts : splitPath pathname = part :: next :: rest) (mem : f ∈ dir)
      (sub : isSubdirectory f.entry.attributes)
      (named : entryNamed (splitFilename part) f.entry)
      (listing : getDir fs d f.entry = some (some dir'))
      (rest : PassesThrough fs d p (descendPath pathname) dir') : PassesThrough fs d p pathname dir

/-- The path is not found any more, and the paths that do not come to the slot `p` are found as
before. -/
structure Removed (fs : Fat16) (d d' : Disk) (pathname : CharPtr) (p : Slot) : Prop where
  gone : findFile fs d' pathname (getRootDir fs d') = some none
  others : ∀ path, ¬ PassesThrough fs d p path (getRootDir fs d) →
    findFile fs d' path (getRootDir fs d') = findFile fs d path (getRootDir fs d)

/-- `find_file`, with its fuel. -/
abbrev resolveFile (fs : Fat16) (d : Disk) (fuel : Nat) (pathname : CharPtr)
    (dir : List ListEntry) : Option (Option ListEntry) :=
  resolveFuel fs d (fun part e => entryNamed (splitFilename part) e)
    (fun part e => isSubdirectory e.attributes ∧ entryNamed (splitFilename part) e) fuel pathname dir

section Loops
variable {α β : Type} {F : β → α → Option β}

/-- Elements that a loop skips may be left out. -/
theorem foldlM_filter {keep : α → Bool} {l : List α}
    (h : ∀ a ∈ l, keep a = false → ∀ b, F b a = some b) (b : β) :
    (l.filter keep).foldlM F b = l.foldlM F b := by
  induction l generalizing b with
  | nil => rfl
  | cons a l ih =>
    have ih := ih fun x hx => h x (by simp [hx])
    cases hk : keep a with
    | true =>
      rw [List.filter_cons_of_pos hk, List.foldlM_cons, List.foldlM_cons]
      exact bind_congr ih
    | false =>
      rw [List.filter_cons_of_neg (by simp [hk]), List.foldlM_cons, h a (by simp) hk b, ih]
      rfl

/-- A loop whose rounds keep the result. -/
theorem foldlM_fixed {b : β} {l : List α} (h : ∀ a ∈ l, F b a = some b) :
    l.foldlM F b = some b := by
  induction l with
  | nil => rfl
  | cons a l ih =>
    rw [List.foldlM_cons, h a (by simp)]
    exact ih fun x hx => h x (by simp [hx])

/-- A search finds the same in a part of the list that has what it found. -/
theorem find?_filter_of_kept {test keep : α → Bool} {l : List α}
    (h : ∀ a, l.find? test = some a → keep a = true) :
    (l.filter keep).find? test = l.find? test := by
  induction l with
  | nil => rfl
  | cons a l ih =>
    cases ht : test a with
    | true =>
      have hk : keep a = true := h a (by simp [ht])
      simp [hk, ht]
    | false =>
      have ih := ih fun x hx => h x (by simpa [ht] using hx)
      cases hk : keep a with
      | true => simpa [hk, ht] using ih
      | false => simpa [hk, ht] using ih

/-- A loop whose rounds either keep the result or set it to `r`. -/
theorem foldlM_decided {r : β} {l : List α} (h : ∀ a ∈ l, ∀ b, F b a = some b ∨ F b a = some r)
    {g : α} (hg : g ∈ l) (hF : ∀ b, F b g = some r) (b : β) : l.foldlM F b = some r := by
  induction l generalizing b with
  | nil => cases hg
  | cons a l ih =>
    rw [List.foldlM_cons]
    obtain rfl | hg := List.mem_cons.mp hg
    · rw [hF b]
      exact foldlM_fixed fun x hx => (h x (by simp [hx]) r).elim id id
    · have ih := ih (fun x hx => h x (by simp [hx])) hg
      cases h a (by simp) b with
      | inl ha =>
        rw [ha]
        exact ih b
      | inr ha =>
        rw [ha]
        exact ih r

end Loops

section Deleted
variable {fs : Fat16} (hl : DirLayout fs) {d : Disk} {p : Slot} {e : DirEntry}
include hl

theorem liveSlots_deleted (hp : IsSlot fs p) (hb : firstByte d p ≠ 0x00) {ss : List Nat}
    (hss : Dir (listed fs) d ss) : liveSlots fs (writeSlot d p e 0xe5) ss =
      (liveSlots fs d ss).filter fun q => q ≠ p := by
  have hslots : ∀ q ∈ slotsOf fs ss, IsSlot fs q := fun q hq => hss.isSlot hl hq
  rw [liveSlots, liveSlots]
  revert hslots
  induction slotsOf fs ss with
  | nil => exact fun _ => rfl
  | cons a as ih =>
    intro hslots
    have ih := ih fun q hq => hslots q (by simp [hq])
    by_cases ha : a = p
    · have h₅ : firstByte (writeSlot d p e 0xe5) p = 0xe5 := firstByte_writeSlot_self
      rw [ha]
      by_cases h₅' : firstByte d p = 0xe5
      · simpa [h₅, h₅'] using ih
      · simpa [h₅, h₅', hb] using ih
    · have he : firstByte (writeSlot d p e 0xe5) a = firstByte d a :=
        firstByte_writeSlot_other hp (hslots a (by simp)) ha
      by_cases h₀ : firstByte d a = 0x00
      · simp [he, h₀]
      · by_cases h₅ : firstByte d a = 0xe5
        · simpa [he, h₅] using ih
        · simpa [he, h₀, h₅, ha] using ih

/-- The listings lose the entry in the slot. -/
theorem entriesOf_deleted (hp : IsSlot fs p) (hb : firstByte d p ≠ 0x00) {ss : List Nat}
    (hss : Dir (listed fs) d ss) : entriesOf fs (writeSlot d p e 0xe5) ss =
      (entriesOf fs d ss).filter fun f => f.slot ≠ p := by
  rw [entriesOf, entriesOf, liveSlots_deleted hl hp hb hss, List.filter_map]
  refine List.map_congr_left fun q hq => ?_
  obtain ⟨hq, hne⟩ := List.mem_filter.mp hq
  have hqs := hss.isSlot hl ((listed fs).subset d ss hq)
  rw [slotEntry_writeSlot_other hp hqs (by simpa using hne)]

/-- A listing shows the other slots that it showed. -/
theorem Dir.mem_liveSlots_deleted (hp : IsSlot fs p) {ss : List Nat} (hss : Dir (listed fs) d ss)
    {q : Slot} (hq : q ∈ liveSlots fs d ss) (hne : q ≠ p) :
    q ∈ liveSlots fs (writeSlot d p e 0xe5) ss := by
  have hother : ∀ a ∈ slotsOf fs ss, a ≠ p →
      firstByte (writeSlot d p e 0xe5) a = firstByte d a :=
    fun a ha => firstByte_writeSlot_other hp (hss.isSlot hl ha)
  refine liveSlots_mono (fun a ha h₀ => ?_) hq ?_
  · by_cases hap : a = p
    · rw [hap, firstByte_writeSlot_self]
      decide
    · rwa [hother a ha hap]
  · rw [hother q ((listed fs).subset _ _ hq) hne]
    exact of_decide_eq_true (List.mem_filter.mp hq).2

/-- A listing without the slot stays as it is. -/
theorem Dir.entriesOf_other {first : UInt8} (hp : IsSlot fs p) {ss : List Nat}
    (hss : Dir (listed fs) d ss) (hout : p ∉ slotsOf fs ss) :
    entriesOf fs (writeSlot d p e first) ss = entriesOf fs d ss := by
  have hne : ∀ q ∈ slotsOf fs ss, q ≠ p := by
    rintro q hq rfl
    exact hout hq
  have hs : liveSlots fs (writeSlot d p e first) ss = liveSlots fs d ss :=
    (listed fs).congr fun q hq => firstByte_writeSlot_other hp (hss.isSlot hl hq) (hne q hq)
  rw [entriesOf, entriesOf, hs]
  refine List.map_congr_left fun q hq => ?_
  have hm := (listed fs).subset _ _ hq
  rw [slotEntry_writeSlot_other hp (hss.isSlot hl hm) (hne q hm)]

omit hl in
/-- The listing of a subdirectory afterwards. -/
theorem getDir_writeSlot (hl : Layout fs) (hp : IsSlot fs p) {sub : DirEntry} {l : List Nat}
    (hs : isSubdirectory sub.attributes) (hc : FileChain fs d sub.firstCluster l) :
    getDir fs (writeSlot d p e 0xe5) sub =
      some (some (entriesOf fs (writeSlot d p e 0xe5) (chainSectors fs l))) :=
  getDir_eq hl hs ((FileChain.writeSlot_iff hl hp).mpr hc)

/-- The listing of a directory of the tree, before and after. -/
theorem getDir_deleted (hv : DirsValid (listed fs) d) (hp : IsSlot fs p) {ss : List Nat}
    (hss : Dir (listed fs) d ss) {f : ListEntry} (hf : f ∈ entriesOf fs d ss)
    (hs : isSubdirectory f.entry.attributes) : ∃ l, Dir (listed fs) d (chainSectors fs l) ∧
      getDir fs d f.entry = some (some (entriesOf fs d (chainSectors fs l))) ∧
      getDir fs (writeSlot d p e 0xe5) f.entry =
        some (some (entriesOf fs (writeSlot d p e 0xe5) (chainSectors fs l))) := by
  have hlist := listed_of_mem hss hf
  obtain ⟨l, hc⟩ := hv _ hlist.1 (hlist.2 ▸ hs)
  obtain ⟨ss', hss', hm⟩ := hlist.1
  have hc' : FileChain fs d f.entry.firstCluster l := hlist.2 ▸ hc
  exact ⟨l, .sub hss' hm (hlist.2 ▸ hs) hc, getDir_eq hl.toLayout hs hc',
    getDir_writeSlot hl.toLayout hp hs hc'⟩

/-- A path that does not come to the slot is resolved as before. -/
theorem resolveFuel_deleted (hv : DirsValid (listed fs) d) (hp : IsSlot fs p)
    (hb : firstByte d p ≠ 0x00) {fuel : Nat} {pathname : CharPtr} {ss : List Nat}
    (hss : Dir (listed fs) d ss) (hnot : ¬ PassesThrough fs d p pathname (entriesOf fs d ss)) :
    resolveFile fs (writeSlot d p e 0xe5) fuel pathname (entriesOf fs (writeSlot d p e 0xe5) ss) =
      resolveFile fs d fuel pathname (entriesOf fs d ss) := by
  induction fuel generalizing pathname ss with
  | zero => rfl
  | succ fuel ih =>
    rw [resolveFile, resolveFile, resolveFuel, resolveFuel, entriesOf_deleted hl hp hb hss]
    rcases hparts : splitPath pathname with _ | ⟨part, _ | ⟨next, rest⟩⟩
    · rfl
    · dsimp only
      rw [find?_filter_of_kept]
      intro f hf
      exact decide_eq_true fun hs => hnot (.last hparts hf hs)
    · dsimp only
      rw [foldlM_filter]
      · refine foldlM_congr (fun f hf r => ?_) none
        by_cases hi : isSubdirectory f.entry.attributes ∧ entryNamed (splitFilename part) f.entry
        · obtain ⟨l, hdir, hd, hd'⟩ := getDir_deleted hl (e := e) hv hp hss hf hi.1
          have hrec := ih hdir fun hpass : PassesThrough fs d p (descendPath pathname) _ =>
            hnot (.inside hparts hf hi.1 hi.2 hd hpass)
          simp only [hi, hd, hd', and_self, decide_true, if_true, Option.bind_eq_bind,
            Option.bind_some]
          exact hrec
        · simp [hi]
      · intro f hf hk b
        have hslot : f.slot = p := by simpa using hk
        have hi : ¬ (isSubdirectory f.entry.attributes ∧ entryNamed (splitFilename part) f.entry) :=
          fun hi => hnot (.here hparts hf hi.1 hi.2 hslot)
        simp [hi]

omit hl in
theorem entryNamed_iff {f : FileName} {e : DirEntry} : entryNamed f e = true ↔
    cstr f.name = cstr e.filename ∧ cstr f.extension = cstr e.extension := by
  simp [entryNamed, stdstringCompare_eq_zero]

omit hl in
theorem UniqueNames.eq (hu : UniqueNames fs d) {ss : List Nat} (hss : Dir (listed fs) d ss)
    {f g : ListEntry} (hf : f ∈ entriesOf fs d ss) (hg : g ∈ entriesOf fs d ss) {n : FileName}
    (hnf : entryNamed n f.entry) (hng : entryNamed n g.entry) : f = g := by
  obtain ⟨hf₁, hf₂⟩ := entryNamed_iff.mp hnf
  obtain ⟨hg₁, hg₂⟩ := entryNamed_iff.mp hng
  exact hu ss hss f hf g hg (hf₁.symm.trans hg₁) (hf₂.symm.trans hg₂)

omit hl in
/-- The directory of the only entry with the name decides. -/
theorem resolveFile_inner {fuel : Nat} {pathname part next : CharPtr} {rest : List CharPtr}
    (hparts : splitPath pathname = part :: next :: rest) {dir dir' : List ListEntry} {g : ListEntry}
    (hg : g ∈ dir) (hs : isSubdirectory g.entry.attributes)
    (hn : entryNamed (splitFilename part) g.entry)
    (hone : ∀ a ∈ dir, entryNamed (splitFilename part) a.entry → a = g)
    (hd : getDir fs d g.entry = some (some dir')) {r : Option ListEntry}
    (hr : resolveFile fs d fuel (descendPath pathname) dir' = some r) :
    resolveFile fs d (fuel + 1) pathname dir = some r := by
  rw [resolveFile, resolveFuel, hparts]
  refine foldlM_decided (fun a ha b => ?_) hg (fun b => ?_) none
  · by_cases hi : isSubdirectory a.entry.attributes ∧ entryNamed (splitFilename part) a.entry
    · right
      obtain rfl := hone a ha hi.2
      simpa [resolveFile, hs, hn, hd] using hr
    · left
      simp [hi]
  · simpa [resolveFile, hs, hn, hd] using hr

omit hl in
theorem resolveFile_no_inner {fuel : Nat} {pathname part next : CharPtr} {rest : List CharPtr}
    (hparts : splitPath pathname = part :: next :: rest) {dir : List ListEntry}
    (hno : ∀ a ∈ dir, ¬ (isSubdirectory a.entry.attributes ∧
      entryNamed (splitFilename part) a.entry)) :
    resolveFile fs d (fuel + 1) pathname dir = some none := by
  rw [resolveFile, resolveFuel, hparts]
  refine foldlM_fixed fun a ha => ?_
  simp [hno a ha]

/-- A path of several parts leads to what the rest of it leads to in one directory. -/
theorem resolveFile_descend (hv : DirsValid (listed fs) d) (hu : UniqueNames fs d) {fuel : Nat}
    {pathname part next : CharPtr} {rest : List CharPtr}
    (hparts : splitPath pathname = part :: next :: rest) {ss : List Nat}
    (hss : Dir (listed fs) d ss) {f : ListEntry}
    (hr : resolveFile fs d (fuel + 1) pathname (entriesOf fs d ss) = some (some f)) :
    ∃ p l, p ∈ liveSlots fs d ss ∧ isSubdirectory (slotEntry d p).attributes ∧
      entryNamed (splitFilename part) (slotEntry d p) ∧
      FileChain fs d (slotEntry d p).firstCluster l ∧
      resolveFile fs d fuel (descendPath pathname) (entriesOf fs d (chainSectors fs l)) =
        some (some f) := by
  by_cases hno : ∀ a ∈ entriesOf fs d ss, ¬ (isSubdirectory a.entry.attributes ∧
      entryNamed (splitFilename part) a.entry)
  · rw [resolveFile_no_inner hparts hno] at hr
    cases hr
  · push Not at hno
    obtain ⟨g, hg, hs, hn⟩ := hno
    have hone : ∀ a ∈ entriesOf fs d ss, entryNamed (splitFilename part) a.entry → a = g :=
      fun a ha han => hu.eq hss ha hg han hn
    obtain ⟨p, hp, rfl⟩ := List.mem_map.mp hg
    obtain ⟨l, hc⟩ := hv p ⟨ss, hss, hp⟩ hs
    obtain ⟨r, hrec, -⟩ : ∃ r, resolveFile fs d fuel (descendPath pathname)
        (entriesOf fs d (chainSectors fs l)) = some r ∧ _ :=
      resolveFuel_listed hl.toLayout hv (.sub hss hp hs hc)
    rw [resolveFile_inner hparts hg hs hn hone (getDir_eq hl.toLayout hs hc) hrec] at hr
    exact ⟨p, l, hp, hs, hn, hc, hrec.trans hr⟩

/-- A path that led to the slot leads nowhere. -/
theorem resolveFile_gone (hv : DirsValid (listed fs) d) (hu : UniqueNames fs d) (hp : IsSlot fs p)
    (hb : firstByte d p ≠ 0x00) {fuel : Nat} {pathname : CharPtr} {ss : List Nat}
    (hss : Dir (listed fs) d ss) {f : ListEntry} (hf : f.slot = p)
    (hr : resolveFile fs d fuel pathname (entriesOf fs d ss) = some (some f)) :
    resolveFile fs (writeSlot d p e 0xe5) fuel pathname (entriesOf fs (writeSlot d p e 0xe5) ss) =
      some none := by
  induction fuel generalizing pathname ss with
  | zero => rfl
  | succ fuel ih =>
    match hparts : splitPath pathname with
    | [] =>
      rw [resolveFile, resolveFuel, hparts]
    | [part] =>
      rw [resolveFile, resolveFuel, hparts] at hr ⊢
      have hfound := Option.some.inj hr
      have hfm := List.mem_of_find?_eq_some hfound
      have hfn := List.find?_some hfound
      rw [entriesOf_deleted hl hp hb hss]
      refine congrArg some (List.find?_eq_none.mpr fun g hg hgn => ?_)
      obtain ⟨hgm, hgp⟩ := List.mem_filter.mp hg
      rw [← hu.eq hss hfm hgm hfn hgn] at hgp
      exact of_decide_eq_true hgp hf
    | part :: next :: rest =>
      obtain ⟨q, l, hq, hs, hn, hc, hrec⟩ := resolveFile_descend hl hv hu hparts hss hr
      have hgm : ⟨slotEntry d q, q⟩ ∈ entriesOf fs d ss := List.mem_map.mpr ⟨q, hq, rfl⟩
      have hsub := ih (.sub hss hq hs hc) hrec
      have hkept : ∀ a ∈ entriesOf fs (writeSlot d p e 0xe5) ss,
          entryNamed (splitFilename part) a.entry → a = ⟨slotEntry d q, q⟩ := by
        intro a ha han
        rw [entriesOf_deleted hl hp hb hss] at ha
        exact hu.eq hss (List.mem_filter.mp ha).1 hgm han hn
      by_cases hg : ⟨slotEntry d q, q⟩ ∈ entriesOf fs (writeSlot d p e 0xe5) ss
      · exact resolveFile_inner hparts hg hs hn hkept (getDir_writeSlot hl.toLayout hp hs hc) hsub
      · -- the slot was that of a directory on the way
        refine resolveFile_no_inner hparts fun a ha hi => hg ?_
        rwa [← hkept a ha hi.2]

/-- A path still leads to a file, if another slot was taken out of its last directory. -/
theorem resolveFile_kept (hv : DirsValid (listed fs) d) (hu : UniqueNames fs d) (hp : IsSlot fs p)
    {fuel n : Nat} {pathname : CharPtr} {ss : List Nat} (hss : DirAt fs d n ss)
    (hdeep : ∀ m ss', DirAt fs d m ss' → p ∈ slotsOf fs ss' →
      n + (splitPath pathname).length ≤ m + 1) {f : ListEntry} (hf : f.slot ≠ p)
    (hr : resolveFile fs d fuel pathname (entriesOf fs d ss) = some (some f)) :
    ∃ g, resolveFile fs (writeSlot d p e 0xe5) fuel pathname
      (entriesOf fs (writeSlot d p e 0xe5) ss) = some (some g) := by
  induction fuel generalizing pathname n ss with
  | zero => cases hr
  | succ fuel ih =>
    have hother : ∀ q ∈ liveSlots fs d ss, q ≠ p →
        slotEntry (writeSlot d p e 0xe5) q = slotEntry d q := fun q hq hne =>
      slotEntry_writeSlot_other hp (hss.dir.isSlot hl ((listed fs).subset _ _ hq)) hne
    match hparts : splitPath pathname with
    | [] =>
      rw [resolveFile, resolveFuel, hparts] at hr
      cases hr
    | [part] =>
      rw [resolveFile, resolveFuel, hparts] at hr ⊢
      have hfound := Option.some.inj hr
      obtain ⟨q, hq, rfl⟩ := List.mem_map.mp (List.mem_of_find?_eq_some hfound)
      have hfn := List.find?_some hfound
      have hmem : ⟨slotEntry d q, q⟩ ∈ entriesOf fs (writeSlot d p e 0xe5) ss := by
        refine List.mem_map.mpr ⟨q, hss.dir.mem_liveSlots_deleted hl hp hq hf, ?_⟩
        rw [hother q hq hf]
      have hsome : ((entriesOf fs (writeSlot d p e 0xe5) ss).find?
          fun f => entryNamed (splitFilename part) f.entry).isSome :=
        List.find?_isSome.mpr ⟨_, hmem, hfn⟩
      obtain ⟨g, hg⟩ := Option.isSome_iff_exists.mp hsome
      exact ⟨g, congrArg some hg⟩
    | part :: next :: rest =>
      have hout : p ∉ slotsOf fs ss := by
        intro hm
        have := hdeep n ss hss hm
        simp only [hparts, List.length_cons] at this
        omega
      have hsame : entriesOf fs (writeSlot d p e 0xe5) ss = entriesOf fs d ss :=
        hss.dir.entriesOf_other hl hp hout
      obtain ⟨q, l, hq, hs, hn, hc, hrec⟩ := resolveFile_descend hl hv hu hparts hss.dir hr
      have hgm : ⟨slotEntry d q, q⟩ ∈ entriesOf fs d ss := List.mem_map.mpr ⟨q, hq, rfl⟩
      have hdeep' : ∀ m ss', DirAt fs d m ss' → p ∈ slotsOf fs ss' →
          n + 1 + (splitPath (descendPath pathname)).length ≤ m + 1 := by
        intro m ss' hm hpm
        have hle := hdeep m ss' hm hpm
        have hlt := length_descendPath_lt hparts
        omega
      obtain ⟨g, hg⟩ := ih (.sub hss hq hs hc) hdeep' hrec
      have hone : ∀ a ∈ entriesOf fs (writeSlot d p e 0xe5) ss,
          entryNamed (splitFilename part) a.entry → a = ⟨slotEntry d q, q⟩ := by
        intro a ha han
        rw [hsame] at ha
        exact hu.eq hss.dir ha hgm han hn
      rw [← hsame] at hgm
      exact ⟨g, resolveFile_inner hparts hgm hs hn hone (getDir_writeSlot hl.toLayout hp hs hc) hg⟩

end Deleted

section Unlink
variable {fs : Fat16} (hl : DirLayout fs) {s t : State} {d : Disk} {pathname : CharPtr}
include hl

omit hl in
theorem updateSlot_directory {name ext : CharPtr} {q : Slot}
    (h : updateSlot fs d pathname name ext = some (some q)) :
    directorySlot fs d (toDirectory (pathname.drop 1)) (findFileSlot · name ext) =
      some (some q) := by
  rw [updateSlot] at h
  by_cases hsl : CharPtr.at pathname 0 ≠ slash
  · rw [if_pos hsl] at h
    cases h
  · rw [if_neg hsl] at h
    obtain ⟨r, -, hr⟩ := Option.bind_eq_some_iff.mp h
    cases r with
    | none => cases hr
    | some f => exact hr

/-- The directory that `find_dir` finds lies as many steps down as its path has parts. -/
theorem findDir_dirAt (hv : DirsValid (listed fs) d) {dirPath : CharPtr} {dir : ListEntry}
    (h : findDir fs d dirPath (getRootDir fs d) = some (some dir)) :
    splitPath dirPath ≠ [] ∧ Listed fs d dir ∧ isSubdirectory dir.entry.attributes ∧
      ∃ l, FileChain fs d dir.entry.firstCluster l ∧
        DirAt fs d (splitPath dirPath).length (chainSectors fs l) := by
  obtain ⟨r, hr, hf⟩ := findDir_ends hl.toLayout hv dirPath
  obtain rfl := Option.some.inj (h.symm.trans hr)
  obtain ⟨hli, hsub, l, hc⟩ := hf dir rfl
  obtain ⟨hne, m, ss, hlen, hss, hmem⟩ := findDir_depth hl.toLayout hv h
  obtain ⟨p, hp, rfl⟩ := List.mem_map.mp hmem
  rw [hlen]
  exact ⟨hne, hli, hsub, l, hc, .sub hss hp hsub hc⟩

/-- A slot that is found in a subdirectory lies as many steps down as its path has parts. -/
theorem directorySlot_depth (hv : DirsValid (listed fs) d) {dirPath : CharPtr}
    (h₀ : CharPtr.at dirPath 0 ≠ 0) {find : Nat → Buffer → Option Nat}
    (hfind : ∀ n x i, find n x = some i → ∃ j < n, i = j * 32) {q : Slot}
    (h : directorySlot fs d dirPath find = some (some q)) :
    splitPath dirPath ≠ [] ∧ ∃ ss, DirAt fs d (splitPath dirPath).length ss ∧ q.sector ∈ ss := by
  obtain ⟨r, hr, -⟩ := findDir_ends hl.toLayout hv dirPath
  cases r with
  | none =>
    rw [directorySlot_missing h₀ hr] at h
    cases h
  | some dir =>
    obtain ⟨hne, -, -, l, hc, hdir⟩ := findDir_dirAt hl hv hr
    obtain ⟨c, o, hs, hm, ho⟩ := searchDirectory_chain hl.toLayout hc (find (clusterEntries fs))
    rw [directorySlot_sub h₀ hr, hs] at h
    obtain ⟨i, rfl, rfl⟩ := Option.map_eq_some_iff.mp (Option.some.inj h)
    obtain ⟨j, hj, hi⟩ := hfind _ _ _ ho
    exact ⟨hne, _, hdir, (mem_slotsOf.mp (clusterSlot_mem hl hm hj hi)).1⟩

/-- The slot that the metadata of a file goes to lies in no directory above that of the file. -/
theorem updateSlot_deep (hv : DirsValid (listed fs) d) (hw : WellFormed fs d)
    {name ext : CharPtr} {q : Slot} (h : updateSlot fs d pathname name ext = some (some q))
    (hne : splitPath (pathname.drop 1) ≠ []) {m : Nat} {ss : List Nat} (hss : DirAt fs d m ss)
    (hq : q ∈ slotsOf fs ss) : (splitPath (pathname.drop 1)).length ≤ m + 1 := by
  have hd := updateSlot_directory h
  by_cases h₀ : CharPtr.at (toDirectory (pathname.drop 1)) 0 = 0
  · rw [length_root (lastSlashPos_of_root h₀) hne]
    omega
  · obtain ⟨hne', ss', hss', hsec⟩ := directorySlot_depth hl hv h₀ (fun n x i h =>
      let ⟨j, hj, hi, _⟩ := findFileSlot_some h
      ⟨j, hj, hi⟩) hd
    have hlast : lastSlashPos (pathname.drop 1) ≠ 0 := by
      intro h0
      rw [toDirectory, h0, List.take_zero] at hne'
      exact hne' rfl
    rw [length_toDirectory hlast hne hne',
      hss'.depth_unique hl hw hss hsec (mem_slotsOf.mp hq).1]

/-- `sys_unlink` removes the file just in case the search for its raw name comes to its slot. -/
theorem unlink_removes_iff (hv : DirsValid (listed fs) s.disk) (hw : WellFormed fs s.disk)
    (hu : UniqueNames fs s.disk) (h : sysUnlink fs s pathname = some (0, t)) :
    ∃ file, findFile fs s.disk (pathname.drop 1) (getRootDir fs s.disk) = some (some file) ∧
      (Removed fs s.disk t.disk (pathname.drop 1) file.slot ↔
        updateSlot fs s.disk pathname file.entry.filename file.entry.extension =
          some (some file.slot)) := by
  cases sysUnlink_effect hl hv h with
  | unstored closed absolute found slot =>
    refine ⟨_, found, fun hr => ?_, fun hs => ?_⟩
    · have hgone := hr.gone
      rw [found] at hgone
      cases hgone
    · rw [slot] at hs
      cases hs
  | @removed file q closed absolute found slot isSlot =>
    have hroot : ∀ d path, findFile fs d path (getRootDir fs d) =
        resolveFile fs d (path.length + 1) path (entriesOf fs d (rootSectors fs)) := by
      intro d path
      rw [findFile, getRootDir_eq]
    refine ⟨file, found, fun hr => ?_, fun hs => ?_⟩
    · -- if another slot was taken, the file is still found
      by_contra hne
      have hparts : splitPath (pathname.drop 1) ≠ [] := by
        intro hnil
        rw [findFile, resolveFuel, hnil] at found
        cases found
      have hdeep : ∀ m ss, DirAt fs s.disk m ss → q ∈ slotsOf fs ss →
          0 + (splitPath (pathname.drop 1)).length ≤ m + 1 := fun m ss hss hq => by
        rw [Nat.zero_add]
        exact updateSlot_deep hl hv hw slot hparts hss hq
      have hother : file.slot ≠ q := by
        rintro rfl
        exact hne slot
      rw [hroot] at found
      obtain ⟨g, hg⟩ := resolveFile_kept hl hv hu isSlot .root hdeep hother found
      have hgone := hr.gone
      rw [hroot, hg] at hgone
      cases hgone
    · obtain rfl : q = file.slot := Option.some.inj (Option.some.inj (slot.symm.trans hs))
      obtain ⟨r, hr, hlisted⟩ := findFile_ends hl.toLayout hv (pathname.drop 1)
      obtain rfl := Option.some.inj (hr.symm.trans found)
      have hb := (hlisted file rfl).1.used_byte.1
      refine ⟨?_, fun path hnot => ?_⟩
      · rw [hroot] at found ⊢
        exact resolveFile_gone hl hv hu isSlot hb .root rfl found
      · rw [getRootDir_eq] at hnot
        rw [hroot, hroot]
        exact resolveFuel_deleted hl hv isSlot hb .root hnot

end Unlink

section Examples

theorem OneFile.mem {d : Disk} {f : ListEntry} {l : List Nat} (h : OneFile d f l) {ss : List Nat}
    (hss : Dir (listed smallVolume) d ss) {g : ListEntry} (hg : g ∈ entriesOf smallVolume d ss) :
    g = f :=
  live_single h.root h.regular (live_of_mem smallVolume_layout.toLayout hss g hg)

theorem OneFile.dirsValid {d : Disk} {f : ListEntry} {l : List Nat} (h : OneFile d f l) :
    DirsValid (listed smallVolume) d := by
  intro p ⟨ss, hss, hp⟩ hs
  have he : ⟨slotEntry d p, p⟩ = f := h.mem hss (List.mem_map.mpr ⟨p, hp, rfl⟩)
  exact absurd (he ▸ hs) h.regular

theorem OneFile.uniqueNames {d : Disk} {f : ListEntry} {l : List Nat} (h : OneFile d f l) :
    UniqueNames smallVolume d :=
  fun _ hss _ ha _ hb _ _ => (h.mem hss ha).trans (h.mem hss hb).symm

theorem filledFile_removed : ∃ t, sysUnlink smallVolume (fileInitialise filledDisk) filledPath =
      some (0, t) ∧ Removed smallVolume filledDisk t.disk (filledPath.drop 1) filledFile.slot := by
  have hone := filledDisk_oneFile
  have hfound : findFile smallVolume filledDisk (filledPath.drop 1)
      (getRootDir smallVolume filledDisk) = some (some filledFile) := by decide +kernel
  have hslot : updateSlot smallVolume filledDisk filledPath filledFile.entry.filename
      filledFile.entry.extension = some (some filledFile.slot) := by decide +kernel
  obtain ⟨t, ht⟩ : ∃ t, sysUnlink smallVolume (fileInitialise filledDisk) filledPath =
      some (0, t) := by
    rw [sysUnlink, show findOpenFile (fileInitialise filledDisk) filledPath = none from rfl]
    simp [-List.drop_one, show CharPtr.at filledPath 0 = slash from rfl, fileInitialise, hfound,
      hslot, updateFileDetails_eq smallVolume_layout hone.dirsValid]
  obtain ⟨file, hf, hiff⟩ := unlink_removes_iff smallVolume_layout hone.dirsValid hone.wellFormed
    hone.uniqueNames ht
  obtain rfl := Option.some.inj (Option.some.inj (hf.symm.trans hfound))
  exact ⟨t, ht, hiff.mpr hslot⟩

/-- The file `BB`, without an extension. -/
def shortDisk : Disk := diskOf
  [[], [0xf8, 0xff, 0xff, 0xff, 0xff, 0xff, 0xff, 0xff],
    slotOf 0x42 0x42 0x20 0x20 0x20 0x00 3 0]

theorem shortDisk_oneFile : OneFile shortDisk shortEntry [3] where
  root := by decide +kernel
  regular := by decide
  chain := (fileChain_three (by decide +kernel)).chainOf smallVolume_layout.toLayout

/-- The blank extension of `/BB` is taken for another one: removing it returns 0, and it is still
there. -/
theorem short_extension_not_removed : WellFormed smallVolume shortDisk ∧
    UniqueNames smallVolume shortDisk ∧
    ∃ t, sysUnlink smallVolume (fileInitialise shortDisk) shortPath = some (0, t) ∧
      findFile smallVolume t.disk (shortPath.drop 1) (getRootDir smallVolume t.disk) =
        some (some shortEntry) := by
  have hres : (sysUnlink smallVolume (fileInitialise shortDisk) shortPath).map
      (fun r => (r.1, findFile smallVolume r.2.disk (shortPath.drop 1)
        (getRootDir smallVolume r.2.disk))) = some (0, some (some shortEntry)) := by decide +kernel
  obtain ⟨⟨r, t⟩, ht, he⟩ := Option.map_eq_some_iff.mp hres
  obtain ⟨rfl, hfound⟩ := Prod.mk.inj he
  exact ⟨shortDisk_oneFile.wellFormed, shortDisk_oneFile.uniqueNames, t, ht, hfound⟩

end Examples
end MalapropOS.Fat
