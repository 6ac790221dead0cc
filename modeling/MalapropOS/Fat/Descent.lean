import MalapropOS.Fat.Unlink

/-! The walk of `find_file` down the tree, on a disk on which the listings may have changed. The
directories on the way decide where it ends; the listing there decides whether it finds a file. -/
namespace MalapropOS.Fat
open LinkedChain

/-- A part of a path in front of the last leads to the subdirectory. -/
def LeadsTo (part : CharPtr) (e : DirEntry) : Prop :=
  isSubdirectory e.attributes ∧ entryNamed (splitFilename part) e

instance (part : CharPtr) (e : DirEntry) : Decidable (LeadsTo part e) :=
  inferInstanceAs (Decidable (_ ∧ _))

/-- The walk along a path, from the directory in the sectors `ss` on, ends in the one in the
sectors `ts`. The last subdirectory of a listing that a part leads to decides. -/
inductive EndsIn (fs : Fat16) (d : Disk) : CharPtr → List Nat → List Nat → Prop
  | here {path part : CharPtr} {ss : List Nat} (parts : splitPath path = [part]) :
      EndsIn fs d path ss ss
  | inside {path part next : CharPtr} {rest : List CharPtr} {ss ts l : List Nat}
      {before after : List Slot} {q : Slot} (parts : splitPath path = part :: next :: rest)
      (listing : liveSlots fs d ss = before ++ q :: after)
      (leads : LeadsTo part (slotEntry d q)) (last : ∀ a ∈ after, ¬ LeadsTo part (slotEntry d a))
      (chain : FileChain fs d (slotEntry d q).firstCluster l)
      (below : EndsIn fs d (descendPath path) (chainSectors fs l) ts) : EndsIn fs d path ss ts

/-- The listings on the disk `d'` of the directories of `d`: `listing` gives them by the sectors on
`d`, and those less than `depth` steps down are as before. -/
structure ListingsAfter (fs : Fat16) (d d' : Disk) (depth : Nat)
    (listing : List Nat → List ListEntry) : Prop where
  root : getRootDir fs d' = listing (rootSectors fs)
  sub : ∀ p l, Reach (listed fs) d p → isSubdirectory (slotEntry d p).attributes →
    FileChain fs d (slotEntry d p).firstCluster l →
    getDir fs d' (slotEntry d p) = some (some (listing (chainSectors fs l)))
  above : ∀ n ss, DirAt fs d n ss → n < depth → listing ss = entriesOf fs d ss

section Loops
variable {α β : Type} {F : β → α → Option β}

/-- A loop in which the rounds behind `a` keep the result, and the one for `a` sets it. -/
theorem foldlM_last {before after : List α} {a : α} {r : Option β}
    (hb : ∀ x ∈ before, ∀ b, ∃ b', F b x = some b') (ha : ∀ b, F b a = r)
    (hafter : ∀ x ∈ after, ∀ b, F b x = some b) (b : β) :
    (before ++ a :: after).foldlM F b = r := by
  obtain ⟨b', hb', -⟩ := foldlM_total (f := F) (fun _ => True)
    (fun b _ x hx => (hb x hx b).imp fun _ h => ⟨h, trivial⟩) (b := b) trivial
  rw [List.foldlM_append, hb']
  show (a :: after).foldlM F b' = r
  rw [List.foldlM_cons, ha]
  cases r with
  | none => rfl
  | some c => exact foldlM_fixed fun x hx => hafter x hx c

/-- A list has a last element with a property, or none with it. -/
theorem exists_last {P : α → Prop} (l : List α) : (∀ a ∈ l, ¬ P a) ∨
    ∃ before a after, l = before ++ a :: after ∧ P a ∧ ∀ x ∈ after, ¬ P x := by
  induction l with
  | nil => exact Or.inl (by simp)
  | cons a l ih =>
    obtain ih | ⟨before, b, after, rfl, hb, hafter⟩ := ih
    · by_cases ha : P a
      · exact Or.inr ⟨[], a, l, rfl, ha, ih⟩
      · exact Or.inl (by simpa [ha] using ih)
    · exact Or.inr ⟨a :: before, b, after, rfl, hb, hafter⟩

end Loops

section Paths

theorem descendPath_length {path part next : CharPtr} {rest : List CharPtr}
    (h : splitPath path = part :: next :: rest) : (descendPath path).length < path.length := by
  cases path with
  | nil => simp [splitPath, stripSlash, CharPtr.at] at h
  | cons c s =>
    -- the first character goes: it is a slash, or belongs to the first part
    have hs : descendPath (c :: s) = s.dropWhile fun c => c ≠ slash ∧ c ≠ 0 := by
      by_cases hc : c = slash
      · simp [descendPath, stripSlash, CharPtr.at, hc]
      · have h₀ : c ≠ 0 := by
          rintro rfl
          have hm := slash_mem_of_parts h
          simp [stripSlash, CharPtr.at, slash, cstr] at hm
        simp [descendPath, stripSlash, CharPtr.at, hc, h₀]
    rw [hs]
    exact Nat.lt_succ_of_le (List.dropWhile_suffix _).length_le

/-- The string behind the last slash is the file name. -/
theorem toFilename_eq {pathname pre tail : CharPtr} (h : cstr pathname = pre ++ slash :: tail)
    (ht : slash ∉ tail) : toFilename pathname = tail := by
  have hlen : (cstr pathname).length = pre.length + tail.length + 1 := by
    rw [h]
    simp [Nat.add_assoc]
  have hat : ∀ i, i < (cstr pathname).length → CharPtr.at pathname i = (cstr pathname).getD i 0 := by
    intro i hi
    rw [← at_cstr hi, List.getD_eq_getElem _ _ hi]
    rfl
  have hpre : CharPtr.at pathname pre.length = slash := by
    rw [hat _ (by omega), h]
    simp
  have hbehind : ∀ i, pre.length < i → i < (cstr pathname).length →
      CharPtr.at pathname i ≠ slash := by
    intro i hi hi' he
    rw [hat i hi', h, List.getD_append_right _ _ _ _ (by omega)] at he
    obtain ⟨j, hj⟩ : ∃ j, i - pre.length = j + 1 := ⟨i - pre.length - 1, by omega⟩
    rw [hj, List.getD_cons_succ, List.getD_eq_getElem _ _ (by omega)] at he
    exact ht (he ▸ List.getElem_mem _)
  have hpos : lastSlashPos pathname = pre.length := by
    obtain ⟨h₀, hall⟩ | ⟨h₀, hlt, he, hall⟩ := lastSlashPos_spec pathname
    · by_contra hne
      exact hall pre.length (by omega) (by omega) hpre
    · by_contra hne
      cases Nat.lt_or_gt_of_ne hne with
      | inl hgt => exact hall pre.length (by omega) hgt hpre
      | inr hgt => exact hbehind _ hgt hlt he
  rw [toFilename, hpos, h]
  simp

/-- What is left of a path, in front of which there is a slash. -/
def LeftOf (pathname path : CharPtr) : Prop :=
  ∃ pre, cstr pathname = pre ++ slash :: cstr (stripSlash path)

theorem cstr_of_absolute {pathname : CharPtr} (h : CharPtr.at pathname 0 = slash) :
    cstr pathname = slash :: cstr (pathname.drop 1) := by
  cases pathname with
  | nil => simp [CharPtr.at, slash] at h
  | cons c s =>
    obtain rfl : c = slash := h
    exact cstr_cons_of_ne (by decide) s

theorem LeftOf.start {pathname : CharPtr} (h : CharPtr.at pathname 0 = slash) :
    LeftOf pathname (pathname.drop 1) := by
  rw [LeftOf, cstr_of_absolute h, stripSlash]
  split_ifs with hs
  · exact ⟨[slash], by rw [cstr_of_absolute hs]; rfl⟩
  · exact ⟨[], rfl⟩

theorem LeftOf.descend {pathname path part next : CharPtr} {rest : List CharPtr}
    (h : LeftOf pathname path) (hparts : splitPath path = part :: next :: rest) :
    LeftOf pathname (descendPath path) := by
  obtain ⟨pre, hpre⟩ := h
  obtain ⟨p, -, he⟩ := descendPath_split (slash_mem_of_parts hparts)
  exact ⟨pre ++ slash :: p, by rw [hpre, he]; simp⟩

/-- The last part of a path is the file name. -/
theorem LeftOf.last {pathname path part : CharPtr} (h : LeftOf pathname path)
    (hparts : splitPath path = [part]) : toFilename pathname = part := by
  obtain ⟨pre, hpre⟩ := h
  rw [splitPath_eq (by simp [hparts])] at hparts
  have hno : slash ∉ cstr (stripSlash path) := by
    intro hm
    obtain ⟨p, hp, he⟩ := descendPath_split hm
    rw [he, List.splitOn_append_cons_self, List.splitOn_eq_singleton hp] at hparts
    simp at hparts
  rw [List.splitOn_eq_singleton hno] at hparts
  obtain rfl := (List.cons.inj hparts).1
  exact toFilename_eq hpre hno

end Paths

section Walk
variable {fs : Fat16} {d d' : Disk} {depth n : Nat} {listing : List Nat → List ListEntry}
  {ss ts : List Nat} {path pathname : CharPtr}

theorem EndsIn.dirAt (h : EndsIn fs d path ss ts) (hss : DirAt fs d n ss) :
    ∃ m, DirAt fs d m ts := by
  induction h generalizing n with
  | here => exact ⟨n, hss⟩
  | inside _ hlist hleads _ hc _ ih =>
    refine ih (.sub hss ?_ hleads.1 hc)
    rw [hlist]
    simp

/-- A disk on which nothing has changed. -/
theorem ListingsAfter.refl (hl : Layout fs) (depth : Nat) :
    ListingsAfter fs d d depth (entriesOf fs d) where
  root := getRootDir_eq fs d
  sub _ _ _ hs hc := getDir_eq hl hs hc
  above _ _ _ _ := rfl

/-- The last subdirectory that a part leads to decides. -/
theorem resolveFile_last {fuel : Nat} {part next : CharPtr} {rest : List CharPtr}
    (hparts : splitPath path = part :: next :: rest) {before after dir : List ListEntry}
    {f : ListEntry}
    (hb : ∀ x ∈ before, LeadsTo part x.entry → ∃ dir r, getDir fs d x.entry = some (some dir) ∧
      resolveFile fs d fuel (descendPath path) dir = some r)
    (hleads : LeadsTo part f.entry) (hd : getDir fs d f.entry = some (some dir))
    (hafter : ∀ x ∈ after, ¬ LeadsTo part x.entry) :
    resolveFile fs d (fuel + 1) path (before ++ f :: after) =
      resolveFile fs d fuel (descendPath path) dir := by
  rw [resolveFile, resolveFuel, hparts]
  refine foldlM_last (fun x hx b => ?_) (fun b => ?_) (fun x hx b => ?_) none
  · by_cases hi : isSubdirectory x.entry.attributes ∧ entryNamed (splitFilename part) x.entry
    · obtain ⟨dir', r, hd', hr⟩ := hb x hx hi
      exact ⟨r, by simpa [resolveFile, hi.1, hi.2, hd'] using hr⟩
    · exact ⟨b, by simp [hi]⟩
  · simp [resolveFile, hleads.1, hleads.2, hd]
  · have hi : ¬ (isSubdirectory x.entry.attributes ∧ entryNamed (splitFilename part) x.entry) :=
      hafter x hx
    simp [hi]

/-- On `d'`, a walk from the directory in `ss` on finds a file if and only if the listing that it
ends in has the file name. -/
def WalkFinds (fs : Fat16) (d d' : Disk) (listing : List Nat → List ListEntry)
    (pathname : CharPtr) (fuel : Nat) (path : CharPtr) (ss : List Nat) : Prop :=
  ∃ r, resolveFile fs d' fuel path (listing ss) = some r ∧
    (r.isSome ↔ ∃ ts, EndsIn fs d path ss ts ∧
      ∃ f ∈ listing ts, entryNamed (splitFilename (toFilename pathname)) f.entry)

theorem WalkFinds.empty {fuel : Nat} (hparts : splitPath path = []) :
    WalkFinds fs d d' listing pathname (fuel + 1) path ss := by
  rw [WalkFinds, resolveFile, resolveFuel, hparts]
  refine ⟨none, rfl, by simp, ?_⟩
  rintro ⟨ts, hend, -⟩
  cases hend with
  | here parts => simp [hparts] at parts
  | inside parts => simp [hparts] at parts

theorem WalkFinds.here {fuel : Nat} {part : CharPtr} (hparts : splitPath path = [part])
    (hleft : LeftOf pathname path) : WalkFinds fs d d' listing pathname (fuel + 1) path ss := by
  rw [WalkFinds, resolveFile, resolveFuel, hparts]
  refine ⟨_, rfl, ?_⟩
  rw [List.find?_isSome, hleft.last hparts]
  constructor
  · exact fun hf => ⟨ss, .here hparts, hf⟩
  · rintro ⟨ts, hend, hf⟩
    cases hend with
    | here => exact hf
    | inside parts => simp [hparts] at parts

theorem EndsIn.descend {part next : CharPtr} {rest : List CharPtr}
    (hparts : splitPath path = part :: next :: rest) (h : EndsIn fs d path ss ts) :
    ∃ before q after l, liveSlots fs d ss = before ++ q :: after ∧
      LeadsTo part (slotEntry d q) ∧ (∀ a ∈ after, ¬ LeadsTo part (slotEntry d a)) ∧
      FileChain fs d (slotEntry d q).firstCluster l ∧
      EndsIn fs d (descendPath path) (chainSectors fs l) ts := by
  cases h with
  | here parts => simp [hparts] at parts
  | inside parts hlist hleads hafter hc hend =>
    obtain ⟨rfl, -⟩ := List.cons.inj (hparts.symm.trans parts)
    exact ⟨_, _, _, _, hlist, hleads, hafter, hc, hend⟩

section Inner
variable {fuel : Nat} {part next : CharPtr} {rest : List CharPtr}
  (hparts : splitPath path = part :: next :: rest) (hsame : listing ss = entriesOf fs d ss)
  (hchain : ∀ q ∈ liveSlots fs d ss, LeadsTo part (slotEntry d q) →
    ∃ l, FileChain fs d (slotEntry d q).firstCluster l)
  (hsub : ∀ q ∈ liveSlots fs d ss, LeadsTo part (slotEntry d q) → ∀ l,
    FileChain fs d (slotEntry d q).firstCluster l →
    getDir fs d' (slotEntry d q) = some (some (listing (chainSectors fs l))) ∧
      WalkFinds fs d d' listing pathname fuel (descendPath path) (chainSectors fs l))
include hparts hsame hchain hsub

/-- The walk goes on from the last subdirectory that fits. -/
theorem resolveFile_inside {before after : List Slot} {q : Slot} {l : List Nat}
    (hlist : liveSlots fs d ss = before ++ q :: after) (hleads : LeadsTo part (slotEntry d q))
    (hafter : ∀ a ∈ after, ¬ LeadsTo part (slotEntry d a))
    (hc : FileChain fs d (slotEntry d q).firstCluster l) :
    resolveFile fs d' (fuel + 1) path (listing ss) =
      resolveFile fs d' fuel (descendPath path) (listing (chainSectors fs l)) := by
  rw [hsame, entriesOf, hlist, List.map_append, List.map_cons]
  refine resolveFile_last hparts (fun x hx hx' => ?_) hleads
    (hsub q (by simp [hlist]) hleads l hc).1 fun x hx => ?_
  · obtain ⟨a, ha, rfl⟩ := List.mem_map.mp hx
    have hm : a ∈ liveSlots fs d ss := by simp [hlist, ha]
    obtain ⟨m, hm'⟩ := hchain a hm hx'
    obtain ⟨hd, r, hr, -⟩ := hsub a hm hx' m hm'
    exact ⟨_, r, hd, hr⟩
  · obtain ⟨a, ha, rfl⟩ := List.mem_map.mp hx
    exact hafter a ha

/-- A walk through the directory finds what the one from its last fitting subdirectory finds. -/
theorem WalkFinds.inside : WalkFinds fs d d' listing pathname (fuel + 1) path ss := by
  obtain hno | ⟨before, q, after, hlist, hleads, hafter⟩ :=
    exists_last (P := fun q => LeadsTo part (slotEntry d q)) (liveSlots fs d ss)
  · refine ⟨none, ?_, by simp, ?_⟩
    · rw [hsame]
      refine resolveFile_no_inner hparts fun f hf => ?_
      obtain ⟨q, hq, rfl⟩ := List.mem_map.mp hf
      exact hno q hq
    · rintro ⟨ts, hend, -⟩
      obtain ⟨_, q, _, _, hlist, hleads, -⟩ := hend.descend hparts
      exact absurd hleads (hno q (by simp [hlist]))
  · have hq : q ∈ liveSlots fs d ss := by simp [hlist]
    obtain ⟨l, hc⟩ := hchain q hq hleads
    obtain ⟨-, r, hr, hiff⟩ := hsub q hq hleads l hc
    have hwalk := resolveFile_inside hparts hsame hchain hsub hlist hleads hafter hc
    refine ⟨r, hwalk.trans hr, fun hs => ?_, ?_⟩
    · obtain ⟨ts, hend, hf⟩ := hiff.mp hs
      exact ⟨ts, .inside hparts hlist hleads hafter hc hend, hf⟩
    · -- the walk along another such chain has the same result
      rintro ⟨ts, hend, hf⟩
      obtain ⟨_, q', _, l', hlist', hleads', hafter', hc', hend⟩ := hend.descend hparts
      obtain ⟨-, r', hr', hiff'⟩ := hsub q' (by simp [hlist']) hleads' l' hc'
      have hwalk' := resolveFile_inside hparts hsame hchain hsub hlist' hleads' hafter' hc'
      obtain rfl := Option.some.inj ((hwalk.trans hr).symm.trans (hwalk'.trans hr'))
      exact hiff'.mpr ⟨ts, hend, hf⟩

end Inner

theorem walkFinds (hv : DirsValid (listed fs) d) (h : ListingsAfter fs d d' depth listing)
    {fuel : Nat} (hss : DirAt fs d n ss) (hdepth : n + (splitPath path).length ≤ depth + 1)
    (hleft : LeftOf pathname path) (hfuel : path.length < fuel) :
    WalkFinds fs d d' listing pathname fuel path ss := by
  induction fuel generalizing path n ss with
  | zero => omega
  | succ fuel ih =>
    rcases hparts : splitPath path with _ | ⟨part, _ | ⟨next, rest⟩⟩
    · exact .empty hparts
    · exact .here hparts hleft
    · have hlen : (splitPath path).length = rest.length + 2 := by rw [hparts]; rfl
      have hshort := descendPath_length hparts
      have hlt := length_descendPath_lt hparts
      refine .inside hparts (h.above n ss hss (by omega)) (fun q hq hleads => ?_)
        fun q hq hleads l hc => ⟨?_, ?_⟩
      · exact hv q ⟨ss, hss.dir, hq⟩ hleads.1
      · exact h.sub q l ⟨ss, hss.dir, hq⟩ hleads.1 hc
      · exact ih (.sub hss hq hleads.1 hc) (by omega) (hleft.descend hparts) (by omega)

/-- `find_file` finds a file on `d'` if and only if its walk on `d` ends in a directory whose
listing on `d'` has the file name. -/
theorem findFile_after (hv : DirsValid (listed fs) d) (h : ListingsAfter fs d d' depth listing)
    (h₀ : CharPtr.at pathname 0 = slash)
    (hdepth : (splitPath (pathname.drop 1)).length ≤ depth + 1) :
    ∃ r, findFile fs d' (pathname.drop 1) (getRootDir fs d') = some r ∧
      (r.isSome ↔ ∃ ts, EndsIn fs d (pathname.drop 1) (rootSectors fs) ts ∧
        ∃ f ∈ listing ts, entryNamed (splitFilename (toFilename pathname)) f.entry) := by
  rw [findFile, h.root]
  exact walkFinds hv h .root (by omega) (.start h₀) (Nat.lt_succ_self _)

end Walk
end MalapropOS.Fat
