import MalapropOS.Fat.Kept

/-! The depth of a directory in the tree, and of what a path name leads to: the resolvers go down
one directory for each part but the last. -/
namespace MalapropOS.Fat
open LinkedChain

section Parts

theorem cstr_cons_of_ne {c : UInt8} (hc : c ≠ 0) (s : CharPtr) : cstr (c :: s) = c :: cstr s := by
  simp [cstr, hc]

theorem cstr_no_nul (s : CharPtr) : (0 : UInt8) ∉ cstr s := by
  intro h
  simpa using List.mem_takeWhile_imp h

theorem cstr_of_no_nul {s : CharPtr} (h : (0 : UInt8) ∉ s) : cstr s = s := by
  refine List.takeWhile_eq_self_iff.mpr fun c hc => decide_eq_true fun h0 : c = 0 => ?_
  exact h (h0 ▸ hc)

/-- Going down takes the first part off. -/
theorem dropWhile_part {s : CharPtr} (h : slash ∈ cstr s) :
    ∃ part rest, slash ∉ part ∧ s.dropWhile (fun c => c ≠ slash ∧ c ≠ 0) = slash :: rest ∧
      cstr s = part ++ slash :: cstr rest := by
  induction s with
  | nil => simp [cstr] at h
  | cons c s ih =>
    have hc : c ≠ 0 := by
      rintro rfl
      simp [cstr] at h
    rw [cstr_cons_of_ne hc] at h ⊢
    by_cases hs : c = slash
    · exact ⟨[], s, by simp, by simp [hs], by simp [hs]⟩
    · obtain ⟨part, rest, hp, hd, he⟩ := ih (by simpa [Ne.symm hs] using h)
      exact ⟨c :: part, rest, by simp [Ne.symm hs, hp], by simpa [hs, hc] using hd, by simp [he]⟩

theorem splitPath_eq {pathname : CharPtr} (h : splitPath pathname ≠ []) :
    splitPath pathname = (cstr (stripSlash pathname)).splitOn slash := by
  rw [splitPath] at h ⊢
  by_cases h₁ : CharPtr.at (stripSlash pathname) 1 = 0
  · simp [h₁] at h
  · simp [h₁]

theorem slash_mem_of_parts {pathname part next : CharPtr} {rest : List CharPtr}
    (h : splitPath pathname = part :: next :: rest) : slash ∈ cstr (stripSlash pathname) := by
  by_contra hno
  rw [splitPath_eq (by simp [h]), List.splitOn_eq_singleton hno] at h
  simp at h

/-- A path of several parts is the first, a slash, and what going down leaves. -/
theorem descendPath_split {pathname : CharPtr} (h : slash ∈ cstr (stripSlash pathname)) :
    ∃ part, slash ∉ part ∧ cstr (stripSlash pathname) =
      part ++ slash :: cstr (stripSlash (descendPath pathname)) := by
  obtain ⟨part, rest, hp, hd, he⟩ := dropWhile_part h
  have hstrip : stripSlash (descendPath pathname) = rest := by
    rw [descendPath, hd]
    simp [stripSlash, CharPtr.at]
  exact ⟨part, hp, by rw [hstrip, he]⟩

theorem length_descendPath {pathname part next : CharPtr} {rest : List CharPtr}
    (hparts : splitPath pathname = part :: next :: rest) (h : splitPath (descendPath pathname) ≠ []) :
    (splitPath (descendPath pathname)).length + 1 = (splitPath pathname).length := by
  have hne : splitPath pathname ≠ [] := by simp [hparts]
  obtain ⟨p, hp, he⟩ := descendPath_split (slash_mem_of_parts hparts)
  rw [splitPath_eq h, splitPath_eq hne, he, List.splitOn_append_cons_self,
    List.splitOn_eq_singleton hp]
  simp [Nat.add_comm]

theorem length_descendPath_lt {pathname part next : CharPtr} {rest : List CharPtr}
    (hparts : splitPath pathname = part :: next :: rest) :
    (splitPath (descendPath pathname)).length < (splitPath pathname).length := by
  by_cases h : splitPath (descendPath pathname) = []
  · rw [h, hparts]
    exact Nat.zero_lt_succ _
  · exact Nat.lt_of_succ_le (length_descendPath hparts h).le

/-- The last slash behind the first character, if there is one. -/
theorem lastSlashPos_spec (pathname : CharPtr) :
    (lastSlashPos pathname = 0 ∧
      ∀ i < (cstr pathname).length, 0 < i → CharPtr.at pathname i ≠ slash) ∨
    (0 < lastSlashPos pathname ∧ lastSlashPos pathname < (cstr pathname).length ∧
      CharPtr.at pathname (lastSlashPos pathname) = slash ∧
      ∀ i < (cstr pathname).length, lastSlashPos pathname < i → CharPtr.at pathname i ≠ slash) := by
  rw [lastSlashPos]
  induction (cstr pathname).length with
  | zero => exact Or.inl ⟨rfl, fun i hi => absurd hi (Nat.not_lt_zero i)⟩
  | succ n ih =>
    rw [List.range_succ, List.foldl_append, List.foldl_cons, List.foldl_nil]
    by_cases hn : CharPtr.at pathname n = slash
    · rw [if_pos hn]
      by_cases h0 : n = 0
      · subst h0
        exact Or.inl ⟨rfl, fun i hi hi' => by omega⟩
      · exact Or.inr ⟨by omega, by omega, hn, fun i hi hi' => by omega⟩
    · rw [if_neg hn]
      have hlast : ∀ i < n + 1, CharPtr.at pathname i = slash → i < n := by
        intro i hi he
        by_contra hge
        exact hn ((by omega : i = n) ▸ he)
      obtain ⟨h0, hall⟩ | ⟨h0, hlt, he, hall⟩ := ih
      · exact Or.inl ⟨h0, fun i hi hi' he => hall i (hlast i hi he) hi' he⟩
      · exact Or.inr ⟨h0, by omega, he, fun i hi hi' he => hall i (hlast i hi he) hi' he⟩

theorem at_cstr {s : CharPtr} {i : Nat} (hi : i < (cstr s).length) :
    (cstr s).get ⟨i, hi⟩ = CharPtr.at s i := by
  have hp : cstr s <+: s := List.takeWhile_prefix _
  rw [CharPtr.at, List.getD_eq_getElem _ _ (hi.trans_le hp.length_le)]
  exact hp.getElem hi

/-- A path with a slash behind its first character is that of the directory, the slash, and a name
without slashes. -/
theorem toDirectory_split {pathname : CharPtr} (h : lastSlashPos pathname ≠ 0) :
    ∃ tail, slash ∉ tail ∧ cstr pathname = toDirectory pathname ++ slash :: tail := by
  obtain ⟨h0, -⟩ | ⟨-, hlt, he, hall⟩ := lastSlashPos_spec pathname
  · exact absurd h0 h
  · refine ⟨(cstr pathname).drop (lastSlashPos pathname + 1), fun hm => ?_, ?_⟩
    · obtain ⟨i, hi, hs⟩ := List.mem_drop_iff_getElem.mp hm
      refine hall (lastSlashPos pathname + 1 + i) (by omega) (by omega) ?_
      rw [← at_cstr (by omega)]
      exact hs
    · rw [← at_cstr hlt] at he
      rw [toDirectory, ← he]
      exact (List.take_append_drop (lastSlashPos pathname) (cstr pathname)).symm.trans
        (by rw [List.drop_eq_getElem_cons hlt]; rfl)

theorem stripSlash_split {pathname : CharPtr} (h : lastSlashPos pathname ≠ 0) :
    ∃ tail, slash ∉ tail ∧ cstr (stripSlash pathname) =
      cstr (stripSlash (toDirectory pathname)) ++ slash :: tail := by
  obtain ⟨tail, htail, he⟩ := toDirectory_split h
  have hnul : (0 : UInt8) ∉ toDirectory pathname := fun hm =>
    cstr_no_nul pathname (List.mem_of_mem_take hm)
  refine ⟨tail, htail, ?_⟩
  cases pathname with
  | nil => simp [lastSlashPos, cstr] at h
  | cons c s =>
    have hc : c ≠ 0 := by
      rintro rfl
      simp [lastSlashPos, cstr] at h
    rw [cstr_cons_of_ne hc] at he
    cases hd : toDirectory (c :: s) with
    | nil =>
      obtain ⟨h0, -⟩ | ⟨h0, hlt, -⟩ := lastSlashPos_spec (c :: s)
      · exact absurd h0 h
      · have hlen := congrArg List.length hd
        rw [toDirectory, List.length_take, List.length_nil] at hlen
        omega
    | cons c' s' =>
      rw [hd] at he hnul
      obtain ⟨rfl, he⟩ := List.cons.inj he
      have hs' : cstr s' = s' := cstr_of_no_nul fun hm => hnul (by simp [hm])
      by_cases hslash : c = slash
      · simpa [stripSlash, CharPtr.at, hslash, hs'] using he
      · simpa [stripSlash, CharPtr.at, hslash, cstr_cons_of_ne hc, hs'] using he

/-- The path has one part more than that of its directory. -/
theorem length_toDirectory {pathname : CharPtr} (h : lastSlashPos pathname ≠ 0)
    (hp : splitPath pathname ≠ []) (hd : splitPath (toDirectory pathname) ≠ []) :
    (splitPath pathname).length = (splitPath (toDirectory pathname)).length + 1 := by
  obtain ⟨tail, htail, he⟩ := stripSlash_split h
  rw [splitPath_eq hp, splitPath_eq hd, he, List.splitOn_append_cons_self,
    List.splitOn_eq_singleton htail]
  simp

theorem lastSlashPos_of_root {pathname : CharPtr} (h : CharPtr.at (toDirectory pathname) 0 = 0) :
    lastSlashPos pathname = 0 := by
  by_contra hne
  obtain ⟨h0, -⟩ | ⟨h0, hlt, -⟩ := lastSlashPos_spec pathname
  · exact hne h0
  · have hfirst : CharPtr.at (toDirectory pathname) 0 = (cstr pathname).get ⟨0, by omega⟩ := by
      rw [toDirectory, CharPtr.at, List.getD_eq_getElem _ _ (by rw [List.length_take]; omega),
        List.getElem_take]
      rfl
    rw [h] at hfirst
    exact cstr_no_nul pathname (hfirst ▸ List.get_mem _ _)

/-- A path without such a slash has one part. -/
theorem length_root {pathname : CharPtr} (h : lastSlashPos pathname = 0)
    (hp : splitPath pathname ≠ []) : (splitPath pathname).length = 1 := by
  have hall : ∀ i < (cstr pathname).length, 0 < i → CharPtr.at pathname i ≠ slash :=
    (lastSlashPos_spec pathname).elim And.right fun hpos => absurd h (by omega)
  have hno : slash ∉ cstr (stripSlash pathname) := by
    intro hm
    cases pathname with
    | nil => simp [stripSlash, CharPtr.at, cstr] at hm
    | cons c s =>
      have hc : c ≠ 0 := by
        rintro rfl
        simp [stripSlash, CharPtr.at, cstr, slash] at hm
      have htail : slash ∉ cstr s := by
        intro hs
        obtain ⟨i, hi, he⟩ := List.getElem_of_mem hs
        refine hall (i + 1) (by rw [cstr_cons_of_ne hc]; simpa using hi) (by omega) ?_
        rw [← he]
        exact (at_cstr hi).symm
      by_cases hs : c = slash
      · exact htail (by simpa [stripSlash, CharPtr.at, hs] using hm)
      · rw [stripSlash, if_neg (show ¬ CharPtr.at (c :: s) 0 = slash from hs),
          cstr_cons_of_ne hc, List.mem_cons] at hm
        exact hm.elim (fun he => hs he.symm) htail
  rw [splitPath_eq hp, List.splitOn_eq_singleton hno]
  rfl

end Parts
/-- The sectors of a directory that is reached from the root in `n` steps. -/
inductive DirAt (fs : Fat16) (d : Disk) : Nat → List Nat → Prop
  | root : DirAt fs d 0 (rootSectors fs)
  | sub {n : Nat} {ss l : List Nat} {p : Slot} (hss : DirAt fs d n ss)
      (hp : p ∈ liveSlots fs d ss) (hs : isSubdirectory (slotEntry d p).attributes)
      (hc : FileChain fs d (slotEntry d p).firstCluster l) : DirAt fs d (n + 1) (chainSectors fs l)

section Depth
variable {fs : Fat16} {d : Disk} {n : Nat} {ss : List Nat}

theorem DirAt.dir (h : DirAt fs d n ss) : Dir (listed fs) d ss := by
  induction h with
  | root => exact .root
  | sub _ hp hs hc ih => exact .sub ih hp hs hc

/-- A sector lies in one cluster. -/
theorem chainSectors_common {c c' : Nat} {l l' : List Nat} {s : Nat} (hc : FileChain fs d c l)
    (hc' : FileChain fs d c' l') (hs : s ∈ chainSectors fs l) (hs' : s ∈ chainSectors fs l') :
    ∃ a, a ∈ l ∧ a ∈ l' := by
  obtain ⟨a, ha, hle, hlt⟩ := mem_chainSectors.mp hs
  obtain ⟨b, hb, hle', hlt'⟩ := mem_chainSectors.mp hs'
  have hab : a = b := DataByte.unique (hc.inTable a ha).1 (hc'.inTable b hb).1
    ⟨hle, hlt, fs.bytesPerSector_pos⟩ ⟨hle', hlt', fs.bytesPerSector_pos⟩
  exact ⟨a, ha, hab ▸ hb⟩

/-- Directories of a well-formed volume that share a sector lie at the same depth. -/
theorem DirAt.depth_unique (hl : DirLayout fs) (hw : WellFormed fs d) {n' : Nat} {ss' : List Nat}
    (h : DirAt fs d n ss) (h' : DirAt fs d n' ss') {s : Nat} (hs : s ∈ ss) (hs' : s ∈ ss') :
    n = n' := by
  induction h generalizing n' ss' s with
  | root =>
    cases h' with
    | root => rfl
    | sub _ _ _ _ =>
      have hlt := (rootSector_behind hl hs).2
      have hle := chainSector_behind hs'
      omega
  | @sub n ss l p hss hp hsub hc ih =>
    cases h' with
    | root =>
      have hlt := (rootSector_behind hl hs').2
      have hle := chainSector_behind hs
      omega
    | @sub n' ss' l' p' hss' hp' hsub' hc' =>
      -- the two chains share a cluster, so that they start from one entry
      obtain ⟨a, ha, ha'⟩ := chainSectors_common hc hc' hs hs'
      have hpp : p = p' := by
        by_contra hne
        exact hw.apart ⟨slotEntry d p, p⟩ ⟨slotEntry d p', p'⟩ l l'
          (Reach.live hl.toLayout ⟨ss, hss.dir, hp⟩) (Reach.live hl.toLayout ⟨ss', hss'.dir, hp'⟩) hne
          (hc.chainOf hl.toLayout) (hc'.chainOf hl.toLayout) ha ha'
      have hsec := (mem_slotsOf.mp ((listed fs).subset _ _ hp)).1
      have hsec' := (mem_slotsOf.mp ((listed fs).subset _ _ hp')).1
      rw [ih hss' hsec (hpp ▸ hsec')]

/-- A resolver finds an entry of a directory that lies as many steps down as the path has parts
before the last. -/
theorem resolveFuel_depth (hl : Layout fs) (hv : DirsValid (listed fs) d)
    {last inner : CharPtr → DirEntry → Bool} {fuel : Nat} {pathname : CharPtr}
    (hss : DirAt fs d n ss) : ∃ r,
      resolveFuel fs d last inner fuel pathname (entriesOf fs d ss) = some r ∧
      ∀ f ∈ r, splitPath pathname ≠ [] ∧ ∃ m ss', n + (splitPath pathname).length = m + 1 ∧
        DirAt fs d m ss' ∧ f ∈ entriesOf fs d ss' := by
  induction fuel generalizing pathname n ss with
  | zero => exact ⟨none, rfl, by simp⟩
  | succ fuel ih =>
    rw [resolveFuel]
    rcases hparts : splitPath pathname with _ | ⟨part, _ | ⟨next, rest⟩⟩
    · exact ⟨none, rfl, by simp⟩
    · refine ⟨_, rfl, fun f hf => ⟨by simp, n, ss, rfl, hss, ?_⟩⟩
      exact List.mem_of_find?_eq_some hf
    · refine foldlM_total (fun r : Option ListEntry => ∀ f ∈ r, part :: next :: rest ≠ [] ∧
        ∃ m ss', n + (part :: next :: rest).length = m + 1 ∧ DirAt fs d m ss' ∧
          f ∈ entriesOf fs d ss') (fun r hr f hf => ?_) (by simp)
      by_cases hi : inner part f.entry = true
      · by_cases hs : isSubdirectory f.entry.attributes
        · obtain ⟨p, hp, rfl⟩ := List.mem_map.mp hf
          obtain ⟨l, hc⟩ := hv p ⟨ss, hss.dir, hp⟩ hs
          obtain ⟨r', hr', hg⟩ : ∃ r', resolveFuel fs d last inner fuel (descendPath pathname)
              (entriesOf fs d (chainSectors fs l)) = some r' ∧ _ := ih (.sub hss hp hs hc)
          refine ⟨r', by simpa [hi, getDir_eq hl hs hc] using hr', fun g hgm => ⟨by simp, ?_⟩⟩
          obtain ⟨hne, m, ss', hm, hdir, hmem⟩ := hg g hgm
          have hlen := length_descendPath hparts hne
          rw [hparts] at hlen
          exact ⟨m, ss', by omega, hdir, hmem⟩
        · exact ⟨r, by simp [hi, getDir, hs], hr⟩
      · exact ⟨r, by simp [hi], hr⟩

/-- The directory that `find_dir` finds lies in one that is less deep than the path has parts. -/
theorem findDir_depth (hl : Layout fs) (hv : DirsValid (listed fs) d) {dirPath : CharPtr}
    {dir : ListEntry} (h : findDir fs d dirPath (getRootDir fs d) = some (some dir)) :
    splitPath dirPath ≠ [] ∧ ∃ m ss, (splitPath dirPath).length = m + 1 ∧ DirAt fs d m ss ∧
      dir ∈ entriesOf fs d ss := by
  rw [findDir, getRootDir_eq] at h
  obtain ⟨r, hr, hdepth⟩ := resolveFuel_depth hl hv .root
  obtain rfl := Option.some.inj (h.symm.trans hr)
  simpa using hdepth dir rfl

end Depth
end MalapropOS.Fat
