import MalapropOS.Fat.Tree

/-! What changes of the disk do to the directory tree. Writing the data of a file and marking a
cluster leave every directory as it is; storing an entry changes one slot. -/
namespace MalapropOS.Fat
open LinkedChain

section Chains
variable {fs : Fat16} {d d' : Disk} {c : Nat} {l l' : List Nat}

theorem FileChain.unique (hl : Layout fs) (h : FileChain fs d c l) (h' : FileChain fs d c l') :
    l = l' := by
  obtain ⟨e, he, hp⟩ := h.ends
  obtain ⟨e', he', hp'⟩ := h'.ends
  have := hl.entries
  exact Path.unique (· < numEntries fs) hp hp' (fun a ha => (h.inTable a ha).2)
    (fun a ha => (h'.inTable a ha).2) (by omega) (by omega)

theorem FileChain.congr (h : FileChain fs d c l)
    (hn : ∀ a ∈ l, getSuccessorCluster fs d' a = getSuccessorCluster fs d a) :
    FileChain fs d' c l := by
  obtain ⟨e, he, hp⟩ := h.ends
  exact ⟨h.nonempty, h.nodup, h.inTable, e, he, hp.congr hn⟩

end Chains

/-- The directories of the tree of `d`, their bytes and their chains, are the same on `d'`. -/
structure SameDirs {fs : Fat16} (sel : Selection fs) (d d' : Disk) : Prop where
  bytes : ∀ ss, Dir sel d ss → ∀ s ∈ ss, ∀ k < fs.bytesPerSector, d' s k = d s k
  links : ∀ p l, Reach sel d p → isSubdirectory (slotEntry d p).attributes →
    FileChain fs d (slotEntry d p).firstCluster l →
    ∀ a ∈ l, getSuccessorCluster fs d' a = getSuccessorCluster fs d a

namespace SameDirs
variable {fs : Fat16} {sel : Selection fs} {d d' : Disk} {ss : List Nat} {p : Slot}

theorem slot (h : SameDirs sel d d') (hss : Dir sel d ss) (hp : p ∈ slotsOf fs ss) {k : Nat}
    (hk : k < 32) : d' p.sector (p.index + k) = d p.sector (p.index + k) := by
  obtain ⟨hs, j, hj, hi⟩ := mem_slotsOf.mp hp
  refine h.bytes ss hss _ hs _ ?_
  rw [hi]
  exact slot_in_sector hj hk

theorem slots_eq (h : SameDirs sel d d') (hss : Dir sel d ss) :
    sel.slots d' ss = sel.slots d ss :=
  sel.congr fun _ hp => h.slot hss hp (show 0 < 32 by decide)

theorem entry_eq (h : SameDirs sel d d') (hss : Dir sel d ss) (hp : p ∈ slotsOf fs ss) :
    slotEntry d' p = slotEntry d p :=
  decodeEntry_congr fun _ hk => h.slot hss hp hk

theorem dir (hl : Layout fs) (h : SameDirs sel d d') (hv : DirsValid sel d)
    (hd : Dir sel d' ss) : Dir sel d ss := by
  induction hd with
  | root => exact .root
  | @sub ss l p _ hp hs hc ih =>
    rw [h.slots_eq ih] at hp
    rw [h.entry_eq ih (sel.subset _ _ hp)] at hs hc
    obtain ⟨m, hm⟩ := hv p ⟨ss, ih, hp⟩ hs
    obtain rfl := hc.unique hl (hm.congr (h.links p m ⟨ss, ih, hp⟩ hs hm))
    exact .sub ih hp hs hm

theorem reach (hl : Layout fs) (h : SameDirs sel d d') (hv : DirsValid sel d)
    (hr : Reach sel d' p) : Reach sel d p ∧ slotEntry d' p = slotEntry d p := by
  obtain ⟨ss, hss, hp⟩ := hr
  have hss := h.dir hl hv hss
  rw [h.slots_eq hss] at hp
  exact ⟨⟨ss, hss, hp⟩, h.entry_eq hss (sel.subset _ _ hp)⟩

theorem valid (hl : Layout fs) (h : SameDirs sel d d') (hv : DirsValid sel d) :
    DirsValid sel d' := by
  intro p hr hs
  obtain ⟨hr, he⟩ := h.reach hl hv hr
  rw [he] at hs ⊢
  obtain ⟨l, hc⟩ := hv p hr hs
  exact ⟨l, hc.congr (h.links p l hr hs hc)⟩

theorem to_listed (h : SameDirs (used fs) d d') : SameDirs (listed fs) d d' where
  bytes ss hss := h.bytes ss hss.to_used
  links p l hr := h.links p l hr.to_used

end SameDirs

theorem DirsValid.to_listed {fs : Fat16} {d : Disk} (h : DirsValid (used fs) d) :
    DirsValid (listed fs) d :=
  fun p hr => h p hr.to_used

section Resolution
variable {fs : Fat16} {d d' : Disk} {ss : List Nat}

theorem foldlM_congr {α β : Type} {f g : β → α → Option β} {l : List α}
    (h : ∀ a ∈ l, ∀ b, f b a = g b a) (b : β) : l.foldlM f b = l.foldlM g b := by
  induction l generalizing b with
  | nil => rfl
  | cons a l ih =>
    rw [List.foldlM_cons, List.foldlM_cons, h a (by simp)]
    exact bind_congr fun c => ih (fun x hx => h x (by simp [hx])) c

/-- A resolver looks at the listings of the tree only. -/
theorem resolveFuel_congr (hl : Layout fs) (hv : DirsValid (listed fs) d)
    (hg : ∀ f, Listed fs d f → getDir fs d' f.entry = getDir fs d f.entry)
    {last inner : CharPtr → DirEntry → Bool} {fuel : Nat} {pathname : CharPtr}
    (hss : Dir (listed fs) d ss) :
    resolveFuel fs d' last inner fuel pathname (entriesOf fs d ss) =
      resolveFuel fs d last inner fuel pathname (entriesOf fs d ss) := by
  induction fuel generalizing pathname ss with
  | zero => rfl
  | succ fuel ih =>
    rw [resolveFuel, resolveFuel]
    rcases splitPath pathname with _ | ⟨part, _ | ⟨next, rest⟩⟩
    · rfl
    · rfl
    · refine foldlM_congr (fun f hf r => ?_) none
      have hf := listed_of_mem hss hf
      split_ifs
      · rw [hg f hf]
        obtain hd | ⟨l, -, hd, he⟩ := hf.getDir hl hv
        · simp [hd]
        · simp only [he, Option.bind_eq_bind, Option.bind_some]
          exact ih hd
      · rfl

/-- A listing depends on the sectors of the directory only. -/
theorem entriesOf_congr (h : ∀ s ∈ ss, ∀ k < fs.bytesPerSector, d' s k = d s k) :
    entriesOf fs d' ss = entriesOf fs d ss := by
  have hslot : ∀ p ∈ slotsOf fs ss, ∀ k < 32,
      d' p.sector (p.index + k) = d p.sector (p.index + k) := by
    intro p hp k hk
    obtain ⟨hs, j, hj, hi⟩ := mem_slotsOf.mp hp
    rw [hi]
    exact h _ hs _ (slot_in_sector hj hk)
  have hs : liveSlots fs d' ss = liveSlots fs d ss :=
    (listed fs).congr fun p hp => hslot p hp 0 (by decide)
  rw [entriesOf, entriesOf, hs]
  refine List.map_congr_left fun p hp => ?_
  have he : slotEntry d' p = slotEntry d p :=
    decodeEntry_congr (hslot p ((listed fs).subset _ _ hp))
  rw [he]

theorem SameDirs.entriesOf_eq (h : SameDirs (listed fs) d d') (hss : Dir (listed fs) d ss) :
    entriesOf fs d' ss = entriesOf fs d ss :=
  entriesOf_congr (h.bytes ss hss)

theorem SameDirs.getDir_eq (hl : Layout fs) (h : SameDirs (listed fs) d d')
    (hv : DirsValid (listed fs) d) {f : ListEntry} (hf : Listed fs d f) :
    getDir fs d' f.entry = getDir fs d f.entry := by
  by_cases hs : isSubdirectory f.entry.attributes
  · have hr := hf.1
    have he := hf.2
    obtain ⟨l, hc⟩ := hv _ hr (he ▸ hs)
    have hc' := hc.congr (h.links _ l hr (he ▸ hs) hc)
    obtain ⟨ss, hss, hp⟩ := hr
    rw [Fat.getDir_eq hl hs (he ▸ hc'), Fat.getDir_eq hl hs (he ▸ hc),
      h.entriesOf_eq (.sub hss hp (he ▸ hs) hc)]
  · rw [getDir, getDir, if_neg hs, if_neg hs]

/-- Both resolvers find the same entry on the two disks. -/
theorem SameDirs.resolve_eq (hl : Layout fs) (h : SameDirs (listed fs) d d')
    (hv : DirsValid (listed fs) d) (last inner : CharPtr → DirEntry → Bool) (fuel : Nat)
    (pathname : CharPtr) :
    resolveFuel fs d' last inner fuel pathname (getRootDir fs d') =
      resolveFuel fs d last inner fuel pathname (getRootDir fs d) := by
  rw [getRootDir_eq, getRootDir_eq, h.entriesOf_eq .root]
  exact resolveFuel_congr hl hv (fun _ hf => h.getDir_eq hl hv hf) .root

end Resolution

section Bytes
variable {fs : Fat16} {sel : Selection fs} {d : Disk} {ss : List Nat} {s k c : Nat}

theorem Dir.not_fatByte (hl : DirLayout fs) (hss : Dir sel d ss) (hs : s ∈ ss)
    (hc : c < numEntries fs) : ¬ FatByte fs c s k := by
  rintro ⟨rfl, -⟩
  have := hss.behind hl hs
  have := hl.geometry.entrySector_lt hc
  omega

/-- A cluster that holds bytes of a directory is in the directory's chain. -/
theorem Dir.dataByte (hl : DirLayout fs) (hss : Dir sel d ss) (hs : s ∈ ss) (hc : 2 ≤ c)
    (hb : DataByte fs c s k) : ∃ p m, Reach sel d p ∧ isSubdirectory (slotEntry d p).attributes ∧
      FileChain fs d (slotEntry d p).firstCluster m ∧ c ∈ m := by
  cases hss with
  | root =>
    have := (rootSector_behind hl hs).2
    have hf : (calculateRegions fs).dataRegionStart ≤ firstSector fs c := Nat.le_add_right _ _
    have := hb.1
    omega
  | @sub ss m p hss hp hsub hm =>
    obtain ⟨a, ha, h₁, h₂⟩ := mem_chainSectors.mp hs
    obtain rfl := DataByte.unique (hm.inTable a ha).1 hc ⟨h₁, h₂, hb.2.2⟩ hb
    exact ⟨p, m, ⟨ss, hss, hp⟩, hsub, hm, ha⟩

/-- Writing to a file leaves the directories alone that do not share a cluster with it. -/
theorem SameDirs.of_written (hl : DirLayout fs) {d' : Disk} {c₀ o n : Nat} {l new : List Nat}
    {buf : Buffer} (hc : FileChain fs d c₀ l) (hw : Written fs d c₀ l o buf n d' new)
    (hap : ∀ p m, Reach sel d p → isSubdirectory (slotEntry d p).attributes →
      FileChain fs d (slotEntry d p).firstCluster m → m.Disjoint l) : SameDirs sel d d' := by
  have hout : ∀ p m, Reach sel d p → isSubdirectory (slotEntry d p).attributes →
      FileChain fs d (slotEntry d p).firstCluster m → m.Disjoint (l ++ new) := by
    intro p m hr hs hm a ha hb
    cases List.mem_append.mp hb with
    | inl hb => exact hap p m hr hs hm ha hb
    | inr hb => exact hm.successor_ne_zero a ha (hw.new_inTable a hb).2.2
  constructor
  · intro ss hss s hs k hk
    by_contra hne
    obtain ⟨c, hmem, hd | ⟨hf, -⟩⟩ := hw.frame s k hne
    · obtain ⟨p, m, hr, hsub, hm, ha⟩ := hss.dataByte hl hs (hw.inTable hc c hmem).1 hd
      exact hout p m hr hsub hm ha hmem
    · exact hss.not_fatByte hl hs (hw.inTable hc c hmem).2 hf
  · intro p m hr hs hm a ha
    exact hw.successor_eq hl.toLayout (hm.inTable a ha).2 (hout p m hr hs hm ha)

/-- Setting the entry of a cluster of no directory leaves the directories alone. -/
theorem SameDirs.of_set (hl : DirLayout fs) {v : Nat} (hc : c < numEntries fs) (hv : v < 2 ^ 16)
    (hout : ∀ p m, Reach sel d p → FileChain fs d (slotEntry d p).firstCluster m → c ∉ m) :
    SameDirs sel d (setSuccessorCluster fs d c v) := by
  constructor
  · intro ss hss s hs k hk
    by_contra hne
    exact hss.not_fatByte hl hs hc (setSuccessorCluster_frame hl.geometry d hne)
  · intro p m hr hs hm a ha
    rw [getSuccessorCluster_set d hl.even _ _ hv, if_neg]
    rintro rfl
    exact hout p m hr hm ha

/-- Marking a free cluster leaves the directories alone. -/
theorem SameDirs.of_mark (hl : DirLayout fs) {v : Nat} (hc : c < numEntries fs)
    (hfree : getSuccessorCluster fs d c = 0) (hv : v < 2 ^ 16) :
    SameDirs sel d (setSuccessorCluster fs d c v) :=
  .of_set hl hc hv fun _ _ _ hm ha => hm.successor_ne_zero c ha hfree

end Bytes

section Slot
variable {fs : Fat16} {sel : Selection fs} {d : Disk} {p : Slot} {e : DirEntry} {first : UInt8}

theorem FileChain.writeSlot_iff (hl : Layout fs) (hp : IsSlot fs p) {c : Nat} {l : List Nat} :
    FileChain fs (writeSlot d p e first) c l ↔ FileChain fs d c l := by
  constructor
  · intro h
    exact h.congr fun a ha => (getSuccessorCluster_writeSlot hl hp (h.inTable a ha).2).symm
  · intro h
    exact h.congr fun a ha => getSuccessorCluster_writeSlot hl hp (h.inTable a ha).2

/-- Storing an entry adds no directory but the one it names, and that one holds no slots
other than the entry's. -/
theorem Dir.of_writeSlot (hl : DirLayout fs) (hp : IsSlot fs p) (hc : e.firstCluster < 2 ^ 16)
    (hsel : ∀ ss, Dir sel d ss → ∀ q ∈ sel.slots (writeSlot d p e first) ss,
      q ∈ sel.slots d ss ∨ q = p)
    (hnew : (∃ ss, Dir sel d ss ∧ p ∈ sel.slots (writeSlot d p e first) ss) →
      isSubdirectory e.attributes → ∀ m, FileChain fs d e.firstCluster m →
      ∀ q ∈ sel.slots (writeSlot d p e first) (chainSectors fs m), q = p) {ss : List Nat}
    (hd : Dir sel (writeSlot d p e first) ss) : Dir sel d ss ∨
      isSubdirectory e.attributes ∧
      (∃ ss, Dir sel d ss ∧ p ∈ sel.slots (writeSlot d p e first) ss) ∧
      ∃ m, FileChain fs d e.firstCluster m ∧ ss = chainSectors fs m := by
  induction hd with
  | root => exact Or.inl .root
  | @sub ss l q hss hq hs hch ih =>
    by_cases he : q = p
    · subst he
      rw [slotEntry_writeSlot_attributes] at hs
      rw [slotEntry_writeSlot_firstCluster hc, FileChain.writeSlot_iff hl.toLayout hp] at hch
      obtain ih | ⟨-, hin, -⟩ := ih
      · exact Or.inr ⟨hs, ⟨ss, ih, hq⟩, l, hch, rfl⟩
      · exact Or.inr ⟨hs, hin, l, hch, rfl⟩
    · have hq' : IsSlot fs q := hss.isSlot hl (sel.subset _ _ hq)
      rw [slotEntry_writeSlot_other hp hq' he] at hs hch
      rw [FileChain.writeSlot_iff hl.toLayout hp] at hch
      obtain ih | ⟨hsub, hin, m, hm, rfl⟩ := ih
      · exact Or.inl (.sub ih ((hsel ss ih q hq).resolve_right he) hs hch)
      · exact absurd (hnew hin hsub m hm q hq) he

/-- The slots that are reached afterwards. -/
theorem Reach.of_writeSlot (hl : DirLayout fs) (hp : IsSlot fs p) (hc : e.firstCluster < 2 ^ 16)
    (hsel : ∀ ss, Dir sel d ss → ∀ q ∈ sel.slots (writeSlot d p e first) ss,
      q ∈ sel.slots d ss ∨ q = p)
    (hnew : (∃ ss, Dir sel d ss ∧ p ∈ sel.slots (writeSlot d p e first) ss) →
      isSubdirectory e.attributes → ∀ m, FileChain fs d e.firstCluster m →
      ∀ q ∈ sel.slots (writeSlot d p e first) (chainSectors fs m), q = p) {q : Slot}
    (hr : Reach sel (writeSlot d p e first) q) :
    (q ≠ p ∧ Reach sel d q ∧ slotEntry (writeSlot d p e first) q = slotEntry d q) ∨
      q = p ∧ ∃ ss, Dir sel d ss ∧ p ∈ sel.slots (writeSlot d p e first) ss := by
  obtain ⟨ss, hss, hq⟩ := hr
  have hslot : IsSlot fs q := hss.isSlot hl (sel.subset _ _ hq)
  obtain hd | ⟨hs, hin, m, hm, rfl⟩ := hss.of_writeSlot hl hp hc hsel hnew
  · by_cases he : q = p
    · subst he
      exact Or.inr ⟨rfl, ss, hd, hq⟩
    · exact Or.inl ⟨he, ⟨ss, hd, (hsel ss hd q hq).resolve_right he⟩,
        slotEntry_writeSlot_other hp hslot he⟩
  · exact Or.inr ⟨hnew hin hs m hm q hq, hin⟩

end Slot
end MalapropOS.Fat
